import XfUtil.Base.Machine
import XfUtil.Path.Model

/-!
# `Directory::Remove`

The system calls are functions on a tree of directories, files and symbolic links.
`Remove` calls itself, so it runs on a stack of open directories; which entry
`readdir` returns next is the label of a step. What has been removed is ghost state.
-/

namespace XfUtil

open FilePath

/-! ## System calls -/

structure FileSystem (ι : Type*) where
  tree : FileTree ι FilePath
  /-- The current directory. -/
  cwd : ι
  /-- The number of links that one path may go through. -/
  symloopMax : Nat

/-- A directory entry: a name in a directory, and what it names. -/
structure DirEntry (ι : Type*) where
  dir : ι
  name : FilePath
  node : ι
deriving DecidableEq

namespace FileSystem

variable {ι : Type*}

/-- Follow the path from where it begins. -/
def follow (fs : FileSystem ι) (path : FilePath) (comps : List (PathComponent FilePath)) :
    Option (ι × Nat) :=
  fs.tree.walk fs.symloopMax (fs.tree.origin fs.cwd (steps path)) comps

/-- `stat`. -/
def stat (fs : FileSystem ι) (path : FilePath) : Option ι :=
  if path = [] then none else (fs.follow path (steps path).comps).map Prod.fst

/-- `opendir`, with the names that `readdir` may return. -/
def opendir (fs : FileSystem ι) (path : FilePath) : Option (ι × List FilePath) :=
  match fs.stat path with
  | none => none
  | some d =>
      match fs.tree.node d with
      | .dir entries => some (d, [dot] :: [dot, dot] :: entries.map Prod.fst)
      | _ => none

/-- The entry that a path names. A link at its end is not followed. -/
def named (fs : FileSystem ι) (path : FilePath) : Option (DirEntry ι) :=
  match (steps path).comps.getLast? with
  | some (.name n) =>
      match fs.follow path (steps path).comps.dropLast with
      | none => none
      | some (d, _) => (fs.tree.entry d n).map fun c => ⟨d, n, c⟩
  | _ => none

/-- `unlink`, by the entry that it removes. -/
def unlink (fs : FileSystem ι) (path : FilePath) : Option (DirEntry ι) :=
  match fs.named path with
  | none => none
  | some e =>
      match fs.tree.node e.node with
      | .dir _ => none
      | _ => some e

/-- `rmdir`, by the entry that it removes. -/
def rmdir (fs : FileSystem ι) (path : FilePath) : Option (DirEntry ι) :=
  match fs.named path with
  | none => none
  | some e =>
      match fs.tree.node e.node with
      | .dir [] => some e
      | _ => none

variable [DecidableEq ι]

/-- The file system without these entries. -/
def without (fs : FileSystem ι) (removed : List (DirEntry ι)) : FileSystem ι :=
  { fs with tree := fs.tree.prune (removed.map fun e => (e.dir, e.name)) }

end FileSystem

/-! ## `Remove` -/

namespace Directory

/-- A call of `Remove` in its loop: its argument, the directory that it has open, and
the names that `readdir` has not returned. -/
structure Frame (ι : Type*) where
  path : FilePath
  dir : ι
  names : List FilePath

structure Removal (ι : Type*) where
  fs : FileSystem ι
  /-- The calls of `Remove`, the innermost first. -/
  stack : List (Frame ι)
  /-- What the outermost call has returned. -/
  result : Option Bool
  removed : List (DirEntry ι)

inductive Label where
  /-- `readdir` returns a name. -/
  | entry (n : FilePath)
  /-- `readdir` has no more names. -/
  | finish
deriving DecidableEq

namespace Removal

variable {ι : Type*} [DecidableEq ι]

/-- The effect of `unlink` or `rmdir`. -/
def drop (s : Removal ι) : Option (DirEntry ι) → Removal ι
  | none => s
  | some e => { s with fs := s.fs.without [e], removed := s.removed ++ [e] }

/-- `Remove(path)` returns; its caller goes on with `rmdir(full_path)`. -/
def leave (s : Removal ι) (path : FilePath) (result : Bool) : Removal ι :=
  match s.stack with
  | [] => { s with result := some result }
  | _ :: _ => s.drop (s.fs.rmdir path)

/-- `Remove(path)`, up to its loop. -/
def enter (s : Removal ι) (path : FilePath) : Removal ι :=
  match s.fs.opendir path with
  | none => s.leave path false
  | some (d, names) => { s with stack := ⟨path, d, names⟩ :: s.stack }

/-- The call of `Remove` from outside. -/
def call (fs : FileSystem ι) (path : FilePath) : Removal ι :=
  enter ⟨fs, [], none, []⟩ path

/-- The body of the loop, for the name that `readdir` has returned. -/
def visit (s : Removal ι) (frame : Frame ι) (rest : List (Frame ι)) (n : FilePath) : Removal ι :=
  if n = [dot] ∨ n = [dot, dot] then s
  else
    let fullPath := combineEx maxPathLen frame.path n
    match s.fs.stat fullPath with
    | none => { s with stack := rest }.leave frame.path false
    | some c =>
        match s.fs.tree.node c with
        | .dir _ => s.enter fullPath
        | _ => s.drop (s.fs.unlink fullPath)

def stepEntry (s : Removal ι) (n : FilePath) : Option (Removal ι) :=
  match s.stack with
  | [] => none
  | frame :: rest =>
      if n ∈ frame.names then
        let frame := { frame with names := frame.names.erase n }
        some ({ s with stack := frame :: rest }.visit frame rest n)
      else none

/-- `readdir` may leave out names that have been removed in the meantime. -/
def stepFinish (s : Removal ι) : Option (Removal ι) :=
  match s.stack with
  | [] => none
  | frame :: rest =>
      if frame.names.all fun n => (s.fs.tree.entry frame.dir n).isNone then
        let s := s.drop (s.fs.rmdir frame.path)
        some ({ s with stack := rest }.leave frame.path true)
      else none

def step : Machine.Step (Removal ι) Label
  | s, .entry n => s.stepEntry n
  | s, .finish => s.stepFinish

/-- The full path of the entry fits into `char[MAX_PATH_LEN]`. -/
def Fits (s : Removal ι) : Label → Prop
  | .entry n => ∀ frame ∈ s.stack.head?, n ≠ [dot] → n ≠ [dot, dot] →
      (joined frame.path n).length < maxPathLen
  | .finish => True

instance (s : Removal ι) (l : Label) : Decidable (s.Fits l) :=
  match l with
  | .entry n => inferInstanceAs (Decidable (∀ frame ∈ s.stack.head?, n ≠ [dot] → n ≠ [dot, dot] →
      (joined frame.path n).length < maxPathLen))
  | .finish => isTrue trivial

end Removal

end Directory

end XfUtil
