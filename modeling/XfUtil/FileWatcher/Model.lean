import XfUtil.Base.Heap
import XfUtil.Coding.Model
import XfUtil.Path.Model

/-!
# `FileWatcher`

The descriptor of `inotify` and the map from watch descriptors to directories. A buffer of
events is a part of memory; `limit` is the end of what may be read. Assertions are checked if
`debug` is set, and one that fails ends the program.
-/

namespace XfUtil

open FlatMemory FilePath

/-- `INVALID_FILEID`. -/
def invalidFileId : BitVec 32 := -1#32

structure FileWatcher where
  ifd : BitVec 32
  paths : BitVec 32 → Option FilePath

/-- `struct inotify_event`; the name follows it. -/
structure InotifyEvent where
  wd : BitVec 32
  mask : BitVec 32
  cookie : BitVec 32
  len : BitVec 32
deriving Repr, DecidableEq

namespace InotifyEvent

/-- `sizeof(struct inotify_event)`. -/
def headerSize : Nat := 16

/-- The event at an address. -/
def load (m : Mem) (a : Nat) : InotifyEvent where
  wd := loadFixed 32 m a 4
  mask := loadFixed 32 m (a + 4) 4
  cookie := loadFixed 32 m (a + 8) 4
  len := loadFixed 32 m (a + 12) 4

end InotifyEvent

namespace FileWatcher

/-- The constructor, with the answer of `inotify_init1`. -/
def new (ifd : BitVec 32) : FileWatcher := ⟨ifd, fun _ => none⟩

/-- `Add`, with the answers of `Directory::Exist` and `inotify_add_watch`; `none` if an
assertion fails. -/
def add (debug : Bool) (w : FileWatcher) (path : FilePath) (exist : Bool) (wfd : BitVec 32) :
    Option (FileWatcher × Bool) :=
  if debug && w.ifd ≠ invalidFileId then none
  else if w.ifd ≠ invalidFileId then some (w, false)
  else if !exist then some (w, false)
  else if wfd = invalidFileId then some (w, false)
  else some ({ w with paths := Function.update w.paths wfd (some path) }, true)

/-- What `GetFilePath` comes to. -/
inductive Lookup where
  | missing
  | aborted
  | found (filePath : FilePath)
deriving Repr, DecidableEq

/-- `GetFilePath`. -/
def getFilePath (debug : Bool) (w : FileWatcher) (wfd : BitVec 32) (fileName : FilePath) :
    Lookup :=
  match w.paths wfd with
  | none => .missing
  | some path =>
      -- `c_str()`
      let dir := Format.untilZero path
      if debug && !combineAsserts dir fileName then .aborted
      else .found (combine maxPathLen dir fileName)

/-- Ghost: a record of the buffer, and where memory was read for it. -/
structure Visit where
  record : Region
  used : List Region
deriving Repr, DecidableEq

/-- What has come of a buffer: the calls of the callback, in order, and what was read. -/
structure Handled where
  aborted : Bool
  calls : List (FilePath × BitVec 32)
  visits : List Visit
deriving Repr, DecidableEq

/-- The string at an address. -/
def stringAt (m : Mem) (limit a : Nat) : FilePath := Format.untilZero (read m a (limit - a))

/-- `HandleEvent`, from the record at an address on. The name is a string, whatever `len` is. -/
def handleLoop (debug : Bool) (w : FileWatcher) (m : Mem) (limit fin : Nat) :
    Nat → Nat → Option Handled
  | 0, a => if fin ≤ a then some ⟨false, [], []⟩ else none
  | fuel + 1, a =>
      if fin ≤ a then some ⟨false, [], []⟩
      else
        let ev := InotifyEvent.load m a
        let size := InotifyEvent.headerSize + ev.len.toNat
        let name := stringAt m limit (a + InotifyEvent.headerSize)
        let header : Region := (a, InotifyEvent.headerSize)
        let text : Region := (a + InotifyEvent.headerSize, name.length + 1)
        let rest := handleLoop debug w m limit fin fuel (a + size)
        match getFilePath debug w ev.wd name with
        | .missing =>
            rest.map fun h => { h with visits := ⟨(a, size), [header]⟩ :: h.visits }
        | .aborted => some ⟨true, [], [⟨(a, size), [header, text]⟩]⟩
        | .found path =>
            rest.map fun h =>
              { h with
                calls := (path, ev.mask) :: h.calls
                visits := ⟨(a, size), [header, text]⟩ :: h.visits }

/-- `HandleEvent`. No record is empty, so there are no more rounds than bytes. -/
def handleEvent (debug : Bool) (w : FileWatcher) (m : Mem) (limit buf fin : Nat) :
    Option Handled :=
  handleLoop debug w m limit fin (fin - buf) buf

end FileWatcher

end XfUtil
