import Mathlib.Data.List.Basic

/-!
# Directories, files and symbolic links

A walk goes from node to node by names. A symbolic link that it meets is replaced by
its target, as often as a limit allows. Removing directory entries may end a walk
early, but never leads one elsewhere.
-/

/-- What stands between two slashes. -/
inductive PathComponent (ν : Type*) where
  | self
  | up
  | name (n : ν)
deriving DecidableEq

/-- A path, taken apart. -/
structure PathSteps (ν : Type*) where
  absolute : Bool
  comps : List (PathComponent ν)
deriving DecidableEq

inductive FileNode (ι ν : Type*) where
  | dir (entries : List (ν × ι))
  | file
  | link (target : PathSteps ν)
deriving DecidableEq

structure FileTree (ι ν : Type*) where
  node : ι → FileNode ι ν
  /-- Where `..` leads. -/
  parent : ι → ι
  root : ι

namespace FileTree

variable {ι ν : Type*}

def IsDir (fs : FileTree ι ν) (d : ι) : Prop := ∃ entries, fs.node d = .dir entries

/-- Where a path is begun that is used in `d`. -/
def origin (fs : FileTree ι ν) (d : ι) (path : PathSteps ν) : ι :=
  if path.absolute then fs.root else d

variable [DecidableEq ν]

/-- The entry `n` of a directory. -/
def entry (fs : FileTree ι ν) (d : ι) (n : ν) : Option ι :=
  match fs.node d with
  | .dir entries => (entries.find? fun e => e.1 = n).map Prod.snd
  | _ => none

def lookup (fs : FileTree ι ν) (d : ι) : PathComponent ν → Option ι
  | .name n => fs.entry d n
  | .self => match fs.node d with
    | .dir _ => some d
    | _ => none
  | .up => match fs.node d with
    | .dir _ => some (fs.parent d)
    | _ => none

/-- Walk with at most `limit` links; `jump` is the walk with one link less. -/
def walkAt (fs : FileTree ι ν) (limit : Nat)
    (jump : ι → List (PathComponent ν) → Option (ι × Nat)) :
    ι → List (PathComponent ν) → Option (ι × Nat)
  | d, [] => some (d, limit)
  | d, comp :: rest =>
      match fs.lookup d comp with
      | none => none
      | some c =>
          match fs.node c with
          | .link target => jump (fs.origin d target) (target.comps ++ rest)
          | _ => walkAt fs limit jump c rest

/-- The node that the components lead to from `d`, with the number of links that may
still be followed. -/
def walk (fs : FileTree ι ν) : Nat → ι → List (PathComponent ν) → Option (ι × Nat)
  | 0 => fs.walkAt 0 fun _ _ => none
  | limit + 1 => fs.walkAt (limit + 1) (walk fs limit)

variable {fs : FileTree ι ν}

theorem isDir_of_entry {d c : ι} {n : ν} (h : fs.entry d n = some c) : fs.IsDir d := by
  unfold entry at h
  split at h
  · rename_i entries hnode
    exact ⟨entries, hnode⟩
  · cases h

theorem mem_of_entry {d c : ι} {n : ν} {entries : List (ν × ι)} (hnode : fs.node d = .dir entries)
    (h : fs.entry d n = some c) : (n, c) ∈ entries := by
  simp only [entry, hnode] at h
  obtain ⟨e, hfind, rfl⟩ := Option.map_eq_some_iff.mp h
  have hname : e.1 = n := by simpa using List.find?_some hfind
  exact hname ▸ List.mem_of_find?_eq_some hfind

theorem mem_names_of_entry {d c : ι} {n : ν} {entries : List (ν × ι)}
    (hnode : fs.node d = .dir entries) (h : fs.entry d n = some c) : n ∈ entries.map Prod.fst :=
  List.mem_map_of_mem (mem_of_entry hnode h)

theorem exists_entry_of_mem {d : ι} {n : ν} {entries : List (ν × ι)}
    (hnode : fs.node d = .dir entries) (hn : n ∈ entries.map Prod.fst) :
    ∃ c, fs.entry d n = some c := by
  obtain ⟨e, he, rfl⟩ := List.mem_map.mp hn
  simp only [entry, hnode]
  cases hfind : entries.find? fun x => x.1 = e.1 with
  | none => exact absurd (decide_eq_true rfl) (List.find?_eq_none.mp hfind e he)
  | some x => exact ⟨x.2, rfl⟩

/-! ## Walks -/

@[simp] theorem walk_nil (limit : Nat) (d : ι) : fs.walk limit d [] = some (d, limit) := by
  cases limit <;> rfl

theorem walk_missing (limit : Nat) {d : ι} {comp : PathComponent ν} (h : fs.lookup d comp = none)
    (rest : List (PathComponent ν)) : fs.walk limit d (comp :: rest) = none := by
  cases limit <;> simp [walk, walkAt, h]

/-- Going on to a directory or a file. -/
theorem walk_plain (limit : Nat) {d c : ι} {comp : PathComponent ν}
    (h : fs.lookup d comp = some c) (hc : ∀ target, fs.node c ≠ .link target)
    (rest : List (PathComponent ν)) :
    fs.walk limit d (comp :: rest) = fs.walk limit c rest := by
  cases hnode : fs.node c with
  | dir entries => cases limit <;> simp [walk, walkAt, h, hnode]
  | file => cases limit <;> simp [walk, walkAt, h, hnode]
  | link target => exact absurd hnode (hc target)

theorem walk_entry (limit : Nat) {d c : ι} {n : ν} (h : fs.entry d n = some c)
    (hc : ∀ target, fs.node c ≠ .link target) :
    fs.walk limit d [.name n] = some (c, limit) := by
  have hlookup : fs.lookup d (.name n) = some c := h
  rw [walk_plain limit hlookup hc, walk_nil]

theorem walk_link (limit : Nat) {d c : ι} {comp : PathComponent ν} {target : PathSteps ν}
    (h : fs.lookup d comp = some c) (hc : fs.node c = .link target)
    (rest : List (PathComponent ν)) :
    fs.walk (limit + 1) d (comp :: rest) =
      fs.walk limit (fs.origin d target) (target.comps ++ rest) := by
  simp [walk, walkAt, h, hc]

theorem walk_loop {d c : ι} {comp : PathComponent ν} {target : PathSteps ν}
    (h : fs.lookup d comp = some c) (hc : fs.node c = .link target)
    (rest : List (PathComponent ν)) : fs.walk 0 d (comp :: rest) = none := by
  simp [walk, walkAt, h, hc]

/-- Induction along a walk, one case for each way in which it may go on. -/
theorem walk_induction (fs : FileTree ι ν) {P : Nat → ι → List (PathComponent ν) → Prop}
    (nil : ∀ limit d, P limit d [])
    (missing : ∀ limit d comp rest, fs.lookup d comp = none → P limit d (comp :: rest))
    (plain : ∀ limit d comp rest c, fs.lookup d comp = some c →
      (∀ target, fs.node c ≠ .link target) → P limit c rest → P limit d (comp :: rest))
    (link : ∀ limit d comp rest c target, fs.lookup d comp = some c → fs.node c = .link target →
      P limit (fs.origin d target) (target.comps ++ rest) → P (limit + 1) d (comp :: rest))
    (loop : ∀ d comp rest c target, fs.lookup d comp = some c → fs.node c = .link target →
      P 0 d (comp :: rest)) (limit : Nat) (d : ι) (comps : List (PathComponent ν)) :
    P limit d comps := by
  induction limit generalizing d comps with
  | zero =>
      induction comps generalizing d with
      | nil => exact nil 0 d
      | cons comp rest ih =>
          cases h : fs.lookup d comp with
          | none => exact missing 0 d comp rest h
          | some c =>
              by_cases hc : ∃ target, fs.node c = .link target
              · obtain ⟨target, hc⟩ := hc
                exact loop d comp rest c target h hc
              · exact plain 0 d comp rest c h (fun target ht => hc ⟨target, ht⟩) (ih c)
  | succ limit ihlimit =>
      induction comps generalizing d with
      | nil => exact nil (limit + 1) d
      | cons comp rest ih =>
          cases h : fs.lookup d comp with
          | none => exact missing (limit + 1) d comp rest h
          | some c =>
              by_cases hc : ∃ target, fs.node c = .link target
              · obtain ⟨target, hc⟩ := hc
                exact link limit d comp rest c target h hc (ihlimit _ _)
              · exact plain (limit + 1) d comp rest c h (fun target ht => hc ⟨target, ht⟩) (ih c)

/-- Walks compose. -/
theorem walk_append (fs : FileTree ι ν) (limit : Nat) (d : ι) (xs ys : List (PathComponent ν)) :
    fs.walk limit d (xs ++ ys) = (fs.walk limit d xs).bind fun p => fs.walk p.2 p.1 ys := by
  induction limit, d, xs using fs.walk_induction with
  | nil limit d => simp
  | missing limit d comp rest h => rw [List.cons_append, walk_missing _ h, walk_missing _ h]; rfl
  | plain limit d comp rest c h hc ih =>
      rw [List.cons_append, walk_plain _ h hc, walk_plain _ h hc, ih]
  | link limit d comp rest c target h hc ih =>
      rw [List.cons_append, walk_link _ h hc, walk_link _ h hc, ← List.append_assoc, ih]
  | loop d comp rest c target h hc => rw [List.cons_append, walk_loop h hc, walk_loop h hc]; rfl

/-! ## Removing entries -/

/-- The tree without some of its directory entries. -/
def prune [DecidableEq ι] (fs : FileTree ι ν) (gone : List (ι × ν)) : FileTree ι ν :=
  { fs with
    node := fun d =>
      match fs.node d with
      | .dir entries => .dir (entries.filter fun e => (d, e.1) ∉ gone)
      | node => node }

variable [DecidableEq ι] {gone : List (ι × ν)}

theorem prune_dir {d : ι} {entries : List (ν × ι)} (h : fs.node d = .dir entries) :
    (fs.prune gone).node d = .dir (entries.filter fun e => (d, e.1) ∉ gone) := by
  simp [prune, h]

theorem prune_nil (fs : FileTree ι ν) : fs.prune [] = fs := by
  have hnode : (fs.prune []).node = fs.node := by
    funext d
    cases h : fs.node d <;> simp [prune, h]
  cases fs
  simp only [prune] at hnode ⊢
  rw [hnode]

theorem isDir_prune {d : ι} : (fs.prune gone).IsDir d ↔ fs.IsDir d := by
  cases h : fs.node d <;> simp [IsDir, prune, h]

/-- Links stay what they are. -/
theorem prune_link {c : ι} {target : PathSteps ν} :
    (fs.prune gone).node c = .link target ↔ fs.node c = .link target := by
  cases h : fs.node c <;> simp [prune, h]

theorem entry_prune (fs : FileTree ι ν) (gone : List (ι × ν)) (d : ι) (n : ν) :
    (fs.prune gone).entry d n = if (d, n) ∈ gone then none else fs.entry d n := by
  cases hnode : fs.node d with
  | dir entries =>
      simp only [entry, prune_dir hnode, hnode, List.find?_filter]
      split
      · rename_i hgone
        rw [Option.map_eq_none_iff, List.find?_eq_none]
        intro e _
        by_cases he : e.1 = n <;> simp [he, hgone]
      · rename_i hkept
        congr 2
        funext e
        by_cases he : e.1 = n <;> simp [he, hkept]
  | file => simp [entry, prune, hnode]
  | link target => simp [entry, prune, hnode]

theorem prune_prune (fs : FileTree ι ν) (xs ys : List (ι × ν)) :
    (fs.prune xs).prune ys = fs.prune (xs ++ ys) := by
  have hnode : ((fs.prune xs).prune ys).node = (fs.prune (xs ++ ys)).node := by
    funext d
    cases h : fs.node d with
    | dir entries =>
        rw [prune_dir (prune_dir h), prune_dir h, List.filter_filter]
        congr 1
        apply List.filter_congr
        intro e _
        by_cases hx : (d, e.1) ∈ xs <;> by_cases hy : (d, e.1) ∈ ys <;> simp [hx, hy]
    | file => simp [prune, h]
    | link target => simp [prune, h]
  have hparts : (fs.prune xs).prune ys =
      ⟨((fs.prune xs).prune ys).node, fs.parent, fs.root⟩ := rfl
  rw [hparts, hnode]
  rfl

/-- Removing entries that are removed anyway. -/
theorem prune_append_of_subset {xs ys : List (ι × ν)}
    (h : ∀ d entries, fs.node d = .dir entries → ∀ e ∈ entries, (d, e.1) ∈ xs → (d, e.1) ∈ ys) :
    fs.prune (xs ++ ys) = fs.prune ys := by
  have hnode : (fs.prune (xs ++ ys)).node = (fs.prune ys).node := by
    funext d
    cases hd : fs.node d with
    | dir entries =>
        rw [prune_dir hd, prune_dir hd]
        congr 1
        apply List.filter_congr
        intro e he
        by_cases hx : (d, e.1) ∈ xs
        · simp [hx, h d entries hd e he hx]
        · simp [hx]
    | file => simp [prune, hd]
    | link target => simp [prune, hd]
  have hparts : fs.prune (xs ++ ys) = ⟨(fs.prune (xs ++ ys)).node, fs.parent, fs.root⟩ := rfl
  rw [hparts, hnode]
  rfl

theorem lookup_prune {d c : ι} {comp : PathComponent ν}
    (h : (fs.prune gone).lookup d comp = some c) : fs.lookup d comp = some c := by
  cases comp with
  | name n =>
      rw [lookup, entry_prune] at h
      split at h
      · cases h
      · exact h
  | self => cases hnode : fs.node d <;> simp [lookup, prune, hnode] at h ⊢; exact h
  | up => cases hnode : fs.node d <;> simp [lookup, prune, hnode] at h ⊢; exact h

theorem entry_of_prune {d c : ι} {n : ν} (h : (fs.prune gone).entry d n = some c) :
    fs.entry d n = some c := by
  have hlookup : (fs.prune gone).lookup d (.name n) = some c := h
  exact lookup_prune hlookup

/-- A walk that succeeds among fewer entries has the same end among all. -/
theorem walk_prune (limit : Nat) (d : ι) (comps : List (PathComponent ν)) {p : ι × Nat}
    (h : (fs.prune gone).walk limit d comps = some p) : fs.walk limit d comps = some p := by
  induction limit, d, comps using (fs.prune gone).walk_induction with
  | nil limit d => simpa using h
  | missing limit d comp rest hlookup => simp [walk_missing _ hlookup] at h
  | plain limit d comp rest c hlookup hc ih =>
      rw [walk_plain _ hlookup hc] at h
      rw [walk_plain _ (lookup_prune hlookup) fun target ht => hc target (prune_link.mpr ht)]
      exact ih h
  | link limit d comp rest c target hlookup hc ih =>
      rw [walk_link _ hlookup hc] at h
      rw [walk_link _ (lookup_prune hlookup) (prune_link.mp hc)]
      exact ih h
  | loop d comp rest c target hlookup hc => simp [walk_loop hlookup hc] at h

/-! ## Subtrees -/

omit [DecidableEq ι] in
/-- Directories at or below `r`. -/
inductive Within (fs : FileTree ι ν) (r : ι) : ι → Prop
  | root : Within fs r r
  | entry {d c : ι} {n : ν} (hd : Within fs r d) (hc : fs.entry d n = some c)
      (hdir : fs.IsDir c) : Within fs r c

/-- No directory has entries in two directories. -/
def Hierarchical (fs : FileTree ι ν) : Prop :=
  ∀ d n d' n' c, fs.entry d n = some c → fs.entry d' n' = some c → fs.IsDir c → d = d'

end FileTree
