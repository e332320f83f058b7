import Mathlib.Algebra.BigOperators.Group.List.Basic
import Mathlib.Algebra.GroupWithZero.Nat
import XfUtil.Directory.Emptied

/-!
# The open directories of `Directory::Remove`

They lie on one way down. An entry of an open directory has been removed exactly if `readdir`
has returned it and it is not the one that leads on. What is left to do is a number, by what
the open directories have left and the directories below them hold.
-/

namespace XfUtil.Directory

open FilePath FileTree

variable {ι : Type*} {fs : FileSystem ι} {path : FilePath} {e : DirEntry ι}
  {removed more : List (DirEntry ι)} {d c r : ι} {ns : List FilePath} {n : FilePath}
  {inside : Option FilePath} {frame : Frame ι} {rest : List (Frame ι)} {depth : Nat}

/-! ## The open directories -/

/-- A directory that is open, at its position; `inside` is the name that leads on. -/
structure Reading (fs : FileSystem ι) (path : FilePath) (r : ι) (removed : List (DirEntry ι))
    (ns : List FilePath) (inside : Option FilePath) (frame : Frame ι) : Prop where
  path_eq : frame.path = fullPath path ns
  descend_eq : fs.tree.descend r ns = some frame.dir
  isDir : fs.tree.IsDir frame.dir
  nodup : frame.names.Nodup
  read : ∀ n, inside = some n → n ∉ frame.names
  known : ∀ n ∈ frame.names,
    n = [dot] ∨ n = [dot, dot] ∨ ∃ c, fs.tree.entry frame.dir n = some c
  removed_iff : ∀ n c, fs.tree.entry frame.dir n = some c →
    (⟨frame.dir, n, c⟩ ∈ removed ↔ n ∉ frame.names ∧ inside ≠ some n)

theorem Reading.mono (h : Reading fs path r removed ns inside frame)
    (hsame : ∀ n c, fs.tree.entry frame.dir n = some c →
      (⟨frame.dir, n, c⟩ ∈ more ↔ ⟨frame.dir, n, c⟩ ∈ removed)) :
    Reading fs path r more ns inside frame := by
  refine ⟨h.path_eq, h.descend_eq, h.isDir, h.nodup, h.read, h.known, fun n c hentry => ?_⟩
  rw [hsame n c hentry]
  exact h.removed_iff n c hentry

/-- `readdir` returns a name: its entry is removed, or leads on. -/
theorem Reading.erase (h : Reading fs path r removed ns none frame) {next : Option FilePath}
    (hnext : ∀ m, next = some m → m = n)
    (hmore : ∀ m c, fs.tree.entry frame.dir m = some c →
      (⟨frame.dir, m, c⟩ ∈ more ↔ (m = n ∨ ⟨frame.dir, m, c⟩ ∈ removed) ∧ next ≠ some m)) :
    Reading fs path r more ns next { frame with names := frame.names.erase n } := by
  refine ⟨h.path_eq, h.descend_eq, h.isDir, h.nodup.erase n, ?_, ?_, ?_⟩
  · intro m hm
    rw [hnext m hm]
    exact h.nodup.not_mem_erase
  · exact fun m hm => h.known m (List.mem_of_mem_erase hm)
  · intro m c hentry
    have hold := h.removed_iff m c hentry
    simp only [ne_eq, reduceCtorEq, not_false_eq_true, and_true] at hold
    rw [hmore m c hentry, hold, h.nodup.mem_erase_iff]
    by_cases hmn : m = n <;> simp [hmn]

/-- The directory inside has been removed. -/
theorem Reading.back (h : Reading fs path r removed ns (some n) frame)
    (hmore : ∀ m c, fs.tree.entry frame.dir m = some c →
      (⟨frame.dir, m, c⟩ ∈ more ↔ m = n ∨ ⟨frame.dir, m, c⟩ ∈ removed)) :
    Reading fs path r more ns none frame := by
  refine ⟨h.path_eq, h.descend_eq, h.isDir, h.nodup, ?_, h.known, ?_⟩
  · exact fun m hm => nomatch hm
  · intro m c hentry
    have hread := h.read n rfl
    rw [hmore m c hentry, h.removed_iff m c hentry]
    by_cases hmn : m = n
    · simp [hmn, hread]
    · simp [hmn, Ne.symm hmn]

/-- The name leads on to the next directory, whose entry is still there. -/
theorem Reading.entry_of_above (h : Reading fs path r removed (ns ++ [n]) inside frame)
    {above : Frame ι} (habove : Reading fs path r removed ns (some n) above) :
    fs.tree.entry above.dir n = some frame.dir ∧ ⟨above.dir, n, frame.dir⟩ ∉ removed := by
  obtain ⟨d, hd, hentry⟩ := descend_concat_eq_some.mp h.descend_eq
  obtain rfl : above.dir = d := Option.some.inj (habove.descend_eq.symm.trans hd)
  exact ⟨hentry, fun hmem => ((habove.removed_iff n frame.dir hentry).mp hmem).2 rfl⟩

/-- The open directories, the innermost first. -/
inductive Stacked (fs : FileSystem ι) (path : FilePath) (r : ι) (removed : List (DirEntry ι)) :
    List FilePath → Option FilePath → List (Frame ι) → Prop
  | root {inside : Option FilePath} {frame : Frame ι}
      (h : Reading fs path r removed [] inside frame) : Stacked fs path r removed [] inside [frame]
  | child {ns : List FilePath} {n : FilePath} {inside : Option FilePath} {frame above : Frame ι}
      {rest : List (Frame ι)} (hrest : Stacked fs path r removed ns (some n) (above :: rest))
      (h : Reading fs path r removed (ns ++ [n]) inside frame) :
      Stacked fs path r removed (ns ++ [n]) inside (frame :: above :: rest)

namespace Stacked

theorem reading (h : Stacked fs path r removed ns inside (frame :: rest)) :
    Reading fs path r removed ns inside frame := by
  cases h with
  | root h => exact h
  | child hrest h => exact h

theorem length_eq (h : Stacked fs path r removed ns inside (frame :: rest)) :
    ns.length = rest.length := by
  generalize hstack : frame :: rest = stack at h
  induction h generalizing frame rest with
  | root h =>
      obtain ⟨-, rfl⟩ := List.cons.inj hstack
      rfl
  | child hrest h ih =>
      obtain ⟨-, rfl⟩ := List.cons.inj hstack
      rw [List.length_append, ih rfl]
      rfl

/-- The directories further out are not as deep. -/
theorem exists_outer (h : Stacked fs path r removed ns inside (frame :: rest)) {f : Frame ι}
    (hf : f ∈ rest) : ∃ ms, fs.tree.descend r ms = some f.dir ∧ fs.tree.IsDir f.dir ∧
      ms.length < ns.length := by
  generalize hstack : frame :: rest = stack at h
  induction h generalizing frame rest with
  | root h =>
      obtain ⟨-, rfl⟩ := List.cons.inj hstack
      cases hf
  | @child ns n inside frame' above rest' hrest h ih =>
      obtain ⟨-, rfl⟩ := List.cons.inj hstack
      have hlonger : ns.length < (ns ++ [n]).length := by simp
      rcases List.mem_cons.mp hf with rfl | hf
      · exact ⟨ns, hrest.reading.descend_eq, hrest.reading.isDir, hlonger⟩
      · obtain ⟨ms, hdown, hdir, hlt⟩ := ih hf rfl
        exact ⟨ms, hdown, hdir, hlt.trans hlonger⟩

theorem mono {stack : List (Frame ι)} (h : Stacked fs path r removed ns inside stack)
    (hsame : ∀ f ∈ stack, ∀ n c, fs.tree.entry f.dir n = some c →
      (⟨f.dir, n, c⟩ ∈ more ↔ ⟨f.dir, n, c⟩ ∈ removed)) :
    Stacked fs path r more ns inside stack := by
  induction h with
  | root h => exact .root (h.mono (hsame _ List.mem_cons_self))
  | child hrest h ih =>
      have houter := ih fun f hf => hsame f (List.mem_cons_of_mem _ hf)
      exact .child houter (h.mono (hsame _ List.mem_cons_self))

/-- The innermost directory goes on, and the others stay as they are. -/
theorem replace (h : Stacked fs path r removed ns inside (frame :: rest))
    (hsame : ∀ f ∈ rest, ∀ n c, fs.tree.entry f.dir n = some c →
      (⟨f.dir, n, c⟩ ∈ more ↔ ⟨f.dir, n, c⟩ ∈ removed))
    {next : Option FilePath} {frame' : Frame ι}
    (htop : Reading fs path r more ns next frame') :
    Stacked fs path r more ns next (frame' :: rest) := by
  cases h with
  | root h => exact .root htop
  | child hrest h => exact .child (hrest.mono hsame) htop

/-- No directory is open twice. -/
theorem outer_ne (h : Stacked fs path r removed ns inside (frame :: rest))
    (hsingle : fs.tree.Single) (hdepth : fs.tree.DepthLe r depth) {f : Frame ι} (hf : f ∈ rest) :
    f.dir ≠ frame.dir := by
  intro heq
  obtain ⟨ms, hdown, hdir, hlt⟩ := h.exists_outer hf
  rw [heq] at hdown hdir
  have hsame := hsingle.position_unique hdepth hdown h.reading.descend_eq hdir
  rw [hsame] at hlt
  exact Nat.lt_irrefl _ hlt

end Stacked

/-! ## What is left to do -/

/-- For one name: to read it, and what `bulk` says of what it names. -/
def cost (fs : FileSystem ι) (bulk : ι → Nat) (d : ι) (n : FilePath) : Nat :=
  1 + (fs.tree.entry d n).elim 0 bulk

/-- For the names, and to return. -/
def weigh (fs : FileSystem ι) (bulk : ι → Nat) (d : ι) (names : List FilePath) : Nat :=
  1 + (names.map (cost fs bulk d)).sum

/-- For a whole directory with so many levels below it. -/
def bulk (fs : FileSystem ι) : Nat → ι → Nat
  | 0, _ => 0
  | levels + 1, d =>
      match fs.tree.node d with
      | .dir entries =>
          weigh fs (bulk fs levels) d ([dot] :: [dot, dot] :: entries.map Prod.fst)
      | _ => 0

def todo (fs : FileSystem ι) (depth : Nat) : List (Frame ι) → Nat
  | [] => 0
  | frame :: rest =>
      weigh fs (bulk fs (depth - rest.length)) frame.dir frame.names + todo fs depth rest

theorem weigh_erase {names : List FilePath} (hn : n ∈ names) (bulk : ι → Nat) :
    weigh fs bulk d names = weigh fs bulk d (names.erase n) + cost fs bulk d n := by
  have hsum := ((List.perm_cons_erase hn).map (cost fs bulk d)).sum_eq
  rw [List.map_cons, List.sum_cons] at hsum
  rw [weigh, weigh, hsum]
  omega

theorem todo_pop (frame : Frame ι) (rest : List (Frame ι)) (depth : Nat) :
    todo fs depth rest < todo fs depth (frame :: rest) := by
  rw [todo, weigh]
  omega

namespace Removal

variable {s : Removal ι}

theorem todo_took (fs : FileSystem ι) (hstack : s.stack = frame :: rest)
    (hmem : n ∈ frame.names) (depth : Nat) :
    todo fs depth (s.took frame rest n).stack +
        cost fs (bulk fs (depth - rest.length)) frame.dir n = todo fs depth s.stack := by
  rw [hstack, took, todo, todo, weigh_erase hmem]
  dsimp only
  omega

theorem todo_took_lt (hstack : s.stack = frame :: rest) (hmem : n ∈ frame.names) (depth : Nat) :
    todo fs depth (s.took frame rest n).stack < todo fs depth s.stack := by
  have heq := todo_took fs hstack hmem depth
  rw [cost] at heq
  omega

end Removal

/-! ## Adding an entry to those removed -/

theorem mem_append_entry {m : FilePath} {c' : ι}
    (hentry : fs.tree.entry d n = some c) (hentry' : fs.tree.entry d m = some c') :
    (⟨d, m, c'⟩ ∈ removed ++ [⟨d, n, c⟩] ↔ m = n ∨ ⟨d, m, c'⟩ ∈ removed) := by
  rw [List.mem_append, List.mem_singleton, DirEntry.mk.injEq]
  constructor
  · rintro (hmem | ⟨-, rfl, -⟩)
    · exact Or.inr hmem
    · exact Or.inl rfl
  · rintro (rfl | hmem)
    · exact Or.inr ⟨rfl, rfl, Option.some.inj (hentry'.symm.trans hentry)⟩
    · exact Or.inl hmem

theorem mem_append_entry_of_ne {c' d' : ι} {m : FilePath} (hne : d' ≠ d) :
    (⟨d', m, c'⟩ ∈ removed ++ [⟨d, n, c⟩] ↔ ⟨d', m, c'⟩ ∈ removed) := by
  rw [List.mem_append, List.mem_singleton, DirEntry.mk.injEq]
  exact or_iff_left fun hsame => hne hsame.1

/-- A name that `readdir` may return is that of an entry which is still there. -/
theorem exists_entry_of_reading (h : Reading fs path r removed ns inside frame)
    (hmem : n ∈ frame.names) (hdots : ¬ (n = [dot] ∨ n = [dot, dot])) :
    ∃ c, fs.tree.entry frame.dir n = some c ∧ ⟨frame.dir, n, c⟩ ∉ removed := by
  obtain ⟨hdot, hdotdot⟩ := not_or.mp hdots
  obtain ⟨c, hentry⟩ := ((h.known n hmem).resolve_left hdot).resolve_left hdotdot
  exact ⟨c, hentry, fun hgone => ((h.removed_iff n c hentry).mp hgone).1 hmem⟩

variable [DecidableEq ι]

/-! ## What is still there -/

namespace History

theorem entry_of_not_mem (h : History fs path removed) (hentry : fs.tree.entry d n = some c)
    (hnot : ⟨d, n, c⟩ ∉ removed) : (fs.without removed).tree.entry d n = some c := by
  cases hnow : (fs.without removed).tree.entry d n with
  | none => exact absurd (h.mem_of_entry hentry hnow) hnot
  | some c' =>
      have hthen : fs.tree.entry d n = some c' := entry_of_prune hnow
      exact hthen.symm.trans hentry

end History

theorem entry_of_mem (he : e ∈ removed) :
    (fs.without removed).tree.entry e.dir e.name = none := by
  rw [entry_without, if_pos ⟨e, he, rfl, rfl⟩]

/-- A directory from which nothing is gone. -/
theorem node_of_untouched (h : ∀ e ∈ removed, e.dir ≠ d) {entries : List (FilePath × ι)}
    (hnode : fs.tree.node d = .dir entries) :
    (fs.without removed).tree.node d = .dir entries := by
  rw [FileSystem.without, prune_dir hnode]
  congr 1
  rw [List.filter_eq_self]
  intro x _
  simp only [List.mem_map, Prod.mk.injEq, decide_eq_true_eq]
  rintro ⟨e, he, hdir, -⟩
  exact h e he hdir

/-- A directory from which everything is gone. -/
theorem node_of_entries_gone (hd : fs.tree.IsDir d)
    (h : ∀ n c, fs.tree.entry d n = some c → (fs.without removed).tree.entry d n = none) :
    (fs.without removed).tree.node d = .dir [] := by
  obtain ⟨entries, hnode⟩ := hd
  rw [FileSystem.without, prune_dir hnode]
  congr 1
  rw [List.filter_eq_nil_iff]
  intro x hx
  obtain ⟨c, hentry⟩ := exists_entry_of_mem hnode (List.mem_map_of_mem hx)
  have hgone := h x.1 c hentry
  rw [FileSystem.without, entry_prune, hentry] at hgone
  split at hgone
  · rename_i hmem
    simpa using hmem
  · cases hgone

end XfUtil.Directory
