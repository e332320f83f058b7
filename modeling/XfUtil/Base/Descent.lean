import Mathlib.Data.List.Induction
import XfUtil.Base.FileTree

/-!
# Positions in a tree of directories

A position below a directory is the names that lead down to it. Where there are no symbolic
links a walk along names is a descent. In a finite tree, where each directory has one entry, a
directory has one position.
-/

namespace FileTree

variable {ι ν : Type*}

variable [DecidableEq ν]

/-- The node that the names lead down to. -/
def descend (fs : FileTree ι ν) : ι → List ν → Option ι
  | d, [] => some d
  | d, n :: ns => (fs.entry d n).bind fun c => fs.descend c ns

/-- No position below `r` is that of a symbolic link. -/
def Plain (fs : FileTree ι ν) (r : ι) : Prop :=
  ∀ ns c, fs.descend r ns = some c → ∀ target, fs.node c ≠ .link target

/-- No position below `r` is deeper. -/
def DepthLe (fs : FileTree ι ν) (r : ι) (depth : Nat) : Prop :=
  ∀ ns d, fs.descend r ns = some d → ns.length ≤ depth

/-- No directory has two entries. -/
def Single (fs : FileTree ι ν) : Prop :=
  ∀ d n d' n' c, fs.entry d n = some c → fs.entry d' n' = some c → fs.IsDir c → d = d' ∧ n = n'

variable {fs : FileTree ι ν} {d c r : ι} {n : ν} {ns : List ν}

@[simp] theorem descend_nil (fs : FileTree ι ν) (d : ι) : fs.descend d [] = some d := rfl

theorem descend_cons_eq_some :
    fs.descend d (n :: ns) = some c ↔ ∃ e, fs.entry d n = some e ∧ fs.descend e ns = some c :=
  Option.bind_eq_some_iff

theorem descend_append (fs : FileTree ι ν) (d : ι) (xs ys : List ν) :
    fs.descend d (xs ++ ys) = (fs.descend d xs).bind fun c => fs.descend c ys := by
  induction xs generalizing d with
  | nil => rfl
  | cons n xs ih =>
      cases h : fs.entry d n with
      | none => simp [descend, h]
      | some c => simp [descend, h, ih]

theorem descend_append_eq_some {xs ys : List ν} :
    fs.descend d (xs ++ ys) = some c ↔
      ∃ e, fs.descend d xs = some e ∧ fs.descend e ys = some c := by
  rw [descend_append]
  exact Option.bind_eq_some_iff

theorem descend_concat_eq_some :
    fs.descend d (ns ++ [n]) = some c ↔ ∃ e, fs.descend d ns = some e ∧ fs.entry e n = some c := by
  rw [descend_append_eq_some]
  simp [descend_cons_eq_some]

theorem Plain.of_entry (h : fs.Plain d) (hentry : fs.entry d n = some c) : fs.Plain c :=
  fun ns e hdown => h (n :: ns) e (descend_cons_eq_some.mpr ⟨c, hentry, hdown⟩)

theorem walk_names (h : fs.Plain d) (limit : Nat) (ns : List ν) :
    fs.walk limit d (ns.map .name) = (fs.descend d ns).map fun c => (c, limit) := by
  induction ns generalizing d with
  | nil => simp
  | cons n ns ih =>
      cases hentry : fs.entry d n with
      | none =>
          have hlookup : fs.lookup d (.name n) = none := hentry
          simp [descend, hentry, walk_missing limit hlookup]
      | some c =>
          have hlookup : fs.lookup d (.name n) = some c := hentry
          have hc := h.of_entry hentry
          rw [List.map_cons, walk_plain limit hlookup (hc [] c rfl), ih hc]
          simp [descend, hentry]

variable [DecidableEq ι] {gone : List (ι × ν)}

/-- With fewer entries one gets no further, and to the same places. -/
theorem descend_prune (h : (fs.prune gone).descend d ns = some c) : fs.descend d ns = some c := by
  induction ns generalizing d with
  | nil => exact h
  | cons n ns ih =>
      obtain ⟨e, hentry, hrest⟩ := descend_cons_eq_some.mp h
      exact descend_cons_eq_some.mpr ⟨e, entry_of_prune hentry, ih hrest⟩

theorem Plain.prune (h : fs.Plain r) (gone : List (ι × ν)) : (fs.prune gone).Plain r :=
  fun ns c hdown target hlink => h ns c (descend_prune hdown) target (prune_link.mp hlink)

omit [DecidableEq ι]

/-! ## One position -/

/-- Down and around: a way back could be gone any number of times. -/
theorem DepthLe.ne_self {depth : Nat} (h : fs.DepthLe r depth) (hne : ns ≠ []) :
    fs.descend r ns ≠ some r := by
  intro hloop
  have hagain : ∀ k, ∃ ms, k ≤ ms.length ∧ fs.descend r ms = some r := by
    intro k
    induction k with
    | zero => exact ⟨[], Nat.zero_le _, rfl⟩
    | succ k ih =>
        obtain ⟨ms, hlen, hms⟩ := ih
        refine ⟨ns ++ ms, ?_, descend_append_eq_some.mpr ⟨r, hloop, hms⟩⟩
        have hpos := List.length_pos_of_ne_nil hne
        rw [List.length_append]
        omega
  obtain ⟨ms, hlen, hms⟩ := hagain (depth + 1)
  have hle := h ms r hms
  omega

theorem Single.position_unique (h : fs.Single) {depth : Nat} (hdepth : fs.DepthLe r depth)
    {xs ys : List ν} (hx : fs.descend r xs = some d) (hy : fs.descend r ys = some d)
    (hd : fs.IsDir d) : xs = ys := by
  induction xs using List.reverseRecOn generalizing ys d with
  | nil =>
      cases hx
      by_contra hne
      exact hdepth.ne_self (fun heq => hne heq.symm) hy
  | append_singleton xs n ih =>
      rcases List.eq_nil_or_concat ys with rfl | ⟨ys, m, rfl⟩
      · cases hy
        exact absurd hx (hdepth.ne_self (by simp))
      · rw [List.concat_eq_append] at hy ⊢
        obtain ⟨e, he, hn⟩ := descend_concat_eq_some.mp hx
        obtain ⟨e', he', hm⟩ := descend_concat_eq_some.mp hy
        obtain ⟨rfl, rfl⟩ := h _ _ _ _ _ hn hm hd
        rw [ih he he' (isDir_of_entry hn)]

end FileTree
