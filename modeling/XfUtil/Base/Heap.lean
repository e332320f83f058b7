import Mathlib.Algebra.GroupWithZero.Nat
import Mathlib.Order.Interval.Finset.Nat
import XfUtil.Base.Memory

/-!
# Regions of memory and a heap that hands them out

A region is an address and a length. The heap records what is in use; the answer
of `malloc` is chosen by the environment among the regions that meet nothing in
use, and `free` takes only addresses that `malloc` has answered.
-/

namespace FlatMemory

/-- Address and length. -/
abbrev Region := Nat × Nat

namespace Region

/-- The two regions have no address in common. -/
def Apart (q r : Region) : Prop := FlatMemory.Apart q.1 q.2 r.1 r.2

def Within (q r : Region) : Prop := r.1 ≤ q.1 ∧ q.1 + q.2 ≤ r.1 + r.2

instance (q r : Region) : Decidable (Apart q r) := inferInstanceAs (Decidable (_ ∨ _))

instance (q r : Region) : Decidable (Within q r) := inferInstanceAs (Decidable (_ ∧ _))

theorem Apart.symm {q r : Region} (h : Apart q r) : Apart r q := Or.symm h

theorem Within.refl (r : Region) : Within r r := ⟨le_rfl, le_rfl⟩

theorem Within.trans {p q r : Region} (h : Within p q) (h' : Within q r) : Within p r :=
  ⟨h'.1.trans h.1, h.2.trans h'.2⟩

theorem Apart.within {q q' r r' : Region} (h : Apart q r) (hq : Within q' q) (hr : Within r' r) :
    Apart q' r' :=
  FlatMemory.Apart.mono h hq.1 hq.2 hr.1 hr.2

/-- A region that is not empty meets itself. -/
theorem Apart.ne {q r : Region} (h : Apart q r) (hq : 0 < q.2) : q ≠ r := by
  rintro rfl
  unfold Apart FlatMemory.Apart at h
  omega

/-- Regions that are not empty and have no address in common start apart. -/
theorem Apart.fst_ne {q r : Region} (h : Apart q r) (hq : 0 < q.2) (hr : 0 < r.2) : q.1 ≠ r.1 := by
  unfold Apart FlatMemory.Apart at h
  omega

/-! ## The size of disjoint regions -/

/-- The number of bytes in a list of regions. -/
def total (rs : List Region) : Nat := (rs.map Prod.snd).sum

@[simp] theorem total_nil : total [] = 0 := rfl

@[simp] theorem total_cons (r : Region) (rs : List Region) : total (r :: rs) = r.2 + total rs := rfl

@[simp] theorem total_append (rs rs' : List Region) : total (rs ++ rs') = total rs + total rs' := by
  simp [total]

/-- The addresses of a region. -/
def cells (r : Region) : Finset Nat := Finset.Ico r.1 (r.1 + r.2)

/-- The addresses of all regions of a list. -/
def allCells : List Region → Finset Nat
  | [] => ∅
  | r :: rs => cells r ∪ allCells rs

theorem mem_allCells {rs : List Region} {x : Nat} :
    x ∈ allCells rs ↔ ∃ r ∈ rs, r.1 ≤ x ∧ x < r.1 + r.2 := by
  induction rs with
  | nil => simp [allCells]
  | cons r rs ih => simp [allCells, ih, cells]

theorem card_allCells {rs : List Region} (h : rs.Pairwise Apart) :
    (allCells rs).card = total rs := by
  induction rs with
  | nil => rfl
  | cons r rs ih =>
      obtain ⟨hr, hrs⟩ := List.pairwise_cons.mp h
      have hdisj : Disjoint (cells r) (allCells rs) := by
        apply Finset.disjoint_left.mpr
        intro x hx hx'
        obtain ⟨r', hr', hlow, hhigh⟩ := mem_allCells.mp hx'
        obtain ⟨hlow', hhigh'⟩ := Finset.mem_Ico.mp hx
        have happart := hr r' hr'
        unfold Apart FlatMemory.Apart at happart
        omega
      rw [allCells, Finset.card_union_of_disjoint hdisj, ih hrs, cells, Nat.card_Ico, total_cons]
      omega

/-- Disjoint regions between two bounds have room between them. -/
theorem total_le {rs : List Region} (h : rs.Pairwise Apart) (lo hi : Nat)
    (hbounds : ∀ r ∈ rs, lo ≤ r.1 ∧ r.1 + r.2 ≤ hi) : total rs ≤ hi - lo := by
  rw [← card_allCells h, ← Nat.card_Ico]
  apply Finset.card_le_card
  intro x hx
  obtain ⟨r, hr, hlow, hhigh⟩ := mem_allCells.mp hx
  obtain ⟨hlo, hhi⟩ := hbounds r hr
  exact Finset.mem_Ico.mpr ⟨by omega, by omega⟩

end Region

/-! ## Regions carved out of allocations -/

/-- `returned` are pieces of `allocs`, and so is what is left: `size` bytes at `ptr`. -/
structure Carved (allocs returned : List Region) (ptr size : Nat) : Prop where
  apart : returned.Pairwise Region.Apart
  inside : ∀ q ∈ returned, ∃ r ∈ allocs, Region.Within q r
  left_inside : size ≠ 0 → ∃ r ∈ allocs, Region.Within (ptr, size) r
  left_apart : size ≠ 0 → ∀ q ∈ returned, Region.Apart (ptr, size) q

namespace Carved

variable {allocs returned : List Region} {ptr size : Nat}

theorem empty (ptr : Nat) : Carved [] [] ptr 0 :=
  ⟨List.Pairwise.nil, by simp, fun h => absurd rfl h, fun h => absurd rfl h⟩

/-- Return the first `n` of the bytes left. -/
theorem take (h : Carved allocs returned ptr size) {n : Nat} (hn : n ≠ 0) (hle : n ≤ size) :
    Carved allocs ((ptr, n) :: returned) (ptr + n) (size - n) := by
  have hsize : size ≠ 0 := by omega
  have hhead : Region.Within (ptr, n) (ptr, size) := ⟨le_rfl, by dsimp only; omega⟩
  have htail : Region.Within (ptr + n, size - n) (ptr, size) :=
    ⟨by dsimp only; omega, by dsimp only; omega⟩
  obtain ⟨r, hr, hin⟩ := h.left_inside hsize
  refine ⟨List.pairwise_cons.mpr ⟨fun q hq => ?_, h.apart⟩, ?_, ?_, ?_⟩
  · exact (h.left_apart hsize q hq).within hhead (Region.Within.refl q)
  · intro q hq
    rcases List.mem_cons.mp hq with rfl | hq
    · exact ⟨r, hr, hhead.trans hin⟩
    · exact h.inside q hq
  · exact fun _ => ⟨r, hr, htail.trans hin⟩
  · intro _ q hq
    rcases List.mem_cons.mp hq with rfl | hq
    · exact Or.inr le_rfl
    · exact (h.left_apart hsize q hq).within htail (Region.Within.refl q)

/-- Return a new allocation as a whole; what is left stays. -/
theorem whole (h : Carved allocs returned ptr size) {r : Region}
    (hr : ∀ r' ∈ allocs, Region.Apart r r') : Carved (r :: allocs) (r :: returned) ptr size := by
  refine ⟨List.pairwise_cons.mpr ⟨fun q hq => ?_, h.apart⟩, ?_, ?_, ?_⟩
  · obtain ⟨r', hr', hin⟩ := h.inside q hq
    exact (hr r' hr').within (Region.Within.refl r) hin
  · intro q hq
    rcases List.mem_cons.mp hq with rfl | hq
    · exact ⟨q, by simp, Region.Within.refl q⟩
    · obtain ⟨r', hr', hin⟩ := h.inside q hq
      exact ⟨r', List.mem_cons_of_mem r hr', hin⟩
  · intro hsize
    obtain ⟨r', hr', hin⟩ := h.left_inside hsize
    exact ⟨r', List.mem_cons_of_mem r hr', hin⟩
  · intro hsize q hq
    rcases List.mem_cons.mp hq with rfl | hq
    · obtain ⟨r', hr', hin⟩ := h.left_inside hsize
      exact ((hr r' hr').within (Region.Within.refl q) hin).symm
    · exact h.left_apart hsize q hq

/-- Abandon what is left for a new allocation. -/
theorem refill (h : Carved allocs returned ptr size) {r : Region}
    (hr : ∀ r' ∈ allocs, Region.Apart r r') : Carved (r :: allocs) returned r.1 r.2 := by
  refine ⟨h.apart, ?_, fun _ => ⟨r, by simp, Region.Within.refl r⟩, ?_⟩
  · intro q hq
    obtain ⟨r', hr', hin⟩ := h.inside q hq
    exact ⟨r', List.mem_cons_of_mem r hr', hin⟩
  · intro _ q hq
    obtain ⟨r', hr', hin⟩ := h.inside q hq
    exact (hr r' hr').within (Region.Within.refl r) hin

/-- The order of the allocations does not matter. -/
theorem congr (h : Carved allocs returned ptr size) {allocs' : List Region}
    (hmem : ∀ r ∈ allocs, r ∈ allocs') : Carved allocs' returned ptr size := by
  refine ⟨h.apart, ?_, ?_, h.left_apart⟩
  · intro q hq
    obtain ⟨r, hr, hin⟩ := h.inside q hq
    exact ⟨r, hmem r hr, hin⟩
  · intro hsize
    obtain ⟨r, hr, hin⟩ := h.left_inside hsize
    exact ⟨r, hmem r hr, hin⟩

end Carved

/-! ## The heap -/

/-- `live` are the allocations that may be freed, `reserved` what else is in use. -/
structure Heap where
  reserved : List Region
  live : List Region
deriving Repr, DecidableEq

namespace Heap

/-- Allocate `n` bytes; `none` if `a` is not an answer the allocator can give. -/
def malloc (h : Heap) (n a : Nat) : Option Heap :=
  if a ≠ 0 ∧ a + n < 2 ^ 64 ∧ ∀ r ∈ h.reserved ++ h.live, Region.Apart (a, n) r then
    some { h with live := (a, n) :: h.live }
  else none

/-- Free the allocation at `a`; `none` if there is none. -/
def free (h : Heap) (a : Nat) : Option Heap :=
  (h.live.find? fun r => r.1 = a).map fun r => { h with live := h.live.erase r }

/-- What malloc and free keep, as long as nothing empty is asked for. -/
structure Wf (h : Heap) : Prop where
  apart : h.live.Pairwise Region.Apart
  reserved : ∀ r ∈ h.live, ∀ r' ∈ h.reserved, Region.Apart r r'
  bounds : ∀ r ∈ h.live, 0 < r.1 ∧ 0 < r.2 ∧ r.1 + r.2 < 2 ^ 64

theorem malloc_eq_some {h h' : Heap} {n a : Nat} (hm : h.malloc n a = some h') :
    h' = { h with live := (a, n) :: h.live } ∧ 0 < a ∧ a + n < 2 ^ 64 ∧
      ∀ r ∈ h.reserved ++ h.live, Region.Apart (a, n) r := by
  unfold malloc at hm
  split at hm
  · rename_i hc
    cases hm
    exact ⟨rfl, by omega, hc.2.1, hc.2.2⟩
  · cases hm

theorem Wf.malloc {h h' : Heap} {n a : Nat} (hwf : h.Wf) (hn : 0 < n)
    (hm : h.malloc n a = some h') : h'.Wf := by
  obtain ⟨rfl, hpos, hend, happart⟩ := malloc_eq_some hm
  refine ⟨List.pairwise_cons.mpr ⟨fun r hr => happart r (by simp [hr]), hwf.apart⟩, ?_, ?_⟩
  · intro r hr r' hr'
    rcases List.mem_cons.mp hr with rfl | hr
    · exact happart r' (by simp only [List.mem_append]; exact Or.inl hr')
    · exact hwf.reserved r hr r' hr'
  · intro r hr
    rcases List.mem_cons.mp hr with rfl | hr
    · exact ⟨hpos, hn, hend⟩
    · exact hwf.bounds r hr

/-- No two allocations start at one address. -/
theorem Wf.eq_of_fst_eq {h : Heap} (hwf : h.Wf) {q r : Region} (hq : q ∈ h.live) (hr : r ∈ h.live)
    (heq : q.1 = r.1) : q = r := by
  by_contra hne
  have : Std.Symm Region.Apart := ⟨fun _ _ h => h.symm⟩
  have happart := hwf.apart.forall hq hr hne
  exact happart.fst_ne (hwf.bounds q hq).2.1 (hwf.bounds r hr).2.1 heq

theorem Wf.nodup {h : Heap} (hwf : h.Wf) : h.live.Nodup :=
  hwf.apart.imp_of_mem fun hq _ happart => happart.ne (hwf.bounds _ hq).2.1

/-- An allocation is freed, and the others stay. -/
theorem Wf.free {h : Heap} (hwf : h.Wf) {r : Region} (hr : r ∈ h.live) :
    ∃ h', h.free r.1 = some h' ∧ h'.Wf ∧ h'.reserved = h.reserved ∧
      ∀ q, q ∈ h'.live ↔ q ∈ h.live ∧ q ≠ r := by
  have hfind : h.live.find? (fun q => q.1 = r.1) = some r := by
    cases hq : h.live.find? (fun q => q.1 = r.1) with
    | none => simpa using List.find?_eq_none.mp hq r hr
    | some q =>
        have heq : q.1 = r.1 := by simpa using List.find?_some hq
        rw [hwf.eq_of_fst_eq (List.mem_of_find?_eq_some hq) hr heq]
  refine ⟨{ h with live := h.live.erase r }, by rw [Heap.free, hfind, Option.map_some], ?_, rfl, ?_⟩
  · exact ⟨hwf.apart.sublist List.erase_sublist,
      fun q hq => hwf.reserved q (List.mem_of_mem_erase hq),
      fun q hq => hwf.bounds q (List.mem_of_mem_erase hq)⟩
  · intro q
    rw [hwf.nodup.mem_erase_iff, and_comm]

end Heap

end FlatMemory
