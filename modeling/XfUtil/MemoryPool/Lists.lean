import XfUtil.Base.Memory
import XfUtil.List.Sequences
import XfUtil.MemoryPool.Model

/-!
# The two lists and the block set of a pool

Every block of the pool is on one of two disjoint rings. Deleting a block's node
works without knowing which ring it is on, and the set of end addresses finds
the block an element lies in.
-/

namespace XfUtil.MemoryPool

open FlatMemory Links

/-- The free and the full list hold the blocks `free` and `full`. -/
structure Rings (p : MemoryPool) (l : Links.Heap) (free full : List Nat) : Prop where
  freeRing : Ring l p.freeList free
  fullRing : Ring l p.fullList full
  disjoint : (p.freeList :: free).Disjoint (p.fullList :: full)

variable {p : MemoryPool} {l : Links.Heap} {free full : List Nat} {b : Nat}

theorem Rings.nodup (h : Rings p l free full) : (free ++ full).Nodup :=
  List.nodup_append'.mpr ⟨h.freeRing.nodup.of_cons, h.fullRing.nodup.of_cons,
    fun _ hx hy => h.disjoint (List.mem_cons_of_mem _ hx) (List.mem_cons_of_mem _ hy)⟩

/-- A node on neither list and not a list head. -/
def OffLists (p : MemoryPool) (free full : List Nat) (b : Nat) : Prop :=
  b ∉ p.freeList :: free ∧ b ∉ p.fullList :: full

/-! ## The two lists as a family -/

/-- The free list, and for `true` the full list. -/
def listHeads (p : MemoryPool) : Bool → Nat
  | false => p.freeList
  | true => p.fullList

def contents (free full : List Nat) : Bool → List Nat
  | false => free
  | true => full

theorem update_contents_false (xs : List Nat) :
    Function.update (contents free full) false xs = contents xs full := by
  funext isFull
  cases isFull <;> simp [contents]

theorem update_contents_true (xs : List Nat) :
    Function.update (contents free full) true xs = contents free xs := by
  funext isFull
  cases isFull <;> simp [contents]

theorem rings_iff_lists : Rings p l free full ↔ Lists l (listHeads p) (contents free full) := by
  constructor
  · intro h
    refine ⟨fun i => ?_, fun i j hij => ?_⟩
    · cases i with
      | false => exact h.freeRing
      | true => exact h.fullRing
    · cases i with
      | false =>
          obtain rfl : j = true := by simpa using hij.symm
          exact h.disjoint
      | true =>
          obtain rfl : j = false := by simpa using hij.symm
          exact h.disjoint.symm
  · intro h
    exact ⟨h.ring false, h.ring true, h.apart Bool.false_ne_true⟩

theorem offLists_iff :
    OffLists p free full b ↔ ∀ i, b ∉ listHeads p i :: contents free full i := by
  simp [OffLists, listHeads, contents]

theorem Rings.add_head_free (h : Rings p l free full) (hb : OffLists p free full b) :
    Rings p (listAddHead l b p.freeList) (b :: free) full := by
  have hadd := (rings_iff_lists.mp h).addHead (offLists_iff.mp hb) false
  rw [update_contents_false] at hadd
  exact rings_iff_lists.mpr hadd

theorem Rings.add_tail_free (h : Rings p l free full) (hb : OffLists p free full b) :
    Rings p (listAddTail l b p.freeList) (free ++ [b]) full := by
  have hadd := (rings_iff_lists.mp h).addTail (offLists_iff.mp hb) false
  rw [update_contents_false] at hadd
  exact rings_iff_lists.mpr hadd

theorem Rings.add_tail_full (h : Rings p l free full) (hb : OffLists p free full b) :
    Rings p (listAddTail l b p.fullList) free (full ++ [b]) := by
  have hadd := (rings_iff_lists.mp h).addTail (offLists_iff.mp hb) true
  rw [update_contents_true] at hadd
  exact rings_iff_lists.mpr hadd

/-- `ListDelete` takes a block off whichever list it is on. -/
theorem Rings.delete (h : Rings p l free full) (hb : b ∈ free ++ full) :
    ∃ free' full', Rings p (listDelete l b) free' full' ∧
      (free ++ full).Perm (b :: (free' ++ full')) ∧ full'.Sublist full ∧
      OffLists p free' full' b := by
  have hlists := rings_iff_lists.mp h
  rcases List.mem_append.mp hb with hb | hb
  · have hdelete := hlists.delete (i := false) hb
    have hoff := hlists.not_mem_of_delete (i := false) hb
    rw [update_contents_false] at hdelete hoff
    exact ⟨free.erase b, full, rings_iff_lists.mpr hdelete,
      (List.perm_cons_erase hb).append_right full, List.Sublist.refl full, offLists_iff.mpr hoff⟩
  · have hdelete := hlists.delete (i := true) hb
    have hoff := hlists.not_mem_of_delete (i := true) hb
    rw [update_contents_true] at hdelete hoff
    exact ⟨free, full.erase b, rings_iff_lists.mpr hdelete,
      ((List.perm_cons_erase hb).append_left free).trans List.perm_middle, List.erase_sublist,
      offLists_iff.mpr hoff⟩

theorem Rings.getFreeMemoryBlock {q : MemoryPool} (h : Rings p q.links free full)
    (hq : q.freeList = p.freeList) : q.getFreeMemoryBlock = free.headD 0 := by
  have hempty := listEmtpy_iff h.freeRing
  rw [MemoryPool.getFreeMemoryBlock, hq]
  cases free with
  | nil => rw [if_pos (hempty.mpr rfl)]; rfl
  | cons x free =>
      rw [if_neg fun he => by simpa using hempty.mp he, listHead_eq h.freeRing]
      rfl

/-! ## The block set -/

theorem upperBound_eq {s : Finset Nat} {x e : Nat} (he : e ∈ s) (hlt : x < e)
    (hleast : ∀ e' ∈ s, x < e' → e ≤ e') : upperBound s x = some e := by
  have hmem : e ∈ s.filter fun e => x < e := Finset.mem_filter.mpr ⟨he, hlt⟩
  rw [upperBound, dif_pos ⟨e, hmem⟩, Option.some.injEq]
  refine le_antisymm (Finset.min'_le _ e hmem) (Finset.le_min' _ _ e fun e' he' => ?_)
  obtain ⟨hin, hlt'⟩ := Finset.mem_filter.mp he'
  exact hleast e' hin hlt'

/-- An element of one of several disjoint blocks is found by its upper bound
among their ends. -/
theorem findMemoryBlock_eq {q : MemoryPool} {bs : Nat} (hbs : q.blockSize.toNat = bs)
    {blocks : List Nat} (hends : ∀ e, e ∈ q.blocks ↔ ∃ b ∈ blocks, e = b + bs)
    (hapart : ∀ a ∈ blocks, ∀ b ∈ blocks, a ≠ b → Apart a bs b bs) {x : Nat} (hb : b ∈ blocks)
    (hx : b ≤ x ∧ x < b + bs) : q.findMemoryBlock x = b := by
  have hbound : upperBound q.blocks x = some (b + bs) := by
    refine upperBound_eq ((hends _).mpr ⟨b, hb, rfl⟩) hx.2 fun e he hlt => ?_
    obtain ⟨c, hc, rfl⟩ := (hends e).mp he
    by_cases hcb : c = b
    · rw [hcb]
    · have hap := hapart c hc b hb hcb
      unfold Apart at hap
      omega
  rw [findMemoryBlock, hbound, hbs]
  exact Nat.add_sub_cancel b bs

end XfUtil.MemoryPool
