import XfUtil.List.Rings
import Mathlib.Logic.Pairwise

/-!
# The intrusive list refines sequences

Any number of lists in one heap, no two of which share a node, stand for as many
sequences. Adding a node changes the sequence of its list alone, and so does
deleting one, although `ListDelete` does not know the list.
-/

namespace XfUtil

open Links

variable {ι : Type*}

/-- The lists with these heads represent the sequences, and no two of them meet. -/
structure Lists (l : Heap) (head : ι → Nat) (seq : ι → List Nat) : Prop where
  ring : ∀ i, Ring l (head i) (seq i)
  apart : Pairwise fun i j => (head i :: seq i).Disjoint (head j :: seq j)

/-- A list as its readers see it is the sequence `xs`. -/
structure ListReads (l : Heap) (list : Nat) (xs : List Nat) : Prop where
  inverse : ∀ x ∈ list :: xs, l.prev (l.next x) = x ∧ l.next (l.prev x) = x
  emtpy : listEmtpy l list = true ↔ xs = []
  head : ∀ hne : xs ≠ [], listHead l list = xs.head hne
  tail : ∀ hne : xs ≠ [], listTail l list = xs.getLast hne

theorem listReads_of_ring {l : Heap} {h : Nat} {xs : List Nat} (hr : Ring l h xs) :
    ListReads l h xs := by
  refine ⟨fun x hx => hr.inverse hx, listEmtpy_iff hr, fun hne => ?_, fun hne => ?_⟩
  · cases xs with
    | nil => exact absurd rfl hne
    | cons x xs => exact listHead_eq hr
  · have hlast := List.dropLast_append_getLast hne
    rw [← hlast] at hr
    exact listTail_eq hr

namespace Lists

variable {l l' : Heap} {head : ι → Nat} {seq : ι → List Nat} {n : Nat} {i : ι}

/-- A node is on one list at most. -/
theorem not_mem (hs : Lists l head seq) {j : ι} (hji : j ≠ i) (hn : n ∈ head i :: seq i) :
    n ∉ head j :: seq j :=
  fun hmem => hs.apart hji hmem hn

variable [DecidableEq ι]

/-- One list changes, by no node that is on another one, and the others stay rings. -/
theorem update (hs : Lists l head seq) {xs : List Nat} (hring : Ring l' (head i) xs)
    (hother : ∀ j, j ≠ i → Ring l' (head j) (seq j))
    (hfrom : ∀ x ∈ xs, x ∈ seq i ∨ ∀ j, x ∉ head j :: seq j) :
    Lists l' head (Function.update seq i xs) := by
  have hapart : ∀ j, j ≠ i → (head i :: xs).Disjoint (head j :: seq j) := by
    intro j hji x hx hxj
    rcases List.mem_cons.mp hx with rfl | hx
    · exact hs.not_mem hji List.mem_cons_self hxj
    · rcases hfrom x hx with hold | hfresh
      · exact hs.not_mem hji (List.mem_cons_of_mem _ hold) hxj
      · exact hfresh j hxj
  constructor
  · intro j
    by_cases hji : j = i
    · subst hji
      rwa [Function.update_self]
    · rw [Function.update_of_ne hji]
      exact hother j hji
  · intro j k hjk
    by_cases hji : j = i
    · subst hji
      rw [Function.update_self, Function.update_of_ne hjk.symm]
      exact hapart k hjk.symm
    · rw [Function.update_of_ne hji]
      by_cases hki : k = i
      · subst hki
        rw [Function.update_self]
        exact List.disjoint_symm (hapart j hji)
      · rw [Function.update_of_ne hki]
        exact hs.apart hjk

theorem addHead (hs : Lists l head seq) (hn : ∀ j, n ∉ head j :: seq j) (i : ι) :
    Lists (listAddHead l n (head i)) head (Function.update seq i (n :: seq i)) := by
  apply hs.update (listAddHead_ring (hs.ring i) (hn i))
  · exact fun j hji => listAddHead_other (hs.ring j) (hs.ring i) (hs.apart hji) (hn j)
  · intro x hx
    rcases List.mem_cons.mp hx with rfl | hx
    · exact Or.inr hn
    · exact Or.inl hx

theorem addTail (hs : Lists l head seq) (hn : ∀ j, n ∉ head j :: seq j) (i : ι) :
    Lists (listAddTail l n (head i)) head (Function.update seq i (seq i ++ [n])) := by
  apply hs.update (listAddTail_ring (hs.ring i) (hn i))
  · exact fun j hji => listAddTail_other (hs.ring j) (hs.ring i) (hs.apart hji) (hn j)
  · intro x hx
    rcases List.mem_append.mp hx with hx | hx
    · exact Or.inl hx
    · rw [List.mem_singleton.mp hx]
      exact Or.inr hn

theorem delete (hs : Lists l head seq) (hn : n ∈ seq i) :
    Lists (listDelete l n) head (Function.update seq i ((seq i).erase n)) := by
  have hmem : n ∈ head i :: seq i := List.mem_cons_of_mem _ hn
  have hring : Ring (listDelete l n) (head i) ((seq i).erase n) := by
    obtain ⟨xs, ys, hnot, hsplit, herase⟩ := List.exists_erase_eq hn
    have hr := hs.ring i
    rw [hsplit] at hr
    rw [herase]
    exact listDelete_ring hr
  apply hs.update hring
  · exact fun j hji => listDelete_other (hs.ring j) (hs.ring i) (hs.apart hji) hmem
  · exact fun x hx => Or.inl (List.mem_of_mem_erase hx)

/-- A deleted node is on no list any more. -/
theorem not_mem_of_delete (hs : Lists l head seq) (hn : n ∈ seq i) (j : ι) :
    n ∉ head j :: Function.update seq i ((seq i).erase n) j := by
  by_cases hji : j = i
  · subst hji
    obtain ⟨hhead, hnodup⟩ := List.nodup_cons.mp (hs.ring j).nodup
    rw [Function.update_self, List.mem_cons, not_or]
    exact ⟨ne_of_mem_of_not_mem hn hhead, hnodup.not_mem_erase⟩
  · rw [Function.update_of_ne hji]
    exact hs.not_mem hji (List.mem_cons_of_mem _ hn)

/-- `ListDelete` and `ListAddTail`, which is how a block changes its list. -/
theorem move (hs : Lists l head seq) (hn : n ∈ seq i) (j : ι) :
    let seq' := Function.update seq i ((seq i).erase n)
    Lists (listAddTail (listDelete l n) n (head j)) head
      (Function.update seq' j (seq' j ++ [n])) :=
  (hs.delete hn).addTail (hs.not_mem_of_delete hn) j

end Lists

/-! ## The refinement -/

/-- The lists represent the sequences, to their readers too. -/
def Represent (l : Heap) (head : ι → Nat) (seq : ι → List Nat) : Prop :=
  Lists l head seq ∧ ∀ i, ListReads l (head i) (seq i)

theorem Lists.represent {l : Heap} {head : ι → Nat} {seq : ι → List Nat}
    (hs : Lists l head seq) : Represent l head seq :=
  ⟨hs, fun i => listReads_of_ring (hs.ring i)⟩

/-- A node that is on no list is put at the head or the tail of the sequence of its
list, a node that is on a list is taken out of its sequence, and the other sequences
stay. Before and after, readers see every list as its sequence. -/
theorem lists_refine_sequences [DecidableEq ι] {l : Heap} {head : ι → Nat} {seq : ι → List Nat}
    (hs : Lists l head seq) (n : Nat) :
    Represent l head seq ∧
      ((∀ j, n ∉ head j :: seq j) → ∀ i,
        Represent (listAddHead l n (head i)) head (Function.update seq i (n :: seq i)) ∧
          Represent (listAddTail l n (head i)) head (Function.update seq i (seq i ++ [n]))) ∧
      ∀ i, n ∈ seq i →
        Represent (listDelete l n) head (Function.update seq i ((seq i).erase n)) := by
  refine ⟨hs.represent, fun hn i => ⟨?_, ?_⟩, fun i hn => ?_⟩
  · exact (hs.addHead hn i).represent
  · exact (hs.addTail hn i).represent
  · exact (hs.delete hn).represent

/-- Two new lists, of which the first gets two nodes. -/
def twoLists : Heap :=
  listAddTail (listAddTail (listInit (listInit ⟨id, id⟩ 10) 20) 1 10) 2 10

def twoLists.head : Bool → Nat
  | false => 10
  | true => 20

def twoLists.seq : Bool → List Nat
  | false => [1, 2]
  | true => []

theorem twoLists_lists : Lists twoLists twoLists.head twoLists.seq := by
  constructor
  · intro i
    cases i with
    | false => exact ⟨⟨rfl, rfl, rfl, rfl, rfl, rfl⟩, by decide⟩
    | true => exact ⟨⟨rfl, rfl⟩, by decide⟩
  · intro i j hij
    cases i <;> cases j <;> simp_all [twoLists.head, twoLists.seq]

theorem lists_refine_sequences_two :
    Represent (listAddHead twoLists 3 20) twoLists.head
        (Function.update twoLists.seq true [3]) ∧
      Represent (listDelete twoLists 1) twoLists.head
        (Function.update twoLists.seq false [2]) := by
  constructor
  · have hnew : ∀ j, 3 ∉ twoLists.head j :: twoLists.seq j := by decide
    exact ((lists_refine_sequences twoLists_lists 3).2.1 hnew true).1
  · exact (lists_refine_sequences twoLists_lists 1).2.2 false (by decide)

end XfUtil
