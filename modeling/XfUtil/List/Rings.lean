import XfUtil.List.Model

/-!
# The intrusive list on rings

What each function does to the sequence of its list, and that it leaves every
list without the nodes concerned alone.
-/

namespace XfUtil

open Links

variable {l : Heap} {h n : Nat} {xs ys : List Nat}

theorem listInit_ring (l : Heap) (list : Nat) : Ring (listInit l list) list [] :=
  ⟨by simp [Segment, listInit], by simp⟩

theorem listInit_other (hr : Ring l h xs) {list : Nat} (hne : list ∉ h :: xs) :
    Ring (listInit l list) h xs := by
  have hx : ∀ x ∈ h :: xs, x ≠ list := fun x hx heq => hne (heq ▸ hx)
  refine hr.frame (fun x hmem => ?_) fun x hmem => ?_
  · simp [listInit, hx x hmem]
  · simp [listInit, hx x hmem]

theorem listEmtpy_iff (hr : Ring l h xs) : listEmtpy l h = true ↔ xs = [] := by
  rw [listEmtpy, decide_eq_true_eq]
  exact hr.next_eq_head_iff

theorem listHead_eq {x : Nat} (hr : Ring l h (x :: xs)) : listHead l h = x := hr.segment.1

theorem listTail_eq {x : Nat} (hr : Ring l h (xs ++ [x])) : listTail l h = x :=
  (segment_append.mp hr.segment).2.2

theorem listInsert_next (l : Heap) (n a b x : Nat) :
    (listInsert_ l n a b).next x = if x = a then n else if x = n then b else l.next x := by
  simp [listInsert_]

theorem listInsert_prev (l : Heap) (n a b x : Nat) :
    (listInsert_ l n a b).prev x = if x = n then a else if x = b then n else l.prev x := by
  simp [listInsert_]

theorem listAddHead_ring (hr : Ring l h xs) (hn : n ∉ h :: xs) :
    Ring (listAddHead l n h) h (n :: xs) := by
  have hne : n ≠ h := fun heq => hn (by simp [heq])
  have hnext : l.next h ≠ n := fun heq => hn (heq ▸ (hr.neighbours_mem List.mem_cons_self).1)
  refine hr.insert_first hn (fun x hxh hxn => ?_) (fun x hxf hxn => ?_) ?_ ?_ ?_ ?_
  · simp [listAddHead, listInsert_next, hxh, hxn]
  · simp [listAddHead, listInsert_prev, hxf, hxn]
  · simp [listAddHead, listInsert_next]
  · simp [listAddHead, listInsert_prev]
  · simp [listAddHead, listInsert_next, hne]
  · simp [listAddHead, listInsert_prev, hnext]

theorem listAddTail_ring (hr : Ring l h xs) (hn : n ∉ h :: xs) :
    Ring (listAddTail l n h) h (xs ++ [n]) := by
  have hne : h ≠ n := fun heq => hn (by simp [heq])
  have hprev : n ≠ l.prev h := fun heq => hn (heq ▸ (hr.neighbours_mem List.mem_cons_self).2)
  refine hr.insert_last hn (fun x hxl hxn => ?_) (fun x hxh hxn => ?_) ?_ ?_ ?_ ?_
  · simp [listAddTail, listInsert_next, hxl, hxn]
  · simp [listAddTail, listInsert_prev, hxh, hxn]
  · simp [listAddTail, listInsert_prev, hne]
  · simp [listAddTail, listInsert_next, hprev]
  · simp [listAddTail, listInsert_next]
  · simp [listAddTail, listInsert_prev]

theorem listDelete_ring (hr : Ring l h (xs ++ n :: ys)) : Ring (listDelete l n) h (xs ++ ys) := by
  refine hr.remove (fun x hx => ?_) (fun x hx => ?_) ?_ ?_
  · simp [listDelete, listDelete_, hx]
  · simp [listDelete, listDelete_, hx]
  · simp [listDelete, listDelete_]
  · simp [listDelete, listDelete_]

/-- Linking a node between two nodes of one ring leaves a ring apart from both alone. -/
theorem listInsert_other (hr : Ring l h xs) {a b : Nat} (hn : n ∉ h :: xs) (ha : a ∉ h :: xs)
    (hb : b ∉ h :: xs) : Ring (listInsert_ l n a b) h xs := by
  refine hr.frame (fun x hx => ?_) fun x hx => ?_
  · rw [listInsert_next, if_neg (ne_of_mem_of_not_mem hx ha), if_neg (ne_of_mem_of_not_mem hx hn)]
  · rw [listInsert_prev, if_neg (ne_of_mem_of_not_mem hx hn), if_neg (ne_of_mem_of_not_mem hx hb)]

section Other

variable {h' : Nat} (ho : Ring l h' ys) (hr : Ring l h xs) (hdis : (h' :: ys).Disjoint (h :: xs))
include ho hr hdis

theorem listAddHead_other (hn : n ∉ h' :: ys) : Ring (listAddHead l n h) h' ys :=
  listInsert_other ho hn (fun hmem => hdis hmem List.mem_cons_self)
    fun hmem => hdis hmem (hr.neighbours_mem List.mem_cons_self).1

theorem listAddTail_other (hn : n ∉ h' :: ys) : Ring (listAddTail l n h) h' ys :=
  listInsert_other ho hn (fun hmem => hdis hmem (hr.neighbours_mem List.mem_cons_self).2)
    fun hmem => hdis hmem List.mem_cons_self

theorem listDelete_other (hn : n ∈ h :: xs) : Ring (listDelete l n) h' ys := by
  obtain ⟨hnext, hprev⟩ := hr.neighbours_mem hn
  refine ho.frame (fun x hx => ?_) fun x hx => ?_
  · have hne : x ≠ l.prev n := fun heq => hdis hx (heq ▸ hprev)
    simp [listDelete, listDelete_, hne]
  · have hne : x ≠ l.next n := fun heq => hdis hx (heq ▸ hnext)
    simp [listDelete, listDelete_, hne]

end Other

end XfUtil
