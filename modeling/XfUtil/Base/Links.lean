import Mathlib.Data.List.Nodup
import Mathlib.Logic.Function.Basic

/-!
# Linked structures in a heap of pointers

A chain is a null-terminated singly linked list. A segment is a doubly linked
stretch between two nodes, and a ring is a segment from a head node back to it.
Rings change by redirecting the first or the last link of a segment.
-/

namespace Links

/-! ## Chains -/

/-- From `p` on, `next` runs through `xs` and ends at null. -/
def Chain (next : Nat → Nat) : Nat → List Nat → Prop
  | p, [] => p = 0
  | p, x :: xs => p = x ∧ x ≠ 0 ∧ Chain next (next x) xs

theorem Chain.frame {next next' : Nat → Nat} {p : Nat} {xs : List Nat} (h : Chain next p xs)
    (hsame : ∀ x ∈ xs, next' x = next x) : Chain next' p xs := by
  induction xs generalizing p with
  | nil => exact h
  | cons x xs ih =>
      obtain ⟨rfl, hne, htail⟩ := h
      refine ⟨rfl, hne, ?_⟩
      rw [hsame p List.mem_cons_self]
      exact ih htail fun y hy => hsame y (List.mem_cons_of_mem _ hy)

theorem Chain.eq_zero_iff {next : Nat → Nat} {p : Nat} {xs : List Nat} (h : Chain next p xs) :
    p = 0 ↔ xs = [] := by
  cases xs with
  | nil => exact iff_of_true h rfl
  | cons x xs => exact iff_of_false (h.1 ▸ h.2.1) (List.cons_ne_nil x xs)

/-! ## Segments -/

/-- The two links of every node. -/
structure Heap where
  next : Nat → Nat
  prev : Nat → Nat

namespace Heap

def setNext (l : Heap) (a b : Nat) : Heap := { l with next := Function.update l.next a b }

def setPrev (l : Heap) (a b : Nat) : Heap := { l with prev := Function.update l.prev a b }

@[simp] theorem setNext_next (l : Heap) (a b x : Nat) :
    (l.setNext a b).next x = if x = a then b else l.next x := Function.update_apply ..

@[simp] theorem setNext_prev (l : Heap) (a b : Nat) : (l.setNext a b).prev = l.prev := rfl

@[simp] theorem setPrev_next (l : Heap) (a b : Nat) : (l.setPrev a b).next = l.next := rfl

@[simp] theorem setPrev_prev (l : Heap) (a b x : Nat) :
    (l.setPrev a b).prev x = if x = a then b else l.prev x := Function.update_apply ..

end Heap

/-- From `a` the links run forward through `xs` to `b`, and backward the same way. -/
def Segment (l : Heap) : Nat → List Nat → Nat → Prop
  | a, [], b => l.next a = b ∧ l.prev b = a
  | a, x :: xs, b => l.next a = x ∧ l.prev x = a ∧ Segment l x xs b

variable {l l' : Heap} {a b n : Nat} {xs ys : List Nat}

theorem segment_append {x : Nat} :
    Segment l a (xs ++ x :: ys) b ↔ Segment l a xs x ∧ Segment l x ys b := by
  induction xs generalizing a with
  | nil => simp [Segment, and_assoc]
  | cons y xs ih => simp [Segment, ih, and_assoc]

theorem Segment.frame (h : Segment l a xs b) (hnext : ∀ x ∈ a :: xs, l'.next x = l.next x)
    (hprev : ∀ x ∈ xs ++ [b], l'.prev x = l.prev x) : Segment l' a xs b := by
  induction xs generalizing a with
  | nil => exact ⟨(hnext a (by simp)).trans h.1, (hprev b (by simp)).trans h.2⟩
  | cons y xs ih =>
      obtain ⟨hay, hya, hrest⟩ := h
      refine ⟨(hnext a (by simp)).trans hay, (hprev y (by simp)).trans hya, ih hrest ?_ ?_⟩
      · exact fun x hx => hnext x (List.mem_cons_of_mem _ hx)
      · exact fun x hx => hprev x (List.mem_cons_of_mem _ hx)

/-- The last node before the end is on the segment. -/
theorem Segment.prev_mem (h : Segment l a xs b) : l.prev b ∈ a :: xs := by
  induction xs generalizing a with
  | nil => simp [h.2]
  | cons y xs ih => exact List.mem_cons_of_mem _ (ih h.2.2)

/-- The first node after the start is on the segment. -/
theorem Segment.next_mem (h : Segment l a xs b) : l.next a ∈ xs ++ [b] := by
  cases xs with
  | nil => simp [h.1]
  | cons y xs => simp [h.1]

theorem Segment.prev_next (h : Segment l a xs b) : ∀ x ∈ a :: xs, l.prev (l.next x) = x := by
  induction xs generalizing a with
  | nil =>
      intro x hx
      rw [List.mem_singleton.mp hx, h.1, h.2]
  | cons y xs ih =>
      obtain ⟨hay, hya, hrest⟩ := h
      intro x hx
      rcases List.mem_cons.mp hx with rfl | hx
      · rw [hay, hya]
      · exact ih hrest x hx

theorem Segment.next_prev (h : Segment l a xs b) : ∀ x ∈ xs ++ [b], l.next (l.prev x) = x := by
  induction xs generalizing a with
  | nil =>
      intro x hx
      rw [List.mem_singleton.mp hx, h.2, h.1]
  | cons y xs ih =>
      obtain ⟨hay, hya, hrest⟩ := h
      intro x hx
      rcases List.mem_cons.mp hx with rfl | hx
      · rw [hya, hay]
      · exact ih hrest x hx

/-- Let the last node lead to `c` in place of `b`. -/
theorem Segment.redirect_end {c : Nat} (h : Segment l a xs b) (hnd : (a :: xs).Nodup)
    (hnext : ∀ x ∈ a :: xs, x ≠ l.prev b → l'.next x = l.next x)
    (hprev : ∀ x ∈ xs, l'.prev x = l.prev x) (hlast : l'.next (l.prev b) = c)
    (hback : l'.prev c = l.prev b) : Segment l' a xs c := by
  induction xs generalizing a with
  | nil =>
      rw [h.2] at hlast hback
      exact ⟨hlast, hback⟩
  | cons y xs ih =>
      obtain ⟨hay, hya, hrest⟩ := h
      have ha : a ≠ l.prev b := by
        rintro rfl
        exact (List.nodup_cons.mp hnd).1 hrest.prev_mem
      refine ⟨(hnext a (by simp) ha).trans hay, (hprev y (by simp)).trans hya,
        ih hrest (List.nodup_cons.mp hnd).2 ?_ ?_⟩
      · exact fun x hx => hnext x (List.mem_cons_of_mem _ hx)
      · exact fun x hx => hprev x (List.mem_cons_of_mem _ hx)

/-- Let `c` lead to the first node in place of `a`. -/
theorem Segment.redirect_start {c : Nat} (h : Segment l a xs b) (hnd : (xs ++ [b]).Nodup)
    (hnext : ∀ x ∈ xs, l'.next x = l.next x)
    (hprev : ∀ x ∈ xs ++ [b], x ≠ l.next a → l'.prev x = l.prev x)
    (hfirst : l'.next c = l.next a) (hback : l'.prev (l.next a) = c) : Segment l' c xs b := by
  cases xs with
  | nil =>
      rw [h.1] at hfirst hback
      exact ⟨hfirst, hback⟩
  | cons y xs =>
      obtain ⟨hay, -, hrest⟩ := h
      rw [hay] at hfirst hback hprev
      refine ⟨hfirst, hback, hrest.frame hnext fun x hx => ?_⟩
      refine hprev x (List.mem_cons_of_mem _ hx) ?_
      rintro rfl
      exact (List.nodup_cons.mp hnd).1 hx

/-! ## Rings -/

/-- A circular list: its head node `h` and then `xs`, in the order of `next`. -/
structure Ring (l : Heap) (h : Nat) (xs : List Nat) : Prop where
  segment : Segment l h xs h
  nodup : (h :: xs).Nodup

variable {h : Nat}

theorem Ring.nodup_concat (hr : Ring l h xs) : (xs ++ [h]).Nodup :=
  (List.perm_append_singleton h xs).nodup_iff.mpr hr.nodup

theorem Ring.frame (hr : Ring l h xs) (hnext : ∀ x ∈ h :: xs, l'.next x = l.next x)
    (hprev : ∀ x ∈ h :: xs, l'.prev x = l.prev x) : Ring l' h xs :=
  ⟨hr.segment.frame hnext fun x hx => hprev x ((List.perm_append_singleton h xs).mem_iff.mp hx),
    hr.nodup⟩

/-- Both neighbours of a node are on its ring. -/
theorem Ring.neighbours_mem (hr : Ring l h xs) {x : Nat} (hx : x ∈ h :: xs) :
    l.next x ∈ h :: xs ∧ l.prev x ∈ h :: xs := by
  rcases List.mem_cons.mp hx with rfl | hx
  · exact ⟨(List.perm_append_singleton x xs).mem_iff.mp hr.segment.next_mem, hr.segment.prev_mem⟩
  · obtain ⟨ys, zs, rfl⟩ := List.append_of_mem hx
    obtain ⟨hleft, hright⟩ := segment_append.mp hr.segment
    constructor
    · have hmem := hright.next_mem
      simp only [List.mem_append, List.mem_cons] at hmem ⊢
      tauto
    · have hmem := hleft.prev_mem
      simp only [List.mem_append, List.mem_cons] at hmem ⊢
      tauto

/-- Around a ring the two links of a node undo each other. -/
theorem Ring.inverse (hr : Ring l h xs) {x : Nat} (hx : x ∈ h :: xs) :
    l.prev (l.next x) = x ∧ l.next (l.prev x) = x :=
  ⟨hr.segment.prev_next x hx,
    hr.segment.next_prev x ((List.perm_append_singleton h xs).mem_iff.mpr hx)⟩

theorem Ring.next_eq_head_iff (hr : Ring l h xs) : l.next h = h ↔ xs = [] := by
  cases xs with
  | nil => exact iff_of_true hr.segment.1 rfl
  | cons x xs =>
      refine iff_of_false ?_ (List.cons_ne_nil x xs)
      rw [hr.segment.1]
      rintro rfl
      exact (List.nodup_cons.mp hr.nodup).1 List.mem_cons_self

/-- A new node after the head. -/
theorem Ring.insert_first (hr : Ring l h xs) (hn : n ∉ h :: xs)
    (hnext : ∀ x, x ≠ h → x ≠ n → l'.next x = l.next x)
    (hprev : ∀ x, x ≠ l.next h → x ≠ n → l'.prev x = l.prev x) (hh : l'.next h = n)
    (hn' : l'.prev n = h) (hfirst : l'.next n = l.next h) (hback : l'.prev (l.next h) = n) :
    Ring l' h (n :: xs) := by
  have hne : ∀ x ∈ h :: xs, x ≠ n := fun x hx heq => hn (heq ▸ hx)
  have hxs : ∀ x ∈ xs, x ≠ h := by
    rintro x hx rfl
    exact (List.nodup_cons.mp hr.nodup).1 hx
  refine ⟨⟨hh, hn', hr.segment.redirect_start hr.nodup_concat ?_ ?_ hfirst hback⟩, ?_⟩
  · exact fun x hx => hnext x (hxs x hx) (hne x (List.mem_cons_of_mem _ hx))
  · intro x hx hxf
    exact hprev x hxf (hne x ((List.perm_append_singleton h xs).mem_iff.mp hx))
  · exact (List.Perm.swap h n xs).nodup_iff.mp (List.nodup_cons.mpr ⟨hn, hr.nodup⟩)

/-- A new node before the head, that is, at the end. -/
theorem Ring.insert_last (hr : Ring l h xs) (hn : n ∉ h :: xs)
    (hnext : ∀ x, x ≠ l.prev h → x ≠ n → l'.next x = l.next x)
    (hprev : ∀ x, x ≠ h → x ≠ n → l'.prev x = l.prev x) (hh : l'.prev h = n)
    (hn' : l'.next n = h) (hlast : l'.next (l.prev h) = n) (hback : l'.prev n = l.prev h) :
    Ring l' h (xs ++ [n]) := by
  have hne : ∀ x ∈ h :: xs, x ≠ n := fun x hx heq => hn (heq ▸ hx)
  have hxs : ∀ x ∈ xs, x ≠ h := by
    rintro x hx rfl
    exact (List.nodup_cons.mp hr.nodup).1 hx
  refine ⟨segment_append.mpr ⟨hr.segment.redirect_end hr.nodup ?_ ?_ hlast hback, hn', hh⟩, ?_⟩
  · exact fun x hx hxl => hnext x hxl (hne x hx)
  · exact fun x hx => hprev x (hxs x hx) (hne x (List.mem_cons_of_mem _ hx))
  · have hperm := List.perm_append_singleton n (h :: xs)
    exact hperm.nodup_iff.mpr (List.nodup_cons.mpr ⟨hn, hr.nodup⟩)

/-- Bridging the gap around a node takes it out. -/
theorem Ring.remove (hr : Ring l h (xs ++ n :: ys))
    (hnext : ∀ x, x ≠ l.prev n → l'.next x = l.next x)
    (hprev : ∀ x, x ≠ l.next n → l'.prev x = l.prev x)
    (hforth : l'.next (l.prev n) = l.next n) (hback : l'.prev (l.next n) = l.prev n) :
    Ring l' h (xs ++ ys) := by
  obtain ⟨hleft, hright⟩ := segment_append.mp hr.segment
  have hnd : ((h :: xs) ++ n :: ys).Nodup := hr.nodup
  have hdisj := (List.nodup_append.mp hnd).2.2
  have hnd' : (h :: (xs ++ ys)).Nodup :=
    hnd.sublist ((List.sublist_cons_self n ys).append_left (h :: xs))
  have hto : Segment l' h xs (l.next n) := by
    refine hleft.redirect_end (List.nodup_append.mp hnd).1 (fun x _ hx => hnext x hx)
      (fun x hx => hprev x ?_) hforth hback
    rintro rfl
    rcases List.mem_append.mp hright.next_mem with hys | hh
    · exact hdisj _ (List.mem_cons_of_mem _ hx) _ (List.mem_cons_of_mem _ hys) rfl
    · rw [List.mem_singleton] at hh
      rw [hh] at hx
      exact (List.nodup_cons.mp (List.nodup_append.mp hnd).1).1 hx
  refine ⟨?_, hnd'⟩
  cases ys with
  | nil =>
      rw [hright.1] at hto
      simpa using hto
  | cons y ys =>
      obtain ⟨hny, -, hrest⟩ := hright
      rw [hny] at hto hprev
      refine segment_append.mpr ⟨hto, hrest.frame (fun x hx => hnext x ?_) fun x hx => hprev x ?_⟩
      · rintro rfl
        exact hdisj _ hleft.prev_mem _ (List.mem_cons_of_mem _ hx) rfl
      · rintro rfl
        rcases List.mem_append.mp hx with hx | hx
        · have hys := (List.nodup_append.mp hnd).2.1
          exact (List.nodup_cons.mp (List.nodup_cons.mp hys).2).1 hx
        · rw [List.mem_singleton] at hx
          exact hdisj h (by simp) x (by simp) hx.symm

end Links
