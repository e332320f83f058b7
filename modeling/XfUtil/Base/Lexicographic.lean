import Mathlib.Data.List.Basic

/-!
# Lexicographic order

Lists are compared at the first place where they differ, and a proper prefix comes
first. The longest common prefix says where that place is.
-/

namespace Lexicographic

variable {α : Type*} [LT α]

/-- Lists with fronts of one length: the fronts decide unless they are equal. -/
theorem append_lt_append_iff {xs ys : List α} (h : xs.length = ys.length) (xs' ys' : List α) :
    xs ++ xs' < ys ++ ys' ↔ xs < ys ∨ xs = ys ∧ xs' < ys' := by
  induction xs generalizing ys with
  | nil =>
      obtain rfl : ys = [] := List.eq_nil_of_length_eq_zero h.symm
      simp
  | cons x xs ih =>
      cases ys with
      | nil => simp at h
      | cons y ys =>
          have hlength : xs.length = ys.length := Nat.succ.inj h
          rw [List.cons_append, List.cons_append, List.cons_lt_cons_iff, List.cons_lt_cons_iff,
            ih hlength, List.cons.injEq]
          constructor
          · intro hlt
            rcases hlt with hlt | ⟨heq, hlt | ⟨hxs, hlt⟩⟩
            · exact Or.inl (Or.inl hlt)
            · exact Or.inl (Or.inr ⟨heq, hlt⟩)
            · exact Or.inr ⟨⟨heq, hxs⟩, hlt⟩
          · intro hlt
            rcases hlt with (hlt | ⟨heq, hlt⟩) | ⟨⟨heq, hxs⟩, hlt⟩
            · exact Or.inl hlt
            · exact Or.inr ⟨heq, Or.inl hlt⟩
            · exact Or.inr ⟨heq, Or.inr ⟨hxs, hlt⟩⟩

theorem append_cons_lt_append_cons_iff [Std.Irrefl (· < · : α → α → Prop)] {xs ys : List α}
    (h : xs.length = ys.length) (c : α) (xs' ys' : List α) :
    xs ++ c :: xs' < ys ++ c :: ys' ↔ xs < ys ∨ xs = ys ∧ xs' < ys' := by
  rw [append_lt_append_iff h, List.cons_lt_cons_self]

/-- As far as the shorter list goes they are compared in full, and then by their lengths. -/
theorem lt_iff_take (xs ys : List α) {n : Nat} (hn : n = min xs.length ys.length) :
    xs < ys ↔ xs.take n < ys.take n ∨ xs.take n = ys.take n ∧ xs.length < ys.length := by
  have hlength : (xs.take n).length = (ys.take n).length := by
    rw [List.length_take, List.length_take]
    omega
  have hsplit := append_lt_append_iff hlength (xs.drop n) (ys.drop n)
  rw [List.take_append_drop, List.take_append_drop] at hsplit
  rw [hsplit]
  -- Behind that place one of the lists has ended.
  have hrest : xs.drop n < ys.drop n ↔ xs.length < ys.length := by
    rcases Nat.lt_or_ge xs.length ys.length with hlt | hge
    · have hleft : ys.drop n ≠ [] := by
        rw [ne_eq, List.drop_eq_nil_iff]
        omega
      obtain ⟨y, rest, hy⟩ := List.exists_cons_of_ne_nil hleft
      rw [List.drop_eq_nil_of_le (by omega : xs.length ≤ n), hy]
      exact iff_of_true (List.nil_lt_cons y rest) hlt
    · rw [List.drop_eq_nil_of_le (by omega : ys.length ≤ n)]
      exact iff_of_false (List.not_lt_nil _) (by omega)
  rw [hrest]

/-! ## The longest common prefix -/

section

variable {α : Type*} [DecidableEq α]

def commonPrefix : List α → List α → Nat
  | x :: xs, y :: ys => if x = y then commonPrefix xs ys + 1 else 0
  | _, _ => 0

/-- Two lists are one front of that length, and behind it they differ at once. -/
theorem split_commonPrefix (xs ys : List α) :
    ∃ front xs' ys', xs = front ++ xs' ∧ ys = front ++ ys' ∧
      front.length = commonPrefix xs ys ∧ ∀ a ∈ xs'.head?, ∀ b ∈ ys'.head?, a ≠ b := by
  induction xs generalizing ys with
  | nil => exact ⟨[], [], ys, rfl, rfl, by cases ys <;> rfl, by simp⟩
  | cons x xs ih =>
      cases ys with
      | nil => exact ⟨[], x :: xs, [], rfl, rfl, rfl, by simp⟩
      | cons y ys =>
          by_cases h : x = y
          · obtain ⟨front, xs', ys', rfl, rfl, hlength, hdiffer⟩ := ih ys
            refine ⟨x :: front, xs', ys', rfl, by rw [h]; rfl, ?_, hdiffer⟩
            rw [commonPrefix, if_pos h, List.length_cons, hlength]
          · refine ⟨[], x :: xs, y :: ys, rfl, rfl, ?_, by simpa using h⟩
            rw [commonPrefix, if_neg h, List.length_nil]

theorem commonPrefix_le (xs ys : List α) :
    commonPrefix xs ys ≤ xs.length ∧ commonPrefix xs ys ≤ ys.length := by
  obtain ⟨front, xs', ys', hx, hy, hlength, -⟩ := split_commonPrefix xs ys
  rw [← hlength, hx, hy, List.length_append, List.length_append]
  exact ⟨Nat.le_add_right .., Nat.le_add_right ..⟩

theorem commonPrefix_comm (xs ys : List α) : commonPrefix xs ys = commonPrefix ys xs := by
  induction xs generalizing ys with
  | nil => cases ys <;> rfl
  | cons x xs ih =>
      cases ys with
      | nil => rfl
      | cons y ys => simp only [commonPrefix, ih ys, eq_comm]

theorem take_eq_take_iff {xs ys : List α} {k : Nat} (hx : k ≤ xs.length) (hy : k ≤ ys.length) :
    xs.take k = ys.take k ↔ k ≤ commonPrefix xs ys := by
  induction k generalizing xs ys with
  | zero => simp
  | succ k ih =>
      cases xs with
      | nil => simp at hx
      | cons x xs =>
          cases ys with
          | nil => simp at hy
          | cons y ys =>
              rw [List.take_succ_cons, List.take_succ_cons, List.cons.injEq, commonPrefix,
                ih (Nat.le_of_succ_le_succ hx) (Nat.le_of_succ_le_succ hy)]
              by_cases h : x = y
              · simp [h]
              · simp [h]

theorem commonPrefix_take (xs ys : List α) {n : Nat} (h : commonPrefix xs ys ≤ n) :
    commonPrefix (xs.take n) (ys.take n) = commonPrefix xs ys := by
  induction n generalizing xs ys with
  | zero =>
      rw [List.take_zero, List.take_zero]
      exact (Nat.le_zero.mp h).symm
  | succ n ih =>
      cases xs with
      | nil => rfl
      | cons x xs =>
          cases ys with
          | nil => rfl
          | cons y ys =>
              rw [commonPrefix] at h
              rw [List.take_succ_cons, List.take_succ_cons, commonPrefix, commonPrefix]
              by_cases heq : x = y
              · rw [if_pos heq] at h
                rw [if_pos heq, if_pos heq, ih xs ys (Nat.le_of_succ_le_succ h)]
              · rw [if_neg heq, if_neg heq]

end

end Lexicographic
