import Mathlib.Data.List.Basic

/-!
# A log that rolls over

Entries are added to the last of a sequence of files, and from time to time a new
last file is begun. Only the most recent files are kept; the others are lost as a
whole.
-/

namespace RollingLog

variable {α : Type*}

theorem exists_concat {files : List (List α)} (h : files ≠ []) :
    ∃ init last, files = init ++ [last] :=
  ⟨_, _, (List.dropLast_append_getLast h).symm⟩

/-- Add to the last file. -/
def addLast (files : List (List α)) (xs : List α) : List (List α) :=
  files.dropLast ++ [files.getLastD [] ++ xs]

@[simp] theorem addLast_concat (files : List (List α)) (last xs : List α) :
    addLast (files ++ [last]) xs = files ++ [last ++ xs] := by
  simp [addLast]

theorem addLast_append (front : List (List α)) {files : List (List α)} (h : files ≠ [])
    (xs : List α) : addLast (front ++ files) xs = front ++ addLast files xs := by
  obtain ⟨init, last, rfl⟩ := exists_concat h
  rw [← List.append_assoc, addLast_concat, addLast_concat, List.append_assoc]

theorem addLast_nil {files : List (List α)} (h : files ≠ []) : addLast files [] = files := by
  obtain ⟨init, last, rfl⟩ := exists_concat h
  simp

theorem addLast_ne_nil (files : List (List α)) (xs : List α) : addLast files xs ≠ [] := by
  simp [addLast]

theorem length_addLast {files : List (List α)} (h : files ≠ []) (xs : List α) :
    (addLast files xs).length = files.length := by
  obtain ⟨init, last, rfl⟩ := exists_concat h
  simp

theorem flatten_addLast (files : List (List α)) (xs : List α) :
    (addLast files xs).flatten = files.flatten ++ xs := by
  rcases List.eq_nil_or_concat files with rfl | ⟨init, last, rfl⟩
  · simp [addLast]
  · simp

theorem drop_addLast {files : List (List α)} {k : Nat} (h : k < files.length) (xs : List α) :
    (addLast files xs).drop k = addLast (files.drop k) xs := by
  have hne : files.drop k ≠ [] := by simpa using h
  have htake : (files.take k).length = k := by simp; omega
  conv_lhs => rw [← List.take_append_drop k files, addLast_append _ hne]
  rw [List.drop_left' htake]

/-- Adding all of a group of entries to the last file. -/
theorem map_flatten_addLast {groups : List (List (List α))} (h : groups ≠ []) (xs : List α) :
    (addLast groups [xs]).map List.flatten = addLast (groups.map List.flatten) xs := by
  obtain ⟨init, last, rfl⟩ := exists_concat h
  simp

/-- All files there have been: those of the beginning, the last of them continued by
the first of `added`, and a file for each other element of `added`. -/
def history (old : List (List α)) : List (List α) → List (List α)
  | [] => old
  | xs :: added => addLast old xs ++ added

theorem history_addLast {old added : List (List α)} (h : added ≠ []) (hold : old ≠ [])
    (xs : List α) : history old (addLast added xs) = addLast (history old added) xs := by
  cases added with
  | nil => exact absurd rfl h
  | cons first added =>
      by_cases hadded : added = []
      · obtain ⟨init, last, rfl⟩ := exists_concat hold
        simp [hadded, addLast, history]
      · obtain ⟨init, last, rfl⟩ := exists_concat hadded
        rw [← List.cons_append, addLast_concat]
        simp only [List.cons_append, history]
        rw [addLast_append _ hadded, addLast_concat]

theorem history_concat {old added : List (List α)} (h : added ≠ []) (xs : List α) :
    history old (added ++ [xs]) = history old added ++ [xs] := by
  cases added with
  | nil => exact absurd rfl h
  | cons first added => simp [history]

theorem length_history {old added : List (List α)} (h : added ≠ []) (hold : old ≠ []) :
    (history old added).length + 1 = old.length + added.length := by
  cases added with
  | nil => exact absurd rfl h
  | cons first added =>
      simp [history, length_addLast hold]
      omega

theorem flatten_history (old added : List (List α)) :
    (history old added).flatten = old.flatten ++ added.flatten := by
  cases added with
  | nil => simp [history]
  | cons first added => simp [history, flatten_addLast]

/-! ## What is kept -/

/-- `files` is what is left of `old` and of what has been added after `rolled` new
files have been begun, each at the cost of the oldest. -/
structure Kept (old files added : List (List α)) (rolled : Nat) : Prop where
  begun : added.length = rolled + 1
  kept : files = (history old added).drop rolled

variable {old files added : List (List α)} {rolled : Nat}

theorem Kept.start (hold : old ≠ []) : Kept old old [[]] 0 :=
  ⟨rfl, by simp [history, addLast_nil hold]⟩

theorem Kept.added_ne_nil (h : Kept old files added rolled) : added ≠ [] :=
  List.ne_nil_of_length_pos (by have := h.begun; omega)

theorem Kept.rolled_lt (h : Kept old files added rolled) (hold : old ≠ []) :
    rolled < (history old added).length := by
  have hlen := length_history h.added_ne_nil hold
  have hpos := List.length_pos_of_ne_nil hold
  have := h.begun
  omega

theorem Kept.add (h : Kept old files added rolled) (hold : old ≠ []) (xs : List α) :
    Kept old (addLast files xs) (addLast added xs) rolled where
  begun := (length_addLast h.added_ne_nil xs).trans h.begun
  kept := by
    rw [history_addLast h.added_ne_nil hold, drop_addLast (h.rolled_lt hold), h.kept]

theorem Kept.roll (h : Kept old files added rolled) (hold : old ≠ []) :
    Kept old (files.tail ++ [[]]) (added ++ [[]]) (rolled + 1) where
  begun := by simp [h.begun]
  kept := by
    have hlt := h.rolled_lt hold
    rw [history_concat h.added_ne_nil, List.drop_append_of_le_length hlt, h.kept, List.tail_drop]

/-- Nothing but whole old files is lost. -/
theorem Kept.suffix (h : Kept old files added rolled) :
    files.flatten <:+ old.flatten ++ added.flatten := by
  rw [← flatten_history, h.kept]
  refine ⟨((history old added).take rolled).flatten, ?_⟩
  rw [← List.flatten_append, List.take_append_drop]

end RollingLog
