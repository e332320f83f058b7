import Mathlib.Data.List.Nodup

/-!
# A queue with one consumer

Whatever has been pushed to a FIFO queue with one consumer is, in this order: what
the consumer is done with, what it is at, what is queued, and what was lost if the
queue has been given up. So the consumer is done with a job before it begins on
one that was pushed later.
-/

namespace Fifo

variable {α : Type*}

/-- What a single consumer has been through. -/
structure Serial (pushed past : List α) (current : Option α) (queued lost : List α) : Prop where
  split : pushed = past ++ (current.toList ++ (queued ++ lost))

variable {pushed past queued lost : List α} {current : Option α}

theorem Serial.new : Serial (α := α) [] [] none [] [] := ⟨rfl⟩

theorem Serial.push (h : Serial pushed past current queued []) (x : α) :
    Serial (pushed ++ [x]) past current (queued ++ [x]) [] :=
  ⟨by simp [h.split]⟩

theorem Serial.take {x : α} (h : Serial pushed past none (x :: queued) lost) :
    Serial pushed past (some x) queued lost :=
  ⟨by simp [h.split]⟩

theorem Serial.finish {x : α} (h : Serial pushed past (some x) queued lost) :
    Serial pushed (past ++ [x]) none queued lost :=
  ⟨by simp [h.split]⟩

theorem Serial.giveUp (h : Serial pushed past current queued []) :
    Serial pushed past current [] queued :=
  ⟨by simp [h.split]⟩

/-- The consumer has begun on everything that is neither queued nor lost. -/
theorem Serial.begun (h : Serial pushed past current queued lost) {x : α} (hx : x ∈ pushed)
    (hqueued : x ∉ queued) (hlost : x ∉ lost) : x ∈ past ∨ current = some x := by
  rw [h.split] at hx
  simpa [hqueued, hlost] using hx

/-- Two jobs that have been pushed have been pushed in one order or the other. -/
theorem pair_sublist_or {a b : α} {xs : List α} (ha : a ∈ xs) (hb : b ∈ xs) (hne : a ≠ b) :
    [a, b].Sublist xs ∨ [b, a].Sublist xs := by
  obtain ⟨before, after, rfl⟩ := List.append_of_mem ha
  rcases List.mem_append.mp hb with hb | hb
  · have htail : [a].Sublist (a :: after) := List.singleton_sublist.mpr List.mem_cons_self
    exact Or.inr ((List.singleton_sublist.mpr hb).append htail)
  · have hafter : b ∈ after := (List.mem_cons.mp hb).resolve_left hne.symm
    have hpair := (List.singleton_sublist.mpr hafter).cons_cons a
    exact Or.inl (hpair.trans (List.sublist_append_right before (a :: after)))

/-- Behind at most one job, only the later of two can be missing. -/
theorem mem_of_pair_sublist {a b : α} {o : Option α} {xs : List α}
    (h : [a, b].Sublist (o.toList ++ xs)) : b ∈ xs := by
  cases o with
  | none => exact h.mem (by simp)
  | some c =>
      have htail : [b].Sublist xs := h.tail
      exact htail.mem (by simp)

/-- Of two jobs pushed one after the other, the first is done when the consumer
has begun on the second. -/
theorem Serial.done_of_begun (h : Serial pushed past current queued lost)
    (hnd : pushed.Nodup) {a b : α} (hbefore : [a, b].Sublist pushed)
    (hb : b ∈ past ∨ current = some b) : a ∈ past := by
  rw [h.split] at hbefore hnd
  obtain ⟨l₁, l₂, heq, hleft, hright⟩ := List.sublist_append_iff.mp hbefore
  cases l₁ with
  | cons x l₁ =>
      obtain ⟨rfl, -⟩ := List.cons.inj heq
      exact hleft.mem (by simp)
  | nil =>
      -- Otherwise the second is behind the current job, and appears twice.
      obtain rfl : [a, b] = l₂ := heq
      have hlate := mem_of_pair_sublist hright
      rw [List.nodup_append] at hnd
      obtain ⟨-, hnd, hdisjoint⟩ := hnd
      rcases hb with hb | hb
      · exact absurd rfl (hdisjoint b hb b (List.mem_append_right _ hlate))
      · rw [hb, Option.toList_some, List.singleton_append, List.nodup_cons] at hnd
        exact absurd hlate hnd.1

end Fifo
