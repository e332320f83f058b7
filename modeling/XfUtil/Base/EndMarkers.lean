import Mathlib.Data.List.Basic

/-!
# Closing a queue by end markers

Workers share a FIFO queue of jobs, and each leaves on popping an end marker,
`none`. If there are as many markers as workers and every job is pushed before
the last marker, the queue is empty when the last worker has left.
-/

namespace EndMarkers

variable {α : Type*}

/-- `workers` share the queue, `sent` markers have been pushed, `gone` workers have left. -/
structure Draining (workers sent : Nat) (queue : List (Option α)) (gone : Nat) : Prop where
  balance : queue.countP Option.isNone + gone = sent
  sent_le : sent ≤ workers
  closed : sent = workers → ∀ x, queue.getLast? ≠ some (some x)

variable {workers sent gone : Nat} {queue : List (Option α)}

theorem Draining.new (workers : Nat) : Draining (α := α) workers 0 [] 0 :=
  ⟨rfl, Nat.zero_le _, by simp⟩

theorem Draining.push_job (h : Draining workers sent queue gone) (hopen : sent < workers) (x : α) :
    Draining workers sent (queue ++ [some x]) gone := by
  refine ⟨?_, h.sent_le, fun heq => ?_⟩
  · rw [List.countP_append]
    exact h.balance
  · omega

theorem Draining.push_marker (h : Draining workers sent queue gone) (hopen : sent < workers) :
    Draining workers (sent + 1) (queue ++ [none]) gone := by
  have hbalance := h.balance
  refine ⟨?_, hopen, fun _ x => ?_⟩
  · rw [List.countP_append, List.countP_singleton]
    simp
    omega
  · simp

theorem Draining.pop (h : Draining workers sent queue gone) {o : Option α}
    {rest : List (Option α)} (hq : queue = o :: rest) :
    Draining workers sent rest (gone + if o.isNone then 1 else 0) := by
  have hbalance := h.balance
  subst hq
  rw [List.countP_cons] at hbalance
  refine ⟨by omega, h.sent_le, fun heq x hx => ?_⟩
  cases rest with
  | nil => simp at hx
  | cons o' rest => exact h.closed heq x (by rwa [List.getLast?_cons_cons])

/-- All workers have left: nothing is in the queue any more. -/
theorem Draining.drained (h : Draining workers sent queue gone) (hgone : gone = workers) :
    queue = [] := by
  have hbalance := h.balance
  have hle := h.sent_le
  have hcount : queue.countP Option.isNone = 0 := by omega
  cases hlast : queue.getLast? with
  | none => exact List.getLast?_eq_none_iff.mp hlast
  | some o =>
      cases o with
      | some x => exact absurd hlast (h.closed (by omega) x)
      | none =>
          have hmem := List.mem_of_getLast? hlast
          have hno := List.countP_eq_zero.mp hcount none hmem
          simp at hno

end EndMarkers
