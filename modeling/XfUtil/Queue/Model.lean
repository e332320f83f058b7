import Mathlib.Data.BitVec

/-!
# `BlockingQueue`

The deque and its capacity. `Push` and `Pop` are given by the critical section
that completes them; `none` means that the call waits instead.
-/

namespace XfUtil

structure BlockingQueue (α : Type*) where
  queue : List α
  capacity : BitVec 64
deriving Repr, DecidableEq

namespace BlockingQueue

variable {α : Type*}

/-- The constructor with its default capacity, `(uint64_t)-1`. -/
def new : BlockingQueue α := ⟨[], -1#64⟩

/-- `Push`, once there is room. -/
def push (q : BlockingQueue α) (v : α) : Option (BlockingQueue α) :=
  if q.capacity.toNat ≤ q.queue.length then none
  else some { q with queue := q.queue ++ [v] }

/-- `Pop`, once there is an element. -/
def pop (q : BlockingQueue α) : Option (α × BlockingQueue α) :=
  match q.queue with
  | [] => none
  | v :: rest => some (v, { q with queue := rest })

theorem push_eq_some {q q' : BlockingQueue α} {v : α} (h : q.push v = some q') :
    q'.queue = q.queue ++ [v] := by
  unfold push at h
  split at h
  · cases h
  · cases h
    rfl

theorem pop_eq_some {q q' : BlockingQueue α} {v : α} (h : q.pop = some (v, q')) :
    q.queue = v :: q'.queue := by
  unfold pop at h
  split at h
  · cases h
  · rename_i hq
    cases h
    exact hq

theorem push_capacity {q q' : BlockingQueue α} {v : α} (h : q.push v = some q') :
    q'.capacity = q.capacity := by
  unfold push at h
  split at h
  · cases h
  · cases h
    rfl

theorem pop_capacity {q q' : BlockingQueue α} {v : α} (h : q.pop = some (v, q')) :
    q'.capacity = q.capacity := by
  unfold pop at h
  split at h
  · cases h
  · cases h
    rfl

theorem push_isSome {q : BlockingQueue α} (h : q.queue.length < q.capacity.toNat) (v : α) :
    ∃ q', q.push v = some q' :=
  ⟨_, if_neg (Nat.not_le.mpr h)⟩

theorem pop_isSome {q : BlockingQueue α} (h : q.queue ≠ []) : ∃ v q', q.pop = some (v, q') := by
  unfold pop
  cases hq : q.queue with
  | nil => exact absurd hq h
  | cons v rest => exact ⟨v, _, rfl⟩

end BlockingQueue

end XfUtil
