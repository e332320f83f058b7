import XfUtil.Base.Monitor
import XfUtil.Queue.Model

/-!
# `BlockingQueue` under any number of threads

Each method is given by what it does under `m_mutex`. The loop around a wait tests
the deque again whenever the wait returns; a wait with a time limit may return
late, whatever the deque is like by then.
-/

namespace XfUtil

namespace BlockingQueue

/-- `m_not_empty_cond` and `m_not_full_cond`. -/
inductive Cond where
  | notEmpty
  | notFull
deriving Repr, DecidableEq

inductive Result (α : Type*) where
  | done
  | bool (b : Bool)
  /-- The element in the argument of a `Pop` that returns nothing or `true`. -/
  | value (v : α)
  | size (n : Nat)
  /-- `front` of an empty deque. -/
  | undefined
deriving Repr, DecidableEq

abbrev Method (α : Type*) := Monitor.Method (BlockingQueue α) Cond (Result α)

variable {α : Type*}

/-- The constructor. -/
def ofCapacity (capacity : BitVec 64) : BlockingQueue α := ⟨[], capacity⟩

/-- `m_queue.size() >= m_capacity`. -/
def Full (q : BlockingQueue α) : Prop := q.capacity.toNat ≤ q.queue.length

instance (q : BlockingQueue α) : Decidable q.Full := inferInstanceAs (Decidable (_ ≤ _))

/-! ## The methods -/

namespace Method

def setCapacity (capacity : BitVec 64) : Method α where
  wait _ := none
  act q := ({ q with capacity := capacity }, .done, none)
  late := none

def size : Method α where
  wait _ := none
  act q := (q, .size q.queue.length, none)
  late := none

/-- `while(m_queue.size() >= m_capacity) m_not_full_cond.wait(lock);` -/
def untilNotFull (q : BlockingQueue α) : Option Cond := if q.Full then some .notFull else none

/-- `while(m_queue.empty()) m_not_empty_cond.wait(lock);` -/
def untilNotEmpty (q : BlockingQueue α) : Option Cond :=
  if q.queue.isEmpty then some .notEmpty else none

theorem untilNotFull_eq_none {q : BlockingQueue α} :
    untilNotFull q = none ↔ q.queue.length < q.capacity.toNat := by
  by_cases hfull : q.Full
  · rw [untilNotFull, if_pos hfull]
    exact iff_of_false (by simp) (Nat.not_lt.mpr hfull)
  · rw [untilNotFull, if_neg hfull]
    exact iff_of_true rfl (Nat.lt_of_not_le hfull)

theorem untilNotEmpty_eq_none {q : BlockingQueue α} :
    untilNotEmpty q = none ↔ ∃ v rest, q.queue = v :: rest := by
  rw [← List.ne_nil_iff_exists_cons]
  simp [untilNotEmpty]

/-- Wait until there is room, and put an element into the deque. -/
def insertion (put : List α → List α) (result : Result α) (late : Option (Result α)) :
    Method α where
  wait := untilNotFull
  act q := ({ q with queue := put q.queue }, result, some .notEmpty)
  late := late

def push (v : α) : Method α := insertion (fun queue => queue ++ [v]) .done none

def pushFront (v : α) : Method α := insertion (fun queue => v :: queue) .done none

/-- `Push` with a time limit; how long it is decides only whether the wait is late. -/
def pushFor (v : α) (_timeoutMs : BitVec 32) : Method α :=
  insertion (fun queue => queue ++ [v]) (.bool true) (some (.bool false))

def tryPush (v : α) : Method α where
  wait _ := none
  act q :=
    if q.Full then (q, .bool false, none)
    else ({ q with queue := q.queue ++ [v] }, .bool true, some .notEmpty)
  late := none

/-- `v = m_queue.front(); m_queue.pop_front(); m_not_full_cond.notify_one();` -/
def takeFront (q : BlockingQueue α) : BlockingQueue α × Result α × Option Cond :=
  match q.pop with
  | none => (q, .undefined, none)
  | some (v, q') => (q', .value v, some .notFull)

@[simp] theorem takeFront_cons (v : α) (rest : List α) (capacity : BitVec 64) :
    takeFront ⟨v :: rest, capacity⟩ = (⟨rest, capacity⟩, .value v, some .notFull) := rfl

/-- Wait until there is an element, and take it. -/
def removal (late : Option (Result α)) : Method α where
  wait := untilNotEmpty
  act := takeFront
  late := late

def tryPop : Method α where
  wait _ := none
  act q := if q.queue.isEmpty then (q, .bool false, none) else takeFront q
  late := none

def pop : Method α := removal none

/-- `Pop` with a time limit. -/
def popFor (_timeoutMs : BitVec 32) : Method α := removal (some (.bool false))

/-- `push` is the section in which `Push` returns. -/
theorem push_eq_some_iff {q q' : BlockingQueue α} {v : α} :
    q.push v = some q' ↔ (push v).wait q = none ∧ ((push v).act q).1 = q' := by
  have hwait : (push v).wait q = none ↔ ¬ q.Full :=
    untilNotFull_eq_none.trans Nat.not_le.symm
  rw [hwait, BlockingQueue.push]
  by_cases hfull : q.capacity.toNat ≤ q.queue.length
  · rw [if_pos hfull]
    exact iff_of_false (by simp) fun h => h.1 hfull
  · rw [if_neg hfull, Option.some_inj]
    exact (and_iff_right hfull).symm

/-- `pop` is the section in which `Pop` returns. -/
theorem pop_eq_some_iff {q q' : BlockingQueue α} {v : α} :
    q.pop = some (v, q') ↔
      (pop : Method α).wait q = none ∧ (pop : Method α).act q = (q', .value v, some .notFull) := by
  obtain ⟨queue, capacity⟩ := q
  cases queue with
  | nil => exact iff_of_false (by simp [BlockingQueue.pop]) fun h => by simp [pop, removal,
      untilNotEmpty] at h
  | cons w rest => simp [BlockingQueue.pop, pop, removal, untilNotEmpty, and_comm]

end Method

/-! ## The threads -/

inductive Call (α : Type*) where
  | setCapacity (capacity : BitVec 64)
  | size
  | push (v : α)
  | pushFront (v : α)
  | pushFor (v : α) (timeoutMs : BitVec 32)
  | tryPush (v : α)
  | tryPop
  | pop
  | popFor (timeoutMs : BitVec 32)
deriving Repr, DecidableEq

def Call.method : Call α → Method α
  | .setCapacity capacity => Method.setCapacity capacity
  | .size => Method.size
  | .push v => Method.push v
  | .pushFront v => Method.pushFront v
  | .pushFor v timeoutMs => Method.pushFor v timeoutMs
  | .tryPush v => Method.tryPush v
  | .tryPop => Method.tryPop
  | .pop => Method.pop
  | .popFor timeoutMs => Method.popFor timeoutMs

/-- The queue, the threads that wait, and the calls that have returned. -/
abbrev Shared (α : Type*) := Monitor.State (BlockingQueue α) Cond (Call α) (Result α)

abbrev Label (α : Type*) := Monitor.Label (Call α)

namespace Shared

/-- A new queue that no thread uses. -/
def init (capacity : BitVec 64) : Shared α := Monitor.init (ofCapacity capacity)

def step : Machine.Step (Shared α) (Label α) := Monitor.step Call.method

end Shared

end BlockingQueue

end XfUtil
