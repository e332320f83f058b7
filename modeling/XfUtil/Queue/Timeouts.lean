import XfUtil.Queue.Threads

/-!
# Timeouts of the queue

A timed `Push` or `Pop` returns false as soon as its wait reports a timeout. By the time
the mutex has been taken again there may be room or an element, and the deque is not
looked at again: only `TryPush` and `TryPop` are refused by the deque itself.
-/

namespace XfUtil

namespace BlockingQueue

variable {α : Type*}

/-! ## Returning false -/

abbrev Return (α : Type*) := Monitor.Return (Call α) (Result α)

/-- A timed call gives up only on a deque that it can do nothing with. -/
def GivesUpRightly (q : BlockingQueue α) (r : Return α) : Prop :=
  match r.call with
  | .pushFor _ _ => r.result = .bool false → q.Full
  | .popFor _ => r.result = .bool false → q.queue = []
  | _ => True

/-- A call that does not wait is refused only by a deque that it can do nothing with. -/
def RefusedRightly (q : BlockingQueue α) (r : Return α) : Prop :=
  match r.call with
  | .tryPush _ => r.result = .bool false → q.Full
  | .tryPop => r.result = .bool false → q.queue = []
  | _ => True

theorem givesUpRightly_act {c : Call α} {q : BlockingQueue α} (hwait : c.method.wait q = none)
    (thread : Nat) : GivesUpRightly (c.method.act q).1 ⟨thread, c, (c.method.act q).2.1⟩ := by
  cases c with
  | pushFor v ms =>
      intro hfalse
      cases hfalse
  | popFor ms =>
      intro hfalse
      obtain ⟨queue, capacity⟩ := q
      obtain ⟨v, rest, hq⟩ := Method.untilNotEmpty_eq_none.mp hwait
      obtain rfl : queue = v :: rest := hq
      cases hfalse
  | _ => trivial

theorem givesUpRightly_late {c : Call α} {result : Result α} (hlate : c.method.late = some result)
    (q : BlockingQueue α) (thread : Nat) :
    GivesUpRightly q ⟨thread, c, result⟩ ↔ c.method.wait q ≠ none := by
  cases c with
  | pushFor v ms =>
      obtain rfl := Option.some.inj hlate
      have hwait : (Call.pushFor v ms).method.wait q = none ↔ q.queue.length < q.capacity.toNat :=
        Method.untilNotFull_eq_none
      rw [Ne, hwait, Nat.not_lt]
      exact ⟨fun h => h rfl, fun h _ => h⟩
  | popFor ms =>
      obtain rfl := Option.some.inj hlate
      have hwait : (Call.popFor ms).method.wait q = none ↔ ∃ v rest, q.queue = v :: rest :=
        Method.untilNotEmpty_eq_none
      rw [Ne, hwait, ← List.ne_nil_iff_exists_cons, not_not]
      exact ⟨fun h => h rfl, fun h _ => h⟩
  | _ => cases hlate

theorem refusedRightly_act (c : Call α) (q : BlockingQueue α) (thread : Nat) :
    RefusedRightly (c.method.act q).1 ⟨thread, c, (c.method.act q).2.1⟩ := by
  cases c with
  | tryPush v =>
      intro hfalse
      by_cases hfull : q.Full
      · have hact : (Call.tryPush v).method.act q = (q, .bool false, none) := if_pos hfull
        rwa [hact]
      · have hact : (Call.tryPush v).method.act q =
            ({ q with queue := q.queue ++ [v] }, .bool true, some .notEmpty) := if_neg hfull
        rw [hact] at hfalse
        cases hfalse
  | tryPop =>
      intro hfalse
      obtain ⟨queue, capacity⟩ := q
      cases queue with
      | nil => rfl
      | cons v rest => cases hfalse
  | _ => trivial

theorem refusedRightly_late {c : Call α} {result : Result α} (hlate : c.method.late = some result)
    (q : BlockingQueue α) (thread : Nat) : RefusedRightly q ⟨thread, c, result⟩ := by
  cases c with
  | tryPush v => cases hlate
  | tryPop => cases hlate
  | _ => trivial

/-! ## Runs -/

namespace Shared

/-- A call that the step returns from is related by `P` to the deque it leaves. -/
def Returns (P : BlockingQueue α → Return α → Prop) (s : Shared α) (l : Label α) : Prop :=
  ∀ t r, step s l = some t → t.log = s.log ++ [r] → P t.shared r

/-- A wait that reports a timeout is still for something that is not there: the deque is
full for `Push` and empty for `Pop` when the mutex has been taken again. -/
abbrev OnTime : Shared α → Label α → Prop := Monitor.OnTime Call.method

/-- `TryPush` and `TryPop` return false only when they must, on time or not. -/
theorem refusedRightly_throughout (capacity : BitVec 64) (ls : List (Label α)) :
    Machine.StepsMeet step (Returns RefusedRightly) (init capacity) ls := by
  intro pre l post _ s _ t r hstep hlog
  rcases Monitor.step_returns hstep hlog with ⟨-, hresult, hshared⟩ | ⟨-, hlate, -⟩
  · rw [hshared]
    have hact := refusedRightly_act r.call s.shared r.thread
    rwa [← hresult] at hact
  · exact refusedRightly_late hlate t.shared r.thread

theorem returns_givesUpRightly_iff (s : Shared α) (l : Label α) :
    s.Returns GivesUpRightly l ↔ s.OnTime l := by
  constructor
  · intro hright
    unfold OnTime Monitor.OnTime
    split
    · rename_i thread
      intro w hw htimed
      obtain ⟨result, hlate⟩ := Option.ne_none_iff_exists'.mp htimed
      obtain ⟨t, hstep, hshared, hlog⟩ := Monitor.late_step hw hlate
      have hgives := hright t _ hstep hlog
      rw [hshared] at hgives
      exact (givesUpRightly_late hlate s.shared thread).mp hgives
    · trivial
  · intro hontime t r hstep hlog
    rcases Monitor.step_returns hstep hlog with
      ⟨hwait, hresult, hshared⟩ | ⟨rfl, hlate, hshared, w, hw, hcall⟩
    · rw [hshared]
      have hact := givesUpRightly_act hwait r.thread
      rwa [← hresult] at hact
    · rw [hshared]
      apply (givesUpRightly_late hlate s.shared r.thread).mpr
      have hwaits := hontime w hw
      rw [hcall] at hwaits
      exact hwaits (by simp [hlate])

/-- In a run of any threads, timed calls give up only when they must exactly if no wait
reports a timeout while there is what it waits for. -/
theorem givesUpRightly_throughout_iff (capacity : BitVec 64) (ls : List (Label α)) :
    Machine.StepsMeet step (Returns GivesUpRightly) (init capacity) ls ↔
      Machine.StepsMeet step OnTime (init capacity) ls :=
  Machine.stepsMeet_congr fun _ s _ l => returns_givesUpRightly_iff s l

/-- A thread in `Pop` is notified of an element, and one in `Push` of a free place, but both
waits report a timeout. -/
theorem timeout_overlooks_queue :
    (∃ s : Shared Nat, Machine.run step (init 1) [.enter 0 (.popFor 10) none,
        .enter 1 (.push 7) (some 0), .resume 0 true none] = some s ∧
      s.log = [⟨1, .push 7, .done⟩, ⟨0, .popFor 10, .bool false⟩] ∧ s.shared = ⟨[7], 1⟩) ∧
    (∃ s : Shared Nat, Machine.run step (init 1) [.enter 0 (.push 7) none,
        .enter 1 (.pushFor 8 10) none, .enter 2 .pop (some 1), .resume 1 true none] = some s ∧
      s.log = [⟨0, .push 7, .done⟩, ⟨2, .pop, .value 7⟩, ⟨1, .pushFor 8 10, .bool false⟩] ∧
      s.shared = ⟨[], 1⟩) ∧
    ¬ ∀ (capacity : BitVec 64) (ls : List (Label Nat)),
      Machine.StepsMeet step (Returns GivesUpRightly) (init capacity) ls := by
  refine ⟨⟨_, rfl, rfl, rfl⟩, ⟨_, rfl, rfl, rfl⟩, fun hall => ?_⟩
  have hright := hall 1 [.enter 0 (.popFor 10) none, .enter 1 (.push 7) (some 0),
    .resume 0 true none] [.enter 0 (.popFor 10) none, .enter 1 (.push 7) (some 0)]
    (.resume 0 true none) [] rfl _ rfl _ ⟨0, .popFor 10, .bool false⟩ rfl rfl rfl
  cases hright

end Shared

end BlockingQueue

end XfUtil
