import XfUtil.Queue.Threads

/-!
# The queue is a bounded deque

However the sections of the threads interleave, the results are those of a deque
that executes the returned calls one after the other.
-/

namespace XfUtil

namespace BlockingQueue

variable {α : Type*}

/-! ## Sequential deques -/

/-- A deque without threads. -/
structure Deque (α : Type*) where
  items : List α
  capacity : Nat
deriving Repr, DecidableEq

namespace Deque

def pushBack (d : Deque α) (v : α) : Deque α := { d with items := d.items ++ [v] }

def pushFront (d : Deque α) (v : α) : Deque α := { d with items := v :: d.items }

/-- What a call may answer, and what it leaves: insertions need room, removals need an
element, only calls without waiting are refused, and only waits with a limit give up. -/
inductive Spec : Deque α → Call α → Result α → Deque α → Prop
  | setCapacity (d : Deque α) (capacity : BitVec 64) :
      Spec d (.setCapacity capacity) .done { d with capacity := capacity.toNat }
  | size (d : Deque α) : Spec d .size (.size d.items.length) d
  | push {d : Deque α} (v : α) (room : d.items.length < d.capacity) :
      Spec d (.push v) .done (d.pushBack v)
  | pushFront {d : Deque α} (v : α) (room : d.items.length < d.capacity) :
      Spec d (.pushFront v) .done (d.pushFront v)
  | pushFor {d : Deque α} (v : α) (ms : BitVec 32) (room : d.items.length < d.capacity) :
      Spec d (.pushFor v ms) (.bool true) (d.pushBack v)
  | pushForLate (d : Deque α) (v : α) (ms : BitVec 32) : Spec d (.pushFor v ms) (.bool false) d
  | tryPush {d : Deque α} (v : α) (room : d.items.length < d.capacity) :
      Spec d (.tryPush v) (.bool true) (d.pushBack v)
  | tryPushFull {d : Deque α} (v : α) (full : d.capacity ≤ d.items.length) :
      Spec d (.tryPush v) (.bool false) d
  | tryPop (v : α) (rest : List α) (capacity : Nat) :
      Spec ⟨v :: rest, capacity⟩ .tryPop (.value v) ⟨rest, capacity⟩
  | tryPopEmpty (capacity : Nat) : Spec ⟨[], capacity⟩ .tryPop (.bool false) ⟨[], capacity⟩
  | pop (v : α) (rest : List α) (capacity : Nat) :
      Spec ⟨v :: rest, capacity⟩ .pop (.value v) ⟨rest, capacity⟩
  | popFor (v : α) (rest : List α) (capacity : Nat) (ms : BitVec 32) :
      Spec ⟨v :: rest, capacity⟩ (.popFor ms) (.value v) ⟨rest, capacity⟩
  | popForLate (d : Deque α) (ms : BitVec 32) : Spec d (.popFor ms) (.bool false) d

/-- The calls of a log, executed one after the other. -/
inductive Run (d : Deque α) : List (Monitor.Return (Call α) (Result α)) → Deque α → Prop
  | nil : Run d [] d
  | snoc {log : List (Monitor.Return (Call α) (Result α))} {d' d'' : Deque α}
      {r : Monitor.Return (Call α) (Result α)} :
      Run d log d' → Spec d' r.call r.result d'' → Run d (log ++ [r]) d''

/-- The element that a returned call has put into the deque. -/
def inserted (r : Monitor.Return (Call α) (Result α)) : Option α :=
  match r.call, r.result with
  | .push v, .done => some v
  | .pushFront v, .done => some v
  | .pushFor v _, .bool true => some v
  | .tryPush v, .bool true => some v
  | _, _ => none

/-- The element that a returned call has taken. -/
def removed (r : Monitor.Return (Call α) (Result α)) : Option α :=
  match r.result with
  | .value v => some v
  | _ => none

/-! ## What goes in and what comes out -/

/-- The deque has what it had and what was put in, less what was taken. -/
theorem Spec.balance {d d' : Deque α} {r : Monitor.Return (Call α) (Result α)}
    (h : Spec d r.call r.result d') :
    (d.items ++ (inserted r).toList).Perm ((removed r).toList ++ d'.items) := by
  obtain ⟨thread, call, result⟩ := r
  cases h with
  | pushFront v room => exact List.perm_append_singleton v d.items
  | _ => simp [inserted, removed, pushBack]

/-- But for `PushFront`, what is put in comes last and what is taken is the first. -/
theorem Spec.order {d d' : Deque α} {r : Monitor.Return (Call α) (Result α)}
    (h : Spec d r.call r.result d') (hback : ∀ v, r.call ≠ .pushFront v) :
    d.items ++ (inserted r).toList = (removed r).toList ++ d'.items := by
  obtain ⟨thread, call, result⟩ := r
  cases h with
  | pushFront v room => exact absurd rfl (hback v)
  | _ => simp [inserted, removed, pushBack]

theorem filterMap_snoc {β γ : Type*} (f : β → Option γ) (l : List β) (b : β) :
    (l ++ [b]).filterMap f = l.filterMap f ++ (f b).toList := by
  rw [List.filterMap_append]
  cases h : f b <;> simp [h]

theorem Run.balance {d d' : Deque α} {log : List (Monitor.Return (Call α) (Result α))}
    (h : Run d log d') :
    (d.items ++ log.filterMap inserted).Perm (log.filterMap removed ++ d'.items) := by
  induction h with
  | nil => simp
  | @snoc log d' d'' r _ hspec ih =>
      rw [filterMap_snoc, filterMap_snoc, ← List.append_assoc]
      refine (ih.append_right _).trans ?_
      rw [List.append_assoc, List.append_assoc]
      exact hspec.balance.append_left _

theorem Run.order {d d' : Deque α} {log : List (Monitor.Return (Call α) (Result α))}
    (h : Run d log d') (hback : ∀ r ∈ log, ∀ v, r.call ≠ .pushFront v) :
    d.items ++ log.filterMap inserted = log.filterMap removed ++ d'.items := by
  induction h with
  | nil => simp
  | @snoc log d' d'' r _ hspec ih =>
      have hbefore := ih fun r' hr' => hback r' (List.mem_append_left _ hr')
      have hlast := hspec.order (hback r (by simp))
      rw [filterMap_snoc, filterMap_snoc, ← List.append_assoc, hbefore, List.append_assoc, hlast,
        List.append_assoc]

end Deque

/-! ## The refinement -/

/-- The deque of a queue. -/
def deque (q : BlockingQueue α) : Deque α := ⟨q.queue, q.capacity.toNat⟩

/-- A section that does not wait does to the deque what the call says. -/
theorem act_spec (q : BlockingQueue α) (c : Call α) (hwait : c.method.wait q = none) :
    Deque.Spec q.deque c (c.method.act q).2.1 (c.method.act q).1.deque := by
  cases c with
  | setCapacity capacity => exact .setCapacity q.deque capacity
  | size => exact .size q.deque
  | push v => exact .push v (Method.untilNotFull_eq_none.mp hwait)
  | pushFront v => exact .pushFront v (Method.untilNotFull_eq_none.mp hwait)
  | pushFor v ms => exact .pushFor v ms (Method.untilNotFull_eq_none.mp hwait)
  | tryPush v =>
      by_cases hfull : q.Full
      · have hact : (Method.tryPush v).act q = (q, .bool false, none) := if_pos hfull
        rw [Call.method, hact]
        exact .tryPushFull v hfull
      · have hact : (Method.tryPush v).act q =
            ({ q with queue := q.queue ++ [v] }, .bool true, some .notEmpty) := if_neg hfull
        rw [Call.method, hact]
        exact .tryPush v (Nat.lt_of_not_le hfull)
  | tryPop =>
      obtain ⟨queue, capacity⟩ := q
      cases queue with
      | nil => exact .tryPopEmpty capacity.toNat
      | cons v rest => exact .tryPop v rest capacity.toNat
  | pop =>
      obtain ⟨v, rest, hqueue⟩ := Method.untilNotEmpty_eq_none.mp hwait
      obtain ⟨queue, capacity⟩ := q
      obtain rfl : queue = v :: rest := hqueue
      exact .pop v rest capacity.toNat
  | popFor ms =>
      obtain ⟨v, rest, hqueue⟩ := Method.untilNotEmpty_eq_none.mp hwait
      obtain ⟨queue, capacity⟩ := q
      obtain rfl : queue = v :: rest := hqueue
      exact .popFor v rest capacity.toNat ms

theorem late_spec (d : Deque α) {c : Call α} {result : Result α}
    (hlate : c.method.late = some result) : Deque.Spec d c result d := by
  cases c with
  | pushFor v ms =>
      obtain rfl : Result.bool false = result := Option.some.inj hlate
      exact .pushForLate d v ms
  | popFor ms =>
      obtain rfl : Result.bool false = result := Option.some.inj hlate
      exact .popForLate d ms
  | _ => cases hlate

theorem run_of_serial {q q' : BlockingQueue α}
    {log : List (Monitor.Return (Call α) (Result α))}
    (h : Monitor.Serial Call.method q log q') : Deque.Run q.deque log q'.deque := by
  induction h with
  | nil => exact .nil
  | act thread call _ hwait ih => exact ih.snoc (act_spec _ call hwait)
  | late thread call _ hlate ih => exact ih.snoc (late_spec _ hlate)

namespace Shared

/-- After any steps of any threads: the returned calls, in the order of their last sections,
have done to the queue and answered what they do to a deque without threads. So the queue
holds what has been put in and not been taken out, and without `PushFront` the elements come
out in the order they went in. -/
theorem refines_deque {capacity : BitVec 64} {ls : List (Label α)} {s : Shared α}
    (hrun : Machine.run step (init capacity) ls = some s) :
    Deque.Run ⟨[], capacity.toNat⟩ s.log s.shared.deque ∧
      (s.log.filterMap Deque.inserted).Perm (s.log.filterMap Deque.removed ++ s.shared.queue) ∧
      ((∀ thread v reached, .enter thread (.pushFront v) reached ∉ ls) →
        s.log.filterMap Deque.inserted = s.log.filterMap Deque.removed ++ s.shared.queue) := by
  have hdeque : Deque.Run ⟨[], capacity.toNat⟩ s.log s.shared.deque :=
    run_of_serial (Monitor.run_serial hrun)
  refine ⟨hdeque, hdeque.balance, fun hback => hdeque.order ?_⟩
  have hstarts : ∀ l ∈ ls, l.Starts fun c : Call α => ∀ v, c ≠ .pushFront v := by
    intro l hl
    cases l with
    | enter thread call reached =>
        rintro v rfl
        exact hback thread v reached hl
    | wake thread => trivial
    | resume thread late reached => trivial
  exact (Monitor.run_within hstarts hrun).returned

/-- A `Push` waits for room, a `Pop` makes room, another thread takes it first, and the wait
starts again. -/
theorem refines_deque_stolen :
    ∃ s : Shared Nat, Machine.run step (init 1)
        [.enter 0 (.push 7) none, .enter 1 (.push 8) none, .enter 2 .pop (some 1),
          .enter 2 (.tryPush 9) none, .resume 1 false none, .wake 1, .enter 2 .pop none,
          .resume 1 false none] = some s ∧
      Deque.Run ⟨[], 1⟩ s.log s.shared.deque ∧
      (s.log.filterMap Deque.inserted).Perm (s.log.filterMap Deque.removed ++ s.shared.queue) ∧
      s.log.filterMap Deque.inserted = s.log.filterMap Deque.removed ++ s.shared.queue := by
  have hrun : Machine.run step (init 1)
      [.enter 0 (.push 7) none, .enter 1 (.push 8) none, .enter 2 .pop (some 1),
        .enter 2 (.tryPush 9) none, .resume 1 false none, .wake 1, .enter 2 .pop none,
        .resume 1 false none] =
      some ⟨⟨[8], 1⟩, [], [⟨0, .push 7, .done⟩, ⟨2, .pop, .value 7⟩, ⟨2, .tryPush 9, .bool true⟩,
        ⟨2, .pop, .value 9⟩, ⟨1, .push 8, .done⟩]⟩ := by decide +kernel
  obtain ⟨hdeque, hperm, horder⟩ := refines_deque hrun
  exact ⟨_, hrun, hdeque, hperm, horder (by simp)⟩

end Shared

end BlockingQueue

end XfUtil
