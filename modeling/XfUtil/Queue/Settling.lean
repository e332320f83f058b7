import XfUtil.Base.Settling
import XfUtil.Queue.Timeouts
import XfUtil.Queue.Wakeups

/-!
# Producers and consumers of the queue

Which of the waiting calls a notification reaches is up to the scheduler, and so is who comes
first to the mutex. How many of them return is not: the elements are as many as have been put
and not been taken, and nobody sleeps beside one of them or beside a free place.
-/

namespace XfUtil

namespace BlockingQueue

variable {α : Type*}

/-- The call has put its element into the deque. -/
def Return.puts (r : Return α) : Bool :=
  match r.call, r.result with
  | .push _, _ | .pushFront _, _ => true
  | .pushFor _ _, .bool b | .tryPush _, .bool b => b
  | _, _ => false

/-- The call has taken an element out of the deque. -/
def Return.gets (r : Return α) : Bool :=
  match r.result with
  | .value _ => true
  | _ => false

/-! ## The calls -/

theorem takeFront_gets {q : BlockingQueue α} (hq : q.queue ≠ []) :
    ∃ v, (Method.takeFront q).2.1 = .value v ∧
      (Method.takeFront q).1.queue.length + 1 = q.queue.length ∧
      (Method.takeFront q).1.capacity = q.capacity := by
  obtain ⟨queue, capacity⟩ := q
  obtain ⟨v, rest, rfl⟩ := List.exists_cons_of_ne_nil hq
  exact ⟨v, rfl, rfl, rfl⟩

theorem act_account {c : Call α} {q : BlockingQueue α} (hc : c.Notifies)
    (hnone : c.method.wait q = none) (thread : Nat) {r : Return α}
    (hr : r = ⟨thread, c, (c.method.act q).2.1⟩) :
    (c.method.act q).1.queue.length + r.gets.toNat = q.queue.length + r.puts.toNat ∧
      (c.method.act q).1.capacity = q.capacity ∧
      (q.queue.length ≤ q.capacity.toNat →
        (c.method.act q).1.queue.length ≤ q.capacity.toNat) := by
  subst hr
  cases c with
  | setCapacity capacity => exact absurd rfl (hc.2 capacity)
  | pushFor v ms => exact absurd hc.1 id
  | popFor ms => exact absurd hc.1 id
  | size => exact ⟨rfl, rfl, id⟩
  | push v =>
      have hpush : q.push v = some ((Method.push v).act q).1 :=
        Method.push_eq_some_iff.mpr ⟨hnone, rfl⟩
      have hroom : q.queue.length < q.capacity.toNat := Method.untilNotFull_eq_none.mp hnone
      have hlength : ((Method.push v).act q).1.queue.length = q.queue.length + 1 := by
        rw [push_eq_some hpush, List.length_append, List.length_singleton]
      exact ⟨hlength, push_capacity hpush, fun _ => hlength.trans_le hroom⟩
  | pushFront v =>
      have hroom : q.queue.length < q.capacity.toNat := Method.untilNotFull_eq_none.mp hnone
      exact ⟨rfl, rfl, fun _ => hroom⟩
  | tryPush v =>
      by_cases hfull : q.Full
      · have hact : (Method.tryPush v).act q = (q, .bool false, none) := if_pos hfull
        rw [Call.method, hact]
        exact ⟨rfl, rfl, id⟩
      · have hact : (Method.tryPush v).act q =
            ({ q with queue := q.queue ++ [v] }, .bool true, some .notEmpty) := if_neg hfull
        have hlength : (q.queue ++ [v]).length = q.queue.length + 1 := by simp
        rw [Call.method, hact]
        exact ⟨hlength, rfl, fun _ => hlength.trans_le (Nat.lt_of_not_le hfull)⟩
  | tryPop =>
      by_cases hempty : q.queue.isEmpty
      · have hact : (Method.tryPop (α := α)).act q = (q, .bool false, none) := if_pos hempty
        rw [Call.method, hact]
        exact ⟨rfl, rfl, id⟩
      · have hact : (Method.tryPop (α := α)).act q = Method.takeFront q := if_neg hempty
        obtain ⟨v, hv, hlength, hcapacity⟩ := takeFront_gets
          fun hnil => hempty (List.isEmpty_iff.mpr hnil)
        have hle : (Method.takeFront q).1.queue.length ≤ q.queue.length := by omega
        rw [Call.method, hact, hv]
        exact ⟨hlength, hcapacity, hle.trans⟩
  | pop =>
      obtain ⟨v, rest, hq⟩ := Method.untilNotEmpty_eq_none.mp hnone
      obtain ⟨w, q', hpop⟩ := pop_isSome (q := q) (by simp [hq])
      have hlength : q.queue.length = q'.queue.length + 1 := by
        rw [pop_eq_some hpop, List.length_cons]
      have hle : q'.queue.length ≤ q.queue.length := by omega
      rw [Call.method, (Method.pop_eq_some_iff.mp hpop).2]
      exact ⟨hlength.symm, pop_capacity hpop, hle.trans⟩

/-- A call that waits for room puts an element. -/
theorem scores_puts : Monitor.Scores (Call.method (α := α)) Return.puts .notFull := by
  intro c k x y hwait hnone thread
  cases c with
  | push v => rw [(Method.untilNotFull_eq_some hwait).1]; rfl
  | pushFront v => rw [(Method.untilNotFull_eq_some hwait).1]; rfl
  | pushFor v ms => rw [(Method.untilNotFull_eq_some hwait).1]; rfl
  | pop => rw [(Method.untilNotEmpty_eq_some hwait).1]; rfl
  | popFor ms => rw [(Method.untilNotEmpty_eq_some hwait).1]; rfl
  | setCapacity capacity => cases hwait
  | size => cases hwait
  | tryPush v => cases hwait
  | tryPop => cases hwait

theorem scores_gets : Monitor.Scores (Call.method (α := α)) Return.gets .notEmpty := by
  intro c k x y hwait hnone thread
  obtain ⟨-, ⟨rfl, put, result, late, hm, -⟩ | ⟨rfl, late, hm⟩⟩ := wait_eq_some hwait
  · cases c with
    | push v => rfl
    | pushFront v => rfl
    | pushFor v ms => rfl
    | pop => cases (Method.untilNotEmpty_eq_some hwait).1
    | popFor ms => cases (Method.untilNotEmpty_eq_some hwait).1
    | _ => cases hwait
  · rw [hm] at hnone
    obtain ⟨v, rest, hq⟩ := Method.untilNotEmpty_eq_none.mp hnone
    obtain ⟨w, hw, -⟩ := takeFront_gets (q := y) (by simp [hq])
    have hact : (c.method.act y).2.1 = .value w := by rw [hm, ← hw]; rfl
    rw [hact]
    rfl

/-! ## Runs -/

namespace Shared

/-- The elements are those that have been put and not been taken. -/
structure Account (capacity : BitVec 64) (s : Shared α) : Prop where
  awake : Monitor.Awake Call.method Call.Notifies units s
  bounded : s.shared.capacity = capacity
  fits : s.shared.queue.length ≤ capacity.toNat
  kept : s.shared.queue.length + s.log.countP Return.gets = s.log.countP Return.puts

variable {capacity : BitVec 64} {s t : Shared α} {thread : Nat} {c : Call α}
  {reached : Option Nat}

theorem init_account : (init capacity : Shared α).Account capacity :=
  ⟨Monitor.Awake.init _, rfl, Nat.zero_le _, rfl⟩

theorem locked_account (hbounded : s.shared.capacity = capacity)
    (hfits : s.shared.queue.length ≤ capacity.toNat)
    (hkept : s.shared.queue.length + s.log.countP Return.gets = s.log.countP Return.puts)
    (hc : c.Notifies) (h : Monitor.locked Call.method s thread c reached = some t) :
    t.shared.capacity = capacity ∧ t.shared.queue.length ≤ capacity.toNat ∧
      t.shared.queue.length + t.log.countP Return.gets = t.log.countP Return.puts := by
  rcases Monitor.locked_eq_some h with ⟨k, -, rfl⟩ | ⟨hnone, ws, -, rfl⟩
  · exact ⟨hbounded, hfits, hkept⟩
  · obtain ⟨hlength, hcapacity, hroom⟩ := act_account hc hnone thread rfl
    rw [hbounded] at hcapacity hroom
    refine ⟨hcapacity, hroom hfits, ?_⟩
    simp only [List.countP_append, List.countP_singleton]
    simp only [Bool.toNat, cond_eq_ite] at hlength
    omega

/-- Calls that notify keep account, whoever is woken by what. -/
theorem Account.step (hs : s.Account capacity) {l : Label α} (hl : l.Starts Call.Notifies)
    (h : step s l = some t) : t.Account capacity := by
  have hawake : Monitor.Awake Call.method Call.Notifies units t := by
    refine hs.awake.step counted ?_ h
    cases l with
    | enter thread call reached => exact Or.inl hl
    | wake thread => trivial
    | resume thread late reached => trivial
  cases l with
  | enter thread call reached =>
      obtain ⟨hbounded, hfits, hkept⟩ :=
        locked_account hs.bounded hs.fits hs.kept hl (Monitor.enter_eq_some h)
      exact ⟨hawake, hbounded, hfits, hkept⟩
  | wake thread =>
      obtain ⟨w, rest, -, -, rfl⟩ := Monitor.wake_eq_some h
      exact ⟨hawake, hs.bounded, hs.fits, hs.kept⟩
  | resume thread late reached =>
      obtain ⟨w, rest, -, hperm, hback⟩ := Monitor.resume_eq_some h
      have hq := (hs.awake.waits w (hperm.mem_iff.mpr List.mem_cons_self)).1
      rcases Monitor.back_eq_some hback with ⟨r, hlate, -⟩ | hlocked
      · rw [counted.untimed hq] at hlate
        cases hlate
      · obtain ⟨hbounded, hfits, hkept⟩ :=
          locked_account (s := { s with waiters := rest }) hs.bounded hs.fits hs.kept hq hlocked
        exact ⟨hawake, hbounded, hfits, hkept⟩

/-- The insertions that have been made or are waiting for room. -/
def insertions (s : Shared α) : Nat := Monitor.State.called s Return.puts .notFull

/-- The removals that have been made or are waiting for an element. -/
def removals (s : Shared α) : Nat := Monitor.State.called s Return.gets .notEmpty

theorem Account.settled (hs : s.Account capacity) (hcapacity : 0 < capacity.toNat)
    (hsettled : s.Settled) :
    s.log.countP Return.puts = min s.insertions (s.removals + capacity.toNat) ∧
      s.log.countP Return.gets = min s.insertions s.removals := by
  have hfull : s.waitingOn .notFull ≠ 0 → capacity.toNat ≤ s.shared.queue.length := by
    intro hwaiting
    have hunits := hs.awake.settled hsettled hwaiting
    rw [units, hs.bounded] at hunits
    omega
  have hempty : s.waitingOn .notEmpty ≠ 0 → s.shared.queue.length = 0 :=
    fun hwaiting => hs.awake.settled hsettled hwaiting
  have hfits := hs.fits
  have hkept := hs.kept
  unfold insertions removals Monitor.State.called
  omega

/-- Producers and consumers pair off: however the calls have come to where they are, once no more
of them start, the threads that have been woken come to an end in any order, and then as many
insertions have been made as there are removals and places for, and as many removals as there are
insertions. -/
theorem calls_pair_off (hcapacity : 0 < capacity.toNat) {ls : List (Label α)}
    (hls : ∀ l ∈ ls, l.Starts Call.Notifies)
    (hrun : Machine.run step (init capacity) ls = some s) :
    Machine.Ends (Machine.only step Monitor.Label.resumes) s fun t =>
      t.Settled ∧
        t.log.countP Return.puts = min s.insertions (s.removals + capacity.toNat) ∧
        t.log.countP Return.gets = min s.insertions s.removals := by
  have hmeets : Machine.StepsMeet step (fun _ l => l.Starts Call.Notifies)
      (init capacity : Shared α) ls := Machine.StepsMeet.of_forall hls
  have hs : s.Account capacity := Machine.run_invariant_of_stepsMeet
    (fun t : Shared α => t.Account capacity) init_account
    (fun _ _ _ ht hl hstep => ht.step hl hstep) hmeets hrun
  refine Monitor.settles (fun t : Shared α => t.Account capacity ∧ t.insertions = s.insertions ∧
    t.removals = s.removals) ⟨hs, rfl, rfl⟩ ?_ ?_
  · rintro t u thread late reached ⟨ht, hinsertions, hremovals⟩ hstep
    have hl : Monitor.Label.Starts Call.Notifies (.resume thread late reached : Label α) := trivial
    refine ⟨ht.step hl hstep, ?_, ?_⟩
    · rw [← hinsertions]
      exact Monitor.called_resume counted ht.awake scores_puts hstep
    · rw [← hremovals]
      exact Monitor.called_resume counted ht.awake scores_gets hstep
  · rintro t ⟨ht, hinsertions, hremovals⟩ hsettled
    rw [← hinsertions, ← hremovals]
    exact ⟨hsettled, ht.settled hcapacity hsettled⟩

/-- Three threads push into a queue with one place and one thread has popped: two come back. -/
theorem calls_pair_off_threePushes :
    ∃ s : Shared Nat, Machine.run step (init 1)
        [.enter 0 (.push 7) none, .enter 1 (.push 8) none, .enter 2 (.push 9) none,
          .enter 3 .pop (some 1)] = some s ∧ s.insertions = 3 ∧ s.removals = 1 ∧
      Machine.Ends (Machine.only step Monitor.Label.resumes) s fun t =>
        t.Settled ∧
          t.log.countP Return.puts = min s.insertions (s.removals + (1 : BitVec 64).toNat) ∧
          t.log.countP Return.gets = min s.insertions s.removals := by
  have hrun : Machine.run step (init 1)
      [.enter 0 (.push 7) none, .enter 1 (.push 8) none, .enter 2 (.push 9) none,
        .enter 3 .pop (some 1)] =
      some ⟨⟨[], 1⟩, [⟨1, .push 8, .notFull, .notified⟩, ⟨2, .push 9, .notFull, .asleep⟩],
        [⟨0, .push 7, .done⟩, ⟨3, .pop, .value 7⟩]⟩ := by
    decide +kernel
  exact ⟨_, hrun, by decide, by decide, calls_pair_off (by decide)
    (by simp [Monitor.Label.Starts, Call.Notifies, Call.Untimed]) hrun⟩

end Shared

end BlockingQueue

end XfUtil
