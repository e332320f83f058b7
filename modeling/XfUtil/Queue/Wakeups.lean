import XfUtil.Base.Wakeups
import XfUtil.Queue.Threads

/-!
# Wakeups of the queue

What is waited for are free places and elements. `Push` and `Pop` and their kind take
one of the one sort, make one of the other and notify once. `SetCapacity` may make
free places without a notification, and then threads that wait for room sleep on.
-/

namespace XfUtil

namespace BlockingQueue

variable {α : Type*}

/-- The number of free places, or of elements. -/
def units (k : Cond) (q : BlockingQueue α) : Nat :=
  match k with
  | .notFull => q.capacity.toNat - q.queue.length
  | .notEmpty => q.queue.length

/-- The call has no time limit. -/
def Call.Untimed : Call α → Prop
  | .pushFor _ _ => False
  | .popFor _ => False
  | _ => True

/-- The calls that notify whenever they make a unit. -/
def Call.Notifies (c : Call α) : Prop := c.Untimed ∧ ∀ capacity, c ≠ .setCapacity capacity

/-! ## The methods -/

namespace Method

theorem untilNotFull_eq_some {q : BlockingQueue α} {k : Cond} (h : untilNotFull q = some k) :
    k = .notFull ∧ units k q = 0 := by
  unfold untilNotFull at h
  split at h
  · rename_i hfull
    obtain rfl := Option.some.inj h
    exact ⟨rfl, Nat.sub_eq_zero_of_le hfull⟩
  · cases h

theorem untilNotEmpty_eq_some {q : BlockingQueue α} {k : Cond} (h : untilNotEmpty q = some k) :
    k = .notEmpty ∧ units k q = 0 := by
  unfold untilNotEmpty at h
  split at h
  · rename_i hempty
    obtain rfl := Option.some.inj h
    exact ⟨rfl, by simpa [units] using hempty⟩
  · cases h

/-- An insertion takes a free place and makes an element. -/
theorem insertion_units {put : List α → List α}
    (hput : ∀ queue, (put queue).length = queue.length + 1)
    (result : Result α) (late : Option (Result α)) {q : BlockingQueue α}
    (hroom : q.queue.length < q.capacity.toNat) (k : Cond) :
    units k ((insertion put result late).act q).1 + (if k = .notFull then 1 else 0) =
      units k q + if ((insertion put result late).act q).2.2 = some k then 1 else 0 := by
  have hlength := hput q.queue
  cases k with
  | notFull =>
      show q.capacity.toNat - (put q.queue).length + 1 = q.capacity.toNat - q.queue.length + 0
      omega
  | notEmpty => exact hlength

/-- A removal takes an element and makes at most a free place. -/
theorem takeFront_units {q : BlockingQueue α} {v : α} {rest : List α} (hq : q.queue = v :: rest)
    (k : Cond) :
    units k (takeFront q).1 + (if k = .notEmpty then 1 else 0) ≤
      units k q + if k = .notFull then 1 else 0 := by
  obtain ⟨queue, capacity⟩ := q
  obtain rfl : queue = v :: rest := hq
  cases k with
  | notFull =>
      show capacity.toNat - rest.length + 0 ≤ capacity.toNat - (rest.length + 1) + 1
      omega
  | notEmpty => exact le_rfl

theorem insertion_gives {put : List α → List α}
    (hput : ∀ queue, (put queue).length = queue.length + 1) (result : Result α)
    (late : Option (Result α)) {q : BlockingQueue α}
    (hroom : q.queue.length < q.capacity.toNat) (k : Cond) :
    units k ((insertion put result late).act q).1 ≤
      units k q + if ((insertion put result late).act q).2.2 = some k then 1 else 0 := by
  rw [← insertion_units hput result late hroom k]
  exact Nat.le_add_right _ _

theorem takeFront_gives {q : BlockingQueue α} (hq : ∃ v rest, q.queue = v :: rest) (k : Cond) :
    units k (takeFront q).1 ≤ units k q + if (takeFront q).2.2 = some k then 1 else 0 := by
  obtain ⟨v, rest, hq⟩ := hq
  have hunits := Nat.le_trans (Nat.le_add_right _ _) (takeFront_units hq k)
  obtain ⟨queue, capacity⟩ := q
  obtain rfl : queue = v :: rest := hq
  rw [takeFront_cons] at hunits ⊢
  cases k with
  | notFull => exact hunits
  | notEmpty => exact hunits

end Method

/-- A call waits for room and inserts, waits for an element and takes it, or does not wait. -/
theorem Call.method_cases (c : Call α) :
    (∃ put result late, c.method = Method.insertion put result late ∧
        ∀ queue : List α, (put queue).length = queue.length + 1) ∨
      (∃ late, c.method = Method.removal late) ∨ ∀ q, c.method.wait q = none := by
  cases c with
  | setCapacity capacity => exact Or.inr (Or.inr fun _ => rfl)
  | size => exact Or.inr (Or.inr fun _ => rfl)
  | push v => exact Or.inl ⟨fun queue => queue ++ [v], .done, none, rfl, fun queue => by simp⟩
  | pushFront v => exact Or.inl ⟨fun queue => v :: queue, .done, none, rfl, fun queue => by simp⟩
  | pushFor v ms =>
      exact Or.inl ⟨fun queue => queue ++ [v], .bool true, some (.bool false), rfl,
        fun queue => by simp⟩
  | tryPush v => exact Or.inr (Or.inr fun _ => rfl)
  | tryPop => exact Or.inr (Or.inr fun _ => rfl)
  | pop => exact Or.inr (Or.inl ⟨_, rfl⟩)
  | popFor ms => exact Or.inr (Or.inl ⟨_, rfl⟩)

theorem wait_eq_some {c : Call α} {q : BlockingQueue α} {k : Cond} (h : c.method.wait q = some k) :
    units k q = 0 ∧
      ((k = .notFull ∧ ∃ put result late, c.method = Method.insertion put result late ∧
          ∀ queue : List α, (put queue).length = queue.length + 1) ∨
        (k = .notEmpty ∧ ∃ late, c.method = Method.removal late)) := by
  rcases c.method_cases with ⟨put, result, late, hm, hput⟩ | ⟨late, hm⟩ | hnone
  · rw [hm] at h
    obtain ⟨hk, hunits⟩ := Method.untilNotFull_eq_some h
    exact ⟨hunits, Or.inl ⟨hk, put, result, late, hm, hput⟩⟩
  · rw [hm] at h
    obtain ⟨hk, hunits⟩ := Method.untilNotEmpty_eq_some h
    exact ⟨hunits, Or.inr ⟨hk, late, hm⟩⟩
  · rw [hnone] at h
    cases h

theorem takes {c : Call α} {q q' : BlockingQueue α} {k : Cond} (hk : c.method.wait q' = some k)
    (hnone : c.method.wait q = none) : units k (c.method.act q).1 + 1 ≤ units k q := by
  obtain ⟨-, ⟨rfl, put, result, late, hm, hput⟩ | ⟨rfl, late, hm⟩⟩ := wait_eq_some hk
  · rw [hm] at hnone ⊢
    have hunits := Method.insertion_units hput result late
      (Method.untilNotFull_eq_none.mp hnone) .notFull
    exact le_of_eq hunits
  · rw [hm] at hnone ⊢
    obtain ⟨v, rest, hq⟩ := Method.untilNotEmpty_eq_none.mp hnone
    exact Method.takeFront_units hq .notEmpty

theorem gives {c : Call α} {q : BlockingQueue α} (hc : c.Notifies)
    (hnone : c.method.wait q = none) (k : Cond) :
    units k (c.method.act q).1 ≤ units k q + if (c.method.act q).2.2 = some k then 1 else 0 := by
  cases c with
  | setCapacity capacity => exact absurd rfl (hc.2 capacity)
  | size => exact Nat.le_add_right _ _
  | push v =>
      have hput : ∀ queue : List α, (queue ++ [v]).length = queue.length + 1 :=
        fun queue => List.length_append
      exact Method.insertion_gives hput .done none (Method.untilNotFull_eq_none.mp hnone) k
  | pushFront v =>
      have hput : ∀ queue : List α, (v :: queue).length = queue.length + 1 :=
        fun queue => List.length_cons
      exact Method.insertion_gives hput .done none (Method.untilNotFull_eq_none.mp hnone) k
  | pushFor v ms => exact absurd hc.1 id
  | tryPush v =>
      by_cases hfull : q.Full
      · have hact : (Method.tryPush v).act q = (q, .bool false, none) := if_pos hfull
        rw [Call.method, hact]
        exact Nat.le_add_right _ _
      · have hact : (Method.tryPush v).act q =
            (Method.insertion (fun queue => queue ++ [v]) (.bool true) none).act q := if_neg hfull
        rw [Call.method, hact]
        exact Method.insertion_gives (fun queue => List.length_append) _ _
          (Nat.lt_of_not_le hfull) k
  | tryPop =>
      by_cases hempty : q.queue.isEmpty
      · have hact : (Method.tryPop (α := α)).act q = (q, .bool false, none) := if_pos hempty
        rw [Call.method, hact]
        exact Nat.le_add_right _ _
      · have hact : (Method.tryPop (α := α)).act q = Method.takeFront q := if_neg hempty
        rw [Call.method, hact]
        refine Method.takeFront_gives (List.ne_nil_iff_exists_cons.mp fun hnil => ?_) k
        exact hempty (List.isEmpty_iff.mpr hnil)
  | pop => exact Method.takeFront_gives (Method.untilNotEmpty_eq_none.mp hnone) k
  | popFor ms => exact absurd hc.1 id

theorem counted : Monitor.Counted (Call.method (α := α)) Call.Notifies units where
  none_left h := (wait_eq_some h).1
  one_condition {m k k' x y} h h' := by
    obtain ⟨-, ⟨rfl, put, result, late, hm, hput⟩ | ⟨rfl, late, hm⟩⟩ := wait_eq_some h
    · rw [hm] at h'
      exact (Method.untilNotFull_eq_some h').1.symm
    · rw [hm] at h'
      exact (Method.untilNotEmpty_eq_some h').1.symm
  takes h h' := takes h h'
  gives hc hnone k := gives hc hnone k
  untimed {m} hm := by
    cases m with
    | pushFor v ms => exact absurd hm.1 id
    | popFor ms => exact absurd hm.1 id
    | _ => rfl

/-! ## Runs -/

namespace Shared

/-- Nobody sleeps while there is what he waits for, unless a notified thread is on its way. -/
def NoLostWakeup (s : Shared α) : Prop :=
  (s.asleepOn .notFull ≠ 0 → s.shared.queue.length < s.shared.capacity.toNat →
      s.notifiedOn .notFull ≠ 0) ∧
    (s.asleepOn .notEmpty ≠ 0 → s.shared.queue ≠ [] → s.notifiedOn .notEmpty ≠ 0)

/-- While a thread waits for room, `SetCapacity` makes no more of it than notified threads
are on their way. -/
def Heeds (s : Shared α) : Label α → Prop
  | .enter _ (.setCapacity capacity) _ =>
      s.asleepOn .notFull ≠ 0 → capacity.toNat ≤ s.shared.queue.length + s.notifiedOn .notFull
  | _ => True

instance (s : Shared α) (l : Label α) : Decidable (s.Heeds l) := by
  cases l with
  | enter thread call reached => cases call <;> unfold Heeds <;> infer_instance
  | _ => exact inferInstanceAs (Decidable True)

theorem Heeds.monitor {s : Shared α} {l : Label α} (hl : s.Heeds l)
    (huntimed : l.Starts Call.Untimed) : l.Heeds Call.method Call.Notifies units s := by
  cases l with
  | enter thread call reached =>
      by_cases hset : ∃ capacity, call = .setCapacity capacity
      · obtain ⟨capacity, rfl⟩ := hset
        refine Or.inr ⟨rfl, fun k => ?_⟩
        cases k with
        | notEmpty => exact Or.inl le_rfl
        | notFull => exact Or.inr fun hasleep => Nat.sub_le_iff_le_add'.mpr (hl hasleep)
      · exact Or.inl ⟨huntimed, fun capacity heq => hset ⟨capacity, heq⟩⟩
  | wake thread => trivial
  | resume thread late reached => trivial

/-- After any steps of any threads in calls without a time limit, no wakeup is lost, if
`SetCapacity` has not made room behind the back of a waiting thread. -/
theorem no_lost_wakeup {capacity : BitVec 64} {ls : List (Label α)} {s : Shared α}
    (huntimed : ∀ l ∈ ls, l.Starts Call.Untimed)
    (hls : Machine.StepsMeet step Heeds (init capacity) ls)
    (hrun : Machine.run step (init capacity) ls = some s) : s.NoLostWakeup := by
  have hmeet : Machine.StepsMeet step (fun s l => l.Heeds Call.method Call.Notifies units s)
      (init capacity : Shared α) ls := by
    intro pre l post heq t ht
    exact (hls pre l post heq t ht).monitor (huntimed l (by simp [heq]))
  have hawake := Monitor.run_awake counted hmeet hrun
  constructor
  · intro hasleep hroom hnotified
    have hunits := hawake .notFull hasleep
    rw [hnotified] at hunits
    exact absurd (Nat.le_zero.mp hunits) (Nat.sub_ne_zero_of_lt hroom)
  · intro hasleep hqueue hnotified
    have hunits := hawake .notEmpty hasleep
    rw [hnotified] at hunits
    exact hqueue (List.length_eq_zero_iff.mp (Nat.le_zero.mp hunits))

/-- A thread sleeps until `Pop` makes room, and meanwhile the capacity is raised by as much
as the notification covers. -/
theorem no_lost_wakeup_pop :
    ∃ s : Shared Nat, Machine.run step (init 1)
        [.enter 0 (.push 7) none, .enter 1 (.push 8) none, .enter 2 (.push 9) none,
          .enter 3 .pop (some 1), .enter 3 (.setCapacity 1) none] = some s ∧ s.NoLostWakeup := by
  have hrun : Machine.run step (init 1)
      [.enter 0 (.push 7) none, .enter 1 (.push 8) none, .enter 2 (.push 9) none,
        .enter 3 .pop (some 1), .enter 3 (.setCapacity 1) none] =
      some ⟨⟨[], 1⟩, [⟨1, .push 8, .notFull, .notified⟩, ⟨2, .push 9, .notFull, .asleep⟩],
        [⟨0, .push 7, .done⟩, ⟨3, .pop, .value 7⟩, ⟨3, .setCapacity 1, .done⟩]⟩ := by
    decide +kernel
  exact ⟨_, hrun, no_lost_wakeup (by simp [Monitor.Label.Starts, Call.Untimed])
    (Machine.StepsMeet.of_meets (by decide +kernel)) hrun⟩

/-- A thread waits for room when the capacity is raised: it sleeps on beside a free place. -/
theorem setCapacity_loses_wakeup :
    ¬ ∀ (capacity : BitVec 64) (ls : List (Label Nat)) (s : Shared Nat),
      (∀ l ∈ ls, l.Starts Call.Untimed) → Machine.run step (init capacity) ls = some s →
        s.NoLostWakeup := by
  intro hall
  have hrun : Machine.run step (init 1)
      [.enter 0 (.push 7) none, .enter 1 (.push 8) none, .enter 2 (.setCapacity 2) none] =
      some ⟨⟨[7], 2⟩, [⟨1, .push 8, .notFull, .asleep⟩],
        [⟨0, .push 7, .done⟩, ⟨2, .setCapacity 2, .done⟩]⟩ := by decide +kernel
  have hlost := hall 1 _ _ (by simp [Monitor.Label.Starts, Call.Untimed]) hrun
  exact hlost.1 (by decide) (by decide) (by decide)

end Shared

end BlockingQueue

end XfUtil
