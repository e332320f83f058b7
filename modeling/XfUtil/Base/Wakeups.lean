import XfUtil.Base.Monitor

/-!
# Notifications that keep up

A condition is waited for because something is missing. If every method that waits
takes a unit of it, and a method that makes a unit notifies one thread, then as long
as a thread sleeps there are no more units than notified threads on their way.
-/

namespace Monitor

variable {σ κ μ ρ : Type*} [DecidableEq κ] {body : μ → Method σ κ ρ} {s t : State σ κ μ ρ}
  {thread : Nat} {call : μ} {reached : Option Nat}

/-- The number of threads that sleep on a condition. -/
def State.asleepOn (s : State σ κ μ ρ) (k : κ) : Nat := s.waiters.countP (·.asleepOn k)

/-- The number of threads that have been notified and have not taken the mutex yet. -/
def State.notifiedOn (s : State σ κ μ ρ) (k : κ) : Nat := s.waiters.countP (·.notifiedOn k)

/-! ## Threads that sleep and threads on their way -/

/-- If a thread sleeps on `k`, then at least `n` notified threads are on their way. -/
def Covered (ws : List (Waiter κ μ)) (k : κ) (n : Nat) : Prop :=
  ws.countP (·.asleepOn k) ≠ 0 → n ≤ ws.countP (·.notifiedOn k)

namespace Covered

variable {ws ws' rest : List (Waiter κ μ)} {w : Waiter κ μ} {k : κ} {n : Nat}

theorem zero (ws : List (Waiter κ μ)) (k : κ) : Covered ws k 0 := fun _ => Nat.zero_le _

theorem mono (h : Covered ws k n) {m : Nat} (hm : m ≤ n) : Covered ws k m :=
  fun hs => Nat.le_trans hm (h hs)

theorem perm (h : Covered ws k n) (hperm : ws.Perm ws') : Covered ws' k n := by
  unfold Covered
  rw [← hperm.countP_eq, ← hperm.countP_eq]
  exact h

/-- One more thread that sleeps, on another condition. -/
theorem sleep (h : Covered ws k n) (hw : w.asleepOn k = false) : Covered (w :: ws) k n := by
  intro hs
  rw [List.countP_cons_of_neg (by simp [hw])] at hs
  rw [List.countP_cons]
  exact Nat.le_trans (h hs) (Nat.le_add_right _ _)

/-- A thread wakes without having been notified. -/
theorem wake (h : Covered ws k n) (hw : w.phase = .asleep) (hperm : ws.Perm (w :: rest)) :
    Covered ({ w with phase := .woken } :: rest) k n := by
  have hperm' := h.perm hperm
  unfold Covered at hperm' ⊢
  rw [List.countP_cons, List.countP_cons_of_neg (by simp [Waiter.notifiedOn, hw])] at hperm'
  rw [List.countP_cons_of_neg (by simp [Waiter.asleepOn]),
    List.countP_cons_of_neg (by simp [Waiter.notifiedOn])]
  intro hs
  exact hperm' (by omega)

/-- A thread that has been on its way takes the mutex. -/
theorem resume (h : Covered ws k n) (hw : w.phase ≠ .asleep) (hperm : ws.Perm (w :: rest)) :
    Covered rest k (n - if w.cond = k then 1 else 0) := by
  have hperm' := h.perm hperm
  unfold Covered at hperm' ⊢
  rw [List.countP_cons_of_neg (by simp [Waiter.asleepOn, hw]), List.countP_cons] at hperm'
  intro hs
  have hle := hperm' hs
  by_cases hk : w.cond = k
  · rw [if_pos hk]
    split at hle <;> omega
  · rw [if_neg (by simp [Waiter.notifiedOn, hk])] at hle
    omega

/-- A notification makes up for one unit more. -/
theorem notify (h : Covered ws k n) {signal : Option κ}
    (hn : Monitor.notify ws signal reached = some ws') :
    Covered ws' k (n + if signal = some k then 1 else 0) := by
  rcases notify_eq_some hn with
    ⟨rfl, rfl⟩ | ⟨k', rfl, ⟨rfl, hnone⟩ | ⟨w, rest, hw, hperm, rfl⟩⟩
  · exact h
  · by_cases hk : k' = k
    · subst hk
      intro hs
      exact absurd (List.countP_eq_zero.mpr fun w hw => by simp [hnone w hw]) hs
    · rw [if_neg (by simp [hk])]
      exact h
  · have hperm' := h.perm hperm
    have hphase : w.phase = .asleep ∧ w.cond = k' := by simpa [Waiter.asleepOn] using hw
    unfold Covered at hperm' ⊢
    rw [List.countP_cons, List.countP_cons_of_neg (by simp [Waiter.notifiedOn, hphase.1])]
      at hperm'
    rw [List.countP_cons_of_neg (by simp [Waiter.asleepOn]), List.countP_cons]
    intro hs
    have hle := hperm' (by omega)
    by_cases hk : k' = k
    · rw [if_pos (by simp [hk]), if_pos (by simp [Waiter.notifiedOn, hphase.2, hk])]
      omega
    · rw [if_neg (by simp [hk])]
      omega

end Covered

/-! ## Units -/

/-- The methods of `Q` against the number of units of each condition. -/
structure Counted (body : μ → Method σ κ ρ) (Q : μ → Prop) (units : κ → σ → Nat) : Prop where
  /-- A thread waits only if there is no unit. -/
  none_left : ∀ {m k x}, (body m).wait x = some k → units k x = 0
  one_condition : ∀ {m k k' x y}, (body m).wait x = some k → (body m).wait y = some k' → k = k'
  /-- A method that may have waited takes a unit. -/
  takes : ∀ {m k x y}, (body m).wait y = some k → (body m).wait x = none →
    units k ((body m).act x).1 + 1 ≤ units k x
  /-- A method that makes a unit notifies. -/
  gives : ∀ {m x}, Q m → (body m).wait x = none → ∀ k,
    units k ((body m).act x).1 ≤ units k x + if ((body m).act x).2.2 = some k then 1 else 0
  untimed : ∀ {m}, Q m → (body m).late = none

/-- A call of `Q` starts, or one that does not wait and makes units only where no thread
sleeps or enough notified threads are on their way. -/
def Label.Heeds (body : μ → Method σ κ ρ) (Q : μ → Prop) (units : κ → σ → Nat)
    (s : State σ κ μ ρ) : Label μ → Prop
  | .enter _ call _ => Q call ∨ (body call).wait s.shared = none ∧
      ∀ k, units k ((body call).act s.shared).1 ≤ units k s.shared ∨
        Covered s.waiters k (units k ((body call).act s.shared).1)
  | _ => True

/-- No thread sleeps through a unit, and those that wait are in methods of `Q`. -/
structure Awake (body : μ → Method σ κ ρ) (Q : μ → Prop) (units : κ → σ → Nat)
    (s : State σ κ μ ρ) : Prop where
  covered : ∀ k, Covered s.waiters k (units k s.shared)
  waits : ∀ w ∈ s.waiters, Q w.call ∧ ∃ x, (body w.call).wait x = some w.cond

theorem Covered.locked {units : κ → σ → Nat} {Q : μ → Prop} (hc : Counted body Q units)
    (hwait : ∀ k, (body call).wait s.shared = some k →
      ∀ k', k' ≠ k → Covered s.waiters k' (units k' s.shared))
    (hact : (body call).wait s.shared = none → ∀ k, Covered s.waiters k
      (units k ((body call).act s.shared).1 -
        if ((body call).act s.shared).2.2 = some k then 1 else 0))
    (h : locked body s thread call reached = some t) (k : κ) :
    Covered t.waiters k (units k t.shared) := by
  rcases locked_eq_some h with ⟨k', hw, rfl⟩ | ⟨hw, ws, hnotify, rfl⟩
  · by_cases hk : k = k'
    · have hzero : units k s.shared = 0 := hc.none_left (hk ▸ hw)
      show Covered _ k (units k s.shared)
      rw [hzero]
      exact Covered.zero _ k
    · exact (hwait k' hw k hk).sleep (by simp [Waiter.asleepOn, Ne.symm hk])
  · refine ((hact hw k).notify hnotify).mono ?_
    show units k ((body call).act s.shared).1 ≤ _
    omega

namespace Awake

variable {units : κ → σ → Nat} {Q : μ → Prop}

theorem init (x : σ) : Awake body Q units (Monitor.init x : State σ κ μ ρ) :=
  ⟨fun _ hs => absurd rfl hs, by simp [Monitor.init]⟩

theorem locked
    (hwaits : ∀ w ∈ s.waiters, Q w.call ∧ ∃ x, (body w.call).wait x = some w.cond)
    (hcovered : ∀ k, Covered t.waiters k (units k t.shared))
    (hcall : ∀ k, (body call).wait s.shared = some k → Q call)
    (h : Monitor.locked body s thread call reached = some t) : Awake body Q units t := by
  refine ⟨hcovered, ?_⟩
  rcases locked_eq_some h with ⟨k, hw, rfl⟩ | ⟨-, ws, hnotify, rfl⟩
  · intro w hmem
    rcases List.mem_cons.mp hmem with rfl | hmem
    · exact ⟨hcall k hw, s.shared, hw⟩
    · exact hwaits w hmem
  · exact notify_forall (P := fun call k => Q call ∧ ∃ x, (body call).wait x = some k)
      hwaits hnotify

/-- A call that starts. -/
theorem enter (hc : Counted body Q units) (hs : Awake body Q units s)
    (hl : (Label.enter thread call reached).Heeds body Q units s)
    (h : Monitor.locked body s thread call reached = some t) : Awake body Q units t := by
  have hact : (body call).wait s.shared = none → ∀ k, Covered s.waiters k
      (units k ((body call).act s.shared).1 -
        if ((body call).act s.shared).2.2 = some k then 1 else 0) := by
    intro hwait k
    rcases hl with hq | ⟨-, hmakes⟩
    · have hgives := hc.gives hq hwait k
      exact (hs.covered k).mono (by omega)
    · rcases hmakes k with hle | hmakes
      · exact (hs.covered k).mono (by omega)
      · exact hmakes.mono (Nat.sub_le _ _)
  have hcovered := Covered.locked hc (fun _ _ k' _ => hs.covered k') hact h
  refine locked hs.waits hcovered (fun k hwait => ?_) h
  rcases hl with hq | ⟨hnone, -⟩
  · exact hq
  · rw [hnone] at hwait
    cases hwait

/-- A thread on its way takes the mutex: it was counted, but it also takes a unit. -/
theorem back (hc : Counted body Q units) (hs : Awake body Q units s) {w : Waiter κ μ}
    {rest : List (Waiter κ μ)} (hphase : w.phase ≠ .asleep) (hperm : s.waiters.Perm (w :: rest))
    {late : Bool} (h : Monitor.back body { s with waiters := rest } thread w.call late reached =
      some t) : Awake body Q units t := by
  obtain ⟨hq, y, hy⟩ := hs.waits w (hperm.mem_iff.mpr List.mem_cons_self)
  rcases back_eq_some h with ⟨r, hlate, -⟩ | hlocked
  · rw [hc.untimed hq] at hlate
    cases hlate
  · have hrest : ∀ k, Covered rest k (units k s.shared - if w.cond = k then 1 else 0) :=
      fun k => (hs.covered k).resume hphase hperm
    have hwait : ∀ k, (body w.call).wait s.shared = some k →
        ∀ k', k' ≠ k → Covered rest k' (units k' s.shared) := by
      intro k hk k' hne
      have hcond : w.cond = k := hc.one_condition hy hk
      have hk' := hrest k'
      rwa [if_neg (fun heq => hne (heq.symm.trans hcond)), Nat.sub_zero] at hk'
    have hact : (body w.call).wait s.shared = none → ∀ k, Covered rest k
        (units k ((body w.call).act s.shared).1 -
          if ((body w.call).act s.shared).2.2 = some k then 1 else 0) := by
      intro hnone k
      apply (hrest k).mono
      by_cases hk : w.cond = k
      · have htakes := hc.takes (hk ▸ hy) hnone
        rw [if_pos hk]
        omega
      · have hgives := hc.gives hq hnone k
        rw [if_neg hk]
        omega
    have hcovered := Covered.locked (s := { s with waiters := rest }) hc hwait hact hlocked
    refine locked (s := { s with waiters := rest }) (fun w' hw' => ?_) hcovered
      (fun _ _ => hq) hlocked
    exact hs.waits w' (hperm.mem_iff.mpr (List.mem_cons_of_mem w hw'))

theorem step (hc : Counted body Q units) (hs : Awake body Q units s) {l : Label μ}
    (hl : l.Heeds body Q units s) (h : Monitor.step body s l = some t) : Awake body Q units t := by
  cases l with
  | enter thread call reached => exact enter hc hs hl (enter_eq_some h)
  | wake thread =>
      obtain ⟨w, rest, hphase, hperm, rfl⟩ := wake_eq_some h
      refine ⟨fun k => (hs.covered k).wake hphase hperm, fun w' hw' => ?_⟩
      rcases List.mem_cons.mp hw' with rfl | hw'
      · exact hs.waits w (hperm.mem_iff.mpr List.mem_cons_self)
      · exact hs.waits w' (hperm.mem_iff.mpr (List.mem_cons_of_mem w hw'))
  | resume thread late reached =>
      obtain ⟨w, rest, hphase, hperm, hback⟩ := resume_eq_some h
      exact back hc hs hphase hperm hback

end Awake

/-- Over whole runs: a thread that sleeps while there is a unit can count on one on its way. -/
theorem run_awake {units : κ → σ → Nat} {Q : μ → Prop} (hc : Counted body Q units) {x : σ}
    {ls : List (Label μ)}
    (hls : Machine.StepsMeet (step body) (fun s l => l.Heeds body Q units s)
      (init x : State σ κ μ ρ) ls)
    (hrun : Machine.run (step body) (init x) ls = some s) (k : κ) (hasleep : s.asleepOn k ≠ 0) :
    units k s.shared ≤ s.notifiedOn k := by
  have hawake : Awake body Q units s :=
    Machine.run_invariant_of_stepsMeet (Awake body Q units) (Awake.init x)
      (fun _ _ _ hs hl h => hs.step hc hl h) hls hrun
  exact hawake.covered k hasleep

end Monitor
