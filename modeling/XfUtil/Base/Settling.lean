import XfUtil.Base.Wakeups
import XfUtil.Base.WorkLeft

/-!
# A monitor left to itself

If no more calls start and nobody wakes by himself, the threads that have been woken take the
mutex one after the other until all that are left are asleep. Which calls return meanwhile may
depend on the order, how many of a kind does not: a call counts where it waits and when it
returns.
-/

namespace Monitor

/-- A thread that has been woken takes the mutex. -/
def Label.resumes {μ : Type*} : Label μ → Bool
  | .resume _ _ _ => true
  | .enter _ _ _ | .wake _ => false

variable {σ κ μ ρ : Type*}

/-- The thread wants the mutex. -/
def Waiter.onWay (w : Waiter κ μ) : Bool := w.phase != .asleep

/-- All threads that wait are asleep. -/
def State.Settled (s : State σ κ μ ρ) : Prop := ∀ w ∈ s.waiters, w.phase = .asleep

/-- A thread on its way may return or go to sleep, and one that returns wakes at most one. -/
def State.restless (s : State σ κ μ ρ) : Nat := s.waiters.length + s.waiters.countP Waiter.onWay

variable [DecidableEq κ] {body : μ → Method σ κ ρ} {s t : State σ κ μ ρ} {thread : Nat}
  {call : μ} {late : Bool} {reached : Option Nat}

/-! ## The threads on their way -/

theorem notify_onWay {ws ws' : List (Waiter κ μ)} {signal : Option κ}
    (h : notify ws signal reached = some ws') :
    ws'.length = ws.length ∧ ws'.countP Waiter.onWay ≤ ws.countP Waiter.onWay + 1 := by
  rcases notify_eq_some h with ⟨-, rfl⟩ | ⟨k, -, ⟨rfl, -⟩ | ⟨w, rest, -, hperm, rfl⟩⟩
  · exact ⟨rfl, Nat.le_succ _⟩
  · exact ⟨rfl, Nat.le_succ _⟩
  · refine ⟨by rw [hperm.length_eq, List.length_cons, List.length_cons], ?_⟩
    rw [hperm.countP_eq, List.countP_cons_of_pos rfl, List.countP_cons]
    omega

/-- A thread that takes the mutex makes the monitor less restless. -/
theorem restless_lt (h : step body s (.resume thread late reached) = some t) :
    t.restless < s.restless := by
  obtain ⟨w, rest, hphase, hperm, hback⟩ := resume_eq_some h
  have hway : w.onWay = true := by simpa [Waiter.onWay] using hphase
  have hs : s.restless = rest.length + rest.countP Waiter.onWay + 2 := by
    rw [State.restless, hperm.length_eq, hperm.countP_eq, List.countP_cons_of_pos hway,
      List.length_cons]
    omega
  rw [hs]
  rcases back_eq_some hback with ⟨r, -, rfl⟩ | hlocked
  · show rest.length + rest.countP Waiter.onWay < _
    omega
  · rcases locked_eq_some hlocked with ⟨k, -, rfl⟩ | ⟨-, ws, hnotify, rfl⟩
    · show rest.length + 1 + List.countP _ (_ :: rest) < _
      rw [List.countP_cons_of_neg (by simp [Waiter.onWay])]
      omega
    · obtain ⟨hlength, hcount⟩ := notify_onWay hnotify
      show ws.length + ws.countP Waiter.onWay < _
      dsimp only at hlength hcount
      omega

theorem notify_goes (ws : List (Waiter κ μ)) (signal : Option κ) :
    ∃ reached ws', notify ws signal reached = some ws' := by
  cases signal with
  | none => exact ⟨none, ws, rfl⟩
  | some k =>
      by_cases hany : ws.any (·.asleepOn k)
      · obtain ⟨w, hw, hasleep⟩ := List.any_eq_true.mp hany
        have hfind : (ws.find? fun v => v.asleepOn k && v.thread == w.thread).isSome := by
          rw [List.find?_isSome]
          exact ⟨w, hw, by simp [hasleep]⟩
        obtain ⟨v, hv⟩ := Option.isSome_iff_exists.mp hfind
        exact ⟨some w.thread, _, by rw [notify, pick, hv]; rfl⟩
      · exact ⟨none, ws, if_neg hany⟩

theorem locked_goes (body : μ → Method σ κ ρ) (s : State σ κ μ ρ) (thread : Nat) (call : μ) :
    ∃ reached t, locked body s thread call reached = some t := by
  cases hwait : (body call).wait s.shared with
  | some k => exact ⟨none, _, by rw [locked, hwait]; rfl⟩
  | none =>
      obtain ⟨reached, ws, hnotify⟩ := notify_goes s.waiters ((body call).act s.shared).2.2
      refine ⟨reached, ⟨((body call).act s.shared).1, ws,
        s.log ++ [⟨thread, call, ((body call).act s.shared).2.1⟩]⟩, ?_⟩
      rw [locked, hwait]
      dsimp only
      rw [hnotify, Option.map_some]

/-- Whoever has been woken can take the mutex. -/
theorem resume_goes (body : μ → Method σ κ ρ) (hs : ¬ s.Settled) :
    ∃ thread reached t, step body s (.resume thread false reached) = some t := by
  simp only [State.Settled, not_forall] at hs
  obtain ⟨w, hw, hphase⟩ := hs
  have hfind : (s.waiters.find? fun v => v.phase != .asleep && v.thread == w.thread).isSome := by
    rw [List.find?_isSome]
    exact ⟨w, hw, by simpa using hphase⟩
  obtain ⟨v, hv⟩ := Option.isSome_iff_exists.mp hfind
  obtain ⟨reached, t, ht⟩ := locked_goes body
    { s with
      waiters := s.waiters.eraseP fun v => v.phase != .asleep && v.thread == w.thread }
    w.thread v.call
  refine ⟨w.thread, reached, t, ?_⟩
  rw [step, pick, hv]
  exact ht

/-- The rule for what a monitor comes to: an invariant of the threads on their way, and what it
says when all the others are asleep. -/
theorem settles (I : State σ κ μ ρ → Prop) {Q : State σ κ μ ρ → Prop} (hs : I s)
    (hstep : ∀ {t u thread late reached}, I t →
      step body t (.resume thread late reached) = some u → I u)
    (hsettled : ∀ t, I t → t.Settled → Q t) :
    Machine.Ends (Machine.only (step body) Label.resumes) s Q := by
  refine Machine.Ends.of_measure I State.restless hs (fun t l u ht hl => ?_) fun t ht => ?_
  · obtain ⟨hresumes, hl⟩ := Machine.only_eq_some.mp hl
    cases l with
    | resume thread late reached => exact ⟨hstep ht hl, restless_lt hl⟩
    | enter thread call reached => cases hresumes
    | wake thread => cases hresumes
  · by_cases hsettles : t.Settled
    · exact Or.inl (hsettled t ht hsettles)
    · obtain ⟨thread, reached, u, hu⟩ := resume_goes body hsettles
      exact Or.inr ⟨_, u, Machine.only_eq_some.mpr ⟨rfl, hu⟩⟩

/-! ## Calls of one kind -/

/-- The number of threads that wait for `k`, asleep or on their way. -/
def State.waitingOn (s : State σ κ μ ρ) (k : κ) : Nat := s.waiters.countP fun w => w.cond = k

/-- The calls that have scored and those that will when they have found what they wait for. -/
def State.called (s : State σ κ μ ρ) (scores : Return μ ρ → Bool) (k : κ) : Nat :=
  s.log.countP scores + s.waitingOn k

theorem notify_waitingOn {ws ws' : List (Waiter κ μ)} {signal : Option κ}
    (h : notify ws signal reached = some ws') (k : κ) :
    ws'.countP (fun w => w.cond = k) = ws.countP fun w => w.cond = k := by
  rcases notify_eq_some h with ⟨-, rfl⟩ | ⟨k', -, ⟨rfl, -⟩ | ⟨w, rest, -, hperm, rfl⟩⟩
  · rfl
  · rfl
  · rw [hperm.countP_eq, List.countP_cons, List.countP_cons]

theorem State.Settled.asleepOn (hs : s.Settled) (k : κ) : s.asleepOn k = s.waitingOn k := by
  unfold State.asleepOn State.waitingOn
  refine List.countP_congr fun w hw => ?_
  simp [Waiter.asleepOn, hs w hw]

/-- Where all are asleep, nobody waits for what there is. -/
theorem Awake.settled {Q : μ → Prop} {units : κ → σ → Nat} (hs : Awake body Q units s)
    (hsettled : s.Settled) {k : κ} (hk : s.waitingOn k ≠ 0) : units k s.shared = 0 := by
  have hnotified : s.waiters.countP (·.notifiedOn k) = 0 := by
    refine List.countP_eq_zero.mpr fun w hw => ?_
    simp [Waiter.notifiedOn, hsettled w hw]
  have hcovered := hs.covered k (by
    rw [← hsettled.asleepOn k] at hk
    exact hk)
  rw [hnotified] at hcovered
  exact Nat.le_zero.mp hcovered

/-- A call that has waited scores if and only if it has waited for `k`. -/
def Scores (body : μ → Method σ κ ρ) (scores : Return μ ρ → Bool) (k : κ) : Prop :=
  ∀ {m k' x y}, (body m).wait x = some k' → (body m).wait y = none →
    ∀ thread, scores ⟨thread, m, ((body m).act y).2.1⟩ = decide (k' = k)

theorem called_resume {Q : μ → Prop} {units : κ → σ → Nat} (hc : Counted body Q units)
    (hs : Awake body Q units s) {scores : Return μ ρ → Bool} {k : κ}
    (hscores : Scores body scores k) (h : step body s (.resume thread late reached) = some t) :
    t.called scores k = s.called scores k := by
  obtain ⟨w, rest, -, hperm, hback⟩ := resume_eq_some h
  obtain ⟨hq, x, hx⟩ := hs.waits w (hperm.mem_iff.mpr List.mem_cons_self)
  have hcalled : s.called scores k =
      s.log.countP scores + (rest.countP (fun v => v.cond = k) + if w.cond = k then 1 else 0) := by
    rw [State.called, State.waitingOn, hperm.countP_eq, List.countP_cons]
    simp only [decide_eq_true_eq]
  rw [hcalled]
  rcases back_eq_some hback with ⟨r, hlate, -⟩ | hlocked
  · rw [hc.untimed hq] at hlate
    cases hlate
  · rcases locked_eq_some hlocked with ⟨k', hwait, rfl⟩ | ⟨hwait, ws, hnotify, rfl⟩
    · have hcond : w.cond = k' := hc.one_condition hx hwait
      show s.log.countP scores + List.countP _ (_ :: rest) = _
      rw [List.countP_cons, hcond]
      simp only [decide_eq_true_eq]
    · show (s.log ++ [_]).countP scores + ws.countP (fun v => v.cond = k) = _
      rw [notify_waitingOn hnotify k, List.countP_append, List.countP_singleton,
        hscores hx hwait thread]
      simp only [decide_eq_true_eq]
      omega

end Monitor
