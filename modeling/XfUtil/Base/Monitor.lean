import XfUtil.Base.Machine

/-!
# Monitors

Methods run under one mutex and wait for condition variables. One step is what a
thread does from taking the mutex to releasing it, which it does when it returns
and when it waits. A waiting thread is asleep until a notification reaches it or
it wakes by itself, and then takes the mutex again.
-/

namespace Monitor

/-- What a method does under the mutex. -/
structure Method (σ κ ρ : Type*) where
  /-- The loop in front: the condition that is waited for, `none` if it is left. -/
  wait : σ → Option κ
  /-- The rest: the new state, the result, and the condition that is notified. -/
  act : σ → σ × ρ × Option κ
  /-- What is returned when a wait runs out of time; `none` if it cannot. -/
  late : Option ρ

inductive Phase where
  | asleep
  | notified
  | woken
deriving Repr, DecidableEq

/-- A thread that waits; a phase other than `asleep` means that it wants the mutex. -/
structure Waiter (κ μ : Type*) where
  thread : Nat
  call : μ
  cond : κ
  phase : Phase
deriving Repr, DecidableEq

/-- A call that has returned. -/
structure Return (μ ρ : Type*) where
  thread : Nat
  call : μ
  result : ρ
deriving Repr, DecidableEq

structure State (σ κ μ ρ : Type*) where
  shared : σ
  waiters : List (Waiter κ μ)
  /-- Ghost: the calls that have returned, in the order of the steps that did so. -/
  log : List (Return μ ρ)
deriving Repr, DecidableEq

/-- What the scheduler decides. `reached` is the thread that the notification of the
step unblocks, `late` the answer of a wait with a time limit. -/
inductive Label (μ : Type*) where
  | enter (thread : Nat) (call : μ) (reached : Option Nat)
  | wake (thread : Nat)
  | resume (thread : Nat) (late : Bool) (reached : Option Nat)
deriving Repr, DecidableEq

section

variable {σ κ μ ρ : Type*} [DecidableEq κ]

namespace Waiter

/-- The thread sleeps on `k`. -/
def asleepOn (k : κ) (w : Waiter κ μ) : Bool := w.phase = .asleep ∧ w.cond = k

/-- The thread has been notified of `k` and has not taken the mutex yet. -/
def notifiedOn (k : κ) (w : Waiter κ μ) : Bool := w.phase = .notified ∧ w.cond = k

end Waiter

/-- Take the first element with a property out of a list. -/
def pick {α : Type*} (p : α → Bool) (l : List α) : Option (α × List α) :=
  (l.find? p).map fun a => (a, l.eraseP p)

/-- `notify_one`: it unblocks a thread that sleeps on the condition, if there is one. -/
def notify (ws : List (Waiter κ μ)) : Option κ → Option Nat → Option (List (Waiter κ μ))
  | none, none => some ws
  | none, some _ => none
  | some k, none => if ws.any (·.asleepOn k) then none else some ws
  | some k, some thread =>
      (pick (fun w => w.asleepOn k && w.thread == thread) ws).map fun r =>
        { r.1 with phase := .notified } :: r.2

variable (body : μ → Method σ κ ρ)

/-- The mutex is taken: go to sleep, or go on and return. -/
def locked (s : State σ κ μ ρ) (thread : Nat) (call : μ) (reached : Option Nat) :
    Option (State σ κ μ ρ) :=
  match (body call).wait s.shared with
  | some k =>
      if reached = none then some { s with waiters := ⟨thread, call, k, .asleep⟩ :: s.waiters }
      else none
  | none =>
      let r := (body call).act s.shared
      (notify s.waiters r.2.2 reached).map fun ws => ⟨r.1, ws, s.log ++ [⟨thread, call, r.2.1⟩]⟩

/-- A wait returns: either its time is over, or the loop looks at the state again. -/
def back (s : State σ κ μ ρ) (thread : Nat) (call : μ) (late : Bool) (reached : Option Nat) :
    Option (State σ κ μ ρ) :=
  if late then
    if reached = none then
      (body call).late.map fun r => { s with log := s.log ++ [⟨thread, call, r⟩] }
    else none
  else locked body s thread call reached

/-- A call starts, a sleeping thread wakes by itself, or a thread that has been woken
takes the mutex again. -/
def step : Machine.Step (State σ κ μ ρ) (Label μ)
  | s, .enter thread call reached =>
      if ∀ w ∈ s.waiters, w.thread ≠ thread then locked body s thread call reached else none
  | s, .wake thread =>
      (pick (fun w => w.phase == .asleep && w.thread == thread) s.waiters).map fun r =>
        { s with waiters := { r.1 with phase := .woken } :: r.2 }
  | s, .resume thread late reached =>
      (pick (fun w => w.phase != .asleep && w.thread == thread) s.waiters).bind fun r =>
        back body { s with waiters := r.2 } thread r.1.call late reached

end

/-- Nothing has happened yet. -/
def init {σ κ μ ρ : Type*} (x : σ) : State σ κ μ ρ := ⟨x, [], []⟩

/-! ## What a step does -/

theorem pick_eq_some {α : Type*} {p : α → Bool} {l rest : List α} {a : α}
    (h : pick p l = some (a, rest)) : p a = true ∧ l.Perm (a :: rest) := by
  obtain ⟨b, hfind, heq⟩ := Option.map_eq_some_iff.mp h
  cases heq
  refine ⟨List.find?_some hfind, ?_⟩
  clear h
  induction l with
  | nil => cases hfind
  | cons b l ih =>
      cases hb : p b with
      | true =>
          rw [List.find?_cons_of_pos hb] at hfind
          cases hfind
          rw [List.eraseP_cons_of_pos hb]
      | false =>
          have hneg : ¬ p b = true := by simp [hb]
          rw [List.find?_cons_of_neg hneg] at hfind
          rw [List.eraseP_cons_of_neg hneg]
          exact ((ih hfind).cons b).trans (List.Perm.swap a b _)

section

variable {σ κ μ ρ : Type*} [DecidableEq κ] {body : μ → Method σ κ ρ} {s t : State σ κ μ ρ}
  {thread : Nat} {call : μ} {reached : Option Nat}

theorem notify_eq_some {ws ws' : List (Waiter κ μ)} {signal : Option κ}
    (h : notify ws signal reached = some ws') :
    (signal = none ∧ ws' = ws) ∨
      ∃ k, signal = some k ∧
        ((ws' = ws ∧ ∀ w ∈ ws, w.asleepOn k = false) ∨
          ∃ w rest, w.asleepOn k = true ∧ ws.Perm (w :: rest) ∧
            ws' = { w with phase := .notified } :: rest) := by
  cases signal with
  | none =>
      cases reached with
      | none => exact Or.inl ⟨rfl, (Option.some.inj h).symm⟩
      | some u => cases h
  | some k =>
      refine Or.inr ⟨k, rfl, ?_⟩
      cases reached with
      | none =>
          rw [notify] at h
          split at h
          · cases h
          · rename_i hnone
            refine Or.inl ⟨(Option.some.inj h).symm, ?_⟩
            simpa using hnone
      | some u =>
          obtain ⟨⟨w, rest⟩, hpick, rfl⟩ := Option.map_eq_some_iff.mp h
          obtain ⟨hp, hperm⟩ := pick_eq_some hpick
          rw [Bool.and_eq_true] at hp
          exact Or.inr ⟨w, rest, hp.1, hperm, rfl⟩

/-- A notification changes the phase of a thread and nothing else. -/
theorem notify_forall {ws ws' : List (Waiter κ μ)} {signal : Option κ} {P : μ → κ → Prop}
    (hws : ∀ w ∈ ws, P w.call w.cond) (h : notify ws signal reached = some ws') :
    ∀ w ∈ ws', P w.call w.cond := by
  rcases notify_eq_some h with ⟨-, rfl⟩ | ⟨k, -, ⟨rfl, -⟩ | ⟨w, rest, -, hperm, rfl⟩⟩
  · exact hws
  · exact hws
  · intro w' hw'
    rcases List.mem_cons.mp hw' with rfl | hw'
    · exact hws w (hperm.mem_iff.mpr List.mem_cons_self)
    · exact hws w' (hperm.mem_iff.mpr (List.mem_cons_of_mem w hw'))

theorem locked_eq_some (h : locked body s thread call reached = some t) :
    (∃ k, (body call).wait s.shared = some k ∧
        t = { s with waiters := ⟨thread, call, k, .asleep⟩ :: s.waiters }) ∨
      ((body call).wait s.shared = none ∧
        ∃ ws, notify s.waiters ((body call).act s.shared).2.2 reached = some ws ∧
          t = ⟨((body call).act s.shared).1, ws,
            s.log ++ [⟨thread, call, ((body call).act s.shared).2.1⟩]⟩) := by
  unfold locked at h
  cases hwait : (body call).wait s.shared with
  | some k =>
      rw [hwait] at h
      dsimp only at h
      split at h
      · exact Or.inl ⟨k, rfl, (Option.some.inj h).symm⟩
      · cases h
  | none =>
      rw [hwait] at h
      obtain ⟨ws, hnotify, heq⟩ := Option.map_eq_some_iff.mp h
      exact Or.inr ⟨rfl, ws, hnotify, heq.symm⟩

theorem back_eq_some {late : Bool} (h : back body s thread call late reached = some t) :
    (∃ r, (body call).late = some r ∧ t = { s with log := s.log ++ [⟨thread, call, r⟩] }) ∨
      locked body s thread call reached = some t := by
  unfold back at h
  split at h
  · split at h
    · obtain ⟨r, hlate, heq⟩ := Option.map_eq_some_iff.mp h
      exact Or.inl ⟨r, hlate, heq.symm⟩
    · cases h
  · exact Or.inr h

theorem enter_eq_some (h : step body s (.enter thread call reached) = some t) :
    locked body s thread call reached = some t := by
  rw [step] at h
  split at h
  · exact h
  · cases h

theorem wake_eq_some (h : step body s (.wake thread) = some t) :
    ∃ w rest, w.phase = .asleep ∧ s.waiters.Perm (w :: rest) ∧
      t = { s with waiters := { w with phase := .woken } :: rest } := by
  obtain ⟨⟨w, rest⟩, hpick, rfl⟩ := Option.map_eq_some_iff.mp h
  obtain ⟨hp, hperm⟩ := pick_eq_some hpick
  rw [Bool.and_eq_true] at hp
  exact ⟨w, rest, eq_of_beq hp.1, hperm, rfl⟩

theorem resume_eq_some {late : Bool} (h : step body s (.resume thread late reached) = some t) :
    ∃ w rest, w.phase ≠ .asleep ∧ s.waiters.Perm (w :: rest) ∧
      back body { s with waiters := rest } thread w.call late reached = some t := by
  obtain ⟨⟨w, rest⟩, hpick, hback⟩ := Option.bind_eq_some_iff.mp h
  obtain ⟨hp, hperm⟩ := pick_eq_some hpick
  rw [Bool.and_eq_true] at hp
  exact ⟨w, rest, by simpa using hp.1, hperm, hback⟩

/-! ## The calls that a step returns from -/

/-- The wait of a thread that is about to return. -/
def returning (s : State σ κ μ ρ) (thread : Nat) : Option (Waiter κ μ) :=
  s.waiters.find? fun w => w.phase != .asleep && w.thread == thread

/-- What the wait that runs out of time waits for is still not there. -/
def OnTime (body : μ → Method σ κ ρ) (s : State σ κ μ ρ) : Label μ → Prop
  | .resume thread true none =>
      ∀ w ∈ returning s thread, (body w.call).late ≠ none → (body w.call).wait s.shared ≠ none
  | _ => True

/-- The call that a step under the mutex returns from has found what it waits for. -/
theorem locked_returns (h : locked body s thread call reached = some t) {r : Return μ ρ}
    (hlog : t.log = s.log ++ [r]) :
    (body r.call).wait s.shared = none ∧ r.result = ((body r.call).act s.shared).2.1 ∧
      t.shared = ((body r.call).act s.shared).1 := by
  rcases locked_eq_some h with ⟨k, -, rfl⟩ | ⟨hwait, ws, -, rfl⟩
  · simp at hlog
  · obtain ⟨-, rfl⟩ := List.append_singleton_inj.mp hlog
    exact ⟨hwait, rfl, rfl⟩

/-- A call returns since it has found what it waits for, or late. -/
theorem step_returns {l : Label μ} (h : step body s l = some t) {r : Return μ ρ}
    (hlog : t.log = s.log ++ [r]) :
    ((body r.call).wait s.shared = none ∧ r.result = ((body r.call).act s.shared).2.1 ∧
        t.shared = ((body r.call).act s.shared).1) ∨
      l = .resume r.thread true none ∧ (body r.call).late = some r.result ∧
        t.shared = s.shared ∧ ∃ w ∈ returning s r.thread, w.call = r.call := by
  cases l with
  | enter thread call reached => exact Or.inl (locked_returns (enter_eq_some h) hlog)
  | wake thread =>
      obtain ⟨w, rest, -, -, rfl⟩ := wake_eq_some h
      simp at hlog
  | resume thread late reached =>
      obtain ⟨⟨w, rest⟩, hpick, hback⟩ := Option.bind_eq_some_iff.mp h
      obtain ⟨w', hfind, heq⟩ := Option.map_eq_some_iff.mp hpick
      cases heq
      unfold back at hback
      split at hback
      · rename_i hlate
        split at hback
        · rename_i hreached
          obtain ⟨r', hr', rfl⟩ := Option.map_eq_some_iff.mp hback
          obtain ⟨-, rfl⟩ := List.append_singleton_inj.mp hlog
          rw [hlate, hreached]
          exact Or.inr ⟨rfl, hr', rfl, w, hfind, rfl⟩
        · cases hback
      · exact Or.inl (locked_returns (s := { s with waiters := _ }) hback hlog)

/-- A late return, as a step. -/
theorem late_step {w : Waiter κ μ} {r : ρ} (hw : returning s thread = some w)
    (hlate : (body w.call).late = some r) :
    ∃ t, step body s (.resume thread true none) = some t ∧ t.shared = s.shared ∧
      t.log = s.log ++ [⟨thread, w.call, r⟩] := by
  have hfind : s.waiters.find? (fun w => w.phase != .asleep && w.thread == thread) = some w := hw
  have hstep : step body s (.resume thread true none) = some
      { s with
        waiters := s.waiters.eraseP fun w => w.phase != .asleep && w.thread == thread
        log := s.log ++ [⟨thread, w.call, r⟩] } := by
    simp [step, pick, hfind, back, hlate]
  exact ⟨_, hstep, rfl, rfl⟩

/-! ## The steps as a sequential execution -/

/-- Executed one after the other, the calls of the log lead from `x` to `y` and give the
results of the log. -/
inductive Serial (body : μ → Method σ κ ρ) (x : σ) : List (Return μ ρ) → σ → Prop
  | nil : Serial body x [] x
  | act {log : List (Return μ ρ)} {y : σ} (thread : Nat) (call : μ) :
      Serial body x log y → (body call).wait y = none →
      Serial body x (log ++ [⟨thread, call, ((body call).act y).2.1⟩]) ((body call).act y).1
  | late {log : List (Return μ ρ)} {y : σ} (thread : Nat) (call : μ) {r : ρ} :
      Serial body x log y → (body call).late = some r →
      Serial body x (log ++ [⟨thread, call, r⟩]) y

theorem Serial.locked {x : σ} (hs : Serial body x s.log s.shared)
    (h : locked body s thread call reached = some t) : Serial body x t.log t.shared := by
  rcases locked_eq_some h with ⟨k, -, rfl⟩ | ⟨hwait, ws, -, rfl⟩
  · exact hs
  · exact hs.act thread call hwait

/-- A wait splits a call in two, but only the last part of it reads and writes. -/
theorem Serial.step {x : σ} (hs : Serial body x s.log s.shared) {l : Label μ}
    (h : step body s l = some t) : Serial body x t.log t.shared := by
  cases l with
  | enter thread call reached => exact hs.locked (enter_eq_some h)
  | wake thread =>
      obtain ⟨w, rest, -, -, rfl⟩ := wake_eq_some h
      exact hs
  | resume thread late reached =>
      obtain ⟨w, rest, -, -, hback⟩ := resume_eq_some h
      rcases back_eq_some hback with ⟨r, hlate, rfl⟩ | hlocked
      · exact hs.late thread w.call hlate
      · exact Serial.locked (s := { s with waiters := rest }) hs hlocked

/-- Any interleaving has the effect of its returned calls in the order of their last steps. -/
theorem run_serial {x : σ} {ls : List (Label μ)}
    (hrun : Machine.run (Monitor.step body) (init x) ls = some s) :
    Serial body x s.log s.shared :=
  Machine.run_invariant (fun s => Serial body x s.log s.shared) Serial.nil
    (fun _ _ _ hs h => hs.step h) hrun

/-! ## The calls of a run -/

/-- A call that the label starts is one of `Q`. -/
def Label.Starts (Q : μ → Prop) : Label μ → Prop
  | .enter _ call _ => Q call
  | _ => True

/-- All calls of the state are of `Q`. -/
structure Within (Q : μ → Prop) (s : State σ κ μ ρ) : Prop where
  waiting : ∀ w ∈ s.waiters, Q w.call
  returned : ∀ r ∈ s.log, Q r.call

omit [DecidableEq κ] in
theorem Within.returns {Q : μ → Prop} (hs : Within Q s) (hcall : Q call) (r : ρ) :
    ∀ r' ∈ s.log ++ [⟨thread, call, r⟩], Q r'.call := by
  intro r' hr'
  rcases List.mem_append.mp hr' with hr' | hr'
  · exact hs.returned r' hr'
  · obtain rfl := List.mem_singleton.mp hr'
    exact hcall

theorem Within.locked {Q : μ → Prop} (hs : Within Q s) (hcall : Q call)
    (h : locked body s thread call reached = some t) : Within Q t := by
  rcases locked_eq_some h with ⟨k, -, rfl⟩ | ⟨-, ws, hnotify, rfl⟩
  · refine ⟨fun w hw => ?_, hs.returned⟩
    rcases List.mem_cons.mp hw with rfl | hw
    · exact hcall
    · exact hs.waiting w hw
  · exact ⟨notify_forall (P := fun call _ => Q call) hs.waiting hnotify, hs.returns hcall _⟩

theorem Within.step {Q : μ → Prop} (hs : Within Q s) {l : Label μ} (hl : l.Starts Q)
    (h : step body s l = some t) : Within Q t := by
  cases l with
  | enter thread call reached => exact hs.locked hl (enter_eq_some h)
  | wake thread =>
      obtain ⟨w, rest, -, hperm, rfl⟩ := wake_eq_some h
      refine ⟨fun w' hw' => ?_, hs.returned⟩
      rcases List.mem_cons.mp hw' with rfl | hw'
      · exact hs.waiting w (hperm.mem_iff.mpr List.mem_cons_self)
      · exact hs.waiting w' (hperm.mem_iff.mpr (List.mem_cons_of_mem w hw'))
  | resume thread late reached =>
      obtain ⟨w, rest, -, hperm, hback⟩ := resume_eq_some h
      have hcall : Q w.call := hs.waiting w (hperm.mem_iff.mpr List.mem_cons_self)
      have hrest : Within Q { s with waiters := rest } :=
        ⟨fun w' hw' => hs.waiting w' (hperm.mem_iff.mpr (List.mem_cons_of_mem w hw')), hs.returned⟩
      rcases back_eq_some hback with ⟨r, -, rfl⟩ | hlocked
      · exact ⟨hrest.waiting, hs.returns hcall r⟩
      · exact hrest.locked hcall hlocked

/-- Every call of a run has been started. -/
theorem run_within {Q : μ → Prop} {x : σ} {ls : List (Label μ)} (hls : ∀ l ∈ ls, l.Starts Q)
    (hrun : Machine.run (Monitor.step body) (init x) ls = some s) : Within Q s := by
  have hinit : Within Q (init x : State σ κ μ ρ) := ⟨by simp [init], by simp [init]⟩
  have hstep : ∀ (t : State σ κ μ ρ) l u, Within Q t → l.Starts Q →
      Monitor.step body t l = some u → Within Q u := fun _ _ _ ht hl h => ht.step hl h
  exact Machine.run_invariant_of_stepsMeet (Within Q) hinit hstep
    (Machine.StepsMeet.of_forall hls) hrun

end

end Monitor
