import XfUtil.Base.Machine
import Mathlib.Logic.Function.Basic

/-!
# Sections under one lock

Threads share a state that they touch only in sections, each of them under the one lock there is.
A section is a sequence of small steps, and between two of them the other threads go on with what
they do without the lock. If every section, left alone, comes to its end with the effect that it
has in one piece, then the sections may as well be taken for single steps.
-/

/-- The calls `κ` of threads in states `θ`: a section of each under the lock, in small steps from
one `μ` to the next and with a result `ρ`, and what is done outside the sections, `ω`. -/
structure Sections (σ ν ε θ κ μ ρ ω : Type*) where
  /-- The part of the shared state that the sections leave alone. It is read without the lock. -/
  view : σ → ν
  /-- Whether a thread may begin the call. -/
  may : ε → θ → κ → Bool
  start : κ → μ
  /-- One small step; `none` if what it does is undefined. -/
  micro : μ → σ → Option (σ × (μ ⊕ ρ))
  /-- The section in one piece. -/
  whole : κ → σ → σ × ρ
  /-- What becomes of the rest of the world and of the thread when the lock is released. -/
  finish : ε → θ → κ → ρ → ε × θ
  outside : ω → ν → ε → θ → Option (ε × θ)

namespace Sections

/-- All threads are outside their sections. -/
structure Open (σ ε θ Tid : Type*) where
  shared : σ
  world : ε
  threads : Tid → θ

/-- With the thread that has the lock, its call, and where it is in its section. -/
structure Locked (σ ε θ κ μ Tid : Type*) extends Open σ ε θ Tid where
  holder : Option (Tid × κ × μ)

/-- Nobody has the lock. -/
def Open.unlocked {σ ε θ Tid : Type*} (s : Open σ ε θ Tid) (κ μ : Type*) :
    Locked σ ε θ κ μ Tid := ⟨s, none⟩

inductive WholeLabel (κ ω Tid : Type*) where
  | call (t : Tid) (c : κ)
  | outside (t : Tid) (o : ω)

inductive Label (κ ω Tid : Type*) where
  | take (t : Tid) (c : κ)
  | micro
  | outside (t : Tid) (o : ω)

variable {σ ν ε θ κ μ ρ ω Tid : Type*} [DecidableEq Tid] (S : Sections σ ν ε θ κ μ ρ ω)

/-- The thread leaves its section. -/
def leave (x : σ) (world : ε) (threads : Tid → θ) (t : Tid) (c : κ) (r : ρ) : Open σ ε θ Tid :=
  ⟨x, (S.finish world (threads t) c r).1,
    Function.update threads t (S.finish world (threads t) c r).2⟩

def stepOutside (s : Open σ ε θ Tid) (t : Tid) (o : ω) : Option (Open σ ε θ Tid) :=
  (S.outside o (S.view s.shared) s.world (s.threads t)).map fun e =>
    ⟨s.shared, e.1, Function.update s.threads t e.2⟩

/-- Sections are single steps. -/
def wholeStep : Machine.Step (Open σ ε θ Tid) (WholeLabel κ ω Tid)
  | s, .call t c =>
      if S.may s.world (s.threads t) c then
        some (S.leave (S.whole c s.shared).1 s.world s.threads t c (S.whole c s.shared).2)
      else none
  | s, .outside t o => S.stepOutside s t o

/-- The steps of the sections are taken one by one. -/
def step : Machine.Step (Locked σ ε θ κ μ Tid) (Label κ ω Tid)
  | s, .take t c =>
      match s.holder with
      | some _ => none
      | none =>
          if S.may s.world (s.threads t) c then some { s with holder := some (t, c, S.start c) }
          else none
  | s, .micro =>
      match s.holder with
      | none => none
      | some (t, c, m) =>
          match S.micro m s.shared with
          | none => none
          | some (x, .inl m') => some { s with shared := x, holder := some (t, c, m') }
          | some (x, .inr r) => some ⟨S.leave x s.world s.threads t c r, none⟩
  | s, .outside t o =>
      match s.holder with
      | none => (S.stepOutside s.toOpen t o).map fun s' => ⟨s', none⟩
      | some (u, c, m) =>
          if t = u then none else (S.stepOutside s.toOpen t o).map fun s' => ⟨s', some (u, c, m)⟩

/-! ## Sections left alone -/

/-- From `m` on, the section comes to its end. -/
inductive Completes : μ → σ → σ × ρ → Prop
  | last {m : μ} {x y : σ} {r : ρ} :
      S.micro m x = some (y, .inr r) → S.view y = S.view x → Completes m x (y, r)
  | next {m m' : μ} {x y : σ} {out : σ × ρ} :
      S.micro m x = some (y, .inl m') → S.view y = S.view x → Completes m' y out →
      Completes m x out

/-- Sections do in small steps what they do in one piece, and what a thread may begin it may still
begin after a step of another. -/
structure Lawful : Prop where
  completes : ∀ c x, S.Completes (S.start c) x (S.whole c x)
  outside : ∀ {o v e e' s s' s₁ c}, S.outside o v e s = some (e', s') →
    S.may e s₁ c = true → S.may e' s₁ c = true

variable {S}

theorem Completes.run {m : μ} {x : σ} {out : σ × ρ} (h : S.Completes m x out) (world : ε)
    (threads : Tid → θ) (t : Tid) (c : κ) :
    ∃ n, Machine.run S.step ⟨⟨x, world, threads⟩, some (t, c, m)⟩ (List.replicate n .micro) =
      some ((S.leave out.1 world threads t c out.2).unlocked κ μ) := by
  induction h with
  | last hm hv => exact ⟨1, by simp [step, hm, Open.unlocked]⟩
  | next hm hv _ ih =>
      obtain ⟨n, hn⟩ := ih
      exact ⟨n + 1, by simpa [step, hm, List.replicate_succ] using hn⟩

/-! ## The simulation -/

/-- While a thread is in its section, the state of the whole steps is the one before it. -/
def Related (S : Sections σ ν ε θ κ μ ρ ω) (f : Locked σ ε θ κ μ Tid) (s : Open σ ε θ Tid) : Prop :=
  match f.holder with
  | none => s = f.toOpen
  | some (t, c, m) =>
      s.world = f.world ∧ s.threads = f.threads ∧ S.view s.shared = S.view f.shared ∧
        S.may f.world (f.threads t) c = true ∧ S.Completes m f.shared (S.whole c s.shared)

/-- A small step is a whole one or none. -/
theorem Related.step (hS : S.Lawful) {f f' : Locked σ ε θ κ μ Tid} {s : Open σ ε θ Tid}
    (h : S.Related f s) {l : Label κ ω Tid} (hstep : S.step f l = some f') :
    ∃ ls s', Machine.run S.wholeStep s ls = some s' ∧ S.Related f' s' := by
  obtain ⟨⟨x, world, threads⟩, holder⟩ := f
  cases l with
  | take t c =>
      cases holder with
      | some _ => cases hstep
      | none =>
          obtain rfl : s = ⟨x, world, threads⟩ := h
          simp only [Sections.step] at hstep
          split at hstep
          · rename_i hmay
            cases hstep
            exact ⟨[], _, rfl, rfl, rfl, rfl, hmay, hS.completes c x⟩
          · cases hstep
  | micro =>
      cases holder with
      | none => cases hstep
      | some holder =>
          obtain ⟨t, c, m⟩ := holder
          obtain ⟨y, world', threads'⟩ := s
          obtain ⟨hworld, hthreads, hview, hmay, hcompletes⟩ := h
          dsimp only at hworld hthreads hview hmay hcompletes
          subst hworld hthreads
          generalize hout : S.whole c y = out at hcompletes
          cases hcompletes with
          | last hm hv =>
              simp only [Sections.step, hm] at hstep
              cases hstep
              exact ⟨[.call t c], _, by simp [wholeStep, hmay, hout], rfl⟩
          | next hm hv hrest =>
              simp only [Sections.step, hm] at hstep
              cases hstep
              exact ⟨[], _, rfl, rfl, rfl, hview.trans hv.symm, hmay, hout ▸ hrest⟩
  | outside t o =>
      cases holder with
      | none =>
          obtain rfl : s = ⟨x, world, threads⟩ := h
          obtain ⟨s', hs', rfl⟩ := Option.map_eq_some_iff.mp hstep
          exact ⟨[.outside t o], s', by simp [wholeStep, hs'], rfl⟩
      | some holder =>
          obtain ⟨u, c, m⟩ := holder
          obtain ⟨y, world', threads'⟩ := s
          obtain ⟨hworld, hthreads, hview, hmay, hcompletes⟩ := h
          dsimp only at hworld hthreads hview hmay hcompletes
          subst hworld hthreads
          simp only [Sections.step] at hstep
          split at hstep
          · cases hstep
          · rename_i hne
            obtain ⟨s', hs', rfl⟩ := Option.map_eq_some_iff.mp hstep
            obtain ⟨e, he, rfl⟩ := Option.map_eq_some_iff.mp hs'
            have hstep' : S.stepOutside (⟨y, world', threads'⟩ : Open σ ε θ Tid) t o =
                some ⟨y, e.1, Function.update threads' t e.2⟩ := by
              rw [stepOutside, hview, he]
              rfl
            have hother : Function.update threads' t e.2 u = threads' u :=
              Function.update_of_ne (Ne.symm hne) ..
            refine ⟨[.outside t o], ⟨y, e.1, Function.update threads' t e.2⟩,
              by simp [wholeStep, hstep'], rfl, rfl, hview, ?_, hcompletes⟩
            show S.may e.1 (Function.update threads' t e.2 u) c = true
            rw [hother]
            exact hS.outside he hmay

theorem Related.run (hS : S.Lawful) {s₀ : Open σ ε θ Tid} {ls : List (Label κ ω Tid)}
    {f : Locked σ ε θ κ μ Tid} (hrun : Machine.run S.step (s₀.unlocked κ μ) ls = some f) :
    ∃ s, Machine.Reachable S.wholeStep s₀ s ∧ S.Related f s := by
  have hstart : S.Related (s₀.unlocked κ μ) s₀ := rfl
  refine Machine.run_invariant (fun f => ∃ s, Machine.Reachable S.wholeStep s₀ s ∧ S.Related f s)
    ⟨s₀, ⟨[], rfl⟩, hstart⟩ ?_ hrun
  rintro f l f' ⟨s, ⟨ls, hls⟩, h⟩ hstep
  obtain ⟨ls', s', hls', h'⟩ := h.step hS hstep
  exact ⟨s', ⟨ls ++ ls', by rw [Machine.run_append, hls]; exact hls'⟩, h'⟩

theorem wholeStep_run (hS : S.Lawful) {s s' : Open σ ε θ Tid} {l : WholeLabel κ ω Tid}
    (hstep : S.wholeStep s l = some s') :
    ∃ ls, Machine.run S.step (s.unlocked κ μ) ls = some (s'.unlocked κ μ) := by
  cases l with
  | call t c =>
      simp only [wholeStep] at hstep
      split at hstep
      · rename_i hmay
        cases hstep
        obtain ⟨n, hn⟩ := (hS.completes c s.shared).run s.world s.threads t c
        exact ⟨.take t c :: List.replicate n .micro, by simpa [step, Open.unlocked, hmay] using hn⟩
      · cases hstep
  | outside t o =>
      have houtside : S.stepOutside s t o = some s' := hstep
      exact ⟨[.outside t o], by simp [step, Open.unlocked, houtside]⟩

/-- With the lock free, the small steps reach what the whole steps reach. -/
theorem unlocked_iff (hS : S.Lawful) {s₀ s : Open σ ε θ Tid} :
    Machine.Reachable S.step (s₀.unlocked κ μ) (s.unlocked κ μ) ↔
      Machine.Reachable S.wholeStep s₀ s := by
  constructor
  · rintro ⟨ls, hrun⟩
    obtain ⟨s', hreach, hrelated⟩ := Related.run hS hrun
    obtain rfl : s' = s := hrelated
    exact hreach
  · rintro hreach
    refine hreach.invariant (fun s => Machine.Reachable S.step (s₀.unlocked κ μ) (s.unlocked κ μ))
      ⟨[], rfl⟩ ?_
    rintro s l s' ⟨ls, hls⟩ hstep
    obtain ⟨ls', hls'⟩ := wholeStep_run hS hstep
    exact ⟨ls ++ ls', by rw [Machine.run_append, hls]; exact hls'⟩

/-- Wherever a thread is in its section, its next steps are defined and bring it out again. -/
theorem releases (hS : S.Lawful) {s₀ : Open σ ε θ Tid} {f : Locked σ ε θ κ μ Tid}
    (hreach : Machine.Reachable S.step (s₀.unlocked κ μ) f) :
    ∃ n s, Machine.run S.step f (List.replicate n .micro) = some (s.unlocked κ μ) ∧
      Machine.Reachable S.wholeStep s₀ s := by
  obtain ⟨ls, hls⟩ := hreach
  suffices hout : ∃ (n : Nat) (s : Open σ ε θ Tid),
      Machine.run S.step f (List.replicate n .micro) = some (s.unlocked κ μ) by
    obtain ⟨n, s, hn⟩ := hout
    refine ⟨n, s, hn, (unlocked_iff hS).mp ⟨ls ++ List.replicate n .micro, ?_⟩⟩
    rw [Machine.run_append, hls]
    exact hn
  obtain ⟨s, -, hrelated⟩ := Related.run hS hls
  obtain ⟨⟨x, world, threads⟩, holder⟩ := f
  cases holder with
  | none => exact ⟨0, _, rfl⟩
  | some holder =>
      obtain ⟨t, c, m⟩ := holder
      obtain ⟨n, hn⟩ := Completes.run hrelated.2.2.2.2 world threads t c
      exact ⟨n, _, hn⟩

end Sections
