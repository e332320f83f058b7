import Mathlib.Data.Nat.Init

/-!
# Loops

A loop is a partial step function: `none` means that its condition is false, or
that it leaves by a `break`. A measure that every round lowers ends it.
-/

namespace Loop

variable {σ : Type*} {step : σ → Option σ}

/-- The state after `n` rounds from `s`, if there are so many. -/
def rounds (step : σ → Option σ) : Nat → σ → Option σ
  | 0, s => some s
  | n + 1, s => (step s).bind (rounds step n)

/-- The loop comes by the state `t`. -/
def Visits (step : σ → Option σ) (s t : σ) : Prop := ∃ n, rounds step n s = some t

/-- The loop ends in `t`, after `n` rounds. -/
def EndsIn (step : σ → Option σ) (n : Nat) (s t : σ) : Prop :=
  rounds step n s = some t ∧ step t = none

theorem rounds_succ_eq_some {n : Nat} {s u : σ} :
    rounds step (n + 1) s = some u ↔ ∃ t, step s = some t ∧ rounds step n t = some u :=
  Option.bind_eq_some_iff

theorem Visits.refl (s : σ) : Visits step s s := ⟨0, rfl⟩

theorem Visits.head {s t u : σ} (h : step s = some t) (hu : Visits step t u) :
    Visits step s u := by
  obtain ⟨n, hn⟩ := hu
  exact ⟨n + 1, rounds_succ_eq_some.mpr ⟨t, h, hn⟩⟩

/-- Rounds that lower `μ` each are at most as many as `μ` allows. -/
theorem rounds_le {μ : σ → Nat} {n : Nat} {s u : σ} (hn : rounds step n s = some u)
    (h : ∀ t, Visits step s t → ∀ t', step t = some t' → μ t' < μ t) : n + μ u ≤ μ s := by
  induction n generalizing s with
  | zero =>
      cases hn
      omega
  | succ n ih =>
      obtain ⟨t, ht, hrest⟩ := rounds_succ_eq_some.mp hn
      have hlt := h s (Visits.refl s) t ht
      have hle := ih hrest fun v hv => h v (hv.head ht)
      omega

/-- The termination rule. -/
theorem endsIn_of_measure {μ : σ → Nat} {s : σ}
    (h : ∀ t, Visits step s t → ∀ t', step t = some t' → μ t' < μ t) :
    ∃ n, n ≤ μ s ∧ ∃ u, EndsIn step n s u := by
  induction hμ : μ s using Nat.strongRecOn generalizing s with
  | ind m ih =>
      cases hs : step s with
      | none => exact ⟨0, Nat.zero_le m, s, rfl, hs⟩
      | some t =>
          have hlt := h s (Visits.refl s) t hs
          obtain ⟨n, hn, u, hrun, hend⟩ :=
            ih (μ t) (hμ ▸ hlt) (fun v hv => h v (hv.head hs)) rfl
          exact ⟨n + 1, by omega, u, rounds_succ_eq_some.mpr ⟨t, hs, hrun⟩, hend⟩

theorem EndsIn.head {n : Nat} {s t u : σ} (h : step s = some t) (hu : EndsIn step n t u) :
    EndsIn step (n + 1) s u :=
  ⟨rounds_succ_eq_some.mpr ⟨t, h, hu.1⟩, hu.2⟩

/-- The rule for loops that do not end: there is always another round. -/
theorem not_endsIn_of_invariant {I : σ → Prop} (h : ∀ s, I s → ∃ t, step s = some t ∧ I t)
    {s : σ} (hs : I s) (n : Nat) (u : σ) : ¬ EndsIn step n s u := by
  intro hend
  obtain ⟨hrun, hnone⟩ := hend
  induction n generalizing s with
  | zero =>
      obtain ⟨t, ht, -⟩ := h s hs
      cases hrun
      rw [hnone] at ht
      cases ht
  | succ n ih =>
      obtain ⟨t, ht, hrest⟩ := rounds_succ_eq_some.mp hrun
      obtain ⟨t', ht', hinv⟩ := h s hs
      rw [ht] at ht'
      cases ht'
      exact ih hinv hrest

/-- A loop that comes back to its first state after one round does not end. -/
theorem not_endsIn_of_fixed {s : σ} (h : step s = some s) (n : Nat) (u : σ) :
    ¬ EndsIn step n s u :=
  not_endsIn_of_invariant (I := (· = s)) (fun _ ht => ⟨s, ht.symm ▸ h, rfl⟩) rfl n u

end Loop
