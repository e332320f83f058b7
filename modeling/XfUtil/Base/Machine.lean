import Mathlib.Data.List.Induction

/-!
# Runs of labelled partial machines

A machine is a partial step function on labels. Nondeterminism (the scheduler,
the environment's answers) lives in the choice of the label, so a run is a list
of labels and every interleaving is one such list.
-/

namespace Machine

variable {σ lab : Type*}

/-- A partial transition function: `none` means that the label is not enabled. -/
abbrev Step (σ lab : Type*) := σ → lab → Option σ

/-- Execute the labels from left to right. -/
def run (step : Step σ lab) : σ → List lab → Option σ
  | s, [] => some s
  | s, l :: ls => (step s l).bind fun t => run step t ls

@[simp] theorem run_nil (step : Step σ lab) (s : σ) : run step s [] = some s := rfl

@[simp] theorem run_cons (step : Step σ lab) (s : σ) (l : lab) (ls : List lab) :
    run step s (l :: ls) = (step s l).bind fun t => run step t ls := rfl

theorem run_append (step : Step σ lab) (s : σ) (xs ys : List lab) :
    run step s (xs ++ ys) = (run step s xs).bind fun t => run step t ys := by
  induction xs generalizing s with
  | nil => simp
  | cons x xs ih =>
      cases h : step s x with
      | none => simp [h]
      | some t => simp [h, ih t]

theorem run_snoc (step : Step σ lab) (s : σ) (xs : List lab) (l : lab) :
    run step s (xs ++ [l]) = (run step s xs).bind fun t => step t l := by
  rw [run_append]
  congr 1
  funext t
  cases h : step t l <;> simp [h]

theorem run_snoc_eq_some {step : Step σ lab} {s u : σ} {xs : List lab} {l : lab}
    (h : run step s (xs ++ [l]) = some u) :
    ∃ t, run step s xs = some t ∧ step t l = some u := by
  rw [run_snoc] at h
  exact Option.bind_eq_some_iff.mp h

theorem run_append_eq_some {step : Step σ lab} {s u : σ} {xs ys : List lab}
    (h : run step s (xs ++ ys) = some u) :
    ∃ t, run step s xs = some t ∧ run step t ys = some u := by
  rw [run_append] at h
  exact Option.bind_eq_some_iff.mp h

/-- States that some run from `s` reaches. -/
def Reachable (step : Step σ lab) (s t : σ) : Prop := ∃ ls, run step s ls = some t

/-- The induction rule for invariants: initially true and kept by every step. -/
theorem run_invariant {step : Step σ lab} (I : σ → Prop) {s : σ} (hs : I s)
    (hstep : ∀ t l u, I t → step t l = some u → I u) :
    ∀ {ls : List lab} {t : σ}, run step s ls = some t → I t := by
  intro ls
  induction ls using List.reverseRecOn with
  | nil =>
      intro t h
      cases h
      exact hs
  | append_singleton ls l ih =>
      intro u h
      obtain ⟨t, ht, hl⟩ := run_snoc_eq_some h
      exact hstep t l u (ih ht) hl

theorem Reachable.invariant {step : Step σ lab} (I : σ → Prop) {s t : σ}
    (h : Reachable step s t) (hs : I s)
    (hstep : ∀ t l u, I t → step t l = some u → I u) : I t := by
  obtain ⟨ls, hrun⟩ := h
  exact run_invariant I hs hstep hrun

/-! ## What the latest step of a kind was about -/

/-- The answer of `f` to the last step of the run that it has an answer to. -/
def latest {β : Type*} (step : Step σ lab) (f : σ → lab → Option β) : σ → List lab → Option β
  | _, [] => none
  | s, l :: ls => (step s l).bind fun t => (latest step f t ls).or (f s l)

theorem latest_snoc {β : Type*} {step : Step σ lab} (f : σ → lab → Option β) {s t u : σ}
    {ls : List lab} {l : lab} (hrun : run step s ls = some t) (hl : step t l = some u) :
    latest step f s (ls ++ [l]) = (f t l).or (latest step f s ls) := by
  induction ls generalizing s with
  | nil =>
      cases hrun
      simp [latest, hl]
  | cons k ls ih =>
      rw [run_cons] at hrun
      obtain ⟨s', hk, hrest⟩ := Option.bind_eq_some_iff.mp hrun
      simp only [List.cons_append, latest, hk, Option.bind_some, ih hrest, Option.or_assoc]

/-- The invariant rule with a record of the latest answer. -/
theorem run_latest_invariant {β : Type*} {step : Step σ lab} {f : σ → lab → Option β}
    (R : Option β → σ → Prop) {s : σ} (hs : R none s)
    (hstep : ∀ b t l u, R b t → step t l = some u → R ((f t l).or b) u) :
    ∀ {ls : List lab} {t : σ}, run step s ls = some t → R (latest step f s ls) t := by
  intro ls
  induction ls using List.reverseRecOn with
  | nil =>
      intro t h
      cases h
      exact hs
  | append_singleton ls l ih =>
      intro u h
      obtain ⟨t, ht, hl⟩ := run_snoc_eq_some h
      rw [latest_snoc f ht hl]
      exact hstep _ t l u (ih ht) hl

/-! ## Runs whose steps all meet a condition -/

/-- Every step taken along the run from `s` meets `P` in its own pre-state. -/
def StepsMeet (step : Step σ lab) (P : σ → lab → Prop) (s : σ) (ls : List lab) : Prop :=
  ∀ pre l post, ls = pre ++ l :: post → ∀ t, run step s pre = some t → P t l

theorem StepsMeet.nil (step : Step σ lab) (P : σ → lab → Prop) (s : σ) :
    StepsMeet step P s [] := by
  intro pre l post h
  simp at h

/-- A condition on the labels alone. -/
theorem StepsMeet.of_forall {step : Step σ lab} {P : lab → Prop} {s : σ} {ls : List lab}
    (h : ∀ l ∈ ls, P l) : StepsMeet step (fun _ l => P l) s ls := by
  intro pre l post hls t _
  exact h l (by simp [hls])

theorem stepsMeet_snoc {step : Step σ lab} {P : σ → lab → Prop} {s : σ}
    {ls : List lab} {l : lab} :
    StepsMeet step P s (ls ++ [l]) ↔
      StepsMeet step P s ls ∧ ∀ t, run step s ls = some t → P t l := by
  constructor
  · intro h
    refine ⟨fun pre k post hk t ht => ?_, fun t ht => h ls l [] rfl t ht⟩
    exact h pre k (post ++ [l]) (by simp [hk]) t ht
  · rintro ⟨hpre, hlast⟩ pre k post hk t ht
    rcases List.eq_nil_or_concat post with rfl | ⟨post, k', rfl⟩
    · obtain ⟨rfl, rfl⟩ : ls = pre ∧ l = k := by simpa using List.append_inj' hk rfl
      exact hlast t ht
    · have hk' : ls ++ [l] = (pre ++ k :: post) ++ [k'] := by simpa using hk
      have hls : ls = pre ++ k :: post := (List.append_inj' hk' rfl).1
      exact hpre pre k post hls t ht

theorem StepsMeet.of_append {step : Step σ lab} {P : σ → lab → Prop} {s : σ}
    {xs ys : List lab} (h : StepsMeet step P s (xs ++ ys)) : StepsMeet step P s xs :=
  fun pre l post hx t ht => h pre l (post ++ ys) (by simp [hx]) t ht

/-- Conditions that agree in every state reached are met by the same runs. -/
theorem stepsMeet_congr {step : Step σ lab} {P Q : σ → lab → Prop} {s : σ} {ls : List lab}
    (h : ∀ pre t, run step s pre = some t → ∀ l, P t l ↔ Q t l) :
    StepsMeet step P s ls ↔ StepsMeet step Q s ls := by
  constructor
  · intro hP pre l post hls t ht
    exact (h pre t ht l).mp (hP pre l post hls t ht)
  · intro hQ pre l post hls t ht
    exact (h pre t ht l).mpr (hQ pre l post hls t ht)

/-- The invariant rule along a run whose steps all meet `P`. -/
theorem run_invariant_of_stepsMeet {step : Step σ lab} {P : σ → lab → Prop} (I : σ → Prop)
    {s : σ} (hs : I s) (hstep : ∀ t l u, I t → P t l → step t l = some u → I u) :
    ∀ {ls : List lab} {t : σ}, StepsMeet step P s ls → run step s ls = some t → I t := by
  intro ls
  induction ls using List.reverseRecOn with
  | nil =>
      intro t _ h
      cases h
      exact hs
  | append_singleton ls l ih =>
      intro u hP h
      obtain ⟨t, ht, hl⟩ := run_snoc_eq_some h
      obtain ⟨hpre, hlast⟩ := stepsMeet_snoc.mp hP
      exact hstep t l u (ih hpre ht) (hlast t ht) hl

/-- A run whose steps all meet `P` reaches its end, with the invariant, if `P` enables a step. -/
theorem run_of_stepsMeet {step : Step σ lab} {P : σ → lab → Prop} (I : σ → Prop) {s : σ}
    (hs : I s) (hstep : ∀ t l, I t → P t l → ∃ u, step t l = some u ∧ I u) :
    ∀ {ls : List lab}, StepsMeet step P s ls → ∃ t, run step s ls = some t ∧ I t := by
  intro ls
  induction ls using List.reverseRecOn with
  | nil => exact fun _ => ⟨s, rfl, hs⟩
  | append_singleton ls l ih =>
      intro hP
      obtain ⟨hpre, hlast⟩ := stepsMeet_snoc.mp hP
      obtain ⟨t, ht, hI⟩ := ih hpre
      obtain ⟨u, hu, hI'⟩ := hstep t l hI (hlast t ht)
      exact ⟨u, by rw [run_snoc, ht, Option.bind_some, hu], hI'⟩

/-- Check a condition along the run from `s`, as far as it goes. -/
def meets (step : Step σ lab) (P : σ → lab → Prop) [∀ s l, Decidable (P s l)] :
    σ → List lab → Bool
  | _, [] => true
  | s, l :: ls =>
      decide (P s l) &&
        match step s l with
        | none => true
        | some t => meets step P t ls

theorem StepsMeet.of_meets {step : Step σ lab} {P : σ → lab → Prop} [∀ s l, Decidable (P s l)]
    {s : σ} {ls : List lab} (h : meets step P s ls = true) : StepsMeet step P s ls := by
  induction ls generalizing s with
  | nil => exact StepsMeet.nil step P s
  | cons l ls ih =>
      simp only [meets, Bool.and_eq_true, decide_eq_true_eq] at h
      intro pre k post hk t ht
      cases pre with
      | nil =>
          obtain ⟨rfl, -⟩ := List.cons.inj hk
          cases ht
          exact h.1
      | cons l' pre =>
          obtain ⟨rfl, hrest⟩ := List.cons.inj hk
          rw [run_cons] at ht
          obtain ⟨u, hu, hrun⟩ := Option.bind_eq_some_iff.mp ht
          have hmeets := h.2
          rw [hu] at hmeets
          exact ih hmeets pre k post hrest t hrun

/-- `I` holds in every state that a prefix of the run reaches. -/
def Throughout (step : Step σ lab) (I : σ → Prop) (s : σ) (ls : List lab) : Prop :=
  ∀ pre, pre <+: ls → ∀ t, run step s pre = some t → I t

theorem throughout_snoc {step : Step σ lab} {I : σ → Prop} {s : σ} {ls : List lab} {l : lab} :
    Throughout step I s (ls ++ [l]) ↔
      Throughout step I s ls ∧ ∀ t, run step s (ls ++ [l]) = some t → I t := by
  constructor
  · intro h
    exact ⟨fun pre hpre => h pre (hpre.trans (List.prefix_append ls [l])),
      fun t ht => h _ List.prefix_rfl t ht⟩
  · rintro ⟨hpre, hlast⟩ pre hp t ht
    rcases List.prefix_concat_iff.mp hp with rfl | hp
    · exact hlast t (by simpa using ht)
    · exact hpre pre hp t ht

/-- When a step keeps `I` exactly if it meets `P`, a run satisfies `I` throughout
exactly if all its steps meet `P`: the first offending step is where `I` breaks.
`J` carries the facts that hold as long as `I` does; the labels are enabled where
both hold. -/
theorem throughout_iff_stepsMeet_of_enabled {step : Step σ lab} {P : σ → lab → Prop}
    (I J : σ → Prop) {s : σ} (hs : I s) (hJ : J s)
    (exact : ∀ t l u, I t → J t → step t l = some u → (I u ↔ P t l))
    (keep : ∀ t l u, I t → J t → step t l = some u → I u → J u) (ls : List lab)
    (enabled : ∀ pre l post, ls = pre ++ l :: post → ∀ t, run step s pre = some t → I t → J t →
      ∃ u, step t l = some u) :
    Throughout step I s ls ↔ StepsMeet step P s ls := by
  -- The state reached carries `I` and `J`, which is what the next step needs.
  suffices h : (Throughout step I s ls ↔ StepsMeet step P s ls) ∧
      (StepsMeet step P s ls → ∃ t, run step s ls = some t ∧ I t ∧ J t) from h.1
  induction ls using List.reverseRecOn with
  | nil =>
      refine ⟨⟨fun _ => StepsMeet.nil step P s, fun _ pre hpre t ht => ?_⟩,
        fun _ => ⟨s, rfl, hs, hJ⟩⟩
      obtain rfl := List.prefix_nil.mp hpre
      cases ht
      exact hs
  | append_singleton ls l ih =>
      have hbefore : ∀ pre k post, ls = pre ++ k :: post → ∀ t, run step s pre = some t → I t →
          J t → ∃ u, step t k = some u := by
        intro pre k post hk
        exact enabled pre k (post ++ [l]) (by simp [hk])
      have hlast : ∀ t, run step s ls = some t → I t → J t → ∃ u, step t l = some u :=
        enabled ls l [] rfl
      obtain ⟨ihiff, ihrun⟩ := ih hbefore
      rw [throughout_snoc, stepsMeet_snoc, ihiff]
      constructor
      · refine and_congr_right fun hmeet => ?_
        obtain ⟨t, ht, hIt, hJt⟩ := ihrun hmeet
        obtain ⟨u, hu⟩ := hlast t ht hIt hJt
        have hrun : run step s (ls ++ [l]) = some u := by simp [run_snoc, ht, hu]
        have key := exact t l u hIt hJt hu
        constructor
        · intro h t' ht'
          obtain rfl : t = t' := Option.some.inj (ht.symm.trans ht')
          exact key.mp (h u hrun)
        · intro h u' hu'
          obtain rfl : u = u' := Option.some.inj (hrun.symm.trans hu')
          exact key.mpr (h t ht)
      · rintro ⟨hmeet, hmeets⟩
        obtain ⟨t, ht, hIt, hJt⟩ := ihrun hmeet
        obtain ⟨u, hu⟩ := hlast t ht hIt hJt
        have hIu : I u := (exact t l u hIt hJt hu).mpr (hmeets t ht)
        exact ⟨u, by simp [run_snoc, ht, hu], hIu, keep t l u hIt hJt hu hIu⟩

/-- The rule for machines whose labels are always enabled. -/
theorem throughout_iff_stepsMeet {step : Step σ lab} {P : σ → lab → Prop} (I J : σ → Prop)
    {s : σ} (hs : I s) (hJ : J s) (total : ∀ t l, I t → J t → ∃ u, step t l = some u)
    (exact : ∀ t l u, I t → J t → step t l = some u → (I u ↔ P t l))
    (keep : ∀ t l u, I t → J t → step t l = some u → I u → J u) (ls : List lab) :
    Throughout step I s ls ↔ StepsMeet step P s ls :=
  throughout_iff_stepsMeet_of_enabled I J hs hJ exact keep ls fun _ l _ _ t _ => total t l

/-- The rule for a run that is known to reach its end. -/
theorem throughout_iff_stepsMeet_of_run {step : Step σ lab} {P : σ → lab → Prop} (I J : σ → Prop)
    {s : σ} (hs : I s) (hJ : J s)
    (exact : ∀ t l u, I t → J t → step t l = some u → (I u ↔ P t l))
    (keep : ∀ t l u, I t → J t → step t l = some u → I u → J u) {ls : List lab} {v : σ}
    (hrun : run step s ls = some v) :
    Throughout step I s ls ↔ StepsMeet step P s ls := by
  apply throughout_iff_stepsMeet_of_enabled I J hs hJ exact keep ls
  rintro pre l post rfl t ht - -
  rw [run_append, ht, Option.bind_some, run_cons] at hrun
  obtain ⟨u, hu, -⟩ := Option.bind_eq_some_iff.mp hrun
  exact ⟨u, hu⟩

/-! ## Runs that end -/

/-- No run from `s` is longer than some bound, and one that cannot go on has come to `Q`. -/
def Ends (step : Step σ lab) (s : σ) (Q : σ → Prop) : Prop :=
  ∃ bound, ∀ ls t, run step s ls = some t →
    ls.length ≤ bound ∧ (Q t ∨ ∃ l u, step t l = some u)

/-- With a measure that every step lowers. -/
theorem Ends.of_measure {step : Step σ lab} {Q : σ → Prop} (I : σ → Prop) (μ : σ → Nat) {s : σ}
    (hs : I s) (hstep : ∀ t l u, I t → step t l = some u → I u ∧ μ u < μ t)
    (hgo : ∀ t, I t → Q t ∨ ∃ l u, step t l = some u) : Ends step s Q := by
  refine ⟨μ s, fun ls t hrun => ?_⟩
  have hboth : I t ∧ ls.length + μ t ≤ μ s := by
    induction ls using List.reverseRecOn generalizing t with
    | nil =>
        cases hrun
        exact ⟨hs, by simp⟩
    | append_singleton ls l ih =>
        obtain ⟨u, hu, hl⟩ := run_snoc_eq_some hrun
        obtain ⟨hI, hle⟩ := ih u hu
        obtain ⟨hI', hlt⟩ := hstep u l t hI hl
        refine ⟨hI', ?_⟩
        rw [List.length_append, List.length_singleton]
        omega
  exact ⟨by omega, hgo t hboth.1⟩

/-- Some run comes to `Q`. -/
theorem Ends.exists_run {step : Step σ lab} {Q : σ → Prop} {s : σ} (h : Ends step s Q) :
    ∃ ls t, run step s ls = some t ∧ Q t := by
  obtain ⟨bound, hbound⟩ := h
  -- Induction on how much longer a run can get.
  have hfrom : ∀ k ls t, run step s ls = some t → bound < ls.length + k →
      ∃ ls t, run step s ls = some t ∧ Q t := by
    intro k
    induction k with
    | zero =>
        intro ls t hrun hlong
        have hle := (hbound ls t hrun).1
        omega
    | succ k ih =>
        intro ls t hrun hlong
        rcases (hbound ls t hrun).2 with hQ | ⟨l, u, hl⟩
        · exact ⟨ls, t, hrun, hQ⟩
        · refine ih (ls ++ [l]) u (by rw [run_snoc, hrun]; exact hl) ?_
          rw [List.length_append, List.length_singleton]
          omega
  exact hfrom (bound + 1) [] s rfl (by simp)

end Machine
