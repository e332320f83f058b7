import Mathlib.Data.Nat.Count
import Mathlib.Data.BitVec

/-!
# The last of `n` jobs to finish

Jobs run in any order. Each counts its failure, if it is one, then itself, and
then compares the previous count with `n - 1`; the job that finds them equal
reports. Counters have `w` bits. `Tallied` is the invariant: at most one report,
made after all jobs have counted, and the failure counter is then final.
-/

namespace Countdown

/-! ## Counting -/

variable {p q : Nat → Bool} {i n : Nat}

theorem count_same (h : ∀ j < n, q j = p j) :
    Nat.count (fun j => q j = true) n = Nat.count (fun j => p j = true) n := by
  induction n with
  | zero => rfl
  | succ n ih =>
      rw [Nat.count_succ, Nat.count_succ, ih fun j hj => h j (Nat.lt_succ_of_lt hj),
        h n (Nat.lt_succ_self n)]

theorem count_insert (hi : i < n) (hp : p i = false) (hq : q i = true)
    (h : ∀ j, j ≠ i → q j = p j) :
    Nat.count (fun j => q j = true) n = Nat.count (fun j => p j = true) n + 1 := by
  induction n with
  | zero => omega
  | succ n ih =>
      rw [Nat.count_succ, Nat.count_succ]
      by_cases hn : i = n
      · subst hn
        rw [count_same fun j hj => h j (Nat.ne_of_lt hj)]
        simp [hp, hq]
      · rw [ih (by omega), h n fun heq => hn heq.symm]
        omega

theorem count_any {α : Type*} (l : List α) (f : α → Bool) :
    Nat.count (fun j => l[j]?.any f = true) l.length = l.countP f := by
  induction l using List.reverseRecOn with
  | nil => rfl
  | append_singleton l a ih =>
      have hsame : Nat.count (fun j => (l ++ [a])[j]?.any f = true) l.length = l.countP f := by
        rw [← ih]
        apply count_same
        intro j hj
        rw [List.getElem?_append_left hj]
      rw [List.length_append, List.length_singleton, Nat.count_succ, hsame, List.countP_append]
      simp [List.countP_cons]

/-! ## Jobs -/

variable {w : Nat}

inductive Progress (w : Nat) where
  | before
  /-- Its failure is not counted yet. -/
  | failed
  | settled
  | counted (prev : BitVec w)
  | done
deriving Repr, DecidableEq

namespace Progress

/-- Its failure, if it is one, has been counted. -/
def failCounted : Progress w → Bool
  | before | failed => false
  | settled | counted _ | done => true

/-- It has counted itself. -/
def counts : Progress w → Bool
  | before | failed | settled => false
  | counted _ | done => true

/-- It is about to report. -/
def reporting (n : Nat) : Progress w → Bool
  | counted prev => decide (prev.toNat + 1 = n)
  | _ => false

end Progress

/-- The counters of `n` jobs, and the number of reports made so far. -/
structure Tallied (n : Nat) (view : Nat → Progress w) (bad : Nat → Bool)
    (failures completed : BitVec w) (reports : Nat) : Prop where
  inside : ∀ i, view i ≠ .before → i < n
  failing : ∀ i, view i = .failed → bad i = true
  failures_eq : failures =
    BitVec.ofNat w (Nat.count (fun i => ((view i).failCounted && bad i) = true) n)
  completed_eq : completed = BitVec.ofNat w (Nat.count (fun i => (view i).counts = true) n)
  reports_eq : 0 < n → n ≤ 2 ^ w →
    Nat.count (fun i => (view i).reporting n = true) n + reports =
      if Nat.count (fun i => (view i).counts = true) n = n then 1 else 0

namespace Tallied

variable {view : Nat → Progress w} {bad : Nat → Bool} {failures completed : BitVec w}
  {reports : Nat}

theorem new (n : Nat) (bad : Nat → Bool) : Tallied n (fun _ => .before) bad 0#w 0#w 0 := by
  have hzero : ∀ m, Nat.count (fun _ : Nat => false = true) m = 0 := fun m => by
    induction m with
    | zero => rfl
    | succ m ih => simp [Nat.count_succ]
  refine ⟨by simp, by simp, ?_, ?_, fun hn _ => ?_⟩
  · simp [Progress.failCounted]
  · simp [Progress.counts]
  · simp [Progress.counts, Progress.reporting]
    omega

/-! ## Steps of one job -/

/-- What a step of job `i` does not change at `i`, it does not change at all. -/
theorem update_same {v : Progress w} (hv : view i = v) (f : Progress w → Bool) (x : Progress w)
    (hx : f x = f v) (j : Nat) : f (Function.update view i x j) = f (view j) := by
  by_cases hji : j = i
  · subst hji
    rw [Function.update_self, hx, hv]
  · rw [Function.update_of_ne hji]

section Steps

variable (h : Tallied n view bad failures completed reports)

include h

theorem inside_update {x : Progress w} (hi : i < n) :
    ∀ j, Function.update view i x j ≠ .before → j < n := by
  intro j hj
  by_cases hji : j = i
  · rwa [hji]
  · rw [Function.update_of_ne hji] at hj
    exact h.inside j hj

theorem failing_update {x : Progress w} (hx : x ≠ .failed) :
    ∀ j, Function.update view i x j = .failed → bad j = true := by
  intro j hj
  by_cases hji : j = i
  · subst hji
    exact absurd (by simpa using hj) hx
  · rw [Function.update_of_ne hji] at hj
    exact h.failing j hj

/-- A result is there; only now is it known whether it is a failure. -/
theorem execute (hi : i < n) (hv : view i = .before) {bad' : Nat → Bool}
    (hbad : ∀ j, j ≠ i → bad' j = bad j) :
    Tallied n (Function.update view i (if bad' i = true then .failed else .settled)) bad' failures
      completed reports := by
  have hcounts := update_same hv Progress.counts (if bad' i = true then .failed else .settled)
    (by split <;> rfl)
  have hreporting := update_same hv (Progress.reporting n)
    (if bad' i = true then .failed else .settled) (by split <;> rfl)
  refine ⟨h.inside_update hi, fun j hj => ?_, ?_, ?_, ?_⟩
  · by_cases hji : j = i
    · subst hji
      rw [Function.update_self] at hj
      split at hj
      · assumption
      · cases hj
    · rw [Function.update_of_ne hji] at hj
      rw [hbad j hji]
      exact h.failing j hj
  · rw [h.failures_eq]
    congr 1
    refine (count_same fun j _ => ?_).symm
    by_cases hji : j = i
    · subst hji
      rw [Function.update_self, hv]
      cases hb : bad' j <;> simp [Progress.failCounted]
    · rw [Function.update_of_ne hji, hbad j hji]
  · simp only [hcounts]
    exact h.completed_eq
  · simp only [hcounts, hreporting]
    exact h.reports_eq

theorem countFail (hv : view i = .failed) :
    Tallied n (Function.update view i .settled) bad (failures + 1) completed reports := by
  have hi : i < n := h.inside i (by simp [hv])
  have hcounts := update_same hv Progress.counts .settled rfl
  have hreporting := update_same hv (Progress.reporting n) .settled rfl
  have hcount : Nat.count
      (fun j => ((Function.update view i .settled j).failCounted && bad j) = true) n =
        Nat.count (fun j => ((view j).failCounted && bad j) = true) n + 1 := by
    refine count_insert hi ?_ ?_ fun j hj => ?_
    · simp [hv, Progress.failCounted]
    · simp [Progress.failCounted, h.failing i hv]
    · rw [Function.update_of_ne hj]
  refine ⟨h.inside_update hi, h.failing_update (by simp), ?_, ?_, ?_⟩
  · rw [hcount, h.failures_eq, BitVec.ofNat_add]
    rfl
  · simp only [hcounts]
    exact h.completed_eq
  · simp only [hcounts, hreporting]
    exact h.reports_eq

/-- The job that counts itself last of all is the one that will report. -/
theorem countSelf (hv : view i = .settled) :
    Tallied n (Function.update view i (.counted completed)) bad failures (completed + 1)
      reports := by
  have hi : i < n := h.inside i (by simp [hv])
  have hcount :
      Nat.count (fun j => (Function.update view i (.counted completed) j).counts = true) n =
      Nat.count (fun j => (view j).counts = true) n + 1 := by
    refine count_insert hi ?_ ?_ fun j hj => ?_
    · simp [hv, Progress.counts]
    · simp [Progress.counts]
    · rw [Function.update_of_ne hj]
  refine ⟨h.inside_update hi, h.failing_update (by simp), ?_, ?_, fun hpos hle => ?_⟩
  · rw [h.failures_eq]
    congr 1
    refine (count_same fun j _ => ?_).symm
    by_cases hji : j = i
    · subst hji
      simp [hv, Progress.failCounted]
    · rw [Function.update_of_ne hji]
  · rw [hcount, h.completed_eq, BitVec.ofNat_add]
    rfl
  · have hle' :
        Nat.count (fun j => (Function.update view i (.counted completed) j).counts = true) n ≤
        n := Nat.count_le _
    have hold := h.reports_eq hpos hle
    rw [hcount] at hle' ⊢
    rw [if_neg (by omega)] at hold
    have hprev : completed.toNat = Nat.count (fun j => (view j).counts = true) n := by
      rw [h.completed_eq, BitVec.toNat_ofNat, Nat.mod_eq_of_lt (by omega)]
    by_cases hlast : Nat.count (fun j => (view j).counts = true) n + 1 = n
    · rw [if_pos hlast]
      have hreporting : Nat.count
          (fun j => (Function.update view i (.counted completed) j).reporting n = true) n =
            Nat.count (fun j => (view j).reporting n = true) n + 1 := by
        refine count_insert hi ?_ ?_ fun j hj => ?_
        · simp [hv, Progress.reporting]
        · simp [Progress.reporting, hprev, hlast]
        · rw [Function.update_of_ne hj]
      omega
    · rw [if_neg hlast]
      have hreporting := update_same hv (Progress.reporting n) (.counted completed)
        (by simp [Progress.reporting, hprev, hlast])
      simp only [hreporting]
      exact hold

/-- The comparison, and the report if it comes out equal. -/
theorem finish {prev : BitVec w} (hv : view i = .counted prev) {reports' : Nat}
    (hreports : 0 < n → n ≤ 2 ^ w → reports' = reports + if prev.toNat + 1 = n then 1 else 0) :
    Tallied n (Function.update view i .done) bad failures completed reports' := by
  have hi : i < n := h.inside i (by simp [hv])
  have hcounts := update_same hv Progress.counts .done rfl
  have hfail := update_same hv Progress.failCounted .done rfl
  refine ⟨h.inside_update hi, h.failing_update (by simp), ?_, ?_, fun hpos hle => ?_⟩
  · simp only [hfail]
    exact h.failures_eq
  · simp only [hcounts]
    exact h.completed_eq
  · simp only [hcounts]
    rw [← h.reports_eq hpos hle, hreports hpos hle]
    by_cases hlast : prev.toNat + 1 = n
    · rw [if_pos hlast]
      have hreporting : Nat.count (fun j => (view j).reporting n = true) n =
          Nat.count (fun j => (Function.update view i .done j).reporting n = true) n + 1 := by
        refine count_insert hi ?_ ?_ fun j hj => ?_
        · simp [Progress.reporting]
        · simp [hv, Progress.reporting, hlast]
        · rw [Function.update_of_ne hj]
      omega
    · rw [if_neg hlast]
      have hreporting := update_same hv (Progress.reporting n) .done
        (by simp [Progress.reporting, hlast])
      simp only [hreporting]
      omega

/-! ## What the invariant says -/

theorem reports_le (hpos : 0 < n) (hle : n ≤ 2 ^ w) : reports ≤ 1 := by
  have hsum := h.reports_eq hpos hle
  split at hsum <;> omega

/-- A report is made only after all jobs have counted themselves. -/
theorem counts_of_report (hpos : 0 < n) (hle : n ≤ 2 ^ w) (hreport : 0 < reports) :
    ∀ j < n, (view j).counts = true := by
  have hsum := h.reports_eq hpos hle
  split at hsum
  · rename_i hall
    exact fun j hj => Nat.count_iff_forall.mp hall j hj
  · omega

theorem report_of_done (hpos : 0 < n) (hle : n ≤ 2 ^ w) (hdone : ∀ j < n, view j = .done) :
    reports = 1 := by
  have hsum := h.reports_eq hpos hle
  have hall : Nat.count (fun j => (view j).counts = true) n = n :=
    Nat.count_iff_forall.mpr fun j hj => by rw [hdone j hj]; rfl
  have hnone : Nat.count (fun j => (view j).reporting n = true) n = 0 := by
    rw [Nat.count_iff_forall_not]
    intro j hj
    simp [hdone j hj, Progress.reporting]
  rw [if_pos hall, hnone] at hsum
  omega

/-- When all have counted themselves, the failure counter is exact. -/
theorem failures_of_counts (hall : ∀ j < n, (view j).counts = true) :
    failures = BitVec.ofNat w (Nat.count (fun j => bad j = true) n) := by
  rw [h.failures_eq]
  congr 1
  refine (count_same fun j hj => ?_).symm
  have hcounts := hall j hj
  cases hv : view j with
  | counted | done => simp [Progress.failCounted]
  | before | failed | settled => rw [hv] at hcounts; cases hcounts

end Steps

end Tallied

end Countdown
