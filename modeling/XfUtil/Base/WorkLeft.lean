import XfUtil.Base.Machine
import Mathlib.Algebra.BigOperators.Group.Finset.Piecewise
import Mathlib.Algebra.GroupWithZero.Nat
import Mathlib.Data.Fintype.Basic

/-!
# What is left to do

Calls come back if every step of theirs takes something off what is left to do, and if some
step is possible as long as anything is. Here are the machine that begins no calls, and the
sums by which the work of many threads is measured when one of them moves.
-/

namespace Machine

variable {σ lab : Type*}

/-- The machine that takes the labels with `P` only. -/
def only (step : Step σ lab) (P : lab → Bool) : Step σ lab :=
  fun s l => if P l then step s l else none

theorem only_eq_some {step : Step σ lab} {P : lab → Bool} {s t : σ} {l : lab} :
    only step P s l = some t ↔ P l = true ∧ step s l = some t := by
  by_cases h : P l = true <;> simp [only, h]

end Machine

namespace WorkLeft

variable {ι α : Type*}

/-- One summand changes. -/
theorem sum_except [Fintype ι] [DecidableEq ι] {f g : ι → Nat} (i : ι)
    (h : ∀ j, j ≠ i → g j = f j) : (∑ j, g j) + f i = (∑ j, f j) + g i := by
  have hf := Finset.add_sum_erase Finset.univ f (Finset.mem_univ i)
  have hg := Finset.add_sum_erase Finset.univ g (Finset.mem_univ i)
  have hrest : ∑ j ∈ Finset.univ.erase i, g j = ∑ j ∈ Finset.univ.erase i, f j :=
    Finset.sum_congr rfl fun j hj => h j (Finset.ne_of_mem_erase hj)
  omega

/-- One element of a list changes. -/
theorem sum_map_set (w : α → Nat) {xs : List α} {i : Nat} {a : α} (h : xs[i]? = some a) (x : α) :
    ((xs.set i x).map w).sum + w a = (xs.map w).sum + w x := by
  induction xs generalizing i with
  | nil => simp at h
  | cons y xs ih =>
      cases i with
      | zero =>
          obtain rfl : y = a := by simpa using h
          simp only [List.set_cons_zero, List.map_cons, List.sum_cons]
          omega
      | succ i =>
          have hrest := ih (by simpa using h)
          simp only [List.set_cons_succ, List.map_cons, List.sum_cons]
          omega

end WorkLeft
