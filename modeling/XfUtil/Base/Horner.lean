import Mathlib.Algebra.Group.Units.Equiv
import Mathlib.Data.BitVec
import Mathlib.Data.Int.GCD
import Mathlib.Data.Nat.Prime.Basic

/-!
# Horner accumulation

Words are added to an accumulator that is multiplied by one factor after each. With a
unit as the factor every round is a bijection, in the accumulator as in the word, so the
result tells two words at one place apart whatever stands around them.
-/

namespace Horner

variable {R : Type*}

/-- Start from `h`; add each word and multiply. -/
def eval [Add R] [Mul R] (factor h : R) (words : List R) : R :=
  words.foldl (fun h word => (h + word) * factor) h

section

variable [Add R] [Mul R] (factor h : R)

@[simp] theorem eval_nil : eval factor h [] = h := rfl

@[simp] theorem eval_cons (word : R) (words : List R) :
    eval factor h (word :: words) = eval factor ((h + word) * factor) words := rfl

theorem eval_append (xs ys : List R) :
    eval factor h (xs ++ ys) = eval factor (eval factor h xs) ys :=
  List.foldl_append

end

variable [Ring R] {factor : R}

theorem mul_bijective (hfactor : IsUnit factor) : Function.Bijective fun h : R => h * factor := by
  obtain ⟨u, rfl⟩ := hfactor
  exact u.mulRight_bijective

theorem eval_bijective (hfactor : IsUnit factor) (words : List R) :
    Function.Bijective fun h => eval factor h words := by
  induction words with
  | nil => exact Function.bijective_id
  | cons word words ih =>
      have hround := (mul_bijective hfactor).comp (AddGroup.addRight_bijective word)
      exact ih.comp hround

/-- The result as a function of one word. -/
theorem word_bijective (hfactor : IsUnit factor) (h : R) (before after : List R) :
    Function.Bijective fun word => eval factor h (before ++ word :: after) := by
  have hround := (mul_bijective hfactor).comp (AddGroup.addLeft_bijective (eval factor h before))
  have hword := (eval_bijective hfactor after).comp hround
  simp only [eval_append, eval_cons]
  exact hword

/-- The odd words are the units. -/
theorem isUnit_of_odd {w : Nat} {x : BitVec w} (h : x.toNat % 2 = 1) : IsUnit x := by
  have hone : 1 < 2 ^ w := by
    have hlt := x.isLt
    by_contra hle
    omega
  have hcoprime : Nat.Coprime x.toNat (2 ^ w) :=
    (Nat.coprime_two_right.mpr (Nat.odd_iff.mpr h)).pow_right w
  obtain ⟨y, -, hy⟩ := Nat.exists_mul_mod_eq_one_of_coprime hcoprime hone
  apply IsUnit.of_mul_eq_one (BitVec.ofNat w y)
  apply BitVec.eq_of_toNat_eq
  rw [BitVec.toNat_mul, BitVec.toNat_ofNat, Nat.mul_mod_mod, hy]
  exact (Nat.mod_eq_of_lt hone).symm

end Horner
