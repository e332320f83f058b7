import Mathlib.Data.BitVec
import Mathlib.Data.Nat.Bitwise

/-!
# Bit fields

Words that are put together by shifts and ors, and taken apart by shifts and masks. A
field that stays below the next one is added, and comes back as a quotient or remainder.
-/

namespace BitFields

/-- Or-ing a field above the bits already collected adds it, as far as the width goes. -/
theorem or_shiftLeft_eq {w : Nat} (v x : BitVec w) {shift : Nat} (hv : v.toNat < 2 ^ shift) :
    v ||| (x <<< shift) = BitVec.ofNat w (v.toNat + 2 ^ shift * x.toNat) := by
  have hdisj : v &&& (x <<< shift) = 0#w := by
    apply BitVec.eq_of_getLsbD_eq
    intro i hi
    rw [BitVec.getLsbD_and, BitVec.getLsbD_shiftLeft]
    by_cases h : i < shift
    · simp [h]
    · have hbit : v.getLsbD i = false :=
        Nat.testBit_lt_two_pow
          (Nat.lt_of_lt_of_le hv (Nat.pow_le_pow_right (by decide) (Nat.le_of_not_lt h)))
      simp [hbit]
  rw [← BitVec.add_eq_or_of_and_eq_zero _ _ hdisj]
  apply BitVec.eq_of_toNat_eq
  rw [BitVec.toNat_add, BitVec.toNat_shiftLeft, BitVec.toNat_ofNat, Nat.shiftLeft_eq,
    Nat.mul_comm x.toNat, Nat.add_mod_mod]

theorem toNat_pack {w : Nat} {high mid low : BitVec w} {i j : Nat} (hlow : low.toNat < 2 ^ j)
    (hmid : low.toNat + 2 ^ j * mid.toNat < 2 ^ i)
    (hhigh : low.toNat + 2 ^ j * mid.toNat + 2 ^ i * high.toNat < 2 ^ w) :
    ((high <<< i) ||| (mid <<< j) ||| low).toNat =
      low.toNat + 2 ^ j * mid.toNat + 2 ^ i * high.toNat := by
  have hsum : low.toNat + 2 ^ j * mid.toNat < 2 ^ w := by omega
  have hinner : (low ||| (mid <<< j)).toNat = low.toNat + 2 ^ j * mid.toNat := by
    rw [or_shiftLeft_eq low mid hlow, BitVec.toNat_ofNat, Nat.mod_eq_of_lt hsum]
  calc ((high <<< i) ||| (mid <<< j) ||| low).toNat
      = ((low ||| (mid <<< j)) ||| (high <<< i)).toNat := by
        rw [BitVec.or_assoc, BitVec.or_comm, BitVec.or_comm (mid <<< j)]
    _ = (BitVec.ofNat w (low.toNat + 2 ^ j * mid.toNat + 2 ^ i * high.toNat)).toNat := by
        rw [or_shiftLeft_eq _ high (hinner ▸ hmid), hinner]
    _ = low.toNat + 2 ^ j * mid.toNat + 2 ^ i * high.toNat := by
        rw [BitVec.toNat_ofNat, Nat.mod_eq_of_lt hhigh]

theorem pack_eq_allOnes_iff {w : Nat} (high mid low : BitVec w) (i j : Nat) :
    (high <<< i) ||| (mid <<< j) ||| low = BitVec.allOnes w ↔
      ∀ k < w, low.getLsbD k ∨ (j ≤ k ∧ mid.getLsbD (k - j)) ∨
        (i ≤ k ∧ high.getLsbD (k - i)) := by
  have hbit : ∀ k < w, ((high <<< i) ||| (mid <<< j) ||| low).getLsbD k = true ↔
      low.getLsbD k ∨ (j ≤ k ∧ mid.getLsbD (k - j)) ∨ (i ≤ k ∧ high.getLsbD (k - i)) := by
    intro k hk
    simp only [BitVec.getLsbD_or, BitVec.getLsbD_shiftLeft, hk, decide_true, Bool.true_and,
      Bool.or_eq_true, Bool.and_eq_true, Bool.not_eq_true', decide_eq_false_iff_not, Nat.not_lt]
    rw [or_comm, or_comm (a := i ≤ k ∧ _)]
  constructor
  · intro h k hk
    rw [← hbit k hk, h, BitVec.getLsbD_allOnes, decide_eq_true hk]
  · intro h
    apply BitVec.eq_of_getLsbD_eq
    intro k hk
    rw [(hbit k hk).mpr (h k hk), BitVec.getLsbD_allOnes, decide_eq_true hk]

theorem getLsbD_zero_pack {w : Nat} (high mid low : BitVec w) {i j : Nat} (hi : 0 < i)
    (hj : 0 < j) : ((high <<< i) ||| (mid <<< j) ||| low).getLsbD 0 = low.getLsbD 0 := by
  simp [BitVec.getLsbD_or, BitVec.getLsbD_shiftLeft, hi, hj]

/-- The lowest bit of a number says whether it is odd. -/
theorem getLsbD_zero_ofInt {w : Nat} (hw : 0 < w) (n : Int) :
    (BitVec.ofInt w n).getLsbD 0 = decide (n % 2 = 1) := by
  have hpos : (0 : Int) ≤ n % (2 ^ w : Nat) :=
    Int.emod_nonneg n (Int.natCast_ne_zero.mpr (Nat.two_pow_pos w).ne')
  have hdvd : ((2 : Nat) : Int) ∣ ((2 ^ w : Nat) : Int) :=
    Int.natCast_dvd_natCast.mpr (dvd_pow_self 2 hw.ne')
  have hmod : n % (2 ^ w : Nat) % 2 = n % 2 := Int.emod_emod_of_dvd n hdvd
  rw [BitVec.getLsbD, BitVec.toNat_ofInt, Nat.testBit_zero, decide_eq_decide]
  omega

theorem toNat_shiftRight {w : Nat} (v : BitVec w) (i : Nat) :
    (v >>> i).toNat = v.toNat / 2 ^ i := by
  rw [BitVec.toNat_ushiftRight, Nat.shiftRight_eq_div_pow]

/-- A mask of ones leaves a remainder. -/
theorem toNat_and_ones {w i : Nat} (v : BitVec w) (hi : i ≤ w) :
    (v &&& BitVec.ofNat w (2 ^ i - 1)).toNat = v.toNat % 2 ^ i := by
  have hpow : 2 ^ i ≤ 2 ^ w := Nat.pow_le_pow_right (by decide) hi
  have hpos : 0 < 2 ^ i := Nat.two_pow_pos i
  rw [BitVec.toNat_and, BitVec.toNat_ofNat, Nat.mod_eq_of_lt (by omega),
    Nat.and_two_pow_sub_one_eq_mod]

/-- A mask of one bit leaves that bit in its place. -/
theorem toNat_and_bit {w i : Nat} (v : BitVec w) (hi : i < w) :
    (v &&& BitVec.ofNat w (2 ^ i)).toNat = 2 ^ i * (v.toNat / 2 ^ i % 2) := by
  have hpow : 2 ^ i < 2 ^ w := Nat.pow_lt_pow_right (by decide) hi
  rw [BitVec.toNat_and, BitVec.toNat_ofNat, Nat.mod_eq_of_lt hpow, Nat.and_two_pow,
    Nat.testBit_eq_decide_div_mod_eq, Nat.mul_comm]
  have hbit : v.toNat / 2 ^ i % 2 = 0 ∨ v.toNat / 2 ^ i % 2 = 1 := Nat.mod_two_eq_zero_or_one _
  rcases hbit with hbit | hbit
  · simp [hbit]
  · simp [hbit]

end BitFields
