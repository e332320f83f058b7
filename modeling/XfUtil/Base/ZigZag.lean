import Mathlib.Data.BitVec

/-!
# Zigzag numbering of two's-complement words

The map sends 0, -1, 1, -2, 2, … to 0, 1, 2, 3, 4, …: the sign moves to bit 0
and the remaining bits are complemented when it is set. Both directions are
bitwise, so the inverse laws hold at every width.
-/

namespace ZigZag

variable {w : Nat}

/-- Sign to bit 0, the other bits up by one and complemented when negative. -/
def encode (x : BitVec w) : BitVec w := (x <<< 1) ^^^ x.sshiftRight (w - 1)

/-- The inverse map: bit 0 decides whether the shifted rest is complemented. -/
def decode (u : BitVec w) : BitVec w := (u >>> 1) ^^^ -(u &&& 1#w)

/-- Negating the isolated low bit spreads it over the whole word. -/
theorem getLsbD_neg_and_one (u : BitVec w) {i : Nat} (hi : i < w) :
    (-(u &&& 1#w)).getLsbD i = u.getLsbD 0 := by
  have hone : u &&& 1#w = if u.getLsbD 0 then 1#w else 0#w := by
    apply BitVec.eq_of_getLsbD_eq
    intro j hj
    by_cases h : u.getLsbD 0 <;> cases j <;> simp [BitVec.getLsbD_one, h]
  rw [hone]
  by_cases h : u.getLsbD 0
  · have hall : -(1#w) = BitVec.allOnes w := BitVec.neg_one_eq_allOnes
    simp [h, hall, hi]
  · simp [h]

theorem getLsbD_encode_zero (x : BitVec w) (hw : 0 < w) : (encode x).getLsbD 0 = x.msb := by
  have hlast : w - 1 + 0 < w := by omega
  simp only [encode, BitVec.getLsbD_xor, BitVec.getLsbD_shiftLeft, BitVec.getLsbD_sshiftRight,
    BitVec.msb_eq_getLsbD_last]
  simp [hw, Nat.pos_iff_ne_zero.mp hw]

theorem getLsbD_encode_succ (x : BitVec w) {i : Nat} (hi : i + 1 < w) :
    (encode x).getLsbD (i + 1) = (x.getLsbD i ^^ x.msb) := by
  have hge : ¬ w - 1 + (i + 1) < w := by omega
  simp only [encode, BitVec.getLsbD_xor, BitVec.getLsbD_shiftLeft, BitVec.getLsbD_sshiftRight]
  simp [hi, hge]

theorem decode_encode (x : BitVec w) : decode (encode x) = x := by
  apply BitVec.eq_of_getLsbD_eq
  intro i hi
  simp only [decode, BitVec.getLsbD_xor, BitVec.getLsbD_ushiftRight, getLsbD_neg_and_one _ hi,
    getLsbD_encode_zero x (by omega : 0 < w)]
  by_cases hlast : i + 1 < w
  · rw [Nat.add_comm 1 i, getLsbD_encode_succ x hlast]
    cases x.getLsbD i <;> cases x.msb <;> rfl
  · obtain rfl : i = w - 1 := by omega
    rw [BitVec.getLsbD_of_ge _ _ (by omega), BitVec.msb_eq_getLsbD_last]
    simp

theorem encode_decode (u : BitVec w) : encode (decode u) = u := by
  apply BitVec.eq_of_getLsbD_eq
  intro i hi
  have hbit : ∀ j < w, (decode u).getLsbD j = (u.getLsbD (j + 1) ^^ u.getLsbD 0) := by
    intro j hj
    simp only [decode, BitVec.getLsbD_xor, BitVec.getLsbD_ushiftRight, getLsbD_neg_and_one _ hj,
      Nat.add_comm 1 j]
  have hmsb : (decode u).msb = u.getLsbD 0 := by
    rw [BitVec.msb_eq_getLsbD_last, hbit (w - 1) (by omega),
      BitVec.getLsbD_of_ge u _ (by omega)]
    simp
  cases i with
  | zero => rw [getLsbD_encode_zero _ hi, hmsb]
  | succ i =>
      rw [getLsbD_encode_succ _ hi, hmsb, hbit i (by omega)]
      cases u.getLsbD (i + 1) <;> cases u.getLsbD 0 <;> rfl

/-! ## The numbering -/

/-- Shifting out all but the sign fills the word with it. -/
theorem sshiftRight_last (x : BitVec w) :
    x.sshiftRight (w - 1) = if x.msb then BitVec.allOnes w else 0#w := by
  apply BitVec.eq_of_getLsbD_eq
  intro i hi
  have hbit : (x.sshiftRight (w - 1)).getLsbD i = x.msb := by
    rw [BitVec.getLsbD_sshiftRight]
    rcases Nat.eq_zero_or_pos i with rfl | hpos
    · have hw : ¬ w = 0 := by omega
      simp [hw, BitVec.msb_eq_getLsbD_last]
    · have hge : ¬ w - 1 + i < w := by omega
      simp [hi, hge]
  rw [hbit]
  cases x.msb <;> simp [hi]

/-- The numbers 0, -1, 1, -2, 2 and so on in this order. -/
theorem toNat_encode (x : BitVec w) :
    ((encode x).toNat : Int) = if 0 ≤ x.toInt then 2 * x.toInt else -2 * x.toInt - 1 := by
  have hlt := x.isLt
  have hint := BitVec.toInt_eq_msb_cond x
  have hmsb := BitVec.msb_eq_decide x
  rcases Nat.eq_zero_or_pos w with rfl | hw
  · simp [BitVec.eq_nil x, BitVec.eq_nil (encode _)]
  · obtain ⟨k, rfl⟩ : ∃ k, w = k + 1 := ⟨w - 1, by omega⟩
    have hpow : 2 ^ (k + 1) = 2 * 2 ^ k := by rw [Nat.pow_succ, Nat.mul_comm]
    have hshift : (x <<< 1).toNat = 2 * x.toNat % (2 * 2 ^ k) := by
      rw [BitVec.toNat_shiftLeft, hpow, Nat.shiftLeft_eq, Nat.mul_comm, Nat.pow_one]
    rw [Nat.add_sub_cancel] at hmsb
    rw [encode, sshiftRight_last]
    cases h : x.msb with
    | false =>
        rw [h] at hint hmsb
        have hsmall : x.toNat < 2 ^ k := by simpa using hmsb
        rw [Nat.mod_eq_of_lt (by omega)] at hshift
        simp only [Bool.false_eq_true, if_false, BitVec.xor_zero] at hint ⊢
        rw [hshift, if_pos (by omega)]
        omega
    | true =>
        rw [h] at hint hmsb
        have hlarge : 2 ^ k ≤ x.toNat := by simpa using hmsb
        rw [Nat.mod_eq_sub_mod (by omega), Nat.mod_eq_of_lt (by omega)] at hshift
        simp only [if_true, BitVec.xor_allOnes] at hint ⊢
        have hpow' : ((2 ^ (k + 1) : Nat) : Int) = 2 * ((2 ^ k : Nat) : Int) := by
          rw [hpow]
          push_cast
          rfl
        rw [hpow'] at hint
        rw [BitVec.toNat_not, hshift, hpow, if_neg (by omega)]
        omega

end ZigZag
