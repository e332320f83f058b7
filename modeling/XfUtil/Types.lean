import Mathlib.Data.BitVec

/-!
# Integer helpers of `types.h`

`ALIGN_UP` is a macro, so it is computed at the width its operands are promoted
to; the width is a parameter here and every use names its own.
-/

namespace XfUtil

variable {w : Nat}

/-- `ALIGN_UP(size, align)`: `(size + (align - 1)) & ~(align - 1)`. -/
def alignUp (size align : BitVec w) : BitVec w := (size + (align - 1#w)) &&& ~~~(align - 1#w)

/-- `p + n` on a pointer of the flat 64-bit address space. -/
def ptrAdd (p n : Nat) : Nat := (p + n) % 2 ^ 64

theorem ptrAdd_of_lt {p n : Nat} (h : p + n < 2 ^ 64) : ptrAdd p n = p + n :=
  Nat.mod_eq_of_lt h

theorem toNat_twoPow_sub_one {k : Nat} (hk : k < w) :
    (BitVec.twoPow w k - 1#w).toNat = 2 ^ k - 1 := by
  have hlt : 2 ^ k < 2 ^ w := Nat.pow_lt_pow_right (by decide) hk
  have hpos : 0 < 2 ^ k := Nat.two_pow_pos k
  have hone : 1 % 2 ^ w = 1 := Nat.mod_eq_of_lt (by omega)
  rw [BitVec.toNat_sub, BitVec.toNat_twoPow, BitVec.toNat_ofNat, Nat.mod_eq_of_lt hlt, hone,
    show 2 ^ w - 1 + 2 ^ k = 2 ^ w + (2 ^ k - 1) by omega, Nat.add_mod_left,
    Nat.mod_eq_of_lt (by omega)]

/-- Clearing the low `k` bits rounds down to a multiple of `2 ^ k`. -/
theorem toNat_and_not_low (x : BitVec w) {k : Nat} (hk : k < w) :
    (x &&& ~~~(BitVec.twoPow w k - 1#w)).toNat = x.toNat / 2 ^ k * 2 ^ k := by
  have hmask : BitVec.twoPow w k - 1#w = BitVec.ofNat w (2 ^ k - 1) := by
    apply BitVec.eq_of_toNat_eq
    have hlt : 2 ^ k < 2 ^ w := Nat.pow_lt_pow_right (by decide) hk
    rw [toNat_twoPow_sub_one hk, BitVec.toNat_ofNat, Nat.mod_eq_of_lt]
    exact Nat.lt_of_le_of_lt (Nat.sub_le _ _) hlt
  have hshift : x &&& ~~~(BitVec.twoPow w k - 1#w) = (x >>> k) <<< k := by
    apply BitVec.eq_of_getLsbD_eq
    intro i hi
    have hbit : (BitVec.twoPow w k - 1#w).getLsbD i = decide (i < k) := by
      rw [hmask, BitVec.getLsbD_ofNat, Nat.testBit_two_pow_sub_one]
      simp [hi]
    rw [BitVec.getLsbD_and, BitVec.getLsbD_not, hbit, BitVec.getLsbD_shiftLeft,
      BitVec.getLsbD_ushiftRight]
    by_cases h : i < k
    · simp [h]
    · simp [hi, h, Nat.add_sub_cancel' (Nat.le_of_not_lt h)]
  have hle : x.toNat / 2 ^ k * 2 ^ k < 2 ^ w :=
    Nat.lt_of_le_of_lt (Nat.div_mul_le_self _ _) x.isLt
  rw [hshift, BitVec.toNat_shiftLeft, BitVec.toNat_ushiftRight, Nat.shiftLeft_eq,
    Nat.shiftRight_eq_div_pow, Nat.mod_eq_of_lt hle]

/-- `ALIGN_UP` to a power of two, with the wrap of the sum kept. -/
theorem alignUp_twoPow (size : BitVec w) {k : Nat} (hk : k < w) :
    (alignUp size (BitVec.twoPow w k)).toNat =
      (size.toNat + (2 ^ k - 1)) % 2 ^ w / 2 ^ k * 2 ^ k := by
  rw [alignUp, toNat_and_not_low _ hk, BitVec.toNat_add, toNat_twoPow_sub_one hk]

end XfUtil
