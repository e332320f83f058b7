import XfUtil.Base.BitFields
import XfUtil.Coding.Model

/-!
# The decoders undo the encoders

Each law is about a window of memory that starts with the encoded bytes; what
follows the encoding inside the window is arbitrary.
-/

namespace XfUtil

open FlatMemory

/-! ## Zigzag -/

theorem encodeZigZag16_eq (v : BitVec 16) : encodeZigZag16 v = ZigZag.encode v := by
  apply BitVec.eq_of_getLsbD_eq
  intro i hi
  simp only [encodeZigZag16, ZigZag.encode, BitVec.getLsbD_setWidth, BitVec.getLsbD_xor,
    BitVec.getLsbD_shiftLeft, BitVec.getLsbD_sshiftRight, BitVec.getLsbD_signExtend,
    BitVec.msb_signExtend]
  rcases Nat.eq_zero_or_pos i with rfl | hpos
  · simp
  · have h1 : i - 1 < 16 := by omega
    have h2 : ¬ 15 + i < 16 := by omega
    have h3 : 15 + i < 32 := by omega
    have h4 : i - 1 < 32 := by omega
    have h5 : i < 32 := by omega
    have h6 : ¬ 16 ≤ i := by omega
    simp [hi, h1, h2, h3, h4, h5, h6]

theorem decodeZigZag16_eq (v : BitVec 16) : decodeZigZag16 v = ZigZag.decode v := by
  apply BitVec.eq_of_getLsbD_eq
  intro i hi
  have hlow : (v.setWidth 32 &&& 1#32).setWidth 16 = v &&& 1#16 := by
    apply BitVec.eq_of_getLsbD_eq
    intro j hj
    cases j <;> simp [BitVec.getLsbD_one]
  have hneg : (-((v &&& 1#16).signExtend 32)).setWidth 16 = -(v &&& 1#16) := by
    rw [BitVec.setWidth_neg_of_le (by decide)]
    congr 1
    apply BitVec.eq_of_getLsbD_eq
    intro j hj
    have h1 : j < 32 := by omega
    rw [BitVec.getLsbD_setWidth, BitVec.getLsbD_signExtend]
    simp [hj, h1]
  have hi' : 1 + i < 32 := by omega
  rw [decodeZigZag16, hlow, BitVec.setWidth_xor, hneg, ZigZag.decode]
  simp only [BitVec.getLsbD_xor, BitVec.getLsbD_setWidth, BitVec.getLsbD_ushiftRight]
  simp [hi, hi']

theorem decodeZigZag16_encodeZigZag16 (v : BitVec 16) : decodeZigZag16 (encodeZigZag16 v) = v := by
  rw [encodeZigZag16_eq, decodeZigZag16_eq, ZigZag.decode_encode]

theorem decodeZigZag32_encodeZigZag32 (v : BitVec 32) : decodeZigZag32 (encodeZigZag32 v) = v :=
  ZigZag.decode_encode v

theorem decodeZigZag64_encodeZigZag64 (v : BitVec 64) : decodeZigZag64 (encodeZigZag64 v) = v :=
  ZigZag.decode_encode v

theorem encodeZigZag16_decodeZigZag16 (u : BitVec 16) : encodeZigZag16 (decodeZigZag16 u) = u := by
  rw [encodeZigZag16_eq, decodeZigZag16_eq, ZigZag.encode_decode]

theorem encodeZigZag32_decodeZigZag32 (u : BitVec 32) : encodeZigZag32 (decodeZigZag32 u) = u :=
  ZigZag.encode_decode u

theorem encodeZigZag64_decodeZigZag64 (u : BitVec 64) : encodeZigZag64 (decodeZigZag64 u) = u :=
  ZigZag.encode_decode u

/-! ## Fixed-width integers -/

theorem getLsbD_loadFixed {w : Nat} (m : Mem) (buf n : Nat) {i : Nat} (hi : i < w) :
    (loadFixed w m buf n).getLsbD i =
      (decide (i < 8 * n) && (m (buf + i / 8)).getLsbD (i % 8)) := by
  induction n with
  | zero => simp [loadFixed]
  | succ n ih =>
      simp only [loadFixed, BitVec.getLsbD_or, ih, BitVec.getLsbD_shiftLeft,
        BitVec.getLsbD_setWidth]
      by_cases h : i < 8 * n
      · have h1 : i < 8 * (n + 1) := by omega
        simp [h, h1]
      · by_cases h' : i < 8 * (n + 1)
        · have hdiv : i / 8 = n := by omega
          have hmod : i % 8 = i - 8 * n := by omega
          have hw : i - 8 * n < w := by omega
          simp [h, h', hi, hdiv, hmod, hw]
        · have hout : 8 ≤ i - 8 * n := by omega
          simp [h, h', hi, BitVec.getLsbD_of_ge (m (buf + n)) _ hout]

theorem loadFixed_eq {w n : Nat} {m : Mem} {buf : Nat} {v : BitVec w} (hw : w ≤ 8 * n)
    (h : read m buf n = fixedBytes v n) : loadFixed w m buf n = v := by
  apply BitVec.eq_of_getLsbD_eq
  intro i hi
  have hbyte : m (buf + i / 8) = (v >>> (8 * (i / 8))).setWidth 8 := by
    rw [read_eq_map, fixedBytes, List.map_inj_left] at h
    exact h (i / 8) (by rw [List.mem_range]; omega)
  have h1 : i < 8 * n := by omega
  have h2 : i % 8 < 8 := Nat.mod_lt i (by decide)
  have h3 : 8 * (i / 8) + i % 8 = i := Nat.div_add_mod i 8
  rw [getLsbD_loadFixed m buf n hi, hbyte]
  simp [h1, h2, h3]

theorem decodeFixed_eq {w n : Nat} {m : Mem} {buf fin : Nat} {v : BitVec w} (hw : w ≤ 8 * n)
    (hfin : fin < 2 ^ 64) (hroom : buf + n ≤ fin) (h : read m buf n = fixedBytes v n) :
    decodeFixed w n m buf fin = ⟨true, some v, buf + n⟩ := by
  rw [decodeFixed, ptrAdd_of_lt (by omega), if_pos hroom, loadFixed_eq hw h]

/-! ## Varints -/

section Byte

variable {w : Nat} (hw : 8 ≤ w) (b : Byte)
include hw

theorem toNat_byte : (b.setWidth w).toNat = b.toNat :=
  BitVec.toNat_setWidth_of_le hw

theorem toNat_payload : (b.setWidth w &&& 0x7f#w).toNat = b.toNat % 128 := by
  have hmask := BitFields.toNat_and_ones (b.setWidth w) (show 7 ≤ w by omega)
  rwa [toNat_byte hw] at hmask

theorem continues_iff : 0x80#w ≤ b.setWidth w ↔ Leb128.Continues b := by
  have hpow : 2 ^ 8 ≤ 2 ^ w := Nat.pow_le_pow_right (by decide) hw
  rw [BitVec.le_def, toNat_byte hw, BitVec.toNat_ofNat, Nat.mod_eq_of_lt (by omega)]
  exact Iff.rfl

end Byte

theorem toNat_accumulated_lt {w v shift : Nat} (hv : v < 2 ^ shift) (b : Byte) :
    (BitVec.ofNat w (v + 2 ^ shift * (b.toNat % 128))).toNat < 2 ^ (shift + 7) := by
  have hle := Nat.mod_le (v + 2 ^ shift * (b.toNat % 128)) (2 ^ w)
  have hmul : 2 ^ shift * (b.toNat % 128) ≤ 2 ^ shift * 127 := Nat.mul_le_mul_left _ (by omega)
  rw [BitVec.toNat_ofNat, Nat.pow_add]
  omega

theorem accumulated_value (w v shift : Nat) (b : Byte) (bs : List Byte) :
    BitVec.ofNat w ((BitVec.ofNat w (v + 2 ^ shift * (b.toNat % 128))).toNat +
      2 ^ (shift + 7) * Leb128.value bs) =
      BitVec.ofNat w (v + 2 ^ shift * Leb128.value (b :: bs)) := by
  apply BitVec.eq_of_toNat_eq
  simp only [BitVec.toNat_ofNat, Leb128.value, Nat.pow_add, Nat.mod_add_mod]
  congr 1
  ring

/-- The decoding loop over continuation bytes and a final byte. The accumulator
holds the payload below `shift`; each round moves seven bits into it. -/
theorem decodeVarintLoop_eq {m : Mem} {fin : Nat} (front : List Byte) (last : Byte)
    (hfront : ∀ b ∈ front, Leb128.Continues b) (hlast : ¬ Leb128.Continues last)
    (rounds shift : Nat) (v : BitVec 64) (buf : Nat) (hrounds : front.length < rounds)
    (hshift : shift + 7 * rounds = 70) (hv : v.toNat < 2 ^ shift)
    (hread : read m buf (front.length + 1) = front ++ [last])
    (hroom : buf + front.length + 1 ≤ fin) :
    decodeVarintLoop m fin rounds shift v buf =
      ⟨true, some (BitVec.ofNat 64 (v.toNat + 2 ^ shift * Leb128.value (front ++ [last]))),
        buf + front.length + 1⟩ := by
  induction front generalizing rounds shift v buf with
  | nil =>
      obtain ⟨rounds, rfl⟩ : ∃ r, rounds = r + 1 := ⟨rounds - 1, by omega⟩
      have hb : m buf = last := (read_eq_cons hread).1
      have hlow : last.toNat % 128 = last.toNat :=
        Nat.mod_eq_of_lt (Nat.lt_of_not_le hlast)
      have hcond : shift < 64 ∧ buf < fin := ⟨by omega, by simp at hroom; omega⟩
      rw [decodeVarintLoop, if_pos hcond]
      simp only [hb]
      rw [if_neg (fun hc => hlast ((continues_iff (by decide) last).mp hc)),
        BitFields.or_shiftLeft_eq _ _ hv,
        toNat_byte (by decide)]
      simp [Leb128.value, hlow]
  | cons b front ih =>
      obtain ⟨rounds, rfl⟩ : ∃ r, rounds = r + 1 := ⟨rounds - 1, by omega⟩
      have hb : m buf = b := (read_eq_cons hread).1
      have hrest : read m (buf + 1) (front.length + 1) = front ++ [last] := by
        simpa using (read_eq_cons hread).2
      simp only [List.length_cons] at hrounds hroom
      have hcond : shift < 64 ∧ buf < fin := ⟨by omega, by omega⟩
      have hcont : Leb128.Continues b := hfront b (by simp)
      rw [decodeVarintLoop, if_pos hcond]
      simp only [hb]
      rw [if_pos ((continues_iff (by decide) b).mpr hcont), BitFields.or_shiftLeft_eq _ _ hv,
        toNat_payload (by decide)]
      rw [ih (fun x hx => hfront x (by simp [hx])) rounds (shift + 7) _ (buf + 1) (by omega)
        (by omega) (toNat_accumulated_lt hv b) hrest (by omega), accumulated_value]
      simp [Nat.add_assoc, Nat.add_comm 1]

/-- `DecodeVarint` on at most nine continuation bytes and a final one. -/
theorem decodeVarint64_terminated {m : Mem} {buf fin : Nat} (front : List Byte) (last : Byte)
    (hfront : ∀ b ∈ front, Leb128.Continues b) (hlast : ¬ Leb128.Continues last)
    (hlen : front.length < 10) (hread : read m buf (front.length + 1) = front ++ [last])
    (hroom : buf + front.length + 1 ≤ fin) :
    decodeVarint64 m buf fin =
      ⟨true, some (BitVec.ofNat 64 (Leb128.value (front ++ [last]))), buf + front.length + 1⟩ := by
  rw [decodeVarint64, decodeVarintLoop_eq front last hfront hlast 10 0 0 buf hlen (by decide)
    (by simp) hread hroom]
  simp

theorem decodeVarint64_eq {m : Mem} {buf fin : Nat} (v : BitVec 64)
    (hread : read m buf (Leb128.bytes v.toNat).length = Leb128.bytes v.toNat)
    (hroom : buf + (Leb128.bytes v.toNat).length ≤ fin) :
    decodeVarint64 m buf fin = ⟨true, some v, buf + (Leb128.bytes v.toNat).length⟩ := by
  obtain ⟨front, last, heq, hfront, hlast⟩ := Leb128.bytes_shape v.toNat
  have hten : (Leb128.bytes v.toNat).length ≤ 9 + 1 :=
    Leb128.bytes_length_le (Nat.lt_trans v.isLt (by decide))
  have hval : BitVec.ofNat 64 (Leb128.value (front ++ [last])) = v := by
    rw [← heq, Leb128.value_bytes, BitVec.ofNat_toNat, BitVec.setWidth_eq]
  rw [heq] at hread hroom hten ⊢
  simp only [List.length_append, List.length_singleton] at hread hroom hten ⊢
  rw [decodeVarint64_terminated front last hfront hlast (by omega) hread (by omega), hval]
  rfl

/-- The narrow overloads keep the low bits of what the 64-bit one decodes. -/
theorem decodeVarint_narrow {w : Nat} (hw : w ≤ 64) {m : Mem} {buf fin : Nat} (v : BitVec w)
    (hread : read m buf (Leb128.bytes v.toNat).length = Leb128.bytes v.toNat)
    (hroom : buf + (Leb128.bytes v.toNat).length ≤ fin) :
    (decodeVarint64 m buf fin).map (·.setWidth w) =
      ⟨true, some v, buf + (Leb128.bytes v.toNat).length⟩ := by
  have hwide : (v.setWidth 64).toNat = v.toNat := BitVec.toNat_setWidth_of_le hw
  have hback : (v.setWidth 64).setWidth w = v := by
    rw [BitVec.setWidth_setWidth_of_le v hw, BitVec.setWidth_eq]
  rw [← hwide] at hread hroom ⊢
  rw [decodeVarint64_eq _ hread hroom, Decoded.map, Option.map_some, hback]

theorem decodeVarint16_eq {m : Mem} {buf fin : Nat} (v : BitVec 16)
    (hread : read m buf (Leb128.bytes v.toNat).length = Leb128.bytes v.toNat)
    (hroom : buf + (Leb128.bytes v.toNat).length ≤ fin) :
    decodeVarint16 m buf fin = ⟨true, some v, buf + (Leb128.bytes v.toNat).length⟩ :=
  decodeVarint_narrow (by decide) v hread hroom

theorem decodeVarint32_eq {m : Mem} {buf fin : Nat} (v : BitVec 32)
    (hread : read m buf (Leb128.bytes v.toNat).length = Leb128.bytes v.toNat)
    (hroom : buf + (Leb128.bytes v.toNat).length ≤ fin) :
    decodeVarint32 m buf fin = ⟨true, some v, buf + (Leb128.bytes v.toNat).length⟩ :=
  decodeVarint_narrow (by decide) v hread hroom

/-! ## Strings -/

/-- The view points past the length prefix, at the bytes that were copied. -/
theorem decodeString_eq {m : Mem} {buf fin : Nat} (str : Str) (hfin : fin < 2 ^ 64)
    (hread : read m buf (stringBytes str).length = stringBytes str)
    (hroom : buf + (stringBytes str).length ≤ fin) :
    decodeString m buf fin =
      ⟨true, some ⟨buf + (Leb128.bytes str.bytes.length).length, str.size⟩,
        buf + (stringBytes str).length⟩ := by
  have hpre : read m buf (Leb128.bytes str.size.toNat).length = Leb128.bytes str.size.toNat := by
    rw [Str.toNat_size]
    exact (read_eq_append hread).1
  have hlen : (stringBytes str).length =
      (Leb128.bytes str.bytes.length).length + str.bytes.length := by
    simp [stringBytes]
  rw [hlen] at hroom ⊢
  rw [decodeString, decodeVarint64_eq str.size hpre (by rw [Str.toNat_size]; omega)]
  simp only [Str.toNat_size]
  rw [ptrAdd_of_lt (by omega), if_neg (by omega)]
  simp [Nat.add_assoc]

end XfUtil
