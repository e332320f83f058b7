import Mathlib.Data.Nat.Digits.Lemmas
import XfUtil.Base.Horner
import XfUtil.Coding.Inverse
import XfUtil.Hash.Model

/-!
# `Hash32` is a polynomial in its seed

The words of a string are its bytes taken by four, the last of them padded with zeros.
The loop and the switch of `Hash32` accumulate them, and so do the overloads for
integers with the words of the bytes that `EncodeFixed` writes.
-/

namespace XfUtil

open FlatMemory

/-! ## Words -/

/-- The number with these digits to the base 256, the lowest first. -/
def word (bs : List Byte) : BitVec 32 := BitVec.ofNat 32 (Nat.ofDigits 256 (bs.map BitVec.toNat))

/-- The words of a string that is padded with zeros to a multiple of four bytes. -/
def words : List Byte → List (BitVec 32)
  | [] => []
  | [a] => [word [a, 0, 0, 0]]
  | [a, b] => [word [a, b, 0, 0]]
  | [a, b, c] => [word [a, b, c, 0]]
  | a :: b :: c :: d :: bs => word [a, b, c, d] :: words bs

theorem ofDigits_lt (bs : List Byte) :
    Nat.ofDigits 256 (bs.map BitVec.toNat) < 256 ^ bs.length := by
  have hlt := Nat.ofDigits_lt_base_pow_length (b := 256) (l := bs.map BitVec.toNat) (by decide) (by
    intro x hx
    obtain ⟨b, -, rfl⟩ := List.mem_map.mp hx
    exact b.isLt)
  rwa [List.length_map] at hlt

theorem toNat_word {bs : List Byte} (h : bs.length ≤ 4) :
    (word bs).toNat = Nat.ofDigits 256 (bs.map BitVec.toNat) := by
  have hlt := ofDigits_lt bs
  have hpow : 256 ^ bs.length ≤ 256 ^ 4 := Nat.pow_le_pow_right (by decide) h
  rw [word, BitVec.toNat_ofNat, Nat.mod_eq_of_lt (by omega)]

/-- The first four bytes, or what there is of them, make the first word. -/
theorem words_step {bs : List Byte} (h : bs ≠ []) :
    words bs = word (bs.take 4) :: words (bs.drop 4) := by
  match bs, h with
  | [a], _ => simp [words, word, Nat.ofDigits]
  | [a, b], _ => simp [words, word, Nat.ofDigits]
  | [a, b, c], _ => simp [words, word, Nat.ofDigits]
  | a :: b :: c :: d :: bs, _ => rfl

theorem words_read_four (m : Mem) (data n : Nat) :
    words (read m data (n + 4)) = word (read m data 4) :: words (read m (data + 4) n) := rfl

/-- The word at index `i`, between those before and those behind it. -/
theorem words_read (m : Mem) (data : Nat) {n i : Nat} (hi : 4 * i < n) :
    words (read m data n) = words (read m data (4 * i)) ++
      word (read m (data + 4 * i) (min 4 (n - 4 * i))) ::
        words (read m (data + 4 * i + 4) (n - 4 * i - 4)) := by
  induction i generalizing data n with
  | zero =>
      have hne : read m data n ≠ [] := List.ne_nil_of_length_pos (by rw [read_length]; omega)
      have htake : (read m data n).take 4 = read m data (min 4 n) := by
        simp [read_eq_map, ← List.map_take, List.take_range]
      have hdrop : (read m data n).drop 4 = read m (data + 4) (n - 4) := by
        by_cases hfour : 4 ≤ n
        · obtain ⟨k, rfl⟩ := Nat.exists_eq_add_of_le hfour
          rw [read_add, Nat.add_sub_cancel_left]
          exact List.drop_left' (read_length m data 4)
        · rw [List.drop_eq_nil_of_le (by rw [read_length]; omega), Nat.sub_eq_zero_of_le (by omega)]
          rfl
      rw [words_step hne, htake, hdrop]
      rfl
  | succ i ih =>
      obtain ⟨k, rfl⟩ : ∃ k, n = k + 4 := ⟨n - 4, by omega⟩
      have haddr : data + 4 + 4 * i = data + 4 * (i + 1) := by omega
      have hrest : k + 4 - 4 * (i + 1) = k - 4 * i := by omega
      rw [words_read_four, ih (data + 4) (by omega), haddr, hrest,
        show 4 * (i + 1) = 4 * i + 4 from rfl, words_read_four]
      rfl

/-- `DecodeFixed` and `Decode` put the bytes together in the same way. -/
theorem loadFixed_eq_word (m : Mem) (buf : Nat) {n : Nat} (hn : n ≤ 4) :
    loadFixed 32 m buf n = word (read m buf n) := by
  induction n with
  | zero => rfl
  | succ n ih =>
      have hlow := ofDigits_lt (read m buf n)
      rw [read_length, show 256 = 2 ^ 8 from rfl, ← Nat.pow_mul] at hlow
      have htoNat : (word (read m buf n)).toNat = _ := toNat_word (by rw [read_length]; omega)
      rw [loadFixed, ih (by omega), BitFields.or_shiftLeft_eq _ _ (htoNat ▸ hlow), htoNat,
        toNat_byte (by decide), read_add, word, List.map_append, Nat.ofDigits_append,
        List.length_map, read_length, show 256 = 2 ^ 8 from rfl, ← Nat.pow_mul]
      have hone : FlatMemory.read m (buf + n) 1 = [m (buf + n)] := rfl
      rw [hone, List.map_singleton, Nat.ofDigits_singleton]

theorem decode_eq (m : Mem) (data : Nat) {n : Nat} (hpos : 0 < n) (hn : n < 4) :
    decode m data (BitVec.ofNat 64 n) = word (read m data n) := by
  rw [← loadFixed_eq_word m data (by omega)]
  have hcases : n = 1 ∨ n = 2 ∨ n = 3 := by omega
  -- The switch goes from the last byte to the first, the decoder from the first on.
  have hswap : ∀ v a b : BitVec 32, (v ||| b) ||| a = (v ||| a) ||| b := by
    intro v a b
    rw [BitVec.or_assoc, BitVec.or_comm b, ← BitVec.or_assoc]
  have hzero : (m data).setWidth 32 <<< (8 * 0) = (m data).setWidth 32 := BitVec.shiftLeft_zero _
  rcases hcases with rfl | rfl | rfl
  · exact congrArg (0#32 ||| ·) hzero.symm
  · refine (hswap 0#32 ((m data).setWidth 32) _).trans ?_
    rw [← hzero]
    rfl
  · refine (hswap (0#32 ||| _) ((m data).setWidth 32) _).trans ?_
    rw [hswap 0#32 ((m data).setWidth 32), hswap, ← hzero]
    rfl

/-! ## The general overload -/

/-- Every round takes a word as long as there are four bytes. -/
theorem hash32Loop_eq (m : Mem) (seed : BitVec 32) (rounds data n : Nat) (h : BitVec 32)
    (hfits : data + n + 4 < 2 ^ 64) (hrounds : n / 4 < rounds) :
    hash32Loop m (data + n) seed rounds data h =
      (Horner.eval seed h (words (read m data (4 * (n / 4)))), data + 4 * (n / 4)) := by
  induction rounds generalizing data n h with
  | zero => exact absurd hrounds (Nat.not_lt_zero _)
  | succ rounds ih =>
      by_cases hfour : 4 ≤ n
      · obtain ⟨k, rfl⟩ : ∃ k, n = k + 4 := ⟨n - 4, by omega⟩
        have hdecode : decodeFixed32 m data (data + (k + 4)) =
            ⟨true, some (word (read m data 4)), data + 4⟩ := by
          rw [decodeFixed32, decodeFixed, ptrAdd_of_lt (by omega), if_pos (by omega),
            loadFixed_eq_word m data (by decide)]
        have hfin : data + (k + 4) = data + 4 + k := by omega
        have hquot : 4 * ((k + 4) / 4) = 4 * (k / 4) + 4 := by omega
        rw [hash32Loop, hdecode]
        dsimp only
        rw [hfin, ih (data + 4) k _ (by omega) (by omega), hquot, words_read_four,
          Horner.eval_cons, Nat.add_assoc, Nat.add_comm 4]
      · have hquot : n / 4 = 0 := by omega
        have hdecode : decodeFixed32 m data (data + n) = ⟨false, none, data⟩ := by
          rw [decodeFixed32, decodeFixed, ptrAdd_of_lt (by omega), if_neg (by omega)]
        rw [hash32Loop, hdecode, hquot]
        rfl

theorem truncated_mul (seed : BitVec 32) (len : BitVec 64) :
    (seed.setWidth 64 * len).setWidth 32 = seed * BitVec.ofNat 32 len.toNat := by
  apply BitVec.eq_of_toNat_eq
  rw [BitVec.toNat_setWidth, BitVec.toNat_mul, BitVec.toNat_setWidth_of_le (by decide),
    BitVec.toNat_mul, BitVec.toNat_ofNat, Nat.mul_mod_mod,
    Nat.mod_mod_of_dvd _ (Nat.pow_dvd_pow 2 (by decide))]

theorem hash32_eq {m : Mem} {data : Nat} {len : BitVec 64} (hfits : data + len.toNat + 4 < 2 ^ 64)
    (seed : BitVec 32) :
    hash32 m data len seed = Horner.eval seed (seed * BitVec.ofNat 32 len.toNat)
      (words (read m data len.toNat)) := by
  have hfin : ptrAdd data len.toNat = data + len.toNat := ptrAdd_of_lt (by omega)
  have hloop := hash32Loop_eq m seed (len.toNat / 4 + 1) data len.toNat
    (seed * BitVec.ofNat 32 len.toNat) hfits (Nat.lt_succ_self _)
  have hrest : len % 4 = BitVec.ofNat 64 (len.toNat % 4) := by
    apply BitVec.eq_of_toNat_eq
    have hfour : (4 : BitVec 64).toNat = 4 := rfl
    rw [BitVec.toNat_umod, BitVec.toNat_ofNat, hfour]
    exact (Nat.mod_eq_of_lt (by omega)).symm
  rw [hash32, truncated_mul, hfin, hloop, hrest]
  dsimp only
  by_cases hzero : len.toNat % 4 = 0
  · rw [hzero, if_neg (by simp), show 4 * (len.toNat / 4) = len.toNat by omega]
  · have hne : BitVec.ofNat 64 (len.toNat % 4) ≠ 0 := by
      intro heq
      have hval := congrArg BitVec.toNat heq
      rw [BitVec.toNat_ofNat, Nat.mod_eq_of_lt (by omega)] at hval
      exact hzero hval
    rw [if_pos hne, decode_eq m _ (Nat.pos_of_ne_zero hzero) (Nat.mod_lt _ (by decide)),
      words_read m data (n := len.toNat) (i := len.toNat / 4) (by omega), Horner.eval_append,
      Nat.sub_eq_zero_of_le (show len.toNat - 4 * (len.toNat / 4) ≤ 4 by omega),
      show min 4 (len.toNat - 4 * (len.toNat / 4)) = len.toNat % 4 by omega]
    rfl

/-! ## The overloads for integers -/

theorem word_fixedBytes (value : BitVec 32) : word (fixedBytes value 4) = value := by
  have hread := read_write_same (fun _ => 0) 0 (fixedBytes value 4)
  rw [fixedBytes_length] at hread
  rw [← hread, ← loadFixed_eq_word _ 0 (by decide)]
  exact loadFixed_eq (by decide) hread

theorem words_fixedBytes32 (value : BitVec 32) : words (fixedBytes value 4) = [value] :=
  congrArg (· :: []) (word_fixedBytes value)

/-- The low half of the bytes first. -/
theorem fixedBytes64 (value : BitVec 64) :
    fixedBytes value 8 = fixedBytes (value.setWidth 32) 4 ++
      fixedBytes ((value >>> 32).setWidth 32) 4 := by
  have hbyte : ∀ (v : BitVec 64) (i : Nat), i < 4 →
      (v >>> (8 * i)).setWidth 8 = (v.setWidth 32 >>> (8 * i)).setWidth 8 := by
    intro v i hi
    apply BitVec.eq_of_getLsbD_eq
    intro j hj
    have hlow : 8 * i + j < 32 := by omega
    simp [hj, hlow]
  have hlow : (List.range 4).map (fun i => (value >>> (8 * i)).setWidth 8) =
      fixedBytes (value.setWidth 32) 4 :=
    List.map_congr_left fun i hi => hbyte value i (List.mem_range.mp hi)
  have hhigh : (List.range 4).map (fun i => (value >>> (8 * (4 + i))).setWidth 8) =
      fixedBytes ((value >>> 32).setWidth 32) 4 := by
    apply List.map_congr_left
    intro i hi
    rw [← hbyte (value >>> 32) i (List.mem_range.mp hi), ← BitVec.shiftRight_add,
      Nat.mul_add]
  rw [← hlow, ← hhigh]
  rfl

theorem words_fixedBytes64 (value : BitVec 64) :
    words (fixedBytes value 8) = [value.setWidth 32, (value >>> 32).setWidth 32] := by
  have hcons : words (fixedBytes value 8) =
      word ((fixedBytes value 8).take 4) :: words ((fixedBytes value 8).drop 4) := rfl
  rw [hcons, fixedBytes64, List.take_left' (fixedBytes_length _ 4),
    List.drop_left' (fixedBytes_length _ 4), word_fixedBytes, words_fixedBytes32]

theorem hash32OfUint32_eq (value seed : BitVec 32) :
    hash32OfUint32 value seed = Horner.eval seed (seed * 4) [value] := by
  rw [hash32OfUint32, truncated_mul]
  rfl

theorem hash32OfUint64_eq (value : BitVec 64) (seed : BitVec 32) :
    hash32OfUint64 value seed =
      Horner.eval seed (seed * 8) [value.setWidth 32, (value >>> 32).setWidth 32] := by
  have hmask : value &&& 0xffffffff = (value.setWidth 32).setWidth 64 := by
    apply BitVec.eq_of_toNat_eq
    have hones := BitFields.toNat_and_ones value (show 32 ≤ 64 by decide)
    rw [BitVec.toNat_setWidth_of_le (by decide), BitVec.toNat_setWidth]
    exact hones
  have hsum : ∀ a b : BitVec 32, (a.setWidth 64 + b.setWidth 64).setWidth 32 = a + b := by
    intro a b
    rw [BitVec.setWidth_add _ _ (by decide)]
    simp
  rw [hash32OfUint64, truncated_mul, hmask, hsum]
  rfl

/-- `Hash32` adds each word of its padded bytes to `seed * len` and multiplies by `seed`;
the integer overloads do the same with the bytes of `EncodeFixed`. The bound test adds four
to the cursor, so there have to be as many addresses behind the string. -/
theorem hash32_polynomial (m : Mem) (data : Nat) (seed : BitVec 32) :
    (∀ len : BitVec 64, data + len.toNat + 4 < 2 ^ 64 →
      hash32 m data len seed = Horner.eval seed (seed * BitVec.ofNat 32 len.toNat)
        (words (read m data len.toNat))) ∧
    (∀ value : BitVec 32, data + 8 < 2 ^ 64 →
      hash32OfUint32 value seed = hash32 (encodeFixed32 m data value).1 data 4 seed) ∧
    ∀ value : BitVec 64, data + 12 < 2 ^ 64 →
      hash32OfUint64 value seed = hash32 (encodeFixed64 m data value).1 data 8 seed := by
  refine ⟨fun len hfits => hash32_eq hfits seed, fun value hfits => ?_, fun value hfits => ?_⟩
  · have hread := read_write_same m data (fixedBytes value 4)
    have hlen : (4 : BitVec 64).toNat = 4 := rfl
    rw [fixedBytes_length] at hread
    rw [hash32_eq (by rw [hlen]; omega), encodeFixed32, encodeFixed_eq, hlen, hread,
      words_fixedBytes32, hash32OfUint32_eq]
    rfl
  · have hread := read_write_same m data (fixedBytes value 8)
    have hlen : (8 : BitVec 64).toNat = 8 := rfl
    rw [fixedBytes_length] at hread
    rw [hash32_eq (by rw [hlen]; omega), encodeFixed64, encodeFixed_eq, hlen, hread,
      words_fixedBytes64, hash32OfUint64_eq]
    rfl

/-- Seven bytes: one word, and three bytes behind it. -/
theorem hash32_polynomial_seven :
    hash32 (write (fun _ => 0) 16 [1, 2, 3, 4, 5, 6, 7]) 16 7 defaultSeed =
      Horner.eval defaultSeed (defaultSeed * 7) [0x04030201, 0x00070605] ∧
    hash32OfUint32 0x04030201 3 = hash32 (encodeFixed32 (fun _ => 0) 16 0x04030201).1 16 4 3 := by
  have hseven := (hash32_polynomial (write (fun _ => 0) 16 [1, 2, 3, 4, 5, 6, 7]) 16
    defaultSeed).1 7 (by decide)
  exact ⟨hseven, (hash32_polynomial (fun _ => 0) 16 3).2.1 0x04030201 (by decide)⟩

end XfUtil
