import XfUtil.Coding.Inverse

/-!
# Varints that are read backwards

`EncodeVarintR` writes the bytes of `EncodeVarint` in reverse order, so that the number
can be read from its last byte on. `DecodeVarintR` keeps the addresses it reads as ghost
state. Its test against `rend` is the one of the forward walk.
-/

namespace XfUtil

open FlatMemory

/-! ## The code -/

def encodeVarintR (m : Mem) (buf : Nat) (v : BitVec 32) : Mem × Nat :=
  if v < 1#32 <<< 7 then (write m buf [v.setWidth 8], buf + 1)
  else if v < 1#32 <<< 14 then
    (write m buf [(v >>> 7).setWidth 8, (v ||| 0x80#32).setWidth 8], buf + 2)
  else if v < 1#32 <<< 21 then
    (write m buf [(v >>> 14).setWidth 8, ((v >>> 7) ||| 0x80#32).setWidth 8,
      (v ||| 0x80#32).setWidth 8], buf + 3)
  else if v < 1#32 <<< 28 then
    (write m buf [(v >>> 21).setWidth 8, ((v >>> 14) ||| 0x80#32).setWidth 8,
      ((v >>> 7) ||| 0x80#32).setWidth 8, (v ||| 0x80#32).setWidth 8], buf + 4)
  else
    (write m buf [(v >>> 28).setWidth 8, ((v >>> 21) ||| 0x80#32).setWidth 8,
      ((v >>> 14) ||| 0x80#32).setWidth 8, ((v >>> 7) ||| 0x80#32).setWidth 8,
      (v ||| 0x80#32).setWidth 8], buf + 5)

/-- `p - 1` on a pointer of the flat 64-bit address space. -/
def ptrPred (p : Nat) : Nat := ptrAdd p (2 ^ 64 - 1)

/-- What a walk through bytes returns, and the addresses that it has read. -/
structure Walk (α : Type) extends Decoded α where
  reads : List Nat
deriving Repr, DecidableEq

/-- The loop of `DecodeVarintR`: `shift` runs over 0, 7, …, 28, so five rounds end it. -/
def decodeVarintRLoop (m : Mem) (rend : Nat) :
    Nat → Nat → BitVec 32 → Nat → List Nat → Walk (BitVec 32)
  | 0, _, v, rbuf, reads => ⟨⟨false, some v, rbuf⟩, reads⟩
  | rounds + 1, shift, v, rbuf, reads =>
      if shift < 32 ∧ rbuf < rend then
        let b : BitVec 32 := (m rbuf).setWidth 32
        if 0x80#32 ≤ b then
          decodeVarintRLoop m rend rounds (shift + 7) (v ||| ((b &&& 0x7f#32) <<< shift))
            (ptrPred rbuf) (reads ++ [rbuf])
        else ⟨⟨true, some (v ||| (b <<< shift)), ptrPred rbuf⟩, reads ++ [rbuf]⟩
      else ⟨⟨false, some v, rbuf⟩, reads⟩

def decodeVarintR (m : Mem) (rbuf rend : Nat) : Walk (BitVec 32) :=
  decodeVarintRLoop m rend 5 0 0 rbuf []

/-! ## The encoder -/

theorem toNat_shift (v : BitVec 32) (k : Nat) : (v >>> (7 * k)).toNat = v.toNat / 128 ^ k := by
  rw [BitFields.toNat_shiftRight, Nat.pow_mul]

theorem continued_byte (v : BitVec 32) (k : Nat) :
    ((v >>> (7 * k)) ||| 0x80#32).setWidth 8 =
      BitVec.ofNat 8 (v.toNat / 128 ^ k % 128 + 128) := by
  apply BitVec.eq_of_toNat_eq
  rw [toNat_continued (by decide), toNat_shift, BitVec.toNat_ofNat]
  omega

theorem final_byte (v : BitVec 32) (k : Nat) :
    (v >>> (7 * k)).setWidth 8 = BitVec.ofNat 8 (v.toNat / 128 ^ k) := by
  apply BitVec.eq_of_toNat_eq
  rw [BitVec.toNat_setWidth, toNat_shift, BitVec.toNat_ofNat]

theorem reverse_bytes (v : BitVec 32) {k : Nat} (hk : k = 0 ∨ 2 ^ (7 * k) ≤ v.toNat)
    (hv : v.toNat < 2 ^ (7 * (k + 1))) :
    (Leb128.bytes v.toNat).reverse =
      (v >>> (7 * k)).setWidth 8 ::
        ((List.range k).map fun i => ((v >>> (7 * i)) ||| 0x80#32).setWidth 8).reverse := by
  rw [Nat.pow_mul] at hk hv
  rw [Leb128.bytes_eq_digits hk hv, List.reverse_append, final_byte]
  simp only [continued_byte]
  rfl

theorem encodeVarintR_eq (m : Mem) (buf : Nat) (v : BitVec 32) :
    encodeVarintR m buf v =
      (write m buf (Leb128.bytes v.toNat).reverse, buf + (Leb128.bytes v.toNat).length) := by
  have hlt : ∀ k < 32, v < 1#32 <<< k ↔ v.toNat < 2 ^ k := by
    intro k hk
    have hpow : 2 ^ k < 2 ^ 32 := Nat.pow_lt_pow_right (by decide) hk
    have hone : (1#32 <<< k).toNat = 2 ^ k := by
      rw [BitVec.toNat_shiftLeft, Nat.shiftLeft_eq, BitVec.toNat_ofNat]
      exact (congrArg (· % 2 ^ 32) (Nat.one_mul _)).trans (Nat.mod_eq_of_lt hpow)
    rw [BitVec.lt_def, hone]
  rw [← List.length_reverse, encodeVarintR]
  by_cases h7 : v.toNat < 2 ^ 7
  · rw [if_pos ((hlt 7 (by decide)).mpr h7), reverse_bytes v (k := 0) (Or.inl rfl) h7]
    rfl
  · rw [if_neg (mt (hlt 7 (by decide)).mp h7)]
    by_cases h14 : v.toNat < 2 ^ 14
    · rw [if_pos ((hlt 14 (by decide)).mpr h14),
        reverse_bytes v (k := 1) (Or.inr (Nat.not_lt.mp h7)) h14]
      rfl
    · rw [if_neg (mt (hlt 14 (by decide)).mp h14)]
      by_cases h21 : v.toNat < 2 ^ 21
      · rw [if_pos ((hlt 21 (by decide)).mpr h21),
          reverse_bytes v (k := 2) (Or.inr (Nat.not_lt.mp h14)) h21]
        rfl
      · rw [if_neg (mt (hlt 21 (by decide)).mp h21)]
        by_cases h28 : v.toNat < 2 ^ 28
        · rw [if_pos ((hlt 28 (by decide)).mpr h28),
            reverse_bytes v (k := 3) (Or.inr (Nat.not_lt.mp h21)) h28]
          rfl
        · rw [if_neg (mt (hlt 28 (by decide)).mp h28), reverse_bytes v (k := 4)
            (Or.inr (Nat.not_lt.mp h28)) (v.isLt.trans (by decide))]
          rfl

/-! ## The decoder -/

theorem ptrPred_succ {p : Nat} (h : p < 2 ^ 64) : ptrPred (p + 1) = p := by
  rw [ptrPred, ptrAdd]
  omega

/-- The loop from the last of the bytes down to the final one, which is the first in
memory. -/
theorem decodeVarintRLoop_eq {m : Mem} {rend : Nat} (front : List Byte) (last : Byte)
    (hfront : ∀ b ∈ front, Leb128.Continues b) (hlast : ¬ Leb128.Continues last)
    (rounds shift : Nat) (v : BitVec 32) (p : Nat) (reads : List Nat)
    (hrounds : front.length < rounds) (hshift : shift + 7 * rounds = 35)
    (hv : v.toNat < 2 ^ shift) (hread : read m p (front.length + 1) = last :: front.reverse)
    (hp : p + front.length < 2 ^ 64) (hrend : p + front.length < rend) :
    (decodeVarintRLoop m rend rounds shift v (p + front.length) reads).toDecoded =
      ⟨true, some (BitVec.ofNat 32 (v.toNat + 2 ^ shift * Leb128.value (front ++ [last]))),
        ptrPred p⟩ := by
  induction front generalizing rounds shift v reads with
  | nil =>
      obtain ⟨rounds, rfl⟩ : ∃ r, rounds = r + 1 := ⟨rounds - 1, by omega⟩
      have hb : m p = last := (read_eq_cons hread).1
      have hlow : last.toNat % 128 = last.toNat := Nat.mod_eq_of_lt (Nat.lt_of_not_le hlast)
      have hcond : shift < 32 ∧ p < rend := ⟨by omega, hrend⟩
      show (decodeVarintRLoop m rend (rounds + 1) shift v p reads).toDecoded = _
      rw [decodeVarintRLoop, if_pos hcond]
      simp only [hb]
      rw [if_neg (fun hc => hlast ((continues_iff (by decide) last).mp hc)),
        BitFields.or_shiftLeft_eq _ _ hv, toNat_byte (by decide)]
      simp [Leb128.value, hlow]
  | cons b front ih =>
      obtain ⟨rounds, rfl⟩ : ∃ r, rounds = r + 1 := ⟨rounds - 1, by omega⟩
      simp only [List.length_cons] at hrounds hp hrend hread ⊢
      have hsplit : read m p (front.length + 1) ++ [m (p + (front.length + 1))] =
          (last :: front.reverse) ++ [b] := by
        rw [List.reverse_cons, read_add] at hread
        exact hread
      obtain ⟨hrest, hb⟩ := List.append_inj hsplit (by simp)
      have hb : m (p + (front.length + 1)) = b := List.singleton_inj.mp hb
      have hcond : shift < 32 ∧ p + (front.length + 1) < rend := ⟨by omega, hrend⟩
      have hcont : Leb128.Continues b := hfront b (by simp)
      rw [decodeVarintRLoop, if_pos hcond]
      simp only [hb]
      rw [if_pos ((continues_iff (by decide) b).mpr hcont), BitFields.or_shiftLeft_eq _ _ hv,
        toNat_payload (by decide), ← Nat.add_assoc, ptrPred_succ (by omega),
        ih (fun x hx => hfront x (by simp [hx])) rounds (shift + 7) _ _ (by omega) (by omega)
          (toNat_accumulated_lt hv b) hrest (by omega) (by omega), accumulated_value]
      rfl

/-- From the last byte of an encoding the number is read back, below every guard. -/
theorem decodeVarintR_eq {m : Mem} {rend p : Nat} (v : BitVec 32)
    (hread : read m p (Leb128.bytes v.toNat).length = (Leb128.bytes v.toNat).reverse)
    (hp : p + (Leb128.bytes v.toNat).length ≤ 2 ^ 64)
    (hrend : p + (Leb128.bytes v.toNat).length ≤ rend) :
    (decodeVarintR m (p + (Leb128.bytes v.toNat).length - 1) rend).toDecoded =
      ⟨true, some v, ptrPred p⟩ := by
  obtain ⟨front, last, heq, hfront, hlast⟩ := Leb128.bytes_shape v.toNat
  have hfive : (Leb128.bytes v.toNat).length ≤ 4 + 1 :=
    Leb128.bytes_length_le (v.isLt.trans (by decide))
  have hval : BitVec.ofNat 32 (Leb128.value (front ++ [last])) = v := by
    rw [← heq, Leb128.value_bytes, BitVec.ofNat_toNat, BitVec.setWidth_eq]
  rw [heq, List.reverse_concat] at hread
  rw [heq] at hp hrend hfive ⊢
  simp only [List.length_append, List.length_singleton] at hread hp hrend hfive ⊢
  rw [decodeVarintR, ← Nat.add_assoc, Nat.add_sub_cancel,
    decodeVarintRLoop_eq front last hfront hlast 5 0 0 p [] (by omega) (by decide) (by simp) hread
      (by omega) (by omega)]
  simp [hval]

theorem encodeVarint32_eq (m : Mem) (buf : Nat) (v : BitVec 32) :
    encodeVarint32 m buf v =
      (write m buf (Leb128.bytes v.toNat), buf + (Leb128.bytes v.toNat).length) := by
  rw [encodeVarint32, encodeVarint64_eq, BitVec.toNat_setWidth_of_le (by decide)]

/-- The reverse encoder writes the bytes of the forward one in reverse order; whatever
stands in front of them, the reverse decoder goes back over them from the last one, if
its guard is above that one. -/
theorem reverse_mirrors (v : BitVec 32) :
    (∃ bs, ∀ m buf, encodeVarint32 m buf v = (write m buf bs, buf + bs.length) ∧
      encodeVarintR m buf v = (write m buf bs.reverse, buf + bs.length)) ∧
    ∀ (m : Mem) (base : Nat) (before : List Byte) (rend : Nat),
      let r := encodeVarintR (write m base before) (base + before.length) v
      r.2 ≤ 2 ^ 64 → r.2 ≤ rend →
        (decodeVarintR r.1 (r.2 - 1) rend).toDecoded =
          ⟨true, some v, ptrPred (base + before.length)⟩ := by
  constructor
  · exact ⟨Leb128.bytes v.toNat, fun m buf => ⟨encodeVarint32_eq m buf v, encodeVarintR_eq m buf v⟩⟩
  · intro m base before rend
    rw [encodeVarintR_eq]
    intro _ hfits hrend
    apply decodeVarintR_eq v _ hfits hrend
    have hread := read_write_same (write m base before) (base + before.length)
      (Leb128.bytes v.toNat).reverse
    rwa [List.length_reverse] at hread

/-- The two bytes of 300, behind a byte that would continue a number. -/
theorem reverse_mirrors_twoBytes :
    (decodeVarintR (encodeVarintR (write (fun _ => 0) 16 [0x81]) 17 300).1 18 19).toDecoded =
      ⟨true, some 300, 16⟩ :=
  (reverse_mirrors 300).2 (fun _ => 0) 16 [0x81] 19 (by decide) (by decide)

/-! ## The guard -/

/-- From its guard on the walk ends before it begins. -/
theorem decodeVarintR_of_le (m : Mem) {start rend : Nat} (h : rend ≤ start) :
    decodeVarintR m start rend = ⟨⟨false, some 0, start⟩, []⟩ := by
  rw [decodeVarintR, decodeVarintRLoop, if_neg (by omega)]

theorem reads_decodeVarintRLoop (m : Mem) (rend rounds shift : Nat) (v : BitVec 32) (rbuf : Nat)
    (reads : List Nat) : reads <+: (decodeVarintRLoop m rend rounds shift v rbuf reads).reads := by
  induction rounds generalizing shift v rbuf reads with
  | zero => exact List.prefix_rfl
  | succ rounds ih =>
      unfold decodeVarintRLoop
      dsimp only
      split
      · split
        · exact (List.prefix_append reads [rbuf]).trans (ih _ _ _ _)
        · exact List.prefix_append reads [rbuf]
      · exact List.prefix_rfl

theorem start_mem_reads (m : Mem) {start rend : Nat} (h : start < rend) :
    start ∈ (decodeVarintR m start rend).reads := by
  rw [decodeVarintR, decodeVarintRLoop, if_pos ⟨by decide, h⟩]
  dsimp only
  split
  · exact (reads_decodeVarintRLoop ..).subset (by simp)
  · simp

/-- With `rend` in front of the first byte nothing is read at or before it, because
nothing is read at all: no number is decoded. No other guard does better. -/
theorem decodeVarintR_never_bounded (m : Mem) (rend : Nat) (before : List Byte) (v : BitVec 32) :
    let r := encodeVarintR (write m (rend + 1) before) (rend + 1 + before.length) v
    (∀ start, rend < start → ∀ a ∈ (decodeVarintR r.1 start rend).reads, rend < a) ∧
      ¬ ((decodeVarintR r.1 (r.2 - 1) rend).ok = true ∧
        (decodeVarintR r.1 (r.2 - 1) rend).value = some v) ∧
      ∀ start guard, ¬ ((∀ a ∈ (decodeVarintR r.1 start guard).reads, guard < a) ∧
        (decodeVarintR r.1 start guard).ok = true) := by
  rw [encodeVarintR_eq]
  intro r
  have hpos := Leb128.bytes_length_pos v.toNat
  have hlast : rend ≤ r.2 - 1 := by
    show rend ≤ rend + 1 + before.length + (Leb128.bytes v.toNat).length - 1
    omega
  refine ⟨fun start hstart a ha => ?_, fun hdecoded => ?_, fun start guard hbounded => ?_⟩
  · rw [decodeVarintR_of_le r.1 hstart.le] at ha
    cases ha
  · rw [decodeVarintR_of_le r.1 hlast] at hdecoded
    cases hdecoded.1
  · by_cases hstart : start < guard
    · exact absurd (hbounded.1 start (start_mem_reads r.1 hstart)) (Nat.lt_asymm hstart)
    · rw [decodeVarintR_of_le r.1 (Nat.not_lt.mp hstart)] at hbounded
      cases hbounded.2

/-- The single byte of 1, right behind `rend`. -/
theorem decodeVarintR_reads_nothing :
    encodeVarintR (fun _ => 0) 8 1 = (write (fun _ => 0) 8 [0x01], 9) ∧
      decodeVarintR (write (fun _ => 0) 8 [0x01]) 8 7 = ⟨⟨false, some 0, 8⟩, []⟩ :=
  ⟨rfl, by decide⟩

end XfUtil
