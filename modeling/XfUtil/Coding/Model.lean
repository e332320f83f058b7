import XfUtil.Types
import XfUtil.Base.Leb128
import XfUtil.Base.ZigZag

/-!
# Encoders and decoders of `coding.h` and `coding.cpp`

Encoders take memory and a cursor and return both after the write; they do not
know where the buffer ends. Decoders take the cursor and the end of the buffer
and report, as the C++ overloads do, a success flag, the out parameter if it was
assigned, and the cursor left behind, also when they fail.
-/

namespace XfUtil

open FlatMemory

/-! ## Size bounds -/

def maxV16Size : Nat := 3
def maxV32Size : Nat := 5
def maxV64Size : Nat := 10

/-- Outcome of a decoder: return value, out parameter, and cursor reference. -/
structure Decoded (α : Type) where
  ok : Bool
  value : Option α
  cursor : Nat
deriving Repr, DecidableEq

/-- Apply a conversion to the out parameter only. -/
def Decoded.map {α β : Type} (f : α → β) (d : Decoded α) : Decoded β :=
  ⟨d.ok, d.value.map f, d.cursor⟩

/-- A view of bytes in memory, as `StrView` holds it. -/
structure StrView where
  data : Nat
  size : BitVec 64
deriving Repr, DecidableEq

/-- The bytes the view designates. -/
def StrView.bytes (m : Mem) (v : StrView) : List Byte := read m v.data v.size.toNat

/-- The contents of a string handed to an encoder; its length is a 64-bit size. -/
structure Str where
  bytes : List Byte
  length_lt : bytes.length < 2 ^ 64

def Str.size (s : Str) : BitVec 64 := BitVec.ofNat 64 s.bytes.length

@[simp] theorem Str.toNat_size (s : Str) : s.size.toNat = s.bytes.length := by
  rw [Str.size, BitVec.toNat_ofNat, Nat.mod_eq_of_lt s.length_lt]

/-! ## Fixed-width integers -/

/-- `buf[i] = (byte_t)(value >> 8*i)` for `i < n`, in this order. -/
def storeFixed {w : Nat} (m : Mem) (buf : Nat) (value : BitVec w) : Nat → Mem
  | 0 => m
  | i + 1 => store (storeFixed m buf value i) (buf + i) ((value >>> (8 * i)).setWidth 8)

def encodeFixed {w : Nat} (n : Nat) (m : Mem) (buf : Nat) (value : BitVec w) : Mem × Nat :=
  (storeFixed m buf value n, buf + n)

def encodeFixed32 (m : Mem) (buf : Nat) (value : BitVec 32) : Mem × Nat :=
  encodeFixed 4 m buf value

def encodeFixed64 (m : Mem) (buf : Nat) (value : BitVec 64) : Mem × Nat :=
  encodeFixed 8 m buf value

/-- The or of `buf[i] << 8*i` for `i < n`. -/
def loadFixed (w : Nat) (m : Mem) (buf : Nat) : Nat → BitVec w
  | 0 => 0
  | i + 1 => loadFixed w m buf i ||| ((m (buf + i)).setWidth w <<< (8 * i))

def decodeFixed (w n : Nat) (m : Mem) (buf fin : Nat) : Decoded (BitVec w) :=
  if ptrAdd buf n ≤ fin then ⟨true, some (loadFixed w m buf n), ptrAdd buf n⟩
  else ⟨false, none, buf⟩

def decodeFixed8 (m : Mem) (buf fin : Nat) : Decoded (BitVec 8) := decodeFixed 8 1 m buf fin

def decodeFixed16 (m : Mem) (buf fin : Nat) : Decoded (BitVec 16) := decodeFixed 16 2 m buf fin

def decodeFixed32 (m : Mem) (buf fin : Nat) : Decoded (BitVec 32) := decodeFixed 32 4 m buf fin

def decodeFixed64 (m : Mem) (buf fin : Nat) : Decoded (BitVec 64) := decodeFixed 64 8 m buf fin

/-! ## Zigzag -/

/-- 16-bit operands are promoted to `int`, so the shifts are 32-bit ones. -/
def encodeZigZag16 (value : BitVec 16) : BitVec 16 :=
  ((value.signExtend 32 <<< 1) ^^^ (value.signExtend 32).sshiftRight 15).setWidth 16

def encodeZigZag32 (value : BitVec 32) : BitVec 32 := (value <<< 1) ^^^ value.sshiftRight 31

def encodeZigZag64 (value : BitVec 64) : BitVec 64 := (value <<< 1) ^^^ value.sshiftRight 63

def decodeZigZag16 (value : BitVec 16) : BitVec 16 :=
  ((value.setWidth 32 >>> 1) ^^^
    -(((value.setWidth 32 &&& 1#32).setWidth 16).signExtend 32)).setWidth 16

def decodeZigZag32 (value : BitVec 32) : BitVec 32 := (value >>> 1) ^^^ -(value &&& 1#32)

def decodeZigZag64 (value : BitVec 64) : BitVec 64 := (value >>> 1) ^^^ -(value &&& 1#64)

/-! ## Varints -/

/-- The loop of `EncodeVarint`; every round drops seven of the 64 bits, so ten
rounds end it (`encodeVarint64_eq`). -/
def encodeVarintLoop : Nat → Mem → Nat → BitVec 64 → Mem × Nat
  | 0, m, buf, _ => (m, buf)
  | rounds + 1, m, buf, v =>
      if 0x80#64 ≤ v then
        encodeVarintLoop rounds (store m buf ((v ||| 0x80#64).setWidth 8)) (buf + 1) (v >>> 7)
      else (store m buf (v.setWidth 8), buf + 1)

def encodeVarint64 (m : Mem) (buf : Nat) (v : BitVec 64) : Mem × Nat :=
  encodeVarintLoop 10 m buf v

def encodeVarint16 (m : Mem) (buf : Nat) (v : BitVec 16) : Mem × Nat :=
  encodeVarint64 m buf (v.setWidth 64)

def encodeVarint32 (m : Mem) (buf : Nat) (v : BitVec 32) : Mem × Nat :=
  encodeVarint64 m buf (v.setWidth 64)

def encodeVarintInt16 (m : Mem) (buf : Nat) (v : BitVec 16) : Mem × Nat :=
  encodeVarint16 m buf (encodeZigZag16 v)

def encodeVarintInt32 (m : Mem) (buf : Nat) (v : BitVec 32) : Mem × Nat :=
  encodeVarint32 m buf (encodeZigZag32 v)

def encodeVarintInt64 (m : Mem) (buf : Nat) (v : BitVec 64) : Mem × Nat :=
  encodeVarint64 m buf (encodeZigZag64 v)

/-- The loop of `DecodeVarint`: `shift` runs over 0, 7, …, 63, so ten rounds end it. -/
def decodeVarintLoop (m : Mem) (fin : Nat) : Nat → Nat → BitVec 64 → Nat → Decoded (BitVec 64)
  | 0, _, v, buf => ⟨false, some v, buf⟩
  | rounds + 1, shift, v, buf =>
      if shift < 64 ∧ buf < fin then
        let b : BitVec 64 := (m buf).setWidth 64
        if 0x80#64 ≤ b then
          decodeVarintLoop m fin rounds (shift + 7) (v ||| ((b &&& 0x7f#64) <<< shift)) (buf + 1)
        else ⟨true, some (v ||| (b <<< shift)), buf + 1⟩
      else ⟨false, some v, buf⟩

def decodeVarint64 (m : Mem) (buf fin : Nat) : Decoded (BitVec 64) :=
  decodeVarintLoop m fin 10 0 0 buf

def decodeVarint16 (m : Mem) (buf fin : Nat) : Decoded (BitVec 16) :=
  (decodeVarint64 m buf fin).map (·.setWidth 16)

def decodeVarint32 (m : Mem) (buf fin : Nat) : Decoded (BitVec 32) :=
  (decodeVarint64 m buf fin).map (·.setWidth 32)

def decodeVarintInt16 (m : Mem) (buf fin : Nat) : Decoded (BitVec 16) :=
  (decodeVarint64 m buf fin).map fun uv => decodeZigZag16 (uv.setWidth 16)

def decodeVarintInt32 (m : Mem) (buf fin : Nat) : Decoded (BitVec 32) :=
  (decodeVarint64 m buf fin).map fun uv => decodeZigZag32 (uv.setWidth 32)

def decodeVarintInt64 (m : Mem) (buf fin : Nat) : Decoded (BitVec 64) :=
  (decodeVarint64 m buf fin).map decodeZigZag64

/-! ## Strings -/

/-- The length as a varint, then `memcpy` of the bytes. -/
def encodeString (m : Mem) (buf : Nat) (str : Str) : Mem × Nat :=
  let r := encodeVarint64 m buf str.size
  (write r.1 r.2 str.bytes, r.2 + str.bytes.length)

/-- The bound is checked on the sum `buf + len`, in 64-bit pointer arithmetic. -/
def decodeString (m : Mem) (buf fin : Nat) : Decoded StrView :=
  let r := decodeVarint64 m buf fin
  match r.ok, r.value with
  | true, some len =>
      if fin < ptrAdd r.cursor len.toNat then ⟨false, none, r.cursor⟩
      else ⟨true, some ⟨r.cursor, len⟩, ptrAdd r.cursor len.toNat⟩
  | _, _ => ⟨false, none, r.cursor⟩

/-! ## What the encoders write -/

/-- The little-endian bytes of a word. -/
def fixedBytes {w : Nat} (value : BitVec w) (n : Nat) : List Byte :=
  (List.range n).map fun i => (value >>> (8 * i)).setWidth 8

@[simp] theorem fixedBytes_length {w : Nat} (value : BitVec w) (n : Nat) :
    (fixedBytes value n).length = n := by
  simp [fixedBytes]

theorem fixedBytes_succ {w : Nat} (value : BitVec w) (n : Nat) :
    fixedBytes value (n + 1) = fixedBytes value n ++ [(value >>> (8 * n)).setWidth 8] := by
  simp [fixedBytes, List.range_succ]

theorem storeFixed_eq_write {w : Nat} (m : Mem) (buf : Nat) (value : BitVec w) (n : Nat) :
    storeFixed m buf value n = write m buf (fixedBytes value n) := by
  induction n with
  | zero => rfl
  | succ n ih =>
      rw [storeFixed, ih, fixedBytes_succ, write_append, fixedBytes_length]
      rfl

theorem encodeFixed_eq {w : Nat} (n : Nat) (m : Mem) (buf : Nat) (value : BitVec w) :
    encodeFixed n m buf value = (write m buf (fixedBytes value n), buf + n) := by
  rw [encodeFixed, storeFixed_eq_write]

theorem toNat_continued {w : Nat} (hw : 8 ≤ w) (v : BitVec w) :
    ((v ||| 0x80#w).setWidth 8).toNat = v.toNat % 128 + 128 := by
  have hpow : 2 ^ 8 ≤ 2 ^ w := Nat.pow_le_pow_right (by decide) hw
  have hlow : v.toNat % 256 ||| 128 = v.toNat % 128 + 128 := by
    have hfin : ∀ i : Fin 256, i.val ||| 128 = i.val % 128 + 128 := by decide +kernel
    have h := hfin ⟨v.toNat % 256, Nat.mod_lt _ (by decide)⟩
    simp only at h
    omega
  have hflag : (0x80#w).toNat = 128 := by rw [BitVec.toNat_ofNat, Nat.mod_eq_of_lt (by omega)]
  rw [BitVec.toNat_setWidth, BitVec.toNat_or, hflag, Nat.or_mod_two_pow]
  exact hlow

theorem encodeVarintLoop_eq (rounds : Nat) (m : Mem) (buf : Nat) (v : BitVec 64)
    (h : v.toNat < 128 ^ rounds) (hr : 0 < rounds) :
    encodeVarintLoop rounds m buf v =
      (write m buf (Leb128.bytes v.toNat), buf + (Leb128.bytes v.toNat).length) := by
  induction rounds generalizing m buf v with
  | zero => omega
  | succ rounds ih =>
      have hcond : 0x80#64 ≤ v ↔ 128 ≤ v.toNat := by simp [BitVec.le_def]
      by_cases hv : 128 ≤ v.toNat
      · have hshift : (v >>> 7).toNat = v.toNat / 128 := by
          simp [BitVec.toNat_ushiftRight, Nat.shiftRight_eq_div_pow]
        have hrounds : 0 < rounds := by
          rcases Nat.eq_zero_or_pos rounds with rfl | hpos
          · simp only [Nat.zero_add, Nat.pow_one] at h
            omega
          · exact hpos
        have hbyte : (v ||| 0x80#64).setWidth 8 = BitVec.ofNat 8 (v.toNat % 128 + 128) := by
          apply BitVec.eq_of_toNat_eq
          rw [toNat_continued (by decide), BitVec.toNat_ofNat]
          omega
        rw [encodeVarintLoop, if_pos (hcond.mpr hv), Leb128.bytes_of_le hv, ih _ _ _ _ hrounds,
          hshift, hbyte]
        · simp [Nat.add_assoc, Nat.add_comm 1]
        · rw [hshift, Nat.div_lt_iff_lt_mul (by decide), ← Nat.pow_succ]
          exact h
      · have hbyte : v.setWidth 8 = BitVec.ofNat 8 v.toNat := by
          apply BitVec.eq_of_toNat_eq
          simp
        rw [encodeVarintLoop, if_neg (fun hc => hv (hcond.mp hc)), Leb128.bytes_of_lt (by omega),
          hbyte]
        rfl

/-- Ten rounds are enough: the whole shortest base-128 form is written. -/
theorem encodeVarint64_eq (m : Mem) (buf : Nat) (v : BitVec 64) :
    encodeVarint64 m buf v =
      (write m buf (Leb128.bytes v.toNat), buf + (Leb128.bytes v.toNat).length) :=
  encodeVarintLoop_eq 10 m buf v (Nat.lt_trans v.isLt (by decide)) (by decide)

/-- The bytes of an encoded string. -/
def stringBytes (str : Str) : List Byte := Leb128.bytes str.bytes.length ++ str.bytes

theorem encodeString_eq (m : Mem) (buf : Nat) (str : Str) :
    encodeString m buf str = (write m buf (stringBytes str), buf + (stringBytes str).length) := by
  simp only [encodeString, encodeVarint64_eq, Str.toNat_size, stringBytes, write_append,
    List.length_append, Nat.add_assoc]

end XfUtil
