import XfUtil.Coding.Grammar

/-!
# Varints of six types

What the overloads of `EncodeVarint` and `DecodeVarint` have in common: the
unsigned or zigzag number of a value, its base-128 bytes, and that the decoder
wants all of them.
-/

namespace XfUtil

open FlatMemory

/-- The overloads of `EncodeVarint` and `DecodeVarint`. -/
inductive VarintType where
  | uint16
  | uint32
  | uint64
  | int16
  | int32
  | int64
deriving Repr, DecidableEq

namespace VarintType

def width : VarintType → Nat
  | uint16 | int16 => 16
  | uint32 | int32 => 32
  | uint64 | int64 => 64

/-- `MAX_V16_SIZE`, `MAX_V32_SIZE` or `MAX_V64_SIZE`. -/
def maxSize : VarintType → Nat
  | uint16 | int16 => maxV16Size
  | uint32 | int32 => maxV32Size
  | uint64 | int64 => maxV64Size

/-- The unsigned value, or the zigzag value of a signed one. -/
def number : (t : VarintType) → BitVec t.width → Nat
  | uint16, v => BitVec.toNat v
  | uint32, v => BitVec.toNat v
  | uint64, v => BitVec.toNat v
  | int16, v => (encodeZigZag16 v).toNat
  | int32, v => (encodeZigZag32 v).toNat
  | int64, v => (encodeZigZag64 v).toNat

/-- The overload of `EncodeVarint`. -/
def encode : (t : VarintType) → Mem → Nat → BitVec t.width → Mem × Nat
  | uint16 => encodeVarint16
  | uint32 => encodeVarint32
  | uint64 => encodeVarint64
  | int16 => encodeVarintInt16
  | int32 => encodeVarintInt32
  | int64 => encodeVarintInt64

/-- The overload of `DecodeVarint`. -/
def decode : (t : VarintType) → Mem → Nat → Nat → Decoded (BitVec t.width)
  | uint16 => decodeVarint16
  | uint32 => decodeVarint32
  | uint64 => decodeVarint64
  | int16 => decodeVarintInt16
  | int32 => decodeVarintInt32
  | int64 => decodeVarintInt64

/-- The bytes of a value. -/
def bytes (t : VarintType) (v : BitVec t.width) : List Byte := Leb128.bytes (t.number v)

example : int16.number (-2 : BitVec 16) = 3 := rfl

/-! ## Size -/

theorem number_lt (t : VarintType) (v : BitVec t.width) : t.number v < 2 ^ t.width := by
  cases t <;> exact BitVec.isLt _

theorem bytes_length_bounds (t : VarintType) (v : BitVec t.width) :
    1 ≤ (t.bytes v).length ∧ (t.bytes v).length ≤ t.maxSize := by
  have hsize : (t.number v).size ≤ t.width := Nat.size_le.mpr (t.number_lt v)
  rw [bytes, Leb128.bytes_length]
  cases t <;> simp only [width, maxSize, maxV16Size, maxV32Size, maxV64Size] at hsize ⊢ <;> omega

/-! ## Encoding -/

theorem encodeVarint64_setWidth {w : Nat} (hw : w ≤ 64) (m : Mem) (buf : Nat) (v : BitVec w) :
    encodeVarint64 m buf (v.setWidth 64) =
      (write m buf (Leb128.bytes v.toNat), buf + (Leb128.bytes v.toNat).length) := by
  rw [encodeVarint64_eq, BitVec.toNat_setWidth_of_le hw]

theorem encode_eq (t : VarintType) (m : Mem) (buf : Nat) (v : BitVec t.width) :
    t.encode m buf v = (write m buf (t.bytes v), buf + (t.bytes v).length) := by
  cases t with
  | uint16 => exact encodeVarint64_setWidth (by decide) m buf _
  | uint32 => exact encodeVarint64_setWidth (by decide) m buf _
  | uint64 => exact encodeVarint64_eq m buf v
  | int16 => exact encodeVarint64_setWidth (by decide) m buf (encodeZigZag16 v)
  | int32 => exact encodeVarint64_setWidth (by decide) m buf (encodeZigZag32 v)
  | int64 => exact encodeVarint64_eq m buf (encodeZigZag64 v)

/-! ## Decoding -/

theorem map_map {α β γ : Type} (f : α → β) (g : β → γ) (d : Decoded α) :
    (d.map f).map g = d.map fun x => g (f x) := by
  cases d
  simp [Decoded.map, Function.comp_def]

theorem decodeVarintInt16_eq {m : Mem} {buf fin : Nat} (v : BitVec 16)
    (hread : read m buf (Leb128.bytes (encodeZigZag16 v).toNat).length =
      Leb128.bytes (encodeZigZag16 v).toNat)
    (hroom : buf + (Leb128.bytes (encodeZigZag16 v).toNat).length ≤ fin) :
    decodeVarintInt16 m buf fin =
      ⟨true, some v, buf + (Leb128.bytes (encodeZigZag16 v).toNat).length⟩ := by
  have h := congrArg (Decoded.map decodeZigZag16) (decodeVarint16_eq _ hread hroom)
  rw [decodeVarint16, map_map] at h
  rw [decodeVarintInt16, h, Decoded.map, Option.map_some, decodeZigZag16_encodeZigZag16]

theorem decodeVarintInt32_eq {m : Mem} {buf fin : Nat} (v : BitVec 32)
    (hread : read m buf (Leb128.bytes (encodeZigZag32 v).toNat).length =
      Leb128.bytes (encodeZigZag32 v).toNat)
    (hroom : buf + (Leb128.bytes (encodeZigZag32 v).toNat).length ≤ fin) :
    decodeVarintInt32 m buf fin =
      ⟨true, some v, buf + (Leb128.bytes (encodeZigZag32 v).toNat).length⟩ := by
  have h := congrArg (Decoded.map decodeZigZag32) (decodeVarint32_eq _ hread hroom)
  rw [decodeVarint32, map_map] at h
  rw [decodeVarintInt32, h, Decoded.map, Option.map_some, decodeZigZag32_encodeZigZag32]

theorem decodeVarintInt64_eq {m : Mem} {buf fin : Nat} (v : BitVec 64)
    (hread : read m buf (Leb128.bytes (encodeZigZag64 v).toNat).length =
      Leb128.bytes (encodeZigZag64 v).toNat)
    (hroom : buf + (Leb128.bytes (encodeZigZag64 v).toNat).length ≤ fin) :
    decodeVarintInt64 m buf fin =
      ⟨true, some v, buf + (Leb128.bytes (encodeZigZag64 v).toNat).length⟩ := by
  rw [decodeVarintInt64, decodeVarint64_eq _ hread hroom, Decoded.map, Option.map_some,
    decodeZigZag64_encodeZigZag64]

theorem decode_eq (t : VarintType) {m : Mem} {buf fin : Nat} (v : BitVec t.width)
    (hread : read m buf (t.bytes v).length = t.bytes v) (hroom : buf + (t.bytes v).length ≤ fin) :
    t.decode m buf fin = ⟨true, some v, buf + (t.bytes v).length⟩ := by
  cases t with
  | uint16 => exact decodeVarint16_eq v hread hroom
  | uint32 => exact decodeVarint32_eq v hread hroom
  | uint64 => exact decodeVarint64_eq v hread hroom
  | int16 => exact decodeVarintInt16_eq v hread hroom
  | int32 => exact decodeVarintInt32_eq v hread hroom
  | int64 => exact decodeVarintInt64_eq v hread hroom

theorem decode_ok (t : VarintType) (m : Mem) (buf fin : Nat) :
    (t.decode m buf fin).ok = (decodeVarint64 m buf fin).ok := by
  cases t <;> rfl

/-- What is left of an encoding without its last byte is not decoded. -/
theorem decode_cut (t : VarintType) {m : Mem} {buf n : Nat} (v : BitVec t.width)
    (hn : n < (t.bytes v).length) (hread : read m buf n = (t.bytes v).take n) :
    (t.decode m buf (buf + n)).ok = false := by
  obtain ⟨front, last, heq, hfront, -⟩ := Leb128.bytes_shape (t.number v)
  have hbytes : t.bytes v = front ++ [last] := heq
  rw [hbytes, List.length_append, List.length_singleton] at hn
  rw [hbytes, List.take_append_of_le_length (by omega)] at hread
  rw [decode_ok, Bool.eq_false_iff]
  intro hok
  obtain ⟨i, hi, hlast⟩ := decodeVarint64_ok_iff.mp hok
  have hmem : m (buf + i) ∈ read m buf n := by
    rw [read_eq_map]
    exact List.mem_map.mpr ⟨i, List.mem_range.mpr (by omega), rfl⟩
  rw [hread] at hmem
  have hcont := hfront _ (List.mem_of_mem_take hmem)
  exact absurd hcont (Nat.not_le.mpr hlast)

/-- The format of varints: a value of any of the six types is written as one byte for
each seven bits of its unsigned or zigzag value; the same overload reads it back
whatever follows, and reads nothing from a part of it. The zigzag maps are bijections. -/
theorem varint_format :
    (∀ (t : VarintType) (v : BitVec t.width),
      (t.bytes v).length = max 1 (((t.number v).size + 6) / 7) ∧
        1 ≤ (t.bytes v).length ∧ (t.bytes v).length ≤ t.maxSize ∧
        (∀ (m : Mem) (buf : Nat),
          t.encode m buf v = (write m buf (t.bytes v), buf + (t.bytes v).length)) ∧
        (∀ (m : Mem) (buf fin : Nat), read m buf (t.bytes v).length = t.bytes v →
          buf + (t.bytes v).length ≤ fin →
          t.decode m buf fin = ⟨true, some v, buf + (t.bytes v).length⟩) ∧
        ∀ (m : Mem) (buf n : Nat), n < (t.bytes v).length → read m buf n = (t.bytes v).take n →
          (t.decode m buf (buf + n)).ok = false) ∧
      ((∀ v, decodeZigZag16 (encodeZigZag16 v) = v) ∧ ∀ u, encodeZigZag16 (decodeZigZag16 u) = u) ∧
      ((∀ v, decodeZigZag32 (encodeZigZag32 v) = v) ∧ ∀ u, encodeZigZag32 (decodeZigZag32 u) = u) ∧
      (∀ v, decodeZigZag64 (encodeZigZag64 v) = v) ∧
        ∀ u, encodeZigZag64 (decodeZigZag64 u) = u := by
  refine ⟨fun t v => ?_, ⟨decodeZigZag16_encodeZigZag16, encodeZigZag16_decodeZigZag16⟩,
    ⟨decodeZigZag32_encodeZigZag32, encodeZigZag32_decodeZigZag32⟩,
    decodeZigZag64_encodeZigZag64, encodeZigZag64_decodeZigZag64⟩
  obtain ⟨hpos, hmax⟩ := t.bytes_length_bounds v
  exact ⟨Leb128.bytes_length _, hpos, hmax, fun m buf => t.encode_eq m buf v,
    fun m buf fin => t.decode_eq v, fun m buf n => t.decode_cut v⟩

end VarintType

end XfUtil
