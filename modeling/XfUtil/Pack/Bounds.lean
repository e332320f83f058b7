import XfUtil.Base.Machine
import XfUtil.Coding.Inverse
import XfUtil.Pack.Model

/-!
# What a packer reserves and what it writes

Every overload of `Pack` makes one of three checks, allocates if the check
fails, and hands the cursor to an encoder. Reservation and payload are separated
here, so that the bound on a block becomes a comparison of the two.
-/

namespace XfUtil

open FlatMemory

/-! ## Reservations -/

/-- The check an overload makes before it writes. -/
inductive Reservation where
  | bytes (n : Nat)
  | varint (maxSize : Nat)
  | str (size : BitVec 64)

namespace Reservation

/-- The check finds too little room left in the block. -/
def Full (b : Block) : Reservation → Prop
  | bytes n => b.capacity.toNat < b.size.toNat + n
  | varint n => b.capacity < b.size + BitVec.ofNat 32 n
  | str size =>
      b.capacity.setWidth 64 < b.size.setWidth 64 + (BitVec.ofNat 64 maxV16Size + size)

instance (b : Block) (r : Reservation) : Decidable (r.Full b) := by
  cases r <;> unfold Full <;> infer_instance

/-- The size asked of `Alloc` when the block is full. -/
def request : Reservation → BitVec 32
  | bytes n => BitVec.ofNat 32 n
  | varint n => BitVec.ofNat 32 n
  | str size => (BitVec.ofNat 64 maxV16Size + size).setWidth 32

end Reservation

namespace Value

/-- The check made for a value. -/
def reservation : Value Str → Reservation
  | bool _ | int8 _ | uint8 _ => .bytes 1
  | fixed16 _ => .bytes 2
  | fixed32 _ | float _ => .bytes 4
  | fixed64 _ | double _ => .bytes 8
  | int16 _ | uint16 _ => .varint maxV16Size
  | int32 _ | uint32 _ => .varint maxV32Size
  | int64 _ | uint64 _ => .varint maxV64Size
  | str v => .str v.size

/-- The bytes its encoder writes. -/
def payload : Value Str → List Byte
  | bool v => fixedBytes (if v then 1#8 else 0#8) 1
  | int8 v | uint8 v => fixedBytes v 1
  | fixed16 v => fixedBytes v 2
  | fixed32 v | float v => fixedBytes v 4
  | fixed64 v | double v => fixedBytes v 8
  | int16 v => Leb128.bytes (encodeZigZag16 v).toNat
  | uint16 v => Leb128.bytes v.toNat
  | int32 v => Leb128.bytes (encodeZigZag32 v).toNat
  | uint32 v => Leb128.bytes v.toNat
  | int64 v => Leb128.bytes (encodeZigZag64 v).toNat
  | uint64 v => Leb128.bytes v.toNat
  | str v => stringBytes v

theorem payload_pos (v : Value Str) : 0 < v.payload.length := by
  cases v <;> simp [payload, stringBytes, Leb128.bytes_length_pos]

end Value

namespace Packer

/-- The block the call writes to: the current one, or a new one if it is full. -/
def room (p : Packer) (r : Reservation) (fresh : Nat) : Packer :=
  if r.Full p.block then p.alloc r.request fresh else p

/-- Bytes stored at the cursor and accounted to the block. -/
def emit (p : Packer) (bs : List Byte) : Packer :=
  { p with
    mem := write p.mem p.ptr bs
    block := { p.block with size := p.block.size + BitVec.ofNat 32 bs.length }
    ptr := p.ptr + bs.length
    written := p.written + bs.length }

theorem advance_eq_emit (p : Packer) (bs : List Byte) :
    p.advance (write p.mem p.ptr bs, p.ptr + bs.length) (BitVec.ofNat 32 bs.length) =
      p.emit bs := by
  simp [advance, emit]

theorem packBytes_eq {w : Nat} (n : Nat) (p : Packer) (fresh : Nat) (v : BitVec w) :
    packBytes n p fresh v = (p.room (.bytes n) fresh).emit (fixedBytes v n) := by
  rw [packBytes, encodeFixed_eq, ← advance_eq_emit, fixedBytes_length]
  rfl

theorem packVarint_eq (n : Nat) (p : Packer) (fresh : Nat) (v : BitVec 64) :
    packVarint n p fresh v = (p.room (.varint n) fresh).emit (Leb128.bytes v.toNat) := by
  rw [packVarint, encodeVarint64_eq, ← advance_eq_emit, Nat.add_sub_cancel_left]
  rfl

theorem packStr_eq (p : Packer) (fresh : Nat) (v : Str) :
    p.packStr fresh v = (p.room (.str v.size) fresh).emit (stringBytes v) := by
  rw [packStr, encodeString_eq, ← advance_eq_emit, Nat.add_sub_cancel_left]
  rfl

theorem packVarint_narrow_eq {w : Nat} (hw : w ≤ 64) (n : Nat) (p : Packer) (fresh : Nat)
    (v : BitVec w) :
    packVarint n p fresh (v.setWidth 64) =
      (p.room (.varint n) fresh).emit (Leb128.bytes v.toNat) := by
  rw [packVarint_eq, BitVec.toNat_setWidth_of_le hw]

/-- Every overload reserves and then emits the payload. -/
theorem pack_eq (p : Packer) (fresh : Nat) (v : Value Str) :
    p.pack fresh v = (p.room v.reservation fresh).emit v.payload := by
  cases v with
  | bool v => exact packBytes_eq 1 p fresh _
  | int8 v => exact packBytes_eq 1 p fresh v
  | uint8 v => exact packBytes_eq 1 p fresh v
  | fixed16 v => exact packBytes_eq 2 p fresh v
  | fixed32 v => exact packBytes_eq 4 p fresh v
  | fixed64 v => exact packBytes_eq 8 p fresh v
  | float v => exact packBytes_eq 4 p fresh v
  | double v => exact packBytes_eq 8 p fresh v
  | int16 v => exact packVarint_narrow_eq (by decide) maxV16Size p fresh _
  | uint16 v => exact packVarint_narrow_eq (by decide) maxV16Size p fresh v
  | int32 v => exact packVarint_narrow_eq (by decide) maxV32Size p fresh _
  | uint32 v => exact packVarint_narrow_eq (by decide) maxV32Size p fresh v
  | int64 v => exact packVarint_eq maxV64Size p fresh _
  | uint64 v => exact packVarint_eq maxV64Size p fresh v
  | str v => exact packStr_eq p fresh v

/-! ## Capacities -/

theorem allocBlock_pool {blockSize n : BitVec 32} (fresh : Nat) (h : n.toNat ≤ blockSize.toNat) :
    allocBlock blockSize n fresh = ⟨fresh, blockSize, 0⟩ := by
  rw [allocBlock, if_pos (BitVec.le_def.mpr h)]

theorem allocBlock_heap {blockSize n : BitVec 32} (fresh : Nat) (h : blockSize.toNat < n.toNat) :
    (allocBlock blockSize n fresh).capacity.toNat =
      (n.toNat + 4095) % 2 ^ 32 / 4096 * 4096 := by
  have hle : ¬ n ≤ blockSize := by rw [BitVec.le_def]; omega
  have halign : (4096#32 : BitVec 32) = BitVec.twoPow 32 12 := by decide
  rw [allocBlock, if_neg hle, halign]
  exact alignUp_twoPow n (by decide)

@[simp] theorem allocBlock_size (blockSize n : BitVec 32) (fresh : Nat) :
    (allocBlock blockSize n fresh).size = 0#32 := by
  unfold allocBlock
  split <;> rfl

@[simp] theorem allocBlock_buf (blockSize n : BitVec 32) (fresh : Nat) :
    (allocBlock blockSize n fresh).buf = fresh := by
  unfold allocBlock
  split <;> rfl

/-- No capacity comes within one alignment unit of the end of 32 bits. -/
theorem allocBlock_capacity_le {blockSize : BitVec 32} (hB : BlockPool.accepts blockSize = true)
    (n : BitVec 32) (fresh : Nat) :
    (allocBlock blockSize n fresh).capacity.toNat ≤ 2 ^ 32 - 4096 := by
  by_cases h : n.toNat ≤ blockSize.toNat
  · rw [allocBlock_pool fresh h]
    exact BlockPool.accepts_le hB
  · rw [allocBlock_heap fresh (by omega)]
    omega

/-! ## The bound -/

/-- The current block holds what was written to it: the size is within the
capacity, counts the bytes stored, and places the cursor. -/
structure InBounds (p : Packer) : Prop where
  size_le : p.block.size.toNat ≤ p.block.capacity.toNat
  size_eq : p.block.size.toNat = p.written
  ptr_eq : p.ptr = p.block.buf + p.block.size.toNat

/-- Facts about the packer that hold whatever is written. -/
structure Sized (p : Packer) : Prop where
  accepted : BlockPool.accepts p.blockSize = true
  capacity_le : p.block.capacity.toNat ≤ 2 ^ 32 - 4096

@[simp] theorem emit_blockSize (p : Packer) (bs : List Byte) :
    (p.emit bs).blockSize = p.blockSize := rfl

@[simp] theorem room_blockSize (p : Packer) (r : Reservation) (fresh : Nat) :
    (p.room r fresh).blockSize = p.blockSize := by
  unfold room
  split <;> rfl

theorem Sized.new {blockSize : BitVec 32} (hB : BlockPool.accepts blockSize = true) (mem : Mem)
    (blocks : List Block) (fresh : Nat) : Sized (new mem blockSize blocks fresh) :=
  ⟨hB, allocBlock_capacity_le hB 1#32 fresh⟩

theorem InBounds.new (mem : Mem) (blockSize : BitVec 32) (blocks : List Block) (fresh : Nat) :
    InBounds (new mem blockSize blocks fresh) := by
  constructor <;> simp [Packer.new]

theorem Sized.room {p : Packer} (h : Sized p) (r : Reservation) (fresh : Nat) :
    Sized (p.room r fresh) := by
  unfold Packer.room
  split
  · exact ⟨h.accepted, allocBlock_capacity_le h.accepted _ fresh⟩
  · exact h

theorem InBounds.room {p : Packer} (h : InBounds p) (r : Reservation) (fresh : Nat) :
    InBounds (p.room r fresh) := by
  unfold Packer.room
  split
  · constructor <;> simp [alloc]
  · exact h

theorem Sized.emit {p : Packer} (h : Sized p) (bs : List Byte) : Sized (p.emit bs) :=
  ⟨h.accepted, h.capacity_le⟩

theorem Sized.pack {p : Packer} (h : Sized p) (fresh : Nat) (v : Value Str) :
    Sized (p.pack fresh v) := by
  rw [pack_eq]
  exact (h.room _ fresh).emit _

/-- An emission keeps the bound exactly when its bytes fit what is left. -/
theorem inBounds_emit_iff {p : Packer} (h : InBounds p) (hs : Sized p) (bs : List Byte) :
    InBounds (p.emit bs) ↔ p.block.size.toNat + bs.length ≤ p.block.capacity.toNat := by
  have hcap := hs.capacity_le
  have hsum : (p.block.size + BitVec.ofNat 32 bs.length).toNat =
      (p.block.size.toNat + bs.length) % 2 ^ 32 := by
    rw [BitVec.toNat_add, BitVec.toNat_ofNat, Nat.add_mod_mod]
  have heq := h.size_eq
  have hptr := h.ptr_eq
  constructor
  · intro h'
    have hle := h'.size_le
    have hcount := h'.size_eq
    simp only [Packer.emit, hsum] at hle hcount
    omega
  · intro hroom
    constructor <;> simp only [Packer.emit, hsum] <;> omega

/-! ## When a call keeps the bound -/

/-- The string of `n` bytes with its length prefix goes where it was reserved:
the three bytes counted for the prefix are enough (`n < 2^21`), or the current
block has room for all of it, or a block is allocated whose 32-bit size does not
wrap and whose slack takes the rest of the prefix. -/
def StrFits (blockSize : BitVec 32) (b : Block) (n : Nat) : Prop :=
  n < 2 ^ 21 ∨
    b.size.toNat + (Leb128.bytes n).length + n ≤ b.capacity.toNat ∨
    (b.capacity.toNat < b.size.toNat + 3 + n ∧ 3 + n ≤ 2 ^ 32 - 4096 ∧
      ((Leb128.bytes n).length + n ≤ blockSize.toNat ∨
        (Leb128.bytes n).length ≤ 3 + (4096 - (3 + n) % 4096) % 4096))

instance (blockSize : BitVec 32) (b : Block) (n : Nat) : Decidable (StrFits blockSize b n) :=
  inferInstanceAs (Decidable (_ ∨ _ ∨ _))

/-- Only strings can break the bound. -/
def Fits (p : Packer) (c : PackCall) : Prop :=
  match c.value with
  | .str v => StrFits p.blockSize p.block v.bytes.length
  | _ => True

theorem varint_length_le {w k : Nat} (v : BitVec w) (h : 2 ^ w ≤ 128 ^ (k + 1)) :
    (Leb128.bytes v.toNat).length ≤ k + 1 :=
  Leb128.bytes_length_le (Nat.lt_of_lt_of_le v.isLt h)

/-- A reservation of at most ten bytes, stated in natural numbers, leaves room
for as many bytes. -/
theorem room_of_full_iff {p : Packer} (hs : Sized p) {r : Reservation} {n : Nat} (hn : n ≤ 10)
    (hfull : r.Full p.block ↔ p.block.capacity.toNat < p.block.size.toNat + n)
    (hreq : r.request = BitVec.ofNat 32 n) (fresh : Nat) {k : Nat} (hk : k ≤ n) :
    (p.room r fresh).block.size.toNat + k ≤ (p.room r fresh).block.capacity.toNat := by
  have hblock := (BlockPool.accepts_iff p.blockSize).mp hs.accepted
  unfold Packer.room
  split
  · have hsmall : (BitVec.ofNat 32 n).toNat ≤ p.blockSize.toNat := by
      rw [BitVec.toNat_ofNat]
      omega
    simp only [alloc, hreq, allocBlock_pool fresh hsmall]
    simp only [BitVec.ofNat_eq_ofNat, BitVec.toNat_ofNat, Nat.zero_mod]
    omega
  · rename_i hnot
    rw [hfull] at hnot
    omega

theorem room_bytes {p : Packer} (hs : Sized p) {n : Nat} (hn : n ≤ 10) (fresh : Nat) {k : Nat}
    (hk : k ≤ n) : (p.room (.bytes n) fresh).block.size.toNat + k ≤
      (p.room (.bytes n) fresh).block.capacity.toNat :=
  room_of_full_iff hs hn Iff.rfl rfl fresh hk

/-- The 32-bit sum of the varint check does not wrap, because no capacity comes
near the end of 32 bits. -/
theorem room_varint {p : Packer} (h : InBounds p) (hs : Sized p) {n : Nat} (hn : n ≤ 10)
    (fresh : Nat) {k : Nat} (hk : k ≤ n) : (p.room (.varint n) fresh).block.size.toNat + k ≤
      (p.room (.varint n) fresh).block.capacity.toNat := by
  have hle := h.size_le
  have hcap := hs.capacity_le
  refine room_of_full_iff hs hn ?_ rfl fresh hk
  simp only [Reservation.Full, BitVec.lt_def, BitVec.toNat_add, BitVec.toNat_ofNat]
  rw [Nat.mod_eq_of_lt (show n < 2 ^ 32 by omega), Nat.mod_eq_of_lt (by omega)]

/-- The string check in natural numbers, wraps included. -/
theorem full_str_iff (b : Block) (v : Str) :
    (Reservation.str v.size).Full b ↔
      b.capacity.toNat < (b.size.toNat + (3 + v.bytes.length)) % 2 ^ 64 := by
  simp only [Reservation.Full, BitVec.lt_def, BitVec.toNat_add, Str.toNat_size, maxV16Size]
  rw [BitVec.toNat_setWidth_of_le (by decide), BitVec.toNat_setWidth_of_le (by decide),
    BitVec.toNat_ofNat, Nat.add_mod_mod, Nat.mod_eq_of_lt (by decide : 3 < 2 ^ 64)]

theorem request_str (v : Str) :
    (Reservation.str v.size).request.toNat = (3 + v.bytes.length) % 2 ^ 32 := by
  rw [Reservation.request, BitVec.toNat_setWidth, BitVec.toNat_add, Str.toNat_size, maxV16Size,
    BitVec.toNat_ofNat, Nat.mod_eq_of_lt (by decide : 3 < 2 ^ 64),
    Nat.mod_mod_of_dvd _ (by decide)]

/-- The length prefix takes three bytes below `2^21` and at most five below `2^32`. -/
theorem lengthPrefix_bounds (n : Nat) :
    0 < (Leb128.bytes n).length ∧ ((Leb128.bytes n).length ≤ 3 ↔ n < 2 ^ 21) ∧
      (n < 2 ^ 32 → (Leb128.bytes n).length ≤ 5) := by
  refine ⟨Leb128.bytes_length_pos n, Leb128.bytes_length_le_iff n 2, fun h => ?_⟩
  exact Leb128.bytes_length_le (k := 4) (Nat.lt_of_lt_of_le h (by decide))

/-- The string fits where it is written exactly when `StrFits` says so. -/
theorem room_str_iff {p : Packer} (h : InBounds p) (hs : Sized p) (fresh : Nat) (v : Str) :
    (p.room (.str v.size) fresh).block.size.toNat + (stringBytes v).length ≤
        (p.room (.str v.size) fresh).block.capacity.toNat ↔
      StrFits p.blockSize p.block v.bytes.length := by
  have hle := h.size_le
  have hcap := hs.capacity_le
  have hB := BlockPool.accepts_le hs.accepted
  obtain ⟨_, hdvd⟩ := (BlockPool.accepts_iff p.blockSize).mp hs.accepted
  have hroomcap := (hs.room (.str v.size) fresh).capacity_le
  have hlen : (stringBytes v).length = (Leb128.bytes v.bytes.length).length + v.bytes.length := by
    simp [stringBytes]
  obtain ⟨hpos, hthree, hfive⟩ := lengthPrefix_bounds v.bytes.length
  rw [hlen]
  by_cases hbig : v.bytes.length < 2 ^ 32
  · have hfive' := hfive hbig
    have hsum : (p.block.size.toNat + (3 + v.bytes.length)) % 2 ^ 64 =
        p.block.size.toNat + (3 + v.bytes.length) := Nat.mod_eq_of_lt (by omega)
    by_cases hfull : (Reservation.str v.size).Full p.block
    · have hreq := request_str v
      rw [Packer.room, if_pos hfull]
      rw [full_str_iff, hsum] at hfull
      simp only [alloc, allocBlock_size, BitVec.toNat_ofNat, Nat.zero_mod, Nat.zero_add]
      by_cases hpool : (Reservation.str v.size).request.toNat ≤ p.blockSize.toNat
      · rw [allocBlock_pool fresh hpool]
        dsimp only
        unfold StrFits
        omega
      · rw [allocBlock_heap fresh (by omega)]
        unfold StrFits
        omega
    · rw [Packer.room, if_neg hfull]
      rw [full_str_iff, hsum] at hfull
      unfold StrFits
      omega
  · -- A string of 4 GiB or more fits no block.
    unfold StrFits
    omega

/-- One call keeps the bound exactly when it meets `Fits`. -/
theorem inBounds_pack_iff {p : Packer} (h : InBounds p) (hs : Sized p) (c : PackCall) :
    InBounds (p.pack c.fresh c.value) ↔ Fits p c := by
  rw [pack_eq, inBounds_emit_iff (h.room _ _) (hs.room _ _)]
  obtain ⟨value, fresh⟩ := c
  cases value with
  | str v => exact room_str_iff h hs fresh v
  | bool v => exact iff_of_true (room_bytes hs (by decide) fresh (by simp [Value.payload])) trivial
  | int8 v => exact iff_of_true (room_bytes hs (by decide) fresh (by simp [Value.payload])) trivial
  | uint8 v => exact iff_of_true (room_bytes hs (by decide) fresh (by simp [Value.payload])) trivial
  | fixed16 v =>
      exact iff_of_true (room_bytes hs (by decide) fresh (by simp [Value.payload])) trivial
  | fixed32 v =>
      exact iff_of_true (room_bytes hs (by decide) fresh (by simp [Value.payload])) trivial
  | fixed64 v =>
      exact iff_of_true (room_bytes hs (by decide) fresh (by simp [Value.payload])) trivial
  | float v =>
      exact iff_of_true (room_bytes hs (by decide) fresh (by simp [Value.payload])) trivial
  | double v =>
      exact iff_of_true (room_bytes hs (by decide) fresh (by simp [Value.payload])) trivial
  | int16 v =>
      exact iff_of_true (room_varint h hs (by decide) fresh
        (varint_length_le (k := 2) _ (by decide))) trivial
  | uint16 v =>
      exact iff_of_true (room_varint h hs (by decide) fresh
        (varint_length_le (k := 2) _ (by decide))) trivial
  | int32 v =>
      exact iff_of_true (room_varint h hs (by decide) fresh
        (varint_length_le (k := 4) _ (by decide))) trivial
  | uint32 v =>
      exact iff_of_true (room_varint h hs (by decide) fresh
        (varint_length_le (k := 4) _ (by decide))) trivial
  | int64 v =>
      exact iff_of_true (room_varint h hs (by decide) fresh
        (varint_length_le (k := 9) _ (by decide))) trivial
  | uint64 v =>
      exact iff_of_true (room_varint h hs (by decide) fresh
        (varint_length_le (k := 9) _ (by decide))) trivial

/-- Along any sequence of calls the bound holds after each of them exactly when
every call meets `Fits` in the state it starts from. -/
theorem inBounds_throughout_iff {blockSize : BitVec 32}
    (hB : BlockPool.accepts blockSize = true) (mem : Mem) (blocks : List Block) (fresh : Nat)
    (calls : List PackCall) :
    Machine.Throughout packStep InBounds (new mem blockSize blocks fresh) calls ↔
      Machine.StepsMeet packStep Fits (new mem blockSize blocks fresh) calls := by
  refine Machine.throughout_iff_stepsMeet InBounds Sized (InBounds.new mem blockSize blocks fresh)
    (Sized.new hB mem blocks fresh) (fun t c _ _ => ⟨_, rfl⟩) ?_ ?_ calls
  · intro t c u ht hs hstep
    cases hstep
    exact inBounds_pack_iff ht hs c
  · intro t c u _ hs hstep _
    cases hstep
    exact hs.pack c.fresh c.value

/-- Strings of 300 and 5000 bytes with a number between them: the second one has no room in the
block of the first and gets one of the heap. -/
def twoStrings : List PackCall :=
  [⟨.str ⟨List.replicate 300 0x61#8, by rw [List.length_replicate]; decide⟩, 0⟩, ⟨.uint32 7, 0⟩,
    ⟨.str ⟨List.replicate 5000 0x62#8, by rw [List.length_replicate]; decide⟩, 65536⟩]

theorem inBounds_throughout_iff_twoStrings :
    Machine.Throughout packStep InBounds (new (fun _ => 0) 4096#32 [] 8192) twoStrings := by
  refine (inBounds_throughout_iff (by decide) (fun _ => 0) [] 8192 twoStrings).mpr ?_
  intro pre c post hcalls p _
  have hc : c ∈ twoStrings := by
    rw [hcalls]
    exact List.mem_append_right pre List.mem_cons_self
  simp only [twoStrings, List.mem_cons, List.not_mem_nil, or_false] at hc
  rcases hc with rfl | rfl | rfl
  · exact Or.inl (by rw [List.length_replicate]; decide)
  · trivial
  · exact Or.inl (by rw [List.length_replicate]; decide)

/-- A string of `2^21 + 4093` bytes: three bytes are reserved for a length
prefix of four, and the reservation is a multiple of 4096 already. -/
theorem overrun_of_long_string :
    BlockPool.accepts 4096#32 = true ∧
      ¬ Machine.Throughout packStep InBounds (new (fun _ => 0) 4096#32 [] 8192)
        [⟨.str ⟨List.replicate 2101245 0#8, by rw [List.length_replicate]; decide⟩, 65536⟩] := by
  refine ⟨by decide, fun h => ?_⟩
  have hb := h _ List.prefix_rfl _ rfl
  rw [inBounds_pack_iff (InBounds.new _ _ _ _) (Sized.new (by decide) _ _ _)
    ⟨.str ⟨List.replicate 2101245 0#8, by rw [List.length_replicate]; decide⟩, 65536⟩] at hb
  have hlong := Leb128.lt_bytes_length (n := 2101245) (k := 2) (by decide)
  simp only [Fits, StrFits, List.length_replicate, new, allocBlock_size, BitVec.toNat_ofNat] at hb
  have hcap : (allocBlock 4096#32 1#32 8192).capacity.toNat = 4096 := by decide
  omega

end Packer

end XfUtil
