import XfUtil.BlockPool.Model
import XfUtil.Coding.Model

/-!
# `BlockBuffer`, `Packer` and `Unpacker`

Every call that may allocate takes `fresh`, the address the allocator answers
if it is asked. `m_block` always points at the back of `m_blocks`, so a packer
keeps the blocks before it (`closed`) and the block itself apart.
-/

namespace XfUtil

open FlatMemory

structure Block where
  buf : Nat
  capacity : BitVec 32
  size : BitVec 32
deriving Repr, DecidableEq

/-- `BlockBuffer::Alloc`: a pool block if the size fits one, else a heap block
of the size rounded up in 32-bit arithmetic. -/
def allocBlock (blockSize size : BitVec 32) (fresh : Nat) : Block :=
  if size ≤ blockSize then ⟨fresh, blockSize, 0⟩
  else ⟨fresh, alignUp size 4096#32, 0⟩

/-- A value of one of the types that `Pack` accepts. Signed integers are
two's-complement words and floating-point numbers their bit patterns. -/
inductive Value (S : Type) where
  | bool (v : Bool)
  | int8 (v : BitVec 8)
  | uint8 (v : BitVec 8)
  | int16 (v : BitVec 16)
  | uint16 (v : BitVec 16)
  | fixed16 (v : BitVec 16)
  | int32 (v : BitVec 32)
  | uint32 (v : BitVec 32)
  | fixed32 (v : BitVec 32)
  | int64 (v : BitVec 64)
  | uint64 (v : BitVec 64)
  | fixed64 (v : BitVec 64)
  | float (v : BitVec 32)
  | double (v : BitVec 64)
  | str (v : S)
deriving Repr, DecidableEq

/-- The overloads of `Unpack` and `UnpackFixed`. -/
inductive Ty where
  | bool | int8 | uint8 | int16 | uint16 | fixed16 | int32 | uint32 | fixed32
  | int64 | uint64 | fixed64 | float | double | str
deriving Repr, DecidableEq

namespace Value

variable {S T : Type}

/-- The overload that reads back a value. -/
def ty : Value S → Ty
  | bool _ => .bool
  | int8 _ => .int8
  | uint8 _ => .uint8
  | int16 _ => .int16
  | uint16 _ => .uint16
  | fixed16 _ => .fixed16
  | int32 _ => .int32
  | uint32 _ => .uint32
  | fixed32 _ => .fixed32
  | int64 _ => .int64
  | uint64 _ => .uint64
  | fixed64 _ => .fixed64
  | float _ => .float
  | double _ => .double
  | str _ => .str

/-- Replace the representation of strings. -/
def map (f : S → T) : Value S → Value T
  | bool v => bool v
  | int8 v => int8 v
  | uint8 v => uint8 v
  | int16 v => int16 v
  | uint16 v => uint16 v
  | fixed16 v => fixed16 v
  | int32 v => int32 v
  | uint32 v => uint32 v
  | fixed32 v => fixed32 v
  | int64 v => int64 v
  | uint64 v => uint64 v
  | fixed64 v => fixed64 v
  | float v => float v
  | double v => double v
  | str v => str (f v)

end Value

/-! ## Packer -/

/-- `written` is an observation, not a field of the source: the number of bytes
the encoders have stored since the current block became current. -/
structure Packer where
  mem : Mem
  blockSize : BitVec 32
  closed : List Block
  block : Block
  ptr : Nat
  written : Nat

namespace Packer

/-- The constructor allocates a first block with `Alloc(1)`. -/
def new (mem : Mem) (blockSize : BitVec 32) (blocks : List Block) (fresh : Nat) : Packer :=
  ⟨mem, blockSize, blocks, allocBlock blockSize 1#32 fresh, fresh, 0⟩

/-- `GetBlocks()` of the buffer. -/
def blocks (p : Packer) : List Block := p.closed ++ [p.block]

/-- `m_block = m_block_buffer->Alloc(size); m_ptr = m_block->buf;` -/
def alloc (p : Packer) (size : BitVec 32) (fresh : Nat) : Packer :=
  { p with
    closed := p.closed ++ [p.block]
    block := allocBlock p.blockSize size fresh
    ptr := fresh
    written := 0 }

/-- Take over an encoder's result and add `n` to the block's 32-bit size. -/
def advance (p : Packer) (r : Mem × Nat) (n : BitVec 32) : Packer :=
  { p with
    mem := r.1
    block := { p.block with size := p.block.size + n }
    ptr := r.2
    written := p.written + (r.2 - p.ptr) }

/-- The common body of the fixed-width overloads: `sizeof` is 64-bit, so the
sum in the check does not wrap. -/
def packBytes {w : Nat} (n : Nat) (p : Packer) (fresh : Nat) (v : BitVec w) : Packer :=
  let p := if p.block.capacity.toNat < p.block.size.toNat + n then
      p.alloc (BitVec.ofNat 32 n) fresh
    else p
  p.advance (encodeFixed n p.mem p.ptr v) (BitVec.ofNat 32 n)

/-- The common body of the varint overloads: the bound is an `int` literal, so
the sum in the check is a 32-bit one. -/
def packVarint (maxSize : Nat) (p : Packer) (fresh : Nat) (v : BitVec 64) : Packer :=
  let p := if p.block.capacity < p.block.size + BitVec.ofNat 32 maxSize then
      p.alloc (BitVec.ofNat 32 maxSize) fresh
    else p
  let r := encodeVarint64 p.mem p.ptr v
  p.advance r (BitVec.ofNat 32 (r.2 - p.ptr))

def packUInt8 (p : Packer) (fresh : Nat) (v : BitVec 8) : Packer := packBytes 1 p fresh v

def packBool (p : Packer) (fresh : Nat) (v : Bool) : Packer :=
  p.packUInt8 fresh (if v then 1 else 0)

def packInt8 (p : Packer) (fresh : Nat) (v : BitVec 8) : Packer := p.packUInt8 fresh v

def packUInt16 (p : Packer) (fresh : Nat) (v : BitVec 16) : Packer :=
  packVarint maxV16Size p fresh (v.setWidth 64)

def packInt16 (p : Packer) (fresh : Nat) (v : BitVec 16) : Packer :=
  p.packUInt16 fresh (encodeZigZag16 v)

def packFixed16 (p : Packer) (fresh : Nat) (v : BitVec 16) : Packer := packBytes 2 p fresh v

def packUInt32 (p : Packer) (fresh : Nat) (v : BitVec 32) : Packer :=
  packVarint maxV32Size p fresh (v.setWidth 64)

def packInt32 (p : Packer) (fresh : Nat) (v : BitVec 32) : Packer :=
  p.packUInt32 fresh (encodeZigZag32 v)

def packFixed32 (p : Packer) (fresh : Nat) (v : BitVec 32) : Packer := packBytes 4 p fresh v

def packUInt64 (p : Packer) (fresh : Nat) (v : BitVec 64) : Packer :=
  packVarint maxV64Size p fresh v

def packInt64 (p : Packer) (fresh : Nat) (v : BitVec 64) : Packer :=
  p.packUInt64 fresh (encodeZigZag64 v)

def packFixed64 (p : Packer) (fresh : Nat) (v : BitVec 64) : Packer := packBytes 8 p fresh v

def packFloat (p : Packer) (fresh : Nat) (v : BitVec 32) : Packer := p.packFixed32 fresh v

def packDouble (p : Packer) (fresh : Nat) (v : BitVec 64) : Packer := p.packFixed64 fresh v

/-- The reservation is a 64-bit sum with the bound of a 16-bit varint, and is
narrowed to 32 bits by the parameter of `Alloc`. -/
def packStr (p : Packer) (fresh : Nat) (v : Str) : Packer :=
  let ns : BitVec 64 := BitVec.ofNat 64 maxV16Size + v.size
  let p := if p.block.capacity.setWidth 64 < p.block.size.setWidth 64 + ns then
      p.alloc (ns.setWidth 32) fresh
    else p
  let r := encodeString p.mem p.ptr v
  p.advance r (BitVec.ofNat 32 (r.2 - p.ptr))

/-- The call of `Pack` or `PackFixed` that a value stands for. -/
def pack (p : Packer) (fresh : Nat) : Value Str → Packer
  | .bool v => p.packBool fresh v
  | .int8 v => p.packInt8 fresh v
  | .uint8 v => p.packUInt8 fresh v
  | .int16 v => p.packInt16 fresh v
  | .uint16 v => p.packUInt16 fresh v
  | .fixed16 v => p.packFixed16 fresh v
  | .int32 v => p.packInt32 fresh v
  | .uint32 v => p.packUInt32 fresh v
  | .fixed32 v => p.packFixed32 fresh v
  | .int64 v => p.packInt64 fresh v
  | .uint64 v => p.packUInt64 fresh v
  | .fixed64 v => p.packFixed64 fresh v
  | .float v => p.packFloat fresh v
  | .double v => p.packDouble fresh v
  | .str v => p.packStr fresh v

end Packer

/-- A call of a packer: the value, and the address the allocator answers if
the call asks for a block. -/
structure PackCall where
  value : Value Str
  fresh : Nat

/-- One call as a machine step; no call is ever disabled. -/
def packStep (p : Packer) (c : PackCall) : Option Packer := some (p.pack c.fresh c.value)

/-! ## Unpacker -/

/-- The address of the literal `""`; it is compared with itself and never read. -/
def emptyLiteral : Nat := 0

structure Unpacker where
  idx : Int
  ptr : Nat
  fin : Nat
deriving Repr, DecidableEq

/-- Outcome of an `Unpack` call. -/
structure Unpacked (α : Type) where
  next : Unpacker
  ok : Bool
  value : Option α
deriving Repr, DecidableEq

def Unpacked.map {α β : Type} (f : α → β) (r : Unpacked α) : Unpacked β :=
  ⟨r.next, r.ok, r.value.map f⟩

/-- The signed overloads return before the conversion when the read fails. -/
def Unpacked.mapOk {α β : Type} (f : α → β) (r : Unpacked α) : Unpacked β :=
  if r.ok then r.map f else ⟨r.next, false, none⟩

namespace Unpacker

/-- `NextBlock()`. -/
def nextBlock (blocks : List Block) (u : Unpacker) : Unpacker × Bool :=
  match blocks[(u.idx + 1).toNat]? with
  | none => (⟨u.idx + 1, emptyLiteral, emptyLiteral⟩, false)
  | some block => (⟨u.idx + 1, block.buf, ptrAdd block.buf block.size.toNat⟩, true)

/-- The constructor: index -1, then `NextBlock()`. -/
def new (blocks : List Block) : Unpacker := (nextBlock blocks ⟨-1, 0, 0⟩).1

/-- The common body of the overloads: at the end of the block move on, once,
then decode. -/
def unpackWith {α : Type} (dec : Nat → Nat → Decoded α) (blocks : List Block) (u : Unpacker) :
    Unpacked α :=
  let decode (u : Unpacker) : Unpacked α :=
    let d := dec u.ptr u.fin
    ⟨{ u with ptr := d.cursor }, d.ok, d.value⟩
  if u.fin ≤ u.ptr then
    match nextBlock blocks u with
    | (u, false) => ⟨u, false, none⟩
    | (u, true) => decode u
  else decode u

variable (mem : Mem) (blocks : List Block) (u : Unpacker)

def unpackUInt8 : Unpacked (BitVec 8) := unpackWith (decodeFixed8 mem) blocks u

def unpackBool : Unpacked Bool := (unpackUInt8 mem blocks u).map (· ≠ 0)

def unpackInt8 : Unpacked (BitVec 8) := unpackUInt8 mem blocks u

def unpackUInt16 : Unpacked (BitVec 16) := unpackWith (decodeVarint16 mem) blocks u

def unpackInt16 : Unpacked (BitVec 16) := (unpackUInt16 mem blocks u).mapOk decodeZigZag16

def unpackFixed16 : Unpacked (BitVec 16) := unpackWith (decodeFixed16 mem) blocks u

def unpackUInt32 : Unpacked (BitVec 32) := unpackWith (decodeVarint32 mem) blocks u

def unpackInt32 : Unpacked (BitVec 32) := (unpackUInt32 mem blocks u).mapOk decodeZigZag32

def unpackFixed32 : Unpacked (BitVec 32) := unpackWith (decodeFixed32 mem) blocks u

def unpackUInt64 : Unpacked (BitVec 64) := unpackWith (decodeVarint64 mem) blocks u

def unpackInt64 : Unpacked (BitVec 64) := (unpackUInt64 mem blocks u).mapOk decodeZigZag64

def unpackFixed64 : Unpacked (BitVec 64) := unpackWith (decodeFixed64 mem) blocks u

def unpackFloat : Unpacked (BitVec 32) := unpackFixed32 mem blocks u

def unpackDouble : Unpacked (BitVec 64) := unpackFixed64 mem blocks u

def unpackStr : Unpacked StrView := unpackWith (decodeString mem) blocks u

/-- The overload that a type stands for. -/
def unpack : Ty → Unpacked (Value StrView)
  | .bool => (unpackBool mem blocks u).map .bool
  | .int8 => (unpackInt8 mem blocks u).map .int8
  | .uint8 => (unpackUInt8 mem blocks u).map .uint8
  | .int16 => (unpackInt16 mem blocks u).map .int16
  | .uint16 => (unpackUInt16 mem blocks u).map .uint16
  | .fixed16 => (unpackFixed16 mem blocks u).map .fixed16
  | .int32 => (unpackInt32 mem blocks u).map .int32
  | .uint32 => (unpackUInt32 mem blocks u).map .uint32
  | .fixed32 => (unpackFixed32 mem blocks u).map .fixed32
  | .int64 => (unpackInt64 mem blocks u).map .int64
  | .uint64 => (unpackUInt64 mem blocks u).map .uint64
  | .fixed64 => (unpackFixed64 mem blocks u).map .fixed64
  | .float => (unpackFloat mem blocks u).map .float
  | .double => (unpackDouble mem blocks u).map .double
  | .str => (unpackStr mem blocks u).map .str

/-- Successive calls with the given types: the outcomes in order, and the
unpacker they leave. -/
def unpackAll : Unpacker → List Ty → List (Bool × Option (Value StrView)) × Unpacker
  | u, [] => ([], u)
  | u, t :: ts =>
      let r := unpack mem blocks u t
      let rest := unpackAll r.next ts
      ((r.ok, r.value) :: rest.1, rest.2)

end Unpacker

end XfUtil
