import XfUtil.Base.Heap
import XfUtil.Base.Machine
import XfUtil.BlockPool.Model

/-!
# `WriteBuffer`

A buffer together with the heap and the pool it allocates from. The pool may have
other users, who take and give back blocks between the calls of the buffer. Every
call that may allocate takes the address that `xmalloc` answers if it is asked.
-/

namespace XfUtil

open FlatMemory

structure WriteBuffer where
  blockSize : BitVec 32
  ptr : Nat
  size : BitVec 32
  usage : BitVec 64
  blocks : List Nat
  bufs : List Nat
deriving Repr, DecidableEq

namespace WriteBuffer

/-- Both constructors; the pool's block size is read once. -/
def new (blockSize : BitVec 32) : WriteBuffer := ⟨blockSize, 0, 0, 0, [], []⟩

/-- `m_ptr += size; m_size -= size;` -/
def bump (b : WriteBuffer) (size : BitVec 32) : WriteBuffer :=
  { b with ptr := ptrAdd b.ptr size.toNat, size := b.size - size }

/-- `m_usage += m_block_size; m_size = m_block_size;` for a block at `ptr`. -/
def refill (b : WriteBuffer) (ptr : Nat) : WriteBuffer :=
  { b with ptr := ptr, usage := b.usage + b.blockSize.setWidth 64, size := b.blockSize }

end WriteBuffer

/-! ## Pool and heap -/

/-- `BlockPool::Alloc`: the block and what it leaves. -/
def poolAlloc (p : BlockPool) (h : Heap) (fresh : Nat) : Option (Nat × BlockPool × Heap) :=
  match p.takeFree with
  | some (block, p') => some (block, p', h)
  | none => (h.malloc p.blockSize.toNat fresh).map fun h' => (fresh, p, h')

/-- `BlockPool::Free`. -/
def poolFree (p : BlockPool) (h : Heap) (block : Nat) : Option (BlockPool × Heap) :=
  match p.putFree block with
  | some p' => some (p', h)
  | none => (h.free block).map fun h' => (p, h')

/-- The first loop of `Clear`; without a pool there must be no blocks. -/
def freeBlocks : Option BlockPool → Heap → List Nat → Option (Option BlockPool × Heap)
  | pool, h, [] => some (pool, h)
  | none, _, _ :: _ => none
  | some p, h, block :: blocks =>
      (poolFree p h block).bind fun r => freeBlocks (some r.1) r.2 blocks

/-- The second loop of `Clear`. -/
def freeBufs : Heap → List Nat → Option Heap
  | h, [] => some h
  | h, buf :: bufs => (h.free buf).bind fun h' => freeBufs h' bufs

/-! ## The system -/

structure System where
  buffer : WriteBuffer
  /-- `*m_block_pool`, if the buffer has a pool. -/
  pool : Option BlockPool
  heap : Heap
  /-- Ghost: the blocks that other users of the pool hold. -/
  others : List Nat
  /-- Ghost: the allocations that `bufs` points to. -/
  bufRegions : List Region
  /-- Ghost: what `Write` has returned since the last `Clear`, the latest first. -/
  returned : List Region
deriving Repr, DecidableEq

namespace System

/-- A new buffer over a heap in which only `reserved` is in use. -/
def new (blockSize : BitVec 32) (pool : Option BlockPool) (reserved : List Region) : System :=
  ⟨WriteBuffer.new blockSize, pool, ⟨reserved, []⟩, [], [], []⟩

/-- Return the next `size` bytes of the current block. -/
def cut (s : System) (size : BitVec 32) : System :=
  { s with
    buffer := s.buffer.bump size
    returned := (s.buffer.ptr, size.toNat) :: s.returned }

/-- An allocation of `size` bytes at `buf` that goes to `m_bufs`. -/
def pushBuf (s : System) (buf : Nat) (size : BitVec 32) (heap : Heap) : System :=
  { s with
    buffer := { s.buffer with bufs := s.buffer.bufs ++ [buf] }
    heap := heap
    bufRegions := s.bufRegions ++ [(buf, size.toNat)] }

def largeWrite (s : System) (size : BitVec 32) (fresh : Nat) : Option System :=
  if size > s.buffer.blockSize / 2 then
    (s.heap.malloc size.toNat fresh).map fun heap =>
      let s := s.pushBuf fresh size heap
      { s with
        buffer := { s.buffer with usage := s.buffer.usage + size.setWidth 64 }
        returned := (fresh, size.toNat) :: s.returned }
  else
    match s.pool with
    | some p =>
        (poolAlloc p s.heap fresh).map fun r =>
          let b := { s.buffer with blocks := s.buffer.blocks ++ [r.1] }
          let s := { s with buffer := b.refill r.1, pool := some r.2.1, heap := r.2.2 }
          s.cut size
    | none =>
        -- The allocation has the size of the request, the block is accounted in full.
        (s.heap.malloc size.toNat fresh).map fun heap =>
          let s := s.pushBuf fresh size heap
          let s := { s with buffer := s.buffer.refill fresh }
          s.cut size

def write (s : System) (size : BitVec 32) (fresh : Nat) : Option System :=
  if size ≤ s.buffer.size then some (s.cut size) else s.largeWrite size fresh

def clear (s : System) : Option System :=
  (freeBlocks s.pool s.heap s.buffer.blocks).bind fun r =>
    (freeBufs r.2 s.buffer.bufs).map fun heap =>
      { s with
        buffer := { s.buffer with ptr := 0, size := 0, usage := 0, blocks := [], bufs := [] }
        pool := r.1
        heap := heap
        bufRegions := []
        returned := [] }

/-- Calls of the buffer, and of the pool by its other users. -/
inductive Op where
  | write (size : BitVec 32) (fresh : Nat)
  | clear
  | alloc (fresh : Nat)
  | free (block : Nat)
deriving Repr, DecidableEq

/-- One call; `none` if the allocator cannot give the answer or nothing is there to free. -/
def step : Machine.Step System Op
  | s, .write size fresh => s.write size fresh
  | s, .clear => s.clear
  | s, .alloc fresh =>
      s.pool.bind fun p => (poolAlloc p s.heap fresh).map fun r =>
        { s with pool := some r.2.1, heap := r.2.2, others := r.1 :: s.others }
  | s, .free block =>
      if block ∈ s.others then
        s.pool.bind fun p => (poolFree p s.heap block).map fun r =>
          { s with pool := some r.1, heap := r.2, others := s.others.erase block }
      else none

/-- The allocations the buffer has made since the last `Clear`. -/
def owned (s : System) : List Region :=
  s.buffer.blocks.map (fun block => (block, s.buffer.blockSize.toNat)) ++ s.bufRegions

/-- Memory is returned from allocations of the buffer's own, no byte twice, and
`Usage()` is their size. -/
structure Sound (s : System) : Prop where
  inside : ∀ q ∈ s.returned, ∃ r ∈ s.owned, Region.Within q r
  apart : s.returned.Pairwise Region.Apart
  usage : s.buffer.usage.toNat = Region.total s.owned

theorem new_sound (blockSize : BitVec 32) (pool : Option BlockPool) (reserved : List Region) :
    (new blockSize pool reserved).Sound :=
  ⟨by simp [new], by simp [new], rfl⟩

end System

end XfUtil
