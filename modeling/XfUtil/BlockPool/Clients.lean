import XfUtil.BlockBuffer.Provenance
import XfUtil.BlockPool.Accounts
import XfUtil.WriteBuffer.PoolBacked

/-!
# The buffers on one pool

Any number of `WriteBuffer`s and `BlockBuffer`s share a pool and a heap; their calls
come in any order. Each call is that of the buffer alone, on the pool and the heap as
the others have left them.
-/

namespace XfUtil

open FlatMemory

/-- A buffer with the memory it has: a `WriteBuffer` with its allocations and what it has
returned, as in `System`, or the blocks of a `BlockBuffer`. -/
inductive Client where
  | writeBuffer (buffer : WriteBuffer) (bufRegions returned : List Region)
  | blockBuffer (blocks : List Block)
deriving Repr, DecidableEq

/-- The heap block of a `BlockBuffer`; one of no bytes has an address of its own all the same. -/
def Block.region (b : Block) : Region := (b.buf, max 1 b.capacity.toNat)

/-! ## The calls of a buffer -/

/-- A `WriteBuffer` that is alone on the pool. -/
def BlockPool.alone (p : BlockPool) (h : Heap) (b : WriteBuffer) (rs returned : List Region) :
    System :=
  ⟨b, some p, h, [], rs, returned⟩

/-- `BlockBuffer::Alloc`. -/
def BlockPool.allocBlock (p : BlockPool) (h : Heap) (size : BitVec 32) (fresh : Nat) :
    Option (Block × BlockPool × Heap) :=
  if size ≤ p.blockSize then
    (poolAlloc p h fresh).map fun r => (XfUtil.allocBlock p.blockSize size r.1, r.2)
  else
    let block := XfUtil.allocBlock p.blockSize size fresh
    (h.malloc block.region.2 fresh).map fun h' => (block, p, h')

/-- The loop of `BlockBuffer::Free`. -/
def freeHeld : BlockPool → Heap → List Block → Option (BlockPool × Heap)
  | p, h, [] => some (p, h)
  | p, h, block :: blocks =>
      if block.capacity = p.blockSize then
        (poolFree p h block.buf).bind fun r => freeHeld r.1 r.2 blocks
      else (h.free block.buf).bind fun h' => freeHeld p h' blocks

/-- `WriteBuffer::Clear` and `BlockBuffer::Free`. -/
def Client.release (p : BlockPool) (h : Heap) : Client → Option (Client × BlockPool × Heap)
  | .writeBuffer b rs returned =>
      (p.alone h b rs returned).clear.bind fun t =>
        t.pool.map fun p' => (.writeBuffer t.buffer t.bufRegions t.returned, p', t.heap)
  | .blockBuffer blocks => (freeHeld p h blocks).map fun r => (.blockBuffer [], r)

/-! ## The system -/

structure PoolClients where
  pool : BlockPool
  heap : Heap
  clients : List Client
deriving Repr, DecidableEq

namespace PoolClients

inductive Call where
  | newWriteBuffer
  | newBlockBuffer
  | write (i : Nat) (size : BitVec 32) (fresh : Nat)
  | alloc (i : Nat) (size : BitVec 32) (fresh : Nat)
  /-- `Clear` or `Free`. -/
  | release (i : Nat)
  | destroy (i : Nat)
deriving Repr, DecidableEq

def start (pool : BlockPool) (reserved : List Region) : PoolClients := ⟨pool, ⟨reserved, []⟩, []⟩

def add (w : PoolClients) (c : Client) : PoolClients := { w with clients := w.clients ++ [c] }

/-- The buffer `i` becomes `c`, and the pool and the heap change. -/
def put (w : PoolClients) (i : Nat) (c : Client) (p : BlockPool) (h : Heap) : PoolClients :=
  ⟨p, h, w.clients.set i c⟩

def step : Machine.Step PoolClients Call
  | w, .newWriteBuffer => some (w.add (.writeBuffer (WriteBuffer.new w.pool.blockSize) [] []))
  | w, .newBlockBuffer => some (w.add (.blockBuffer []))
  | w, .write i size fresh =>
      match w.clients[i]? with
      | some (.writeBuffer b rs returned) =>
          ((w.pool.alone w.heap b rs returned).write size fresh).bind fun t =>
            t.pool.map fun p => w.put i (.writeBuffer t.buffer t.bufRegions t.returned) p t.heap
      | _ => none
  | w, .alloc i size fresh =>
      match w.clients[i]? with
      | some (.blockBuffer blocks) =>
          (w.pool.allocBlock w.heap size fresh).map fun r =>
            w.put i (.blockBuffer (blocks ++ [r.1])) r.2.1 r.2.2
      | _ => none
  | w, .release i =>
      (w.clients[i]?).bind fun c =>
        (c.release w.pool w.heap).map fun r => w.put i r.1 r.2.1 r.2.2
  | w, .destroy i =>
      (w.clients[i]?).bind fun c =>
        (c.release w.pool w.heap).map fun r => ⟨r.2.1, r.2.2, w.clients.eraseIdx i⟩

end PoolClients

/-! ## What a buffer has -/

namespace Client

/-- The blocks of the pool. -/
def blocks (blockSize : BitVec 32) : Client → List Nat
  | .writeBuffer b _ _ => b.blocks
  | .blockBuffer bs => (bs.filter fun b => b.capacity = blockSize).map Block.buf

/-- The allocations of the heap. -/
def regions (blockSize : BitVec 32) : Client → List Region
  | .writeBuffer _ rs _ => rs
  | .blockBuffer bs => (bs.filter fun b => b.capacity ≠ blockSize).map Block.region

/-- All of its memory. -/
def owned (blockSize : BitVec 32) (c : Client) : List Region :=
  (c.blocks blockSize).map (fun b => (b, blockSize.toNat)) ++ c.regions blockSize

/-- The memory that it has handed out. -/
def handed : Client → List Region
  | .writeBuffer _ _ returned => returned
  | .blockBuffer bs => bs.map fun b => (b.buf, b.capacity.toNat)

end Client

end XfUtil
