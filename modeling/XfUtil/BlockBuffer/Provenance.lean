import XfUtil.Base.Machine
import XfUtil.Pack.Bounds

/-!
# Where the blocks of a `BlockBuffer` go back to

A block does not say where it came from: `Free` compares its capacity with the
block size of the pool. The calls that the buffer makes to the `BlockPool` and to
the heap are ghost logs here, whatever addresses they answer.
-/

namespace XfUtil

/-- The two allocators a `BlockBuffer` uses. -/
inductive Origin where
  | blockPool
  | heap
deriving Repr, DecidableEq

/-- The branch that `BlockBuffer::Alloc` takes. -/
def allocOrigin (blockSize size : BitVec 32) : Origin :=
  if size ≤ blockSize then .blockPool else .heap

/-- One round of the loop of `BlockBuffer::Free`: the address and where it is handed. -/
def freeBlock (blockSize : BitVec 32) (block : Block) : Nat × Origin :=
  (block.buf, if block.capacity = blockSize then .blockPool else .heap)

structure BlockBuffer where
  /-- `m_block_pool.BlockSize()`. -/
  blockSize : BitVec 32
  blocks : List Block
  /-- Ghost: every block `Alloc` has obtained, in order. -/
  obtained : List (Nat × Origin)
  /-- Ghost: every call of `BlockPool::Free` and `xfree`, in order. -/
  handedBack : List (Nat × Origin)
deriving Repr, DecidableEq

namespace BlockBuffer

/-- The constructor. -/
def new (blockSize : BitVec 32) : BlockBuffer := ⟨blockSize, [], [], []⟩

/-- `Alloc`; `fresh` is the answer of the allocator that is asked. -/
def alloc (b : BlockBuffer) (size : BitVec 32) (fresh : Nat) : BlockBuffer :=
  { b with
    blocks := b.blocks ++ [allocBlock b.blockSize size fresh]
    obtained := b.obtained ++ [(fresh, allocOrigin b.blockSize size)] }

def free (b : BlockBuffer) : BlockBuffer :=
  { b with
    blocks := []
    handedBack := b.handedBack ++ b.blocks.map (freeBlock b.blockSize) }

inductive Op where
  | alloc (size : BitVec 32) (fresh : Nat)
  | free
deriving Repr, DecidableEq

/-- One call; allocations succeed. -/
def step : Machine.Step BlockBuffer Op
  | b, .alloc size fresh => if fresh = 0 then none else some (b.alloc size fresh)
  | b, .free => some b.free

/-! ## Capacities tell the origin -/

/-- No heap block has the capacity of a pool block: its capacity is not below the
size asked for, or the rounding has wrapped to 0. -/
theorem allocBlock_capacity_ne {blockSize size : BitVec 32}
    (hbs : BlockPool.accepts blockSize = true) (fresh : Nat) (hsize : ¬ size ≤ blockSize) :
    (allocBlock blockSize size fresh).capacity ≠ blockSize := by
  have hmin := ((BlockPool.accepts_iff blockSize).mp hbs).1
  have hgt : blockSize.toNat < size.toNat := by
    rw [BitVec.le_def] at hsize
    omega
  have hlt := size.isLt
  have hcap := Packer.allocBlock_heap fresh hgt
  intro heq
  rw [heq] at hcap
  omega

theorem freeBlock_allocBlock {blockSize : BitVec 32} (hbs : BlockPool.accepts blockSize = true)
    (size : BitVec 32) (fresh : Nat) :
    freeBlock blockSize (allocBlock blockSize size fresh) =
      (fresh, allocOrigin blockSize size) := by
  by_cases hsize : size ≤ blockSize
  · simp [freeBlock, allocBlock, allocOrigin, hsize]
  · have hne := allocBlock_capacity_ne hbs fresh hsize
    simp [freeBlock, allocOrigin, hsize, hne]

/-! ## Whole runs -/

/-- What has been obtained is handed back already or held, in order, and `Free`
would hand each held block back to its origin. -/
def Accounted (b : BlockBuffer) : Prop :=
  b.obtained = b.handedBack ++ b.blocks.map (freeBlock b.blockSize)

theorem Accounted.step {b c : BlockBuffer} {op : Op} (h : b.Accounted)
    (hbs : BlockPool.accepts b.blockSize = true) (hstep : step b op = some c) :
    c.blockSize = b.blockSize ∧ c.Accounted := by
  cases op with
  | alloc size fresh =>
      simp only [BlockBuffer.step] at hstep
      split at hstep
      · cases hstep
      · cases hstep
        refine ⟨rfl, ?_⟩
        unfold Accounted at h
        simp [Accounted, alloc, h, freeBlock_allocBlock hbs]
  | free =>
      cases hstep
      refine ⟨rfl, ?_⟩
      unfold Accounted at h
      simp [Accounted, free, h]

theorem run_accounted {blockSize : BitVec 32} (hbs : BlockPool.accepts blockSize = true)
    {ops : List Op} {b : BlockBuffer} (hrun : Machine.run step (new blockSize) ops = some b) :
    b.blockSize = blockSize ∧ b.Accounted := by
  refine Machine.run_invariant (fun b => b.blockSize = blockSize ∧ b.Accounted) ⟨rfl, rfl⟩
    (fun b op c h hstep => ?_) hrun
  obtain ⟨hsize, hacc⟩ := h
  obtain ⟨hsame, hacc'⟩ := hacc.step (hsize ▸ hbs) hstep
  exact ⟨hsame.trans hsize, hacc'⟩

/-- After any calls, `Free` empties the buffer; then every block ever obtained has
been handed back once, in order, each to the allocator it was obtained from, and
nothing else has been handed back. Before, just the held blocks were missing. -/
theorem free_hands_back_all {blockSize : BitVec 32} (hbs : BlockPool.accepts blockSize = true)
    {ops : List Op} {b : BlockBuffer} (hrun : Machine.run step (new blockSize) ops = some b) :
    b.free.blocks = [] ∧ b.free.handedBack = b.free.obtained ∧
      b.obtained.length = b.handedBack.length + b.blocks.length ∧
      b.obtained.take b.handedBack.length = b.handedBack := by
  obtain ⟨-, hacc⟩ := run_accounted hbs hrun
  unfold Accounted at hacc
  refine ⟨rfl, hacc.symm, ?_, ?_⟩
  · rw [hacc, List.length_append, List.length_map]
  · rw [hacc, List.take_left]

/-- A size that fits a block, one that does not, and one whose rounding wraps. -/
theorem free_hands_back_wrapped : ∃ b : BlockBuffer,
    Machine.run step (new 4096)
      [.alloc 1 4096, .alloc 5000 8192, .free, .alloc 0xFFFFFFFF 8192] = some b ∧
    b.free.handedBack = [(4096, .blockPool), (8192, .heap), (8192, .heap)] ∧
    b.free.handedBack = b.free.obtained := by
  have hrun : ∃ b : BlockBuffer, Machine.run step (new 4096)
      [.alloc 1 4096, .alloc 5000 8192, .free, .alloc 0xFFFFFFFF 8192] = some b ∧
      b.free.handedBack = [(4096, .blockPool), (8192, .heap), (8192, .heap)] := by
    refine ⟨_, rfl, ?_⟩
    decide
  obtain ⟨b, hb, hback⟩ := hrun
  exact ⟨b, hb, hback, (free_hands_back_all (by decide) hb).2.1⟩

end BlockBuffer

end XfUtil
