import XfUtil.List.Model
import XfUtil.MemoryBlock.Model
import Mathlib.Data.Finset.Max

/-!
# `MemoryPool`

Elements of one size, first from a cache block and then from blocks of the
`BlockPool`. The pool object comes with the memory it works on: the links of
list nodes, the heads of blocks, and the words that free elements are chained
through. A block's list node is its first field, so a block, its head and its
node have one address. The functions here are the sections of `Alloc` and
`Free` between taking and releasing the lock, and what `Alloc` does between its
two locked sections.
-/

namespace XfUtil

/-- The heads of blocks and the words of elements. -/
structure Memory where
  heads : Nat → MemoryBlockHead
  words : Nat → Nat

def Memory.setHead (m : Memory) (block : Nat) (h : MemoryBlockHead) : Memory :=
  { m with heads := Function.update m.heads block h }

/-- `std::set::upper_bound`: the least member above `x`. -/
def upperBound (s : Finset Nat) (x : Nat) : Option Nat :=
  if h : (s.filter fun e => x < e).Nonempty then some ((s.filter fun e => x < e).min' h) else none

structure MemoryPool where
  /-- `m_block_pool.BlockSize()`. -/
  blockSize : BitVec 32
  usedCnt : BitVec 64
  cacheNum : BitVec 32
  elementSize : BitVec 32
  cacheBlockHead : Nat
  cacheBlockEnd : Nat
  /-- The addresses of the list heads `m_free_list` and `m_full_list`. -/
  freeList : Nat
  fullList : Nat
  /-- `m_blocks`: the end addresses of blocks. -/
  blocks : Finset Nat
  links : Links.Heap
  mem : Memory

namespace MemoryPool

/-- The constructor, in a memory with any contents. -/
def new (blockSize : BitVec 32) (freeList fullList : Nat) (links : Links.Heap) (mem : Memory) :
    MemoryPool :=
  { blockSize := blockSize
    usedCnt := 0
    cacheNum := 0
    elementSize := 0
    cacheBlockHead := 0
    cacheBlockEnd := 0
    freeList := freeList
    fullList := fullList
    blocks := ∅
    links := listInit (listInit links freeList) fullList
    mem := mem }

/-- `ALIGN_UP(element_size, sizeof(void*))`, computed in `size_t`. -/
def alignElement (elementSize : BitVec 32) : BitVec 32 :=
  (alignUp (elementSize.setWidth 64) 8#64).setWidth 32

/-- `total_size` of `Init`. -/
def cacheSize (elementSize cacheNum : BitVec 32) : BitVec 64 :=
  cacheNum.setWidth 64 * elementSize.setWidth 64 + BitVec.ofNat 64 memoryBlockHeadSize

/-- `Init`; `buf` is what `xmalloc` answers. -/
def init (p : MemoryPool) (elementSize cacheNum : BitVec 32) (buf : Nat) : MemoryPool × Bool :=
  let elementSize := alignElement elementSize
  let totalSize := cacheSize elementSize cacheNum
  let p := { p with cacheNum := cacheNum, elementSize := elementSize, cacheBlockHead := buf }
  if buf = 0 then (p, false)
  else
    ({ p with
      cacheBlockEnd := buf + totalSize.toNat
      mem := p.mem.setHead buf (memoryBlockInit (totalSize.setWidth 32) elementSize) }, true)

/-- `MemoryAlloc` on a block of the pool's memory. -/
def allocFrom (p : MemoryPool) (block : Nat) : Nat × MemoryPool :=
  let r := memoryAlloc p.mem.words block (p.mem.heads block)
  (r.1, { p with mem := p.mem.setHead block r.2 })

/-- `MemoryFree` on a block of the pool's memory. -/
def freeTo (p : MemoryPool) (block element : Nat) : Int × MemoryPool :=
  let r := memoryFree p.mem.words block (p.mem.heads block) element
  (r.1, { p with mem := { p.mem.setHead block r.2.1 with words := r.2.2 } })

def getFreeMemoryBlock (p : MemoryPool) : Nat :=
  if listEmtpy p.links p.freeList then 0 else listHead p.links p.freeList

def findMemoryBlock (p : MemoryPool) (ptr : Nat) : Nat :=
  match upperBound p.blocks ptr with
  | some e => e - p.blockSize.toNat
  | none => 0

def removeMemoryBlock (p : MemoryPool) (head : Nat) : MemoryPool :=
  { p with
    links := listDelete p.links head
    blocks := p.blocks.erase (head + p.blockSize.toNat) }

def addMemoryBlock (p : MemoryPool) (head : Nat) : MemoryPool :=
  { p with
    links := listAddHead p.links head p.freeList
    blocks := insert (head + p.blockSize.toNat) p.blocks }

/-- The first locked section of `Alloc`; the answer 0 sends the caller on to the
`BlockPool`. -/
def allocCached (p : MemoryPool) : Nat × MemoryPool :=
  let r := p.allocFrom p.cacheBlockHead
  if r.1 ≠ 0 then (r.1, { r.2 with usedCnt := r.2.usedCnt + 1 })
  else
    let p := r.2
    let head := p.getFreeMemoryBlock
    if head ≠ 0 then
      let r := p.allocFrom head
      if r.1 ≠ 0 then (r.1, { r.2 with usedCnt := r.2.usedCnt + 1 })
      else
        let p := r.2
        (0, { p with links := listAddTail (listDelete p.links head) head p.fullList })
    else (0, p)

/-- `Alloc` outside the lock, on the block it got from the `BlockPool`. -/
def allocFresh (p : MemoryPool) (head : Nat) : Nat × MemoryPool :=
  let p := { p with mem := p.mem.setHead head (memoryBlockInit p.blockSize p.elementSize) }
  p.allocFrom head

/-- The second locked section of `Alloc`. -/
def allocAdd (p : MemoryPool) (head : Nat) : MemoryPool :=
  let p := p.addMemoryBlock head
  { p with usedCnt := p.usedCnt + 1 }

/-- The locked section of `Free`, with the block to hand to the `BlockPool`, if any. -/
def freeLocked (p : MemoryPool) (element : Nat) : MemoryPool × Option Nat :=
  if element < p.cacheBlockEnd ∧ p.cacheBlockHead ≤ element then
    let r := p.freeTo p.cacheBlockHead element
    ({ r.2 with usedCnt := r.2.usedCnt - 1 }, none)
  else
    let head := p.findMemoryBlock element
    if head = 0 then (p, none)
    else
      let r := { p with usedCnt := p.usedCnt - 1 }.freeTo head element
      let p := r.2
      if r.1 < 0 then (p, none)
      else if r.1 = 0 then
        ({ p with links := listAddTail (listDelete p.links head) head p.freeList }, none)
      else (p.removeMemoryBlock head, some head)

end MemoryPool

end XfUtil
