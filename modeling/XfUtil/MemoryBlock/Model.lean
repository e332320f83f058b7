import XfUtil.Types

/-!
# `MemoryBlock`

A block of memory that starts with a `MemoryBlockHead` and hands out elements of
one size: freed elements form a chain through their own first word, and the rest
of the block is carved off as needed. Addresses are natural numbers, 0 is
`nullptr`, and `words` holds the pointer-sized word at each address.
-/

namespace XfUtil

/-- `sizeof(MemoryBlockHead)`. -/
def memoryBlockHeadSize : Nat := 40

/-- The head without its list node, whose links live in the heap of all lists. -/
structure MemoryBlockHead where
  blockSize : BitVec 32
  elementSize : BitVec 32
  maxElementNum : BitVec 16
  elementUsedCnt : BitVec 16
  nextElementOffset : BitVec 32
  nextElementPtr : Nat
deriving Repr, DecidableEq

/-- `MemoryBlockInit`. The difference and the quotient are computed in `size_t`,
the product in `uint32_t`. -/
def memoryBlockInit (blockSize elementSize : BitVec 32) : MemoryBlockHead :=
  let maxElementNum : BitVec 16 :=
    ((blockSize.setWidth 64 - BitVec.ofNat 64 memoryBlockHeadSize) /
      elementSize.setWidth 64).setWidth 16
  { blockSize := blockSize
    elementSize := elementSize
    maxElementNum := maxElementNum
    elementUsedCnt := 0
    nextElementOffset := blockSize - maxElementNum.setWidth 32 * elementSize
    nextElementPtr := 0 }

/-- `MemoryAlloc` on the block at `block` with head `h`. -/
def memoryAlloc (words : Nat → Nat) (block : Nat) (h : MemoryBlockHead) : Nat × MemoryBlockHead :=
  if h.nextElementPtr ≠ 0 then
    (h.nextElementPtr, { h with
      nextElementPtr := words h.nextElementPtr
      elementUsedCnt := h.elementUsedCnt + 1 })
  else if h.nextElementOffset < h.blockSize then
    (block + h.nextElementOffset.toNat, { h with
      nextElementOffset := h.nextElementOffset + h.elementSize
      elementUsedCnt := h.elementUsedCnt + 1 })
  else (0, h)

/-- `MemoryFree`: what it returns, the new head, and the words of memory. -/
def memoryFree (words : Nat → Nat) (block : Nat) (h : MemoryBlockHead) (element : Nat) :
    Int × MemoryBlockHead × (Nat → Nat) :=
  if element < block ∨ block + h.blockSize.toNat ≤ element then (-1, h, words)
  else
    let words' := Function.update words element h.nextElementPtr
    let h' := { h with
      nextElementPtr := element
      elementUsedCnt := h.elementUsedCnt - 1 }
    let ret :=
      if h'.elementUsedCnt = 0 then 1
      else if (h'.elementUsedCnt.toNat : Int) = h'.maxElementNum.toNat - 1 then 0
      else -1
    (ret, h', words')

end XfUtil
