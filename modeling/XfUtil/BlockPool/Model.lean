import XfUtil.Base.Slots
import XfUtil.Types

/-!
# `BlockPool`

The pool keeps one arena of `cache_num` blocks and a deque of its free ones.
Addresses are natural numbers and 0 is `nullptr`. The two lock-protected
sections are functions on the pool; what happens outside the lock (`xmalloc`,
`xfree`) is left to the caller of the section.
-/

namespace XfUtil

/-- `BLOCK_ALGIN`. -/
def blockAlign : BitVec 32 := 4096#32

structure BlockPool where
  blockSize : BitVec 32
  cacheStart : Nat
  cacheEnd : Nat
  freeBlocks : List Nat
deriving Repr, DecidableEq

namespace BlockPool

/-- The constructor. -/
def new : BlockPool := ⟨0, 0, 0, []⟩

/-- The size check of `Init`. -/
def accepts (blockSize : BitVec 32) : Bool :=
  !(decide (blockSize < blockAlign) || blockSize % blockAlign != 0)

/-- The loop of `Init`: push `count` consecutive blocks from `buf` on. -/
def pushBlocks (blockSize : Nat) : Nat → Nat → List Nat → List Nat
  | 0, _, deque => deque
  | count + 1, buf, deque => pushBlocks blockSize count (buf + blockSize) (deque ++ [buf])

/-- `Init`; `buf` is the answer of `xmalloc` when the call gets that far. -/
def init (p : BlockPool) (blockSize cacheNum : BitVec 32) (buf : Nat) : BlockPool × Bool :=
  if !accepts blockSize then (p, false)
  else if p.cacheStart ≠ 0 then (p, false)
  else
    let p := { p with blockSize := blockSize }
    let size := blockSize.toNat * cacheNum.toNat
    if buf = 0 then (p, false)
    else
      ({ p with
          cacheStart := buf
          cacheEnd := buf + size
          freeBlocks := pushBlocks blockSize.toNat cacheNum.toNat buf p.freeBlocks }, true)

/-- The locked section of `Alloc`: a block from the front of the deque, if any. -/
def takeFree (p : BlockPool) : Option (Nat × BlockPool) :=
  match p.freeBlocks with
  | [] => none
  | buf :: rest => some (buf, { p with freeBlocks := rest })

/-- The locked section of `Free`: a block of the arena goes to the front of the
deque; `none` sends the caller on to `xfree`. -/
def putFree (p : BlockPool) (block : Nat) : Option BlockPool :=
  if p.cacheStart ≤ block ∧ block < p.cacheEnd then
    some { p with freeBlocks := block :: p.freeBlocks }
  else none

/-- The deque after `Init` holds the slots of the arena in order. -/
theorem pushBlocks_eq (blockSize count buf : Nat) (deque : List Nat) :
    pushBlocks blockSize count buf deque = deque ++ FlatMemory.slots buf blockSize count := by
  induction count generalizing buf deque with
  | zero => simp [pushBlocks]
  | succ count ih => simp [pushBlocks, ih, FlatMemory.slots_succ_eq_cons]

theorem accepts_iff (blockSize : BitVec 32) :
    accepts blockSize = true ↔ 4096 ≤ blockSize.toNat ∧ 4096 ∣ blockSize.toNat := by
  have hmod : blockSize % blockAlign = 0#32 ↔ 4096 ∣ blockSize.toNat := by
    rw [← BitVec.toNat_inj, BitVec.toNat_umod, Nat.dvd_iff_mod_eq_zero]
    rfl
  have hlt : blockSize < blockAlign ↔ ¬ 4096 ≤ blockSize.toNat := by
    rw [BitVec.lt_def, Nat.not_le]
    rfl
  simp [accepts, hlt, hmod]

/-- An accepted block size leaves room for one more alignment unit in 32 bits. -/
theorem accepts_le {blockSize : BitVec 32} (h : accepts blockSize = true) :
    blockSize.toNat ≤ 2 ^ 32 - 4096 := by
  obtain ⟨_, k, hk⟩ := (accepts_iff blockSize).mp h
  have := blockSize.isLt
  omega

end BlockPool

end XfUtil
