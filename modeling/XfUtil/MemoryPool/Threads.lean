import XfUtil.Base.Machine
import XfUtil.Base.Memory
import XfUtil.MemoryPool.Model

/-!
# Threads sharing a `MemoryPool`

Each locked section is one step, and so is what a call does between or after
its locked sections: taking a block from the `BlockPool` and setting it up, or
giving one back. Between steps any thread may run, and clients write into the
elements they hold. Live elements, held blocks and the traffic with the
`BlockPool` are ghost state.
-/

namespace XfUtil.MemoryPool

/-- Where a thread is: between calls, on its way to the `BlockPool`, or with a
block in hand that it will add to the pool or give back. -/
inductive Pc where
  | idle
  | needBlock
  | addBlock (head ptr : Nat)
  | giveBack (head : Nat)
deriving Repr, DecidableEq

/-- The block a thread has in hand. -/
def Pc.block : Pc → Option Nat
  | .addBlock head _ => some head
  | .giveBack head => some head
  | _ => none

structure Shared (Tid : Type*) where
  pool : MemoryPool
  threads : Tid → Pc
  /-- Elements returned by `Alloc` and not yet passed to `Free`. -/
  live : List Nat
  /-- Blocks obtained from the `BlockPool` and not yet given back. -/
  held : List Nat
  /-- How often the `BlockPool` has handed out, and got back, each address. -/
  taken : Nat → Nat
  given : Nat → Nat
  /-- Calls of `Alloc` that returned `nullptr`. -/
  failures : Nat

inductive Label (Tid : Type*) where
  /-- Enter `Alloc`, up to the end of the first locked section. -/
  | alloc (t : Tid)
  /-- `Alloc` outside the lock, with the block the `BlockPool` answers. -/
  | takeBlock (t : Tid) (block : Nat)
  /-- The second locked section of `Alloc`. -/
  | addBlock (t : Tid)
  /-- Enter `Free`, up to the end of its locked section. -/
  | free (t : Tid) (element : Nat)
  /-- `Free` outside the lock. -/
  | giveBack (t : Tid)
  /-- A client changes the word at `x`, part of which is in a live element. -/
  | write (x value : Nat)

namespace Shared

variable {Tid : Type*}

/-- All threads are between calls and nothing has been allocated. -/
def start (Tid : Type*) (pool : MemoryPool) : Shared Tid :=
  { pool := pool
    threads := fun _ => .idle
    live := []
    held := []
    taken := fun _ => 0
    given := fun _ => 0
    failures := 0 }

/-- No call is in progress. -/
def Quiet (s : Shared Tid) : Prop := ∀ t, s.threads t = .idle

/-- Memory that an allocator may hand out while the pool object lives: aligned,
inside the address space, and clear of the object's own list heads. -/
def Placed (p : MemoryPool) (lo size : Nat) : Prop :=
  lo ≠ 0 ∧ 8 ∣ lo ∧ lo + size ≤ 2 ^ 64 ∧ ¬ (lo ≤ p.freeList ∧ p.freeList < lo + size) ∧
    ¬ (lo ≤ p.fullList ∧ p.fullList < lo + size)

instance (p : MemoryPool) (lo size : Nat) : Decidable (Placed p lo size) :=
  inferInstanceAs (Decidable (_ ∧ _))

/-- A block the `BlockPool` may hand out: clear also of the cache block and of
every block held. -/
def FreshBlock (s : Shared Tid) (block : Nat) : Prop :=
  Placed s.pool block s.pool.blockSize.toNat ∧
    FlatMemory.Apart block s.pool.blockSize.toNat s.pool.cacheBlockHead
      (s.pool.cacheBlockEnd - s.pool.cacheBlockHead) ∧
    ∀ b ∈ s.held, FlatMemory.Apart block s.pool.blockSize.toNat b s.pool.blockSize.toNat

instance (s : Shared Tid) (block : Nat) : Decidable (s.FreshBlock block) :=
  inferInstanceAs (Decidable (_ ∧ _ ∧ _))

/-- The word at `x` overlaps a live element. -/
def OverlapsLive (s : Shared Tid) (x : Nat) : Prop :=
  ∃ e ∈ s.live, e < x + 8 ∧ x < e + s.pool.elementSize.toNat

instance (s : Shared Tid) (x : Nat) : Decidable (s.OverlapsLive x) :=
  inferInstanceAs (Decidable (∃ e ∈ s.live, _))

variable [DecidableEq Tid]

def goto (s : Shared Tid) (t : Tid) (pc : Pc) : Shared Tid :=
  { s with threads := Function.update s.threads t pc }

theorem goto_threads (s : Shared Tid) (t : Tid) (pc : Pc) (u : Tid) :
    (s.goto t pc).threads u = if u = t then pc else s.threads u :=
  Function.update_apply ..

/-- `Alloc` returns `ptr` to its caller. -/
def deliver (s : Shared Tid) (ptr : Nat) : Shared Tid :=
  if ptr = 0 then { s with failures := s.failures + 1 } else { s with live := ptr :: s.live }

def stepAlloc (s : Shared Tid) (t : Tid) : Option (Shared Tid) :=
  if s.threads t ≠ .idle then none
  else
    let r := s.pool.allocCached
    let s' := { s with pool := r.2 }
    if r.1 ≠ 0 then some (s'.deliver r.1) else some (s'.goto t .needBlock)

def stepTakeBlock (s : Shared Tid) (t : Tid) (block : Nat) : Option (Shared Tid) :=
  if s.threads t = .needBlock ∧ s.FreshBlock block then
    let r := s.pool.allocFresh block
    let s' := { s with
      pool := r.2
      held := block :: s.held
      taken := Function.update s.taken block (s.taken block + 1) }
    some (s'.goto t (.addBlock block r.1))
  else none

def stepAddBlock (s : Shared Tid) (t : Tid) : Option (Shared Tid) :=
  match s.threads t with
  | .addBlock head ptr =>
      some (({ s with pool := s.pool.allocAdd head }.deliver ptr).goto t .idle)
  | _ => none

def stepFree (s : Shared Tid) (t : Tid) (element : Nat) : Option (Shared Tid) :=
  if s.threads t = .idle ∧ element ∈ s.live then
    let r := s.pool.freeLocked element
    let s' := { s with pool := r.1, live := s.live.erase element }
    match r.2 with
    | none => some s'
    | some head => some (s'.goto t (.giveBack head))
  else none

def stepGiveBack (s : Shared Tid) (t : Tid) : Option (Shared Tid) :=
  match s.threads t with
  | .giveBack head =>
      let s' := { s with
        held := s.held.erase head
        given := Function.update s.given head (s.given head + 1) }
      some (s'.goto t .idle)
  | _ => none

def stepWrite (s : Shared Tid) (x value : Nat) : Option (Shared Tid) :=
  if s.OverlapsLive x then
    some { s with pool := { s.pool with
      mem := { s.pool.mem with words := Function.update s.pool.mem.words x value } } }
  else none

def step : Machine.Step (Shared Tid) (Label Tid)
  | s, .alloc t => s.stepAlloc t
  | s, .takeBlock t block => s.stepTakeBlock t block
  | s, .addBlock t => s.stepAddBlock t
  | s, .free t element => s.stepFree t element
  | s, .giveBack t => s.stepGiveBack t
  | s, .write x value => s.stepWrite x value

end Shared

end XfUtil.MemoryPool
