import XfUtil.BlockPool.Model
import XfUtil.Base.Machine
import XfUtil.Base.Memory
import Mathlib.Logic.Function.Basic

/-!
# Threads sharing a `BlockPool`

A call takes the lock once and may then go on to `xmalloc` or `xfree` outside
it; each of these is one step of its thread, and any thread may be next. The
pool itself knows only its deque. What callers hold, where each block came from
and what became of every `Free` is ghost state.
-/

namespace XfUtil.BlockPool

/-- Where a block comes from and goes back to. -/
inductive Source where
  | cache
  | heap
deriving Repr, DecidableEq

/-- Where a thread is: between calls, or outside the lock in `Alloc` or `Free`. -/
inductive Pc where
  | idle
  | allocHeap
  | freeHeap (block call : Nat)
deriving Repr, DecidableEq

/-- A call of `Free`: its block, where that came from, and where it has been
returned to so far. -/
structure FreeCall where
  block : Nat
  source : Source
  returned : List Source
deriving Repr, DecidableEq

structure Shared (Tid : Type*) where
  pool : BlockPool
  threads : Tid → Pc
  /-- Blocks obtained from `xmalloc` and not yet given to `xfree`. -/
  heap : List Nat
  /-- Blocks returned by `Alloc` and not yet passed to `Free`. -/
  live : List (Nat × Source)
  frees : List FreeCall

inductive Label (Tid : Type*) where
  /-- Enter `Alloc`, up to the end of the locked section. -/
  | alloc (t : Tid)
  /-- `Alloc` outside the lock, with the address `xmalloc` answers. -/
  | xmalloc (t : Tid) (buf : Nat)
  /-- Enter `Free`, up to the end of the locked section. -/
  | free (t : Tid) (block : Nat)
  /-- `Free` outside the lock. -/
  | xfree (t : Tid)

namespace Shared

variable {Tid : Type*}

/-- All threads are between calls and nothing has been allocated. -/
def start (Tid : Type*) (pool : BlockPool) : Shared Tid := ⟨pool, fun _ => .idle, [], [], []⟩

/-- A block the heap may hand out: clear of the arena and of every heap block in use. -/
def FreshBlock (s : Shared Tid) (buf : Nat) : Prop :=
  FlatMemory.Apart buf s.pool.blockSize.toNat s.pool.cacheStart
      (s.pool.cacheEnd - s.pool.cacheStart) ∧
    ∀ b ∈ s.heap, FlatMemory.Apart buf s.pool.blockSize.toNat b s.pool.blockSize.toNat

instance (s : Shared Tid) (buf : Nat) : Decidable (s.FreshBlock buf) :=
  inferInstanceAs (Decidable (_ ∧ _))

variable [DecidableEq Tid]

def goto (s : Shared Tid) (t : Tid) (pc : Pc) : Shared Tid :=
  { s with threads := Function.update s.threads t pc }

theorem goto_threads (s : Shared Tid) (t : Tid) (pc : Pc) (u : Tid) :
    (s.goto t pc).threads u = if u = t then pc else s.threads u :=
  Function.update_apply ..

def stepAlloc (s : Shared Tid) (t : Tid) : Option (Shared Tid) :=
  if s.threads t ≠ .idle then none
  else
    match s.pool.takeFree with
    | some (buf, pool) => some { s with pool := pool, live := (buf, .cache) :: s.live }
    | none => some (s.goto t .allocHeap)

def stepXmalloc (s : Shared Tid) (t : Tid) (buf : Nat) : Option (Shared Tid) :=
  if s.threads t ≠ .allocHeap then none
  -- `nullptr` is handed on to the caller, who then holds no block.
  else if buf = 0 then some (s.goto t .idle)
  else if s.FreshBlock buf then
    let s' := { s with heap := buf :: s.heap, live := (buf, .heap) :: s.live }
    some (s'.goto t .idle)
  else none

def stepFree (s : Shared Tid) (t : Tid) (block : Nat) : Option (Shared Tid) :=
  if s.threads t ≠ .idle then none
  else
    match s.live.find? fun held => held.1 = block with
    | none => none
    | some held =>
        match s.pool.putFree block with
        | some pool =>
            some { s with
              pool := pool
              live := s.live.erase held
              frees := s.frees ++ [FreeCall.mk block held.2 [.cache]] }
        | none =>
            let s' := { s with
              live := s.live.erase held
              frees := s.frees ++ [FreeCall.mk block held.2 []] }
            some (s'.goto t (.freeHeap block s.frees.length))

def stepXfree (s : Shared Tid) (t : Tid) : Option (Shared Tid) :=
  match s.threads t with
  | .freeHeap block call =>
      let s' := { s with
        heap := s.heap.erase block
        frees := s.frees.modify call fun c => { c with returned := c.returned ++ [Source.heap] } }
      some (s'.goto t .idle)
  | _ => none

def step : Machine.Step (Shared Tid) (Label Tid)
  | s, .alloc t => s.stepAlloc t
  | s, .xmalloc t buf => s.stepXmalloc t buf
  | s, .free t block => s.stepFree t block
  | s, .xfree t => s.stepXfree t

end Shared

end XfUtil.BlockPool
