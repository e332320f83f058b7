import XfUtil.Base.Machine
import Mathlib.Logic.Function.Basic

/-!
# `ThreadGroup`

The threads of a group, and all threads that call its methods, members of the group among
them. A step is what one thread does to what they share; a call that does not find
`m_mutex` free has no step. The group itself is never destroyed.
-/

namespace XfUtil.ThreadGroup

/-- A `std::thread` that has been started. -/
structure Handle where
  id : Nat
  joinable : Bool
deriving Repr, DecidableEq

/-- How far a thread is in a call. -/
inductive Pc where
  | idle
  /-- The loop of `Start`: so many threads are left to create. -/
  | creating (left : Nat) (made : List Handle)
  | swapping (made : List Handle)
  /-- The end of `Start`, where the vector is destroyed that it has got from the group. -/
  | dropping (old : List Handle)
  | detaching
  | joining
  /-- The loop of `Join`, with `m_mutex` taken. -/
  | joinAt (i : Nat)
  | sizing
deriving Repr, DecidableEq

structure State where
  /-- `m_threads`. -/
  threads : List Handle
  /-- The thread that has `m_mutex`. -/
  holder : Option Nat
  /-- The number of threads so far. -/
  next : Nat
  exited : Nat → Bool
  pc : Nat → Pc
  /-- A call has thrown. -/
  threw : Bool
  /-- `std::terminate` has been called. -/
  terminated : Bool

inductive Method where
  | start (threadCount : BitVec 32)
  | detach
  | join
  | size
deriving Repr, DecidableEq

inductive Label where
  | call (a : Nat) (m : Method)
  /-- The call goes on; `created` is whether a thread that it asks for is created. -/
  | go (a : Nat) (created : Bool)
  /-- The thread ends. -/
  | exit (a : Nat)
deriving Repr, DecidableEq

/-- Some threads, none of which has called a method. -/
def start (next : Nat) : State where
  threads := []
  holder := none
  next := next
  exited := fun _ => false
  pc := fun _ => .idle
  threw := false
  terminated := false

namespace State

def goto (s : State) (a : Nat) (pc : Pc) : State := { s with pc := Function.update s.pc a pc }

/-- The call ends with an exception, which gives `m_mutex` free if the call has it. -/
def throwing (s : State) (a : Nat) : State := { s.goto a .idle with threw := true }

/-- The thread has been started and has not ended. -/
def running (s : State) (a : Nat) : Bool := a < s.next && !s.exited a

/-- The loop of `Detach`, up to the first thread that is not joinable. -/
def detachLoop : List Handle → List Handle
  | [] => []
  | h :: hs => if h.joinable then { h with joinable := false } :: detachLoop hs else h :: hs

/-- A call begins. `reserve` does not take what a negative number is converted to. -/
def enter (s : State) (a : Nat) : Method → State
  | .start threadCount =>
      if threadCount.slt 0#32 then s.throwing a
      else s.goto a (.creating threadCount.toNat [])
  | .detach => s.goto a .detaching
  | .join => s.goto a .joining
  | .size => s.goto a .sizing

/-- `m_threads[i].join()`, or the end of the loop. -/
def joinNext (s : State) (a i : Nat) : Option State :=
  match s.threads[i]? with
  | none => some { s.goto a .idle with holder := none }
  | some h =>
      if !h.joinable || h.id == a then some { s.throwing a with holder := none }
      else if s.exited h.id then
        some { s.goto a (.joinAt (i + 1)) with
          threads := s.threads.set i { h with joinable := false } }
      else none

/-- The next step of a call. -/
def next? (s : State) (a : Nat) (created : Bool) : Option State :=
  match s.pc a with
  | .idle => none
  | .creating 0 made => some (s.goto a (.swapping made))
  | .creating (left + 1) made =>
      if created then
        some { s.goto a (.creating left (made ++ [⟨s.next, true⟩])) with next := s.next + 1 }
      else if made.isEmpty then some (s.throwing a)
      -- The vector is destroyed with threads in it that are joinable.
      else some { s with terminated := true }
  | .swapping made =>
      if s.holder.isNone then some { s.goto a (.dropping s.threads) with threads := made }
      else none
  | .dropping old =>
      if old.any Handle.joinable then some { s with terminated := true }
      else some (s.goto a .idle)
  | .detaching =>
      if s.holder.isNone then
        some { s.goto a .idle with
          threads := detachLoop s.threads
          threw := s.threw || s.threads.any fun h => !h.joinable }
      else none
  | .joining =>
      if s.holder.isNone then some { s.goto a (.joinAt 0) with holder := some a }
      else none
  | .joinAt i => s.joinNext a i
  | .sizing => if s.holder.isNone then some (s.goto a .idle) else none

end State

open State

def step : Machine.Step State Label
  | s, .call a m =>
      if s.terminated || !s.running a || s.pc a ≠ .idle then none else some (s.enter a m)
  | s, .go a created => if s.terminated || !s.running a then none else s.next? a created
  | s, .exit a =>
      if s.terminated || !s.running a || s.pc a ≠ .idle then none
      else some { s with exited := Function.update s.exited a true }

end XfUtil.ThreadGroup
