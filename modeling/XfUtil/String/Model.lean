import XfUtil.Base.Heap

/-!
# `String`

A string with the memory and the heap it lives in. The heap's allocations are those of the
string; what the rest of the program uses is reserved. A call that may allocate takes the
address that `xmalloc` answers if it is asked.
-/

namespace XfUtil

open FlatMemory

structure StringBuffer where
  buf : Nat
  size : BitVec 64
  capacity : BitVec 64
deriving Repr, DecidableEq

namespace StringBuffer

/-- The constructor. -/
def new : StringBuffer := ⟨0, 0, 0⟩

structure World where
  str : StringBuffer
  mem : Mem
  heap : Heap
  /-- Ghost: where the `memcpy`s of the latest call have written. -/
  copies : List Region

namespace World

def new (mem : Mem) (reserved : List Region) : World := ⟨StringBuffer.new, mem, ⟨reserved, []⟩, []⟩

/-- The first `m_size` bytes of the buffer. -/
def contents (w : World) : List Byte := read w.mem w.str.buf w.str.size.toNat

/-- `memcpy(dst, src, n);` -/
def memcpy (w : World) (dst src n : Nat) : World :=
  { w with mem := write w.mem dst (read w.mem src n), copies := (dst, n) :: w.copies }

/-- `m_size = size;` -/
def setSize (w : World) (size : BitVec 64) : World := { w with str := { w.str with size := size } }

/-- `Reserve`, with what it returns; the answer zero of `xmalloc` is a failure. -/
def reserve (w : World) (size : BitVec 64) (fresh : Nat) : Option (World × Bool) :=
  if size ≤ w.str.capacity then some (w, true)
  else if fresh = 0 then some (w, false)
  else
    (w.heap.malloc size.toNat fresh).bind fun heap =>
      let str := { w.str with buf := fresh, capacity := size }
      if w.str.buf ≠ 0 then
        (heap.free w.str.buf).map fun heap =>
          ({ w.memcpy fresh w.str.buf w.str.size.toNat with str := str, heap := heap }, true)
      else some ({ w with str := str, heap := heap }, true)

/-- `Resize`. -/
def resize (w : World) (size : BitVec 64) (fresh : Nat) : Option (World × Bool) :=
  (w.reserve size fresh).map fun r => if r.2 then (r.1.setSize size, true) else (r.1, false)

/-- `Append`. -/
def append (w : World) (data : Nat) (size : BitVec 64) (fresh : Nat) : Option (World × Bool) :=
  (if w.str.capacity < w.str.size + size then w.reserve (size + w.str.capacity * 2) fresh
    else some (w, true)).map fun r =>
      if r.2 then
        let w := r.1.memcpy (r.1.str.buf + r.1.str.size.toNat) data size.toNat
        (w.setSize (w.str.size + size), true)
      else (r.1, false)

/-- `Clear`. -/
def clear (w : World) : World := w.setSize 0

/-- `Assign`. -/
def assign (w : World) (data : Nat) (size : BitVec 64) (fresh : Nat) : Option (World × Bool) :=
  (w.setSize 0).append data size fresh

/-! ## Runs -/

/-- Calls of the string, and what the rest of the program does between them. -/
inductive Op where
  | assign (data : Nat) (size : BitVec 64) (fresh : Nat)
  | append (data : Nat) (size : BitVec 64) (fresh : Nat)
  | reserve (size : BitVec 64) (fresh : Nat)
  | resize (size : BitVec 64) (fresh : Nat)
  | clear
  | others (mem : Mem) (reserved : List Region)

/-- Others leave the buffer alone and use nothing of it. -/
def others (w : World) (mem : Mem) (reserved : List Region) : Option (World × Bool) :=
  if read mem w.str.buf w.str.capacity.toNat = read w.mem w.str.buf w.str.capacity.toNat ∧
      ∀ r ∈ w.heap.live, ∀ r' ∈ reserved, Region.Apart r r' then
    some ({ w with mem := mem, heap := { w.heap with reserved := reserved } }, true)
  else none

/-- A call and what it returns; `none` if the address is not one that `xmalloc` can
answer, or if others do what they must not. -/
def step (w : World) (op : Op) : Option (World × Bool) :=
  let w := { w with copies := [] }
  match op with
  | .assign data size fresh => w.assign data size fresh
  | .append data size fresh => w.append data size fresh
  | .reserve size fresh => w.reserve size fresh
  | .resize size fresh => w.resize size fresh
  | .clear => some (w.clear, true)
  | .others mem reserved => w.others mem reserved

end World

end StringBuffer

end XfUtil
