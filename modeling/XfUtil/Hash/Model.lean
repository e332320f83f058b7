import XfUtil.Coding.Model

/-!
# `hash.cpp`

`Hash32` goes through its bytes with the bounded decoder of 32-bit integers and puts
what is left behind the last whole word together in a switch that falls through.
-/

namespace XfUtil

open FlatMemory

/-- `Decode`; each case falls through to the next one. -/
def decode (m : Mem) (data : Nat) (len : BitVec 64) : BitVec 32 :=
  let v : BitVec 32 := 0
  let v := if len = 3 then v ||| ((m (data + 2)).setWidth 32 <<< 16) else v
  let v := if len = 3 ∨ len = 2 then v ||| ((m (data + 1)).setWidth 32 <<< 8) else v
  if len = 3 ∨ len = 2 ∨ len = 1 then v ||| (m data).setWidth 32 else v

/-- The loop of `Hash32`, with the cursor that it leaves; every round moves the cursor
by four bytes, so the rounds are enough (`hash32Loop_eq`). -/
def hash32Loop (m : Mem) (fin : Nat) (seed : BitVec 32) :
    Nat → Nat → BitVec 32 → BitVec 32 × Nat
  | 0, data, h => (h, data)
  | rounds + 1, data, h =>
      match decodeFixed32 m data fin with
      | ⟨true, some v, cursor⟩ => hash32Loop m fin seed rounds cursor ((h + v) * seed)
      | ⟨_, _, cursor⟩ => (h, cursor)

/-- `Hash32(const byte_t*, size_t, uint32_t)`; the first product is one of 64 bits. -/
def hash32 (m : Mem) (data : Nat) (len : BitVec 64) (seed : BitVec 32) : BitVec 32 :=
  let h : BitVec 32 := (seed.setWidth 64 * len).setWidth 32
  let r := hash32Loop m (ptrAdd data len.toNat) seed (len.toNat / 4 + 1) data h
  let rest := len % 4
  if rest ≠ 0 then (r.1 + decode m r.2 rest) * seed else r.1

/-- `Hash32(uint32_t, uint32_t)`. -/
def hash32OfUint32 (value seed : BitVec 32) : BitVec 32 :=
  let h : BitVec 32 := (seed.setWidth 64 * 4).setWidth 32
  (h + value) * seed

/-- `Hash32(uint64_t, uint32_t)`. -/
def hash32OfUint64 (value : BitVec 64) (seed : BitVec 32) : BitVec 32 :=
  let h : BitVec 32 := (seed.setWidth 64 * 8).setWidth 32
  let h : BitVec 32 := (h.setWidth 64 + (value &&& 0xffffffff)).setWidth 32
  let h := h * seed
  (h + (value >>> 32).setWidth 32) * seed

/-- The default of the parameter `seed`. -/
def defaultSeed : BitVec 32 := 4118054813

end XfUtil
