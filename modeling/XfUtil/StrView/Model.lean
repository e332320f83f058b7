import XfUtil.Base.Lexicographic
import XfUtil.Coding.Model

/-!
# `StrView`

A view is an address and a size; its functions read the bytes where they are. Of
`memcmp` only the sign of the answer is given, so it is a parameter.
-/

namespace XfUtil

open FlatMemory

/-- `memcmp`: the sign is that of the difference of the first bytes that differ. -/
structure Memcmp where
  run : List Byte → List Byte → Int
  same : ∀ xs, run xs xs = 0
  below : ∀ (front : List Byte) {a b : Byte} (xs ys : List Byte), a.toNat < b.toNat →
    run (front ++ a :: xs) (front ++ b :: ys) < 0
  above : ∀ (front : List Byte) {a b : Byte} (xs ys : List Byte), b.toNat < a.toNat →
    0 < run (front ++ a :: xs) (front ++ b :: ys)

namespace StrView

variable (memcmp : Memcmp) (m : Mem)

/-! ## Comparing -/

/-- `Compare`. -/
def compare (v dst : StrView) : Int :=
  let minSize := min v.size.toNat dst.size.toNat
  let ret := memcmp.run (read m v.data minSize) (read m dst.data minSize)
  if ret = 0 then
    if v.size < dst.size then -1
    else if dst.size < v.size then 1
    else ret
  else ret

/-- `operator==`. -/
def equals (v dst : StrView) : Bool :=
  v.size = dst.size ∧
    memcmp.run (read m v.data dst.size.toNat) (read m dst.data dst.size.toNat) = 0

/-- `StartWith`. -/
def startWith (v str : StrView) : Bool :=
  str.size ≤ v.size ∧
    memcmp.run (read m v.data str.size.toNat) (read m str.data str.size.toNat) = 0

/-- The loop of `GetPrefixLength` with so many rounds left. -/
def prefixLoop (data strData : Nat) (i : BitVec 32) : Nat → BitVec 32
  | 0 => i
  | rounds + 1 =>
      if m (data + i.toNat) ≠ m (strData + i.toNat) then i
      else prefixLoop data strData (i + 1) rounds

/-- `GetPrefixLength`; the smaller size is cut to 32 bits. -/
def getPrefixLength (v str : StrView) : BitVec 32 :=
  let minLen := BitVec.ofNat 32 (min v.size.toNat str.size.toNat)
  prefixLoop m v.data str.data 0 minLen.toNat

/-! ## Trimming -/

def blank : Byte := 0x20#8

/-- `for(skip = 0; skip < size; ++skip, …) if(*ptr > ' ') break;` with so many rounds left,
where `ptr` takes the given places; `char` is signed. -/
def skipLoop (place : Nat → Nat) (skip : Nat) : Nat → Nat
  | 0 => skip
  | rounds + 1 =>
      if blank.slt (m (place skip)) then skip else skipLoop place (skip + 1) rounds

/-- `TrimLeft`. -/
def trimLeft (v : StrView) : StrView :=
  let skip := skipLoop m (fun i => v.data + i) 0 v.size.toNat
  ⟨v.data + skip, v.size - BitVec.ofNat 64 skip⟩

/-- `TrimRight`. -/
def trimRight (v : StrView) : StrView :=
  let last := v.data + v.size.toNat - 1
  let skip := skipLoop m (fun i => last - i) 0 v.size.toNat
  ⟨v.data, v.size - BitVec.ofNat 64 skip⟩

end StrView

end XfUtil
