import XfUtil.Base.Decimal

/-!
# Dates and times of `time.cpp`

A date and a time of day are packed into 32 bits each, together into 64. A `char*` that
is parsed is the bytes in front of a terminator; zeros may stand among them.
-/

namespace XfUtil

open FlatMemory Decimal

namespace DateTime

def colon : Byte := 0x3A#8
def dash : Byte := 0x2D#8
def space : Byte := 0x20#8

/-- `buf[i]`; behind the bytes stands the terminator. -/
def charAt (buf : List Byte) (i : Nat) : Byte := buf[i]?.getD 0

/-! ## Parsing -/

/-- `strtol(buf, nullptr, 10)`, assigned to a `uint32_t`. -/
def parseField (buf : List Byte) : BitVec 32 := BitVec.ofInt 32 (strtol buf)

/-- `ParseTime`. -/
def parseTime (buf : List Byte) (bufLen : Int) : BitVec 32 :=
  if bufLen ≠ 8 ∨ charAt buf 2 ≠ colon ∨ charAt buf 5 ≠ colon then -1
  else
    let h := parseField buf
    let m := parseField (buf.drop 3)
    let s := parseField (buf.drop 6)
    (h <<< 12) ||| (m <<< 6) ||| s

/-- `ParseDate`. -/
def parseDate (buf : List Byte) (bufLen : Int) : BitVec 32 :=
  if bufLen ≠ 10 ∨ charAt buf 4 ≠ dash ∨ charAt buf 7 ≠ dash then -1
  else
    let y := parseField buf
    let m := parseField (buf.drop 5)
    let d := parseField (buf.drop 8)
    (y <<< 9) ||| (m <<< 5) ||| d

/-- `ParseDateTime`. -/
def parseDateTime (buf : List Byte) (bufLen : Int) : BitVec 64 :=
  if bufLen ≠ 19 ∨ charAt buf 10 ≠ space then -1
  else
    let d := parseDate buf 10
    if d = -1 then -1
    else
      let t := parseTime (buf.drop 11) 8
      if t = -1 then -1
      else (d.setWidth 64 <<< 32) ||| t.setWidth 64

/-! ## Formatting -/

/-- `FormatTime`, with what it returns. -/
def formatTime (mem : Mem) (buf : Nat) (bufLen : Int) (time : BitVec 32) : Mem × Int :=
  if bufLen < 8 then (mem, -1)
  else
    let h := time >>> 12
    let m := (time >>> 6) &&& 63
    let s := time &&& 63
    Format.snprintf mem buf bufLen.toNat
      (padded 2 h.toNat ++ colon :: (padded 2 m.toNat ++ colon :: padded 2 s.toNat))

/-- `FormatDate`; the mask of the month is 16. -/
def formatDate (mem : Mem) (buf : Nat) (bufLen : Int) (date : BitVec 32) : Mem × Int :=
  if bufLen < 10 then (mem, -1)
  else
    let y := date >>> 9
    let m := (date >>> 5) &&& 16
    let d := date &&& 31
    Format.snprintf mem buf bufLen.toNat
      (padded 4 y.toNat ++ dash :: (padded 2 m.toNat ++ dash :: padded 2 d.toNat))

/-- `FormatDateTime`; the sizes that it passes on leave no room for the terminators. -/
def formatDateTime (mem : Mem) (buf : Nat) (bufLen : Int) (dt : BitVec 64) : Mem × Int :=
  if bufLen < 19 then (mem, -1)
  else
    let date := (dt >>> 32).setWidth 32
    let time := dt.setWidth 32
    let r1 := formatDate mem buf 10 date
    let r2 := formatTime (store r1.1 (buf + 10) space) (buf + 11) 8 time
    (r2.1, r1.2 + r2.2)

end DateTime

end XfUtil
