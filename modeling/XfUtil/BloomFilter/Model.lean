import XfUtil.Base.BitTable

/-!
# `BloomFilter`

The constructor derives the number of probes from a floating-point product; the
cast of that product is the parameter `product`. `none` is a division by zero.
-/

namespace XfUtil

open BitTable

/-- `m_k_num` of the constructor. -/
def probeCount (product : BitVec 32 → BitVec 32) (bitnumPerkey : BitVec 32) : BitVec 32 :=
  if product bitnumPerkey < 1 then 1
  else if product bitnumPerkey > 30 then 30
  else product bitnumPerkey

/-- No member changes `m_k_num` after the constructor. -/
structure BloomFilter (product : BitVec 32 → BitVec 32) where
  bitnumPerkey : BitVec 32
  kNum : BitVec 32
  data : List (BitVec 8)
  kNum_eq : kNum = probeCount product bitnumPerkey

namespace BloomFilter

variable {product : BitVec 32 → BitVec 32}

def new (product : BitVec 32 → BitVec 32) (bitnumPerkey : BitVec 32) : BloomFilter product :=
  ⟨bitnumPerkey, probeCount product bitnumPerkey, [], rfl⟩

/-- `Attach`. -/
def attach (f : BloomFilter product) (data : List (BitVec 8)) : BloomFilter product :=
  { f with data := data }

/-- `std::string::resize`. -/
def resize (data : List (BitVec 8)) (n : Nat) : List (BitVec 8) :=
  data.take n ++ List.replicate (n - data.length) 0

/-- `hc % total_bits`, a 64-bit remainder that is narrowed to 32 bits. -/
def bitPos (hc : BitVec 32) (totalBits : BitVec 64) : BitVec 32 :=
  (hc.setWidth 64 % totalBits).setWidth 32

/-- `(hc >> 1) | (hc << 31)`. -/
def rotate (hc : BitVec 32) : BitVec 32 := (hc >>> 1) ||| (hc <<< 31)

/-- The inner loop of `Create`; the number is that of the probes left. -/
def insertLoop (totalBits : BitVec 64) : Nat → BitVec 32 → List (BitVec 8) → List (BitVec 8)
  | 0, _, data => data
  | j + 1, hc, data =>
      insertLoop totalBits j (rotate hc) (setBit data (bitPos hc totalBits).toNat)

/-- `total_bytes` for `count` keys. -/
def totalBytes (count : BitVec 64) (bitnumPerkey : BitVec 32) : BitVec 64 :=
  (count * bitnumPerkey.setWidth 64 + 7) / 8

/-- `Create(const uint32_t*, uint32_t)`. -/
def create (f : BloomFilter product) (hashPtr : Nat → BitVec 32) (count : BitVec 32) :
    Option (BloomFilter product × Bool) :=
  if count = 0 then some (f, false)
  else
    let bytes := totalBytes (count.setWidth 64) f.bitnumPerkey
    let totalBits := bytes * 8
    if totalBits = 0 then none
    else
      let data := (List.range count.toNat).foldl
        (fun data i => insertLoop totalBits f.kNum.toNat (hashPtr i) data)
        (resize f.data bytes.toNat)
      some ({ f with data := data }, true)

/-- The outer loop over a deque, which it empties. -/
def popLoop (totalBits : BitVec 64) (kNum : Nat) :
    List (BitVec 32) → List (BitVec 8) → List (BitVec 8) × List (BitVec 32)
  | [], data => (data, [])
  | hc :: hashs, data => popLoop totalBits kNum hashs (insertLoop totalBits kNum hc data)

/-- `Create(std::deque<uint32_t>&)`, with what it leaves of the deque. -/
def createDeque (f : BloomFilter product) (hashs : List (BitVec 32)) :
    Option (BloomFilter product × Bool × List (BitVec 32)) :=
  if hashs = [] then some (f, false, hashs)
  else
    let bytes := totalBytes (BitVec.ofNat 64 hashs.length) f.bitnumPerkey
    let totalBits := bytes * 8
    if totalBits = 0 then none
    else
      let r := popLoop totalBits f.kNum.toNat hashs (resize f.data bytes.toNat)
      some ({ f with data := r.1 }, true, r.2)

/-- The loop of `Check`. -/
def checkLoop (data : List (BitVec 8)) (totalBits : BitVec 64) : Nat → BitVec 32 → Bool
  | 0, _ => true
  | j + 1, hc =>
      let pos := (bitPos hc totalBits).toNat
      if data[pos / 8]?.getD 0 &&& 1#8 <<< (pos % 8) = 0 then false
      else checkLoop data totalBits j (rotate hc)

def check (f : BloomFilter product) (hc : BitVec 32) : Bool :=
  if f.data = [] then true
  else checkLoop f.data (BitVec.ofNat 64 f.data.length * 8) f.kNum.toNat hc

end BloomFilter

end XfUtil
