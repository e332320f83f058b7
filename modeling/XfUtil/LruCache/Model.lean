import XfUtil.Base.IndexedList
import XfUtil.Base.Machine

/-!
# The two-tier LRU cache

`LruCache<Key, Value>`: every call holds the mutex throughout, so a call is one
step. A `std::list` is a list of nodes with addresses, an iterator is such an
address, and dereferencing an iterator that no longer designates a node of its
list yields `none`.
-/

namespace XfUtil

open IndexedList

variable {K V : Type*}

structure LruNode (K V : Type*) where
  key : K
  value : V
  valueSize : BitVec 64

/-- The size counter, list and map of one tier (`m_hot_*` or `m_cold_*`). -/
structure Tier (K V : Type*) where
  size : BitVec 64
  list : Cells (LruNode K V)
  map : K → Option Nat
  /-- Ghost: some subtraction from `size` has wrapped around. -/
  borrowed : Bool

namespace Tier

def empty : Tier K V := ⟨0, [], fun _ => none, false⟩

def credit (t : Tier K V) (n : BitVec 64) : Tier K V := { t with size := t.size + n }

def debit (t : Tier K V) (n : BitVec 64) : Tier K V :=
  { t with size := t.size - n, borrowed := t.borrowed || decide (t.size < n) }

/-- Sum of `value_size` over the entries of the list. -/
def total (t : Tier K V) : Nat := (t.list.map fun c => c.2.valueSize.toNat).sum

/-- Some entry of the list has this key. -/
def Holds (t : Tier K V) (k : K) : Prop := ∃ c ∈ t.list, c.2.key = k

variable [DecidableEq K]

/-- `push_front` and indexing the new node under its key. -/
def push (t : Tier K V) (id : Nat) (n : LruNode K V) : Tier K V :=
  { t with list := (id, n) :: t.list, map := Function.update t.map n.key (some id) }

/-- The body shared by both reserve loops: uncount, unindex and drop the last node. -/
def dropBack (t : Tier K V) (n : LruNode K V) : Tier K V :=
  { t.debit n.valueSize with
    map := Function.update t.map n.key none
    list := t.list.dropLast }

/-- Uncount, unlink and unindex the node an iterator of the map designates. -/
def remove (t : Tier K V) (k : K) (it : Nat) : Option (LruNode K V × Tier K V) :=
  match deref t.list it with
  | none => none
  | some n =>
      some (n, { t.debit n.valueSize with
        list := IndexedList.erase t.list it
        map := Function.update t.map k none })

/-- Replace the node at `it` by a new one at the front, keeping the map entry. -/
def renew (t : Tier K V) (k : K) (it id : Nat) (n : LruNode K V) : Tier K V :=
  { t with
    list := (id, n) :: IndexedList.erase t.list it
    map := Function.update t.map k (some id) }

end Tier

structure LruCache (K V : Type*) where
  maxHotSize : BitVec 64
  maxColdSize : BitVec 64
  hitCount : BitVec 64
  missCount : BitVec 64
  hot : Tier K V
  cold : Tier K V
  /-- Address of the next list node. -/
  nextNode : Nat

namespace LruCache

/-- Rounding to the 53 significant bits of a double, ties to even. -/
def round53 (n : Nat) : Nat :=
  let e := n.log2 - 52
  let q := n / 2 ^ e
  let r := n % 2 ^ e
  (if 2 ^ e < 2 * r ∨ (2 * r = 2 ^ e ∧ q % 2 = 1) then q + 1 else q) * 2 ^ e

/-- `max_size*0.6` truncated to `size_t`: the double nearest to 0.6 is
`5404319552844595 / 2 ^ 53`, and both the conversion and the product round. -/
def hotShare (maxSize : BitVec 64) : BitVec 64 :=
  BitVec.ofNat 64 (round53 (round53 maxSize.toNat * 5404319552844595) / 2 ^ 53)

example : hotShare 10 = 6 := by decide

def new (maxSize : BitVec 64) : LruCache K V :=
  { maxHotSize := hotShare maxSize
    maxColdSize := maxSize - hotShare maxSize
    hitCount := 0
    missCount := 0
    hot := Tier.empty
    cold := Tier.empty
    nextNode := 0 }

/-- `Size()`. -/
def size (c : LruCache K V) : BitVec 64 := c.hot.size + c.cold.size

variable [DecidableEq K]

/-- `ReserveColdList`; the fuel is the list's length, which each round shortens. -/
def reserveColdList (maxSize valueSize : BitVec 64) : Nat → Tier K V → Tier K V
  | 0, t => t
  | fuel + 1, t =>
      match t.list.getLast? with
      | none => t
      | some (_, n) =>
          if t.size + valueSize > maxSize then
            reserveColdList maxSize valueSize fuel (t.dropBack n)
          else t

/-- One round of `ReserveHotList`: the last hot node `n` becomes the first cold
node. When its key is in the cold map, `insert` does nothing and the node
already indexed there is dropped in favour of the new one. -/
def demote (c : LruCache K V) (n : LruNode K V) : Option (LruCache K V) :=
  let hot := c.hot.dropBack n
  let cold := c.cold.credit n.valueSize
  match cold.map n.key with
  | none =>
      some { c with hot := hot, cold := cold.push c.nextNode n, nextNode := c.nextNode + 1 }
  | some it =>
      match deref ((c.nextNode, n) :: cold.list) it with
      | none => none
      | some old =>
          some { c with
            hot := hot
            cold := { cold.debit old.valueSize with
              list := IndexedList.erase ((c.nextNode, n) :: cold.list) it
              map := Function.update cold.map n.key (some c.nextNode) }
            nextNode := c.nextNode + 1 }

/-- `ReserveHotList`; the fuel is the hot list's length. -/
def reserveHotList (valueSize : BitVec 64) : Nat → LruCache K V → Option (LruCache K V)
  | 0, c => some c
  | fuel + 1, c =>
      match c.hot.list.getLast? with
      | none => some c
      | some (_, n) =>
          if c.hot.size + valueSize > c.maxHotSize then
            match c.demote n with
            | none => none
            | some d => reserveHotList valueSize fuel d
          else some c

def add (c : LruCache K V) (k : K) (v : V) (valueSize : BitVec 64) : LruCache K V :=
  let cold := reserveColdList c.maxColdSize valueSize c.cold.list.length c.cold
  -- Only the cold map is searched for an entry that exists already.
  match cold.map k with
  | some _ => { c with cold := cold }
  | none =>
      { c with
        cold := (cold.push c.nextNode ⟨k, v, valueSize⟩).credit valueSize
        nextNode := c.nextNode + 1 }

/-- `Get`, with the value it stores when it returns true. -/
def get (c : LruCache K V) (k : K) : Option (LruCache K V × Option V) :=
  match c.hot.map k with
  | some it =>
      match deref c.hot.list it with
      | none => none
      | some n =>
          some ({ c with
            hitCount := c.hitCount + 1
            hot := c.hot.renew k it c.nextNode n
            nextNode := c.nextNode + 1 }, some n.value)
  | none =>
      match c.cold.map k with
      | some it =>
          match c.cold.remove k it with
          | none => none
          | some (n, cold) =>
              match reserveHotList n.valueSize c.hot.list.length
                  { c with hitCount := c.hitCount + 1, cold := cold } with
              | none => none
              | some d =>
                  -- The promoted node is linked and indexed; `m_hot_size` stays as it is.
                  some ({ d with
                    hot := d.hot.push d.nextNode n
                    nextNode := d.nextNode + 1 }, some n.value)
      | none => some ({ c with missCount := c.missCount + 1 }, none)

/-- `Delete`, with what it returns. -/
def delete (c : LruCache K V) (k : K) : Option (LruCache K V × Bool) :=
  match c.hot.map k with
  | some it => (c.hot.remove k it).map fun r => ({ c with hot := r.2 }, true)
  | none =>
      match c.cold.map k with
      | some it => (c.cold.remove k it).map fun r => ({ c with cold := r.2 }, true)
      | none => some (c, false)

/-- The calls that change a cache. -/
inductive Op (K V : Type*) where
  | add (k : K) (v : V) (valueSize : BitVec 64)
  | get (k : K)
  | delete (k : K)

/-- One call; `none` would be the use of an iterator that designates no node. -/
def step : Machine.Step (LruCache K V) (Op K V)
  | c, .add k v valueSize => some (c.add k v valueSize)
  | c, .get k => (c.get k).map Prod.fst
  | c, .delete k => (c.delete k).map Prod.fst

end LruCache

end XfUtil
