import Mathlib.Algebra.GroupWithZero.Nat
import XfUtil.Base.Loop
import XfUtil.Coding.Grammar
import XfUtil.Pack.Model

/-!
# Strings in malformed buffers

`DecodeString` adds the length it has read to the cursor and compares the sum
with the end. The sum is a pointer, so a length that takes it past the end of
the address space brings it back below the cursor, where the check accepts it.
-/

namespace XfUtil

open FlatMemory

/-! ## The length prefix -/

/-- The prefix read at `buf` is `len`, in the bytes up to `cursor`. -/
def LengthAt (m : Mem) (buf fin : Nat) (len : BitVec 64) (cursor : Nat) : Prop :=
  decodeVarint64 m buf fin = ⟨true, some len, cursor⟩

theorem LengthAt.bounds {m : Mem} {buf fin cursor : Nat} {len : BitVec 64}
    (h : LengthAt m buf fin len cursor) : buf < cursor ∧ cursor ≤ fin := by
  have hdecode : decodeVarint64 m buf fin = ⟨true, some len, cursor⟩ := h
  have hcursor := decodeVarint64_cursor (m := m) (by rw [hdecode])
  rwa [hdecode] at hcursor

/-- Either there is no prefix and the call fails, or the sum decides. -/
theorem decodeString_cases (m : Mem) (buf fin : Nat) :
    ((∀ len cursor, ¬ LengthAt m buf fin len cursor) ∧ (decodeString m buf fin).ok = false) ∨
      ∃ len cursor, LengthAt m buf fin len cursor ∧
        decodeString m buf fin =
          if fin < ptrAdd cursor len.toNat then ⟨false, none, cursor⟩
          else ⟨true, some ⟨cursor, len⟩, ptrAdd cursor len.toNat⟩ := by
  obtain ⟨len, hlen⟩ := decodeVarint64_value m buf fin
  cases hok : (decodeVarint64 m buf fin).ok with
  | false =>
      refine Or.inl ⟨fun len cursor h => ?_, ?_⟩
      · rw [h] at hok
        cases hok
      · simp [decodeString, hok]
  | true =>
      refine Or.inr ⟨len, (decodeVarint64 m buf fin).cursor, ?_, ?_⟩
      · rw [LengthAt, ← hok, ← hlen]
      · simp [decodeString, hok, hlen]

/-! ## One call -/

/-- What a call that starts at `buf` and returns true owes its caller: a view inside
the part of the buffer behind the length prefix, and a cursor that has moved on. -/
def Inside (m : Mem) (buf fin : Nat) (ok : Bool) (view : Option StrView) (cursor : Nat) : Prop :=
  ok = true → ∃ v, view = some v ∧ (decodeVarint64 m buf fin).cursor ≤ v.data ∧
    v.data + v.size.toNat ≤ fin ∧ buf < cursor ∧ cursor ≤ fin

def Contained (m : Mem) (buf fin : Nat) : Prop :=
  Inside m buf fin (decodeString m buf fin).ok (decodeString m buf fin).value
    (decodeString m buf fin).cursor

/-- The length read takes the cursor past the end of the address space. -/
def LengthWraps (m : Mem) (buf fin : Nat) : Prop :=
  ∃ len cursor, LengthAt m buf fin len cursor ∧ 2 ^ 64 ≤ cursor + len.toNat

theorem contained_iff (m : Mem) (buf : Nat) {fin : Nat} (hfin : fin < 2 ^ 64) :
    Contained m buf fin ↔ ¬ LengthWraps m buf fin := by
  obtain ⟨hnone, hok⟩ | ⟨len, cursor, hat, heq⟩ := decodeString_cases m buf fin
  · constructor
    · rintro - ⟨len, cursor, hat, -⟩
      exact hnone len cursor hat
    · intro _ h
      rw [hok] at h
      cases h
  · obtain ⟨hlt, hle⟩ := hat.bounds
    have hlen := len.isLt
    have hwraps : LengthWraps m buf fin ↔ 2 ^ 64 ≤ cursor + len.toNat := by
      constructor
      · rintro ⟨len', cursor', hat', hwrap⟩
        cases hat'.symm.trans hat
        exact hwrap
      · intro h
        exact ⟨len, cursor, hat, h⟩
    rw [hwraps, Contained, heq]
    by_cases hwrap : 2 ^ 64 ≤ cursor + len.toNat
    · have hsum : ptrAdd cursor len.toNat = cursor + len.toNat - 2 ^ 64 := by
        rw [ptrAdd, Nat.mod_eq_sub_mod hwrap, Nat.mod_eq_of_lt (by omega)]
      rw [if_neg (by omega)]
      constructor
      · intro h
        obtain ⟨v, hv, -, hin, -⟩ := h rfl
        cases hv
        dsimp only at hin
        omega
      · intro h
        exact absurd hwrap h
    · rw [ptrAdd_of_lt (by omega)]
      refine ⟨fun _ => hwrap, fun _ => ?_⟩
      by_cases hroom : fin < cursor + len.toNat
      · rw [if_pos hroom]
        intro h
        cases h
      · rw [if_neg hroom]
        intro _
        refine ⟨⟨cursor, len⟩, rfl, ?_, ?_, ?_, ?_⟩
        · rw [hat]
        · dsimp only
          omega
        · dsimp only
          omega
        · dsimp only
          omega

/-- A round of a loop that calls `DecodeString` until it fails. -/
def decodeStringRound (m : Mem) (fin buf : Nat) : Option Nat :=
  if (decodeString m buf fin).ok then some (decodeString m buf fin).cursor else none

theorem decodeStringRound_lt {m : Mem} {buf fin c : Nat} (h : Contained m buf fin)
    (hround : decodeStringRound m fin buf = some c) : fin - c < fin - buf := by
  unfold decodeStringRound at hround
  split at hround
  · rename_i hok
    cases hround
    obtain ⟨v, -, -, -, hlt, hle⟩ := h hok
    omega
  · cases hround

/-! ## `Unpack(StrView&)` -/

namespace Unpacker

/-- Where a call decodes: in the next block, if the current one has been read. -/
def entered (blocks : List Block) (u : Unpacker) : Unpacker :=
  if u.fin ≤ u.ptr then (nextBlock blocks u).1 else u

/-- Behind the last block the call decodes nothing; from an empty buffer neither does
`DecodeString`. -/
theorem unpackStr_eq (mem : Mem) (blocks : List Block) (u : Unpacker) :
    unpackStr mem blocks u =
      let e := u.entered blocks
      ⟨{ e with ptr := (decodeString mem e.ptr e.fin).cursor }, (decodeString mem e.ptr e.fin).ok,
        (decodeString mem e.ptr e.fin).value⟩ := by
  by_cases h : u.fin ≤ u.ptr
  · rw [unpackStr, unpackWith, if_pos h, entered, if_pos h]
    cases hnext : blocks[(u.idx + 1).toNat]? with
    | none => simp [nextBlock, hnext, emptyLiteral, decodeString, decodeVarint64, decodeVarintLoop]
    | some b => simp [nextBlock, hnext]
  · rw [unpackStr, unpackWith, if_neg h, entered, if_neg h]

def StrContained (mem : Mem) (blocks : List Block) (u : Unpacker) : Prop :=
  Inside mem (u.entered blocks).ptr (u.entered blocks).fin (unpackStr mem blocks u).ok
    (unpackStr mem blocks u).value (unpackStr mem blocks u).next.ptr

def StrWraps (mem : Mem) (blocks : List Block) (u : Unpacker) : Prop :=
  LengthWraps mem (u.entered blocks).ptr (u.entered blocks).fin

theorem entered_fin_lt (blocks : List Block) {u : Unpacker} (h : u.fin < 2 ^ 64) :
    (u.entered blocks).fin < 2 ^ 64 := by
  unfold entered nextBlock
  split
  · split
    · exact Nat.two_pow_pos 64
    · exact Nat.mod_lt _ (Nat.two_pow_pos 64)
  · exact h

theorem strContained_iff (mem : Mem) (blocks : List Block) {u : Unpacker} (h : u.fin < 2 ^ 64) :
    StrContained mem blocks u ↔ ¬ StrWraps mem blocks u := by
  rw [StrContained, unpackStr_eq]
  exact contained_iff mem _ (entered_fin_lt blocks h)

/-- A round of a loop that calls `Unpack(StrView&)` until it fails. -/
def unpackStrRound (mem : Mem) (blocks : List Block) (u : Unpacker) : Option Unpacker :=
  if (unpackStr mem blocks u).ok then some (unpackStr mem blocks u).next else none

/-- The bytes of the blocks behind the current one. -/
def ahead (blocks : List Block) (u : Unpacker) : Nat :=
  ((blocks.drop (u.idx + 1).toNat).map fun b => b.size.toNat).sum

/-- The bytes that an unpacker has not read. -/
def remaining (blocks : List Block) (u : Unpacker) : Nat := u.fin - u.ptr + u.ahead blocks

theorem remaining_entered (blocks : List Block) {u : Unpacker} (h : -1 ≤ u.idx) :
    remaining blocks (u.entered blocks) ≤ remaining blocks u := by
  unfold entered
  split
  · rename_i hend
    have hidx : (u.idx + 1 + 1).toNat = (u.idx + 1).toNat + 1 := by omega
    unfold nextBlock
    cases hnext : blocks[(u.idx + 1).toNat]? with
    | none =>
        have hlen := List.getElem?_eq_none_iff.mp hnext
        have hdrop : blocks.drop (u.idx + 1 + 1).toNat = [] :=
          List.drop_eq_nil_of_le (by omega)
        simp [remaining, ahead, hdrop]
    | some b =>
        have hdrop : blocks.drop (u.idx + 1).toNat = b :: blocks.drop (u.idx + 1 + 1).toNat := by
          rw [hidx]
          obtain ⟨hlt, hget⟩ := List.getElem?_eq_some_iff.mp hnext
          rw [List.drop_eq_getElem_cons hlt, hget]
        have hfin : ptrAdd b.buf b.size.toNat ≤ b.buf + b.size.toNat := Nat.mod_le _ _
        simp only [remaining, ahead, hdrop, List.map_cons, List.sum_cons]
        omega
  · exact le_rfl

theorem entered_idx_le (blocks : List Block) (u : Unpacker) : u.idx ≤ (u.entered blocks).idx := by
  unfold entered nextBlock
  split
  · split <;> exact Int.le_add_one le_rfl
  · exact le_rfl

theorem unpackStrRound_eq_some {mem : Mem} {blocks : List Block} {u u' : Unpacker}
    (h : unpackStrRound mem blocks u = some u') :
    (unpackStr mem blocks u).ok = true ∧
      u' = { u.entered blocks with ptr := (unpackStr mem blocks u).next.ptr } := by
  unfold unpackStrRound at h
  split at h
  · rename_i hok
    cases h
    refine ⟨hok, ?_⟩
    rw [unpackStr_eq]
  · cases h

theorem unpackStrRound_lt {mem : Mem} {blocks : List Block} {u u' : Unpacker} (hidx : -1 ≤ u.idx)
    (h : StrContained mem blocks u) (hround : unpackStrRound mem blocks u = some u') :
    remaining blocks u' < remaining blocks u := by
  obtain ⟨hok, rfl⟩ := unpackStrRound_eq_some hround
  obtain ⟨v, -, -, -, hlt, hle⟩ := h hok
  have hentered := remaining_entered blocks hidx
  unfold remaining at *
  have hahead : ahead blocks { u.entered blocks with ptr := (unpackStr mem blocks u).next.ptr } =
      ahead blocks (u.entered blocks) := rfl
  rw [hahead]
  dsimp only
  omega

/-- What holds of an unpacker whatever it has read. -/
structure Placed (u : Unpacker) : Prop where
  idx : -1 ≤ u.idx
  fin : u.fin < 2 ^ 64

theorem Placed.round {mem : Mem} {blocks : List Block} {u u' : Unpacker} (h : Placed u)
    (hround : unpackStrRound mem blocks u = some u') : Placed u' := by
  obtain ⟨-, rfl⟩ := unpackStrRound_eq_some hround
  exact ⟨h.idx.trans (entered_idx_le blocks u), entered_fin_lt blocks h.fin⟩

theorem Placed.visits {mem : Mem} {blocks : List Block} {u u' : Unpacker} (h : Placed u)
    (hvisits : Loop.Visits (unpackStrRound mem blocks) u u') : Placed u' := by
  obtain ⟨n, hn⟩ := hvisits
  induction n generalizing u with
  | zero =>
      cases hn
      exact h
  | succ n ih =>
      obtain ⟨v, hv, hrest⟩ := Loop.rounds_succ_eq_some.mp hn
      exact ih (h.round hv) hrest

/-! ## Loops over malformed input -/

/-- Every call of a loop over one buffer stays inside, and the loop ends. -/
structure StringsEnd (m : Mem) (fin buf : Nat) : Prop where
  contained : ∀ c, Loop.Visits (decodeStringRound m fin) buf c → Contained m c fin
  ends : ∃ n, n ≤ fin - buf ∧ ∃ c, Loop.EndsIn (decodeStringRound m fin) n buf c

/-- The same for `Unpack(StrView&)`; the loop makes no more calls in a block than the
block has bytes left. -/
structure StrsEnd (mem : Mem) (blocks : List Block) (u : Unpacker) : Prop where
  contained : ∀ u', Loop.Visits (unpackStrRound mem blocks) u u' → StrContained mem blocks u'
  within : ∀ n u', Loop.rounds (unpackStrRound mem blocks) n u = some u' → u'.idx = u.idx →
    n ≤ u.fin - u.ptr
  ends : ∃ n, n ≤ remaining blocks u ∧ ∃ u', Loop.EndsIn (unpackStrRound mem blocks) n u u'

theorem stringsEnd_of_contained {m : Mem} {fin buf : Nat}
    (h : ∀ c, Loop.Visits (decodeStringRound m fin) buf c → Contained m c fin) :
    StringsEnd m fin buf := by
  refine ⟨h, ?_⟩
  apply Loop.endsIn_of_measure
  intro c hc c' hround
  exact decodeStringRound_lt (h c hc) hround

theorem strsEnd_of_contained {mem : Mem} {blocks : List Block} {u : Unpacker} (hu : Placed u)
    (h : ∀ u', Loop.Visits (unpackStrRound mem blocks) u u' → StrContained mem blocks u') :
    StrsEnd mem blocks u := by
  have hlt : ∀ t, Loop.Visits (unpackStrRound mem blocks) u t → ∀ t',
      unpackStrRound mem blocks t = some t' → remaining blocks t' < remaining blocks t := by
    intro t ht t' hround
    exact unpackStrRound_lt (hu.visits ht).idx (h t ht) hround
  refine ⟨h, fun n u' hn hidx => ?_, Loop.endsIn_of_measure hlt⟩
  have hle := Loop.rounds_le hn hlt
  have hahead : ahead blocks u' = ahead blocks u := by rw [ahead, ahead, hidx]
  unfold remaining at hle
  omega

/-- A call leaves its buffer exactly when the length read wraps the sum; where no call
does, the loops over one buffer and over the blocks of an unpacker end. -/
theorem contained_iff_not_lengthWraps (m : Mem) {fin : Nat} (hfin : fin < 2 ^ 64) (buf : Nat)
    (blocks : List Block) {u : Unpacker} (hu : Placed u) :
    (Contained m buf fin ↔ ¬ LengthWraps m buf fin) ∧
      (StringsEnd m fin buf ↔
        ∀ c, Loop.Visits (decodeStringRound m fin) buf c → ¬ LengthWraps m c fin) ∧
      (StrContained m blocks u ↔ ¬ StrWraps m blocks u) ∧
      (StrsEnd m blocks u ↔
        ∀ u', Loop.Visits (unpackStrRound m blocks) u u' → ¬ StrWraps m blocks u') := by
  refine ⟨contained_iff m buf hfin, ⟨fun h c hc => ?_, fun h => ?_⟩,
    strContained_iff m blocks hu.fin, ⟨fun h u' hu' => ?_, fun h => ?_⟩⟩
  · exact (contained_iff m c hfin).mp (h.contained c hc)
  · exact stringsEnd_of_contained fun c hc => (contained_iff m c hfin).mpr (h c hc)
  · exact (strContained_iff m blocks (hu.visits hu').fin).mp (h.contained u' hu')
  · exact strsEnd_of_contained hu fun u' hu' =>
      (strContained_iff m blocks (hu.visits hu').fin).mpr (h u' hu')

/-- A ten-byte buffer with the varint of `2 ^ 64 - 10`. -/
def wrappingMem : Mem :=
  write (fun _ => 0) 1000 [0xf6, 0xff, 0xff, 0xff, 0xff, 0xff, 0xff, 0xff, 0xff, 0x01]

theorem contained_iff_not_lengthWraps_tenBytes :
    (Contained wrappingMem 1000 1009 ↔ ¬ LengthWraps wrappingMem 1000 1009) ∧
      (StringsEnd wrappingMem 1009 1000 ↔
        ∀ c, Loop.Visits (decodeStringRound wrappingMem 1009) 1000 c →
          ¬ LengthWraps wrappingMem c 1009) ∧
      (StrContained wrappingMem [⟨1000, 4096, 9⟩] (new [⟨1000, 4096, 9⟩]) ↔
        ¬ StrWraps wrappingMem [⟨1000, 4096, 9⟩] (new [⟨1000, 4096, 9⟩])) ∧
      (StrsEnd wrappingMem [⟨1000, 4096, 9⟩] (new [⟨1000, 4096, 9⟩]) ↔
        ∀ u', Loop.Visits (unpackStrRound wrappingMem [⟨1000, 4096, 9⟩])
          (new [⟨1000, 4096, 9⟩]) u' → ¬ StrWraps wrappingMem [⟨1000, 4096, 9⟩] u') :=
  contained_iff_not_lengthWraps wrappingMem (by decide) 1000 [⟨1000, 4096, 9⟩]
    ⟨by decide, by decide⟩

/-- The sum comes back to where the call started: the view covers the rest of the address
space and wraps, the cursor has not moved, and a loop of such calls does not end. -/
theorem string_outside_buffer :
    ¬ Contained wrappingMem 1000 1010 ∧
      (∀ n c, ¬ Loop.EndsIn (decodeStringRound wrappingMem 1010) n 1000 c) ∧
      ¬ StrContained wrappingMem [⟨1000, 4096, 10⟩] (new [⟨1000, 4096, 10⟩]) ∧
      ∀ n u, ¬ Loop.EndsIn (unpackStrRound wrappingMem [⟨1000, 4096, 10⟩]) n
        (new [⟨1000, 4096, 10⟩]) u := by
  have hcall : decodeString wrappingMem 1000 1010 =
      ⟨true, some ⟨1010, 18446744073709551606⟩, 1000⟩ := by decide +kernel
  have hout : ¬ Contained wrappingMem 1000 1010 := by
    intro h
    obtain ⟨v, -, -, -, hlt, -⟩ := h (by rw [hcall])
    rw [hcall] at hlt
    exact Nat.lt_irrefl 1000 hlt
  have hentered : (new [⟨1000, 4096, 10⟩]).entered [⟨1000, 4096, 10⟩] = ⟨0, 1000, 1010⟩ := rfl
  have hunpack : unpackStr wrappingMem [⟨1000, 4096, 10⟩] (new [⟨1000, 4096, 10⟩]) =
      ⟨⟨0, 1000, 1010⟩, true, some ⟨1010, 18446744073709551606⟩⟩ := by
    rw [unpackStr_eq, hentered]
    simp only [hcall]
  refine ⟨hout, ?_, ?_, ?_⟩
  · apply Loop.not_endsIn_of_fixed
    rw [decodeStringRound, hcall]
    rfl
  · intro h
    obtain ⟨v, -, -, -, hlt, -⟩ := h (by rw [hunpack])
    rw [hunpack, hentered] at hlt
    exact Nat.lt_irrefl 1000 hlt
  · apply Loop.not_endsIn_of_fixed
    rw [unpackStrRound, hunpack]
    rfl

end Unpacker

end XfUtil
