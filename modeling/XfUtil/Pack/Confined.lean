import XfUtil.Pack.Malformed

/-!
# Unpacking bytes that nobody has packed

Whatever the blocks hold and whatever types are asked for, the calls of an `Unpacker` read the
bytes of its blocks only, unless a string's length takes the cursor around the address space.
-/

namespace XfUtil

open FlatMemory

/-! ## Decoders -/

/-- A conversion that is made after a success only. -/
def Decoded.mapOk {α β : Type} (f : α → β) (d : Decoded α) : Decoded β :=
  if d.ok then d.map f else ⟨false, none, d.cursor⟩

/-- What `d` has read of `buf` up to `fin`. -/
structure Decoded.Forward {α : Type} (d : Decoded α) (buf fin : Nat) : Prop where
  le : buf ≤ d.cursor
  cursor_le : d.cursor ≤ fin
  lt : d.ok = true → buf < d.cursor

/-- Two memories with the same bytes from `buf` up to `fin`. -/
def Agree (buf fin : Nat) (m m' : Mem) : Prop := ∀ a, buf ≤ a → a < fin → m a = m' a

section Decoders

variable {α β : Type} {m m' : Mem} {buf fin : Nat}

theorem Decoded.Forward.map {d : Decoded α} (h : d.Forward buf fin) (f : α → β) :
    (d.map f).Forward buf fin :=
  ⟨h.le, h.cursor_le, h.lt⟩

theorem Decoded.Forward.mapOk {d : Decoded α} (h : d.Forward buf fin) (f : α → β) :
    (d.mapOk f).Forward buf fin := by
  unfold Decoded.mapOk
  split
  · exact h.map f
  · exact ⟨h.le, h.cursor_le, by simp⟩

theorem decodeVarintLoop_forward (rounds shift : Nat) (v : BitVec 64) (hle : buf ≤ fin) :
    (decodeVarintLoop m fin rounds shift v buf).Forward buf fin := by
  induction rounds generalizing shift v buf with
  | zero => exact ⟨le_rfl, hle, by simp [decodeVarintLoop]⟩
  | succ rounds ih =>
      rw [decodeVarintLoop]
      split
      · rename_i hcond
        dsimp only
        split
        · have hnext : buf + 1 ≤ fin := hcond.2
          have hrest := ih (shift + 7) (v ||| (((m buf).setWidth 64 &&& 0x7f#64) <<< shift))
            hnext
          exact ⟨by have := hrest.le; omega, hrest.cursor_le, fun _ => hrest.le⟩
        · exact ⟨Nat.le_succ buf, hcond.2, fun _ => Nat.lt_succ_self buf⟩
      · exact ⟨le_rfl, hle, by simp⟩

theorem decodeVarintLoop_congr (h : Agree buf fin m m') (rounds shift : Nat) (v : BitVec 64) :
    decodeVarintLoop m fin rounds shift v buf = decodeVarintLoop m' fin rounds shift v buf := by
  induction rounds generalizing shift v buf with
  | zero => rfl
  | succ rounds ih =>
      rw [decodeVarintLoop, decodeVarintLoop]
      by_cases hcond : shift < 64 ∧ buf < fin
      · rw [if_pos hcond, if_pos hcond, h buf le_rfl hcond.2]
        have hrest : Agree (buf + 1) fin m m' := fun a ha => h a (by omega)
        dsimp only
        rw [ih hrest]
      · rw [if_neg hcond, if_neg hcond]

theorem decodeVarint64_forward (m : Mem) (hle : buf ≤ fin) :
    (decodeVarint64 m buf fin).Forward buf fin :=
  decodeVarintLoop_forward 10 0 0 hle

theorem decodeVarint64_congr (h : Agree buf fin m m') :
    decodeVarint64 m buf fin = decodeVarint64 m' buf fin :=
  decodeVarintLoop_congr h 10 0 0

theorem decodeFixed_forward {w n : Nat} (m : Mem) (hle : buf ≤ fin) (hpos : 0 < n) (hn : n ≤ 8)
    (hfin : fin + 8 < 2 ^ 64) : (decodeFixed w n m buf fin).Forward buf fin := by
  have hsum : ptrAdd buf n = buf + n := ptrAdd_of_lt (by omega)
  unfold decodeFixed
  rw [hsum]
  split
  · rename_i hroom
    exact ⟨Nat.le_add_right _ _, hroom, fun _ => Nat.lt_add_of_pos_right hpos⟩
  · exact ⟨le_rfl, hle, by simp⟩

theorem loadFixed_congr {w n : Nat} (h : Agree buf (buf + n) m m') :
    loadFixed w m buf n = loadFixed w m' buf n := by
  induction n with
  | zero => rfl
  | succ n ih =>
      have hfront : Agree buf (buf + n) m m' := fun a ha ha' => h a ha (by omega)
      rw [loadFixed, loadFixed, ih hfront, h (buf + n) (by omega) (by omega)]

theorem decodeFixed_congr {w n : Nat} (h : Agree buf fin m m') (hle : buf ≤ fin) (hn : n ≤ 8)
    (hfin : fin + 8 < 2 ^ 64) : decodeFixed w n m buf fin = decodeFixed w n m' buf fin := by
  have hsum : ptrAdd buf n = buf + n := ptrAdd_of_lt (by omega)
  unfold decodeFixed
  rw [hsum]
  split
  · have hload : Agree buf (buf + n) m m' := fun a ha ha' => h a ha (by omega)
    rw [loadFixed_congr hload]
  · rfl

theorem decodeString_congr (h : Agree buf fin m m') :
    decodeString m buf fin = decodeString m' buf fin := by
  rw [decodeString, decodeVarint64_congr h, decodeString]

theorem decodeString_forward (hle : buf ≤ fin) (hwraps : ¬ LengthWraps m buf fin) :
    (decodeString m buf fin).Forward buf fin := by
  have hvarint := decodeVarint64_forward m hle
  rcases decodeString_cases m buf fin with ⟨-, hok⟩ | ⟨len, cursor, hat, heq⟩
  · have hcursor : (decodeString m buf fin).cursor = (decodeVarint64 m buf fin).cursor := by
      simp only [decodeString] at hok ⊢
      split
      · rename_i hread hlen
        split
        · rfl
        · rename_i hroom
          simp [hread, hlen, hroom] at hok
      · rfl
    exact ⟨hcursor ▸ hvarint.le, hcursor ▸ hvarint.cursor_le, by simp [hok]⟩
  · obtain ⟨hlt, hcursor⟩ := hat.bounds
    have hnowrap : ¬ 2 ^ 64 ≤ cursor + len.toNat := fun h => hwraps ⟨len, cursor, hat, h⟩
    rw [heq, ptrAdd_of_lt (by omega)]
    split
    · exact ⟨hlt.le, hcursor, by simp⟩
    · exact ⟨by dsimp only; omega, by dsimp only; omega, fun _ => by dsimp only; omega⟩

end Decoders

namespace Unpacker

/-! ## The decoder of each overload -/

def decoder (m : Mem) : Ty → Nat → Nat → Decoded (Value StrView)
  | .bool => fun buf fin => (decodeFixed8 m buf fin).map fun v => .bool (v ≠ 0)
  | .int8 => fun buf fin => (decodeFixed8 m buf fin).map .int8
  | .uint8 => fun buf fin => (decodeFixed8 m buf fin).map .uint8
  | .int16 => fun buf fin => (decodeVarint16 m buf fin).mapOk fun v => .int16 (decodeZigZag16 v)
  | .uint16 => fun buf fin => (decodeVarint16 m buf fin).map .uint16
  | .fixed16 => fun buf fin => (decodeFixed16 m buf fin).map .fixed16
  | .int32 => fun buf fin => (decodeVarint32 m buf fin).mapOk fun v => .int32 (decodeZigZag32 v)
  | .uint32 => fun buf fin => (decodeVarint32 m buf fin).map .uint32
  | .fixed32 => fun buf fin => (decodeFixed32 m buf fin).map .fixed32
  | .int64 => fun buf fin => (decodeVarint64 m buf fin).mapOk fun v => .int64 (decodeZigZag64 v)
  | .uint64 => fun buf fin => (decodeVarint64 m buf fin).map .uint64
  | .fixed64 => fun buf fin => (decodeFixed64 m buf fin).map .fixed64
  | .float => fun buf fin => (decodeFixed32 m buf fin).map .float
  | .double => fun buf fin => (decodeFixed64 m buf fin).map .double
  | .str => fun buf fin => (decodeString m buf fin).map .str

variable {mem mem' : Mem} {blocks : List Block} {u : Unpacker}

theorem unpackWith_map {α β : Type} (dec : Nat → Nat → Decoded α) (f : α → β) :
    (unpackWith dec blocks u).map f =
      unpackWith (fun buf fin => (dec buf fin).map f) blocks u := by
  unfold unpackWith
  split
  · cases nextBlock blocks u with
    | mk v more => cases more <;> rfl
  · rfl

theorem unpackWith_mapOk {α β γ : Type} (dec : Nat → Nat → Decoded α) (f : α → β) (g : β → γ) :
    ((unpackWith dec blocks u).mapOk f).map g =
      unpackWith (fun buf fin => (dec buf fin).mapOk fun x => g (f x)) blocks u := by
  have hmap : ∀ (d : Decoded α) (v : Unpacker),
      ((⟨v, d.ok, d.value⟩ : Unpacked α).mapOk f).map g =
        ⟨v, (d.mapOk fun x => g (f x)).ok, (d.mapOk fun x => g (f x)).value⟩ := by
    intro d v
    obtain ⟨ok, value, cursor⟩ := d
    cases ok with
    | false => rfl
    | true => cases value <;> rfl
  have hcursor : ∀ d : Decoded α, (d.mapOk fun x => g (f x)).cursor = d.cursor := by
    intro d
    unfold Decoded.mapOk
    split <;> rfl
  unfold unpackWith
  split
  · cases nextBlock blocks u with
    | mk v more =>
        cases more with
        | false => rfl
        | true => simp only [hmap, hcursor]
  · simp only [hmap, hcursor]

theorem unpack_eq (t : Ty) : unpack mem blocks u t = unpackWith (decoder mem t) blocks u := by
  cases t with
  | int16 | int32 | int64 => exact unpackWith_mapOk _ _ _
  | bool =>
      rw [unpack, unpackBool, unpackUInt8, unpackWith_map, unpackWith_map, decoder]
      simp [Decoded.map, Function.comp_def]
  | int8 | uint8 | uint16 | fixed16 | uint32 | fixed32 | uint64 | fixed64 | float | double
  | str => exact unpackWith_map _ _

theorem decoder_congr {buf fin : Nat} (h : Agree buf fin mem mem') (hle : buf ≤ fin)
    (hfin : fin + 8 < 2 ^ 64) (t : Ty) : decoder mem t buf fin = decoder mem' t buf fin := by
  have h8 : decodeFixed8 mem buf fin = decodeFixed8 mem' buf fin :=
    decodeFixed_congr h hle (by decide) hfin
  have h16 : decodeFixed16 mem buf fin = decodeFixed16 mem' buf fin :=
    decodeFixed_congr h hle (by decide) hfin
  have h32 : decodeFixed32 mem buf fin = decodeFixed32 mem' buf fin :=
    decodeFixed_congr h hle (by decide) hfin
  have h64 : decodeFixed64 mem buf fin = decodeFixed64 mem' buf fin :=
    decodeFixed_congr h hle (by decide) hfin
  cases t <;>
    simp only [decoder, decodeVarint16, decodeVarint32, h8, h16, h32, h64,
      decodeVarint64_congr h, decodeString_congr h]

theorem decoder_forward {buf fin : Nat} (hle : buf ≤ fin) (hfin : fin + 8 < 2 ^ 64) (t : Ty)
    (hwraps : t = .str → ¬ LengthWraps mem buf fin) :
    (decoder mem t buf fin).Forward buf fin := by
  have hvarint := decodeVarint64_forward mem hle
  cases t with
  | bool | int8 | uint8 | fixed16 | fixed32 | fixed64 | float | double =>
      exact (decodeFixed_forward mem hle (by decide) (by decide) hfin).map _
  | int16 | int32 => exact (hvarint.map _).mapOk _
  | uint16 | uint32 => exact (hvarint.map _).map _
  | int64 => exact hvarint.mapOk _
  | uint64 => exact hvarint.map _
  | str => exact (decodeString_forward hle (hwraps rfl)).map _

theorem decoder_str {buf fin : Nat} {t : Ty} {v : StrView}
    (h : (decoder mem t buf fin).value = some (.str v)) :
    t = .str ∧ (decodeString mem buf fin).value = some v := by
  cases t with
  | str =>
      obtain ⟨w, hw, hv⟩ := Option.map_eq_some_iff.mp h
      cases hv
      exact ⟨rfl, hw⟩
  | bool | int8 | uint8 | uint16 | fixed16 | uint32 | fixed32 | uint64 | fixed64 | float
  | double =>
      obtain ⟨w, -, hv⟩ := Option.map_eq_some_iff.mp h
      cases hv
  | int16 | int32 | int64 =>
      simp only [decoder, Decoded.mapOk] at h
      split at h
      · obtain ⟨w, -, hv⟩ := Option.map_eq_some_iff.mp h
        cases hv
      · cases h

/-! ## One call -/

/-- The view lies in one of the blocks. -/
def Holds (blocks : List Block) (v : StrView) : Prop :=
  ∃ b ∈ blocks, b.buf ≤ v.data ∧ v.data + v.size.toNat ≤ b.buf + b.size.toNat

/-- The blocks lie below the last bytes of the address space. -/
def Below (blocks : List Block) : Prop := ∀ b ∈ blocks, b.buf + b.size.toNat + 8 < 2 ^ 64

/-- The two memories have the same blocks. -/
def SameBlocks (blocks : List Block) (m m' : Mem) : Prop :=
  ∀ b ∈ blocks, Agree b.buf (b.buf + b.size.toNat) m m'

/-- The cursor is in a block, or at the end of one. -/
structure Within (blocks : List Block) (u : Unpacker) : Prop where
  idx : -1 ≤ u.idx
  le : u.ptr ≤ u.fin
  fin : u.fin + 8 < 2 ^ 64
  block : u.ptr < u.fin → ∃ b ∈ blocks, b.buf ≤ u.ptr ∧ u.fin = b.buf + b.size.toNat

theorem Within.entered (hu : Within blocks u) (hbelow : Below blocks) :
    Within blocks (u.entered blocks) := by
  have hidx := hu.idx
  unfold Unpacker.entered
  split
  · cases hnext : blocks[(u.idx + 1).toNat]? with
    | none =>
        have hnone : (nextBlock blocks u).1 = ⟨u.idx + 1, 0, 0⟩ := by
          simp only [nextBlock, hnext, emptyLiteral]
        rw [hnone]
        exact ⟨by dsimp only; omega, le_rfl, by dsimp only; omega,
          fun h => absurd h (Nat.lt_irrefl 0)⟩
    | some b =>
        have hmem := List.mem_of_getElem? hnext
        have hend := hbelow b hmem
        have hblock : (nextBlock blocks u).1 = ⟨u.idx + 1, b.buf, b.buf + b.size.toNat⟩ := by
          simp only [nextBlock, hnext]
          rw [ptrAdd_of_lt (by omega)]
        rw [hblock]
        exact ⟨by dsimp only; omega, Nat.le_add_right _ _, hend, fun _ => ⟨b, hmem, le_rfl, rfl⟩⟩
  · exact hu

/-- A call fails behind the last block, and decodes where it has entered else. -/
theorem unpack_entered (blocks : List Block) (u : Unpacker) :
    (∀ mem t, unpack mem blocks u t = ⟨u.entered blocks, false, none⟩) ∨
      ∀ mem t, unpack mem blocks u t =
        ⟨{ u.entered blocks with
            ptr := (decoder mem t (u.entered blocks).ptr (u.entered blocks).fin).cursor },
          (decoder mem t (u.entered blocks).ptr (u.entered blocks).fin).ok,
          (decoder mem t (u.entered blocks).ptr (u.entered blocks).fin).value⟩ := by
  by_cases hend : u.fin ≤ u.ptr
  · cases hnext : nextBlock blocks u with
    | mk v more =>
        cases more with
        | false =>
            refine Or.inl fun mem t => ?_
            rw [unpack_eq, unpackWith, if_pos hend, hnext, entered, if_pos hend, hnext]
        | true =>
            refine Or.inr fun mem t => ?_
            rw [unpack_eq, unpackWith, if_pos hend, hnext, entered, if_pos hend, hnext]
  · refine Or.inr fun mem t => ?_
    rw [unpack_eq, unpackWith, if_neg hend, entered, if_neg hend]

/-- What one call on any bytes is sure to do. -/
structure Confined (mem : Mem) (blocks : List Block) (u : Unpacker) (t : Ty) : Prop where
  within : Within blocks (unpack mem blocks u t).next
  same : ∀ mem', SameBlocks blocks mem mem' → unpack mem' blocks u t = unpack mem blocks u t
  view : ∀ v, (unpack mem blocks u t).ok = true →
    (unpack mem blocks u t).value = some (.str v) → Holds blocks v
  remaining_le : remaining blocks (unpack mem blocks u t).next ≤ remaining blocks u
  remaining_lt : (unpack mem blocks u t).ok = true →
    remaining blocks (unpack mem blocks u t).next < remaining blocks u

theorem Within.confined (hu : Within blocks u) (hbelow : Below blocks) {t : Ty}
    (hwraps : t = .str → ¬ StrWraps mem blocks u) : Confined mem blocks u t := by
  have he := hu.entered hbelow
  have hremaining := remaining_entered blocks hu.idx
  rcases unpack_entered blocks u with hfail | hdecode
  · refine ⟨?_, fun mem' _ => ?_, ?_, ?_, ?_⟩
    · rw [hfail]
      exact he
    · rw [hfail, hfail]
    · simp [hfail]
    · rw [hfail]
      exact hremaining
    · simp [hfail]
  · rw [show StrWraps mem blocks u = _ from rfl, StrWraps] at hwraps
    generalize u.entered blocks = e at *
    have hforward := decoder_forward he.le he.fin t hwraps
    -- The bytes ahead of the cursor are those of a block.
    have hagree : ∀ mem', SameBlocks blocks mem mem' → Agree e.ptr e.fin mem mem' := by
      intro mem' hsame a hlow hhigh
      obtain ⟨b, hb, hbuf, hfin⟩ := he.block (by omega)
      exact hsame b hb a (by omega) (by omega)
    refine ⟨?_, fun mem' hsame => ?_, fun v hok hv => ?_, ?_, fun hok => ?_⟩
    · rw [hdecode]
      refine ⟨he.idx, hforward.cursor_le, he.fin, fun hlt => ?_⟩
      have hle := hforward.le
      dsimp only at hlt
      obtain ⟨b, hb, hbuf, hfin⟩ := he.block (by omega)
      exact ⟨b, hb, by dsimp only; omega, hfin⟩
    · rw [hdecode, hdecode, decoder_congr (hagree mem' hsame) he.le he.fin]
    · rw [hdecode] at hok hv
      obtain ⟨rfl, hstr⟩ := decoder_str hv
      have hcontained := (contained_iff mem e.ptr (by have := he.fin; omega)).mpr (hwraps rfl)
      obtain ⟨w, hw, hdata, hend, hlt, hcursor⟩ := hcontained hok
      cases hw.symm.trans hstr
      have hread := (decodeVarint64_forward mem he.le).le
      obtain ⟨b, hb, hbuf, hfin⟩ := he.block (by omega)
      exact ⟨b, hb, by omega, by omega⟩
    · rw [hdecode]
      have hle := hforward.le
      refine le_trans ?_ hremaining
      exact Nat.add_le_add_right (Nat.sub_le_sub_left hle e.fin) _
    · rw [hdecode] at hok ⊢
      have hlt := hforward.lt hok
      have hcursor := hforward.cursor_le
      refine lt_of_lt_of_le ?_ hremaining
      exact Nat.add_lt_add_right (by dsimp only; omega) _

/-! ## Any calls -/

/-- No call for a string reads a length that wraps. -/
def NoWraps (mem : Mem) (blocks : List Block) : Unpacker → List Ty → Prop
  | _, [] => True
  | u, t :: ts =>
      (t = .str → ¬ StrWraps mem blocks u) ∧ NoWraps mem blocks (unpack mem blocks u t).next ts

theorem Within.all (hu : Within blocks u) (hbelow : Below blocks) {ts : List Ty}
    (hwraps : NoWraps mem blocks u ts) :
    (∀ mem', SameBlocks blocks mem mem' →
      unpackAll mem' blocks u ts = unpackAll mem blocks u ts) ∧
      (∀ v, (true, some (.str v)) ∈ (unpackAll mem blocks u ts).1 → Holds blocks v) ∧
      (unpackAll mem blocks u ts).1.countP Prod.fst ≤ remaining blocks u := by
  induction ts generalizing u with
  | nil => exact ⟨fun _ _ => rfl, by simp [unpackAll], Nat.zero_le _⟩
  | cons t ts ih =>
      obtain ⟨hfirst, hrest⟩ := hwraps
      have hcall := hu.confined hbelow hfirst
      obtain ⟨hlocal, hviews, hcount⟩ := ih hcall.within hrest
      refine ⟨fun mem' hsame => ?_, fun v hv => ?_, ?_⟩
      · rw [unpackAll, unpackAll, hcall.same mem' hsame, hlocal mem' hsame]
      · rw [unpackAll] at hv
        rcases List.mem_cons.mp hv with heq | hv
        · obtain ⟨hok, hvalue⟩ := Prod.mk.inj heq
          exact hcall.view v hok.symm hvalue.symm
        · exact hviews v hv
      · rw [unpackAll, List.countP_cons]
        have hle := hcall.remaining_le
        split
        · have hlt := hcall.remaining_lt (by assumption)
          omega
        · omega

theorem within_new (hbelow : Below blocks) : Within blocks (new blocks) := by
  have hstart : Within blocks ⟨-1, 0, 0⟩ :=
    ⟨le_rfl, le_rfl, by dsimp only; omega, fun h => absurd h (Nat.lt_irrefl 0)⟩
  exact hstart.entered hbelow

/-- Any calls on any bytes, unless a string's length wraps: they do not depend on anything but
the bytes of the blocks, the views they give lie in the blocks, and no more of them succeed
than there are bytes. -/
theorem unpackAll_confined (hbelow : Below blocks) {ts : List Ty}
    (hwraps : NoWraps mem blocks (new blocks) ts) :
    (∀ mem', SameBlocks blocks mem mem' →
      unpackAll mem' blocks (new blocks) ts = unpackAll mem blocks (new blocks) ts) ∧
      (∀ v, (true, some (.str v)) ∈ (unpackAll mem blocks (new blocks) ts).1 →
        Holds blocks v) ∧
      (unpackAll mem blocks (new blocks) ts).1.countP Prod.fst ≤
        (blocks.map fun b => b.size.toNat).sum := by
  obtain ⟨hlocal, hviews, hcount⟩ := (within_new hbelow).all hbelow hwraps
  refine ⟨hlocal, hviews, hcount.trans ?_⟩
  have hstart : remaining blocks ⟨-1, 0, 0⟩ = (blocks.map fun b => b.size.toNat).sum := by
    simp [remaining, ahead]
  rw [← hstart]
  exact remaining_entered blocks (u := ⟨-1, 0, 0⟩) le_rfl

/-- A string of two bytes and a varint that is cut off, in one block. -/
def cutBlock : List Block := [⟨1000, 4096, 4⟩]

def cutMem : Mem := write (fun _ => 0xff#8) 1000 [0x02#8, 0x61#8, 0x62#8, 0x80#8]

theorem unpackAll_confined_cutBlock :
    unpackAll (write cutMem 1004 [0#8]) cutBlock (new cutBlock) [.str, .uint32] =
      unpackAll cutMem cutBlock (new cutBlock) [.str, .uint32] := by
  have hbelow : Below cutBlock := by simp [Below, cutBlock]
  have hwraps : NoWraps cutMem cutBlock (new cutBlock) [.str, .uint32] := by
    refine ⟨fun _ => ?_, ⟨by simp, trivial⟩⟩
    rintro ⟨len, cursor, hat, hwrap⟩
    have hread : decodeVarint64 cutMem 1000 1004 = ⟨true, some 2#64, 1001⟩ := by decide +kernel
    cases hread.symm.trans hat
    exact absurd hwrap (by decide)
  refine (unpackAll_confined hbelow hwraps).1 _ fun b hb a _ hhigh => ?_
  obtain rfl := List.mem_singleton.mp hb
  have hne : a ≠ 1004 := by
    dsimp only at hhigh
    have hsize : (4 : BitVec 32).toNat = 4 := rfl
    omega
  simp [write, store, hne]

end Unpacker

end XfUtil
