import XfUtil.Pack.RoundTrip

/-!
# Reading with other types

The types of a stream are not stored in it. A reader may use a wider or a narrower type than
the writer, a `uint8` for a `bool`, or the bits of a float: it gets the same number as long as
its type has that number.
-/

namespace XfUtil

open FlatMemory

/-- What a value says, whatever the width of its type. -/
inductive Reading where
  | byte (b : Byte)
  | unsigned (n : Nat)
  | signed (i : Int)
  | word16 (v : BitVec 16)
  | word32 (v : BitVec 32)
  | word64 (v : BitVec 64)
  | str (bytes : List Byte)
deriving DecidableEq

namespace Value

def reading : Value Str → Reading
  | bool v => .byte (if v then 1#8 else 0#8)
  | int8 v | uint8 v => .byte v
  | uint16 v => .unsigned v.toNat
  | uint32 v => .unsigned v.toNat
  | uint64 v => .unsigned v.toNat
  | int16 v => .signed v.toInt
  | int32 v => .signed v.toInt
  | int64 v => .signed v.toInt
  | fixed16 v => .word16 v
  | fixed32 v | float v => .word32 v
  | fixed64 v | double v => .word64 v
  | str v => .str v.bytes

end Value

namespace Reading

/-- The place of a number in the zigzag order. -/
def zigzag (i : Int) : Nat := if 0 ≤ i then (2 * i).toNat else (-2 * i - 1).toNat

/-- The bytes of a stream that say so. -/
def payload : Reading → List Byte
  | byte b => fixedBytes b 1
  | unsigned n => Leb128.bytes n
  | signed i => Leb128.bytes (zigzag i)
  | word16 v => fixedBytes v 2
  | word32 v => fixedBytes v 4
  | word64 v => fixedBytes v 8
  | str bytes => Leb128.bytes bytes.length ++ bytes

theorem zigzag_toInt {w : Nat} (x : BitVec w) : zigzag x.toInt = (ZigZag.encode x).toNat := by
  have h := ZigZag.toNat_encode x
  unfold zigzag
  split
  · rename_i hpos
    rw [if_pos hpos] at h
    omega
  · rename_i hneg
    rw [if_neg hneg] at h
    omega

end Reading

/-- The bytes written for a value depend on what it says only. -/
theorem Value.payload_eq (v : Value Str) : v.payload = v.reading.payload := by
  cases v with
  | int16 x =>
      rw [Value.payload, Value.reading, Reading.payload, Reading.zigzag_toInt, encodeZigZag16_eq]
  | int32 x =>
      rw [Value.payload, Value.reading, Reading.payload, Reading.zigzag_toInt]
      rfl
  | int64 x =>
      rw [Value.payload, Value.reading, Reading.payload, Reading.zigzag_toInt]
      rfl
  | bool _ | int8 _ | uint8 _ | uint16 _ | uint32 _ | uint64 _ | fixed16 _ | fixed32 _
  | fixed64 _ | float _ | double _ | str _ => rfl

/-! ## Groups -/

theorem exists_flatten_eq {α β : Type*} (f : α → β) (gs : List (List α)) {xs : List α}
    (h : xs.map f = gs.flatten.map f) :
    ∃ hs : List (List α), hs.flatten = xs ∧ List.Forall₂ (fun x y => x.map f = y.map f) hs gs := by
  induction gs generalizing xs with
  | nil =>
      obtain rfl : xs = [] := by simpa using h
      exact ⟨[], rfl, List.Forall₂.nil⟩
  | cons g gs ih =>
      rw [List.flatten_cons, List.map_append] at h
      obtain ⟨ys, zs, rfl, hys, hzs⟩ := List.map_eq_append_iff.mp h
      obtain ⟨hs, rfl, hgs⟩ := ih hzs
      exact ⟨ys :: hs, rfl, List.Forall₂.cons hys hgs⟩

theorem ne_nil_of_map_eq {α β : Type*} {f : α → β} {gs hs : List (List α)}
    (h : List.Forall₂ (fun x y => x.map f = y.map f) hs gs) (hgs : ∀ x ∈ gs, x ≠ []) :
    ∀ x ∈ hs, x ≠ [] := by
  induction h with
  | nil => simp
  | cons heq _ ih =>
      intro x hx
      rcases List.mem_cons.mp hx with rfl | hx
      · rintro rfl
        exact hgs _ List.mem_cons_self (List.map_eq_nil_iff.mp heq.symm)
      · exact ih (fun y hy => hgs y (List.mem_cons_of_mem _ hy)) x hx

/-- A block that stores values stores all others that say the same. -/
theorem Stored.of_reading {mem : Mem} {b : Block} {vs ws : List (Value Str)}
    (h : Stored mem b vs) (hws : ws.map Value.reading = vs.map Value.reading) :
    Stored mem b ws := by
  have hpayload : ∀ xs : List (Value Str),
      xs.flatMap Value.payload = (xs.map Value.reading).flatMap Reading.payload := by
    intro xs
    rw [List.flatMap_map]
    exact congrArg (xs.flatMap ·) (funext Value.payload_eq)
  unfold Stored at *
  rw [h, hpayload ws, hws, ← hpayload vs]

theorem stored_of_readings {mem : Mem} {blocks : List Block} {gs hs : List (List (Value Str))}
    (h : List.Forall₂ (Stored mem) blocks gs)
    (hsame : List.Forall₂ (fun x y => x.map Value.reading = y.map Value.reading) hs gs) :
    List.Forall₂ (Stored mem) blocks hs := by
  induction hsame generalizing blocks with
  | nil => exact h
  | cons heq _ ih =>
      cases h with
      | cons hb hbs => exact List.Forall₂.cons (hb.of_reading heq) (ih hbs)

/-! ## Streams -/

/-- Packing a sequence and unpacking it with the types of another one that says the same gives
that other one, and any further call fails. -/
theorem unpackAll_reading {blockSize : BitVec 32} (hB : BlockPool.accepts blockSize = true)
    (mem : Mem) (first : Nat) (calls : List PackCall) (hshort : ∀ c ∈ calls, Packer.Short c)
    (halloc : Allocated
      (extents ((Packer.new mem blockSize [] first).packAll calls).blocks))
    (vs : List (Value Str)) (hvs : vs.map Value.reading = calls.map fun c => c.value.reading) :
    let p := (Packer.new mem blockSize [] first).packAll calls
    let r := Unpacker.unpackAll p.mem p.blocks (Unpacker.new p.blocks) (vs.map Value.ty)
    r.1.map (fun o => (o.1, o.2.map (Value.map (StrView.bytes p.mem)))) =
        vs.map (fun v => (true, some (v.map Str.bytes))) ∧
      ∀ t, (Unpacker.unpack p.mem p.blocks r.2 t).ok = false := by
  have h := Packer.layout_packAll (Packer.Layout.new hB mem first) calls hshort halloc
  have hflat := Packer.regroupAll_flatten (Packer.new mem blockSize [] first) calls [] []
  obtain ⟨g, filled, hgroups, hfill, -⟩ :=
    Packer.regroupAll_new (Packer.new mem blockSize [] first) calls
  have hst := h.stored
  rw [hgroups] at hst hflat
  dsimp only
  generalize (Packer.new mem blockSize [] first).packAll calls = p at *
  -- The values of the reader, in the blocks of the writer.
  have hsame : vs.map Value.reading = (g :: filled).flatten.map Value.reading := by
    rw [hvs, hflat]
    simp
  obtain ⟨hs, hflat', hpieces⟩ := exists_flatten_eq Value.reading (g :: filled) hsame
  have hst' := stored_of_readings hst hpieces
  obtain ⟨g', filled', -, hfilled', rfl⟩ := List.forall₂_cons_right_iff.mp hpieces
  have hfill' := ne_nil_of_map_eq hfilled' hfill
  have hpend : Unpacker.Pending p.mem p.blocks (Unpacker.new p.blocks) g' (filled' ++ []) := by
    rw [List.append_nil]
    exact Unpacker.pending_new hst' (h.below halloc)
  obtain ⟨hall, hend⟩ := hpend.all hfill' vs (by rw [← List.flatten_cons, hflat'])
  obtain ⟨u', hnext⟩ := hend.next_none
  exact ⟨hall, fun t => Unpacker.unpack_end hend.exhausted hnext t⟩

/-- A negative `int16`, a `uint64` and a `bool`, read as wider and narrower types. -/
theorem unpackAll_reading_triple :
    let calls : List PackCall := [⟨.int16 0x8000#16, 0⟩, ⟨.uint64 300#64, 0⟩, ⟨.bool true, 0⟩]
    let p := (Packer.new (fun _ => 0) 4096#32 [] 8192).packAll calls
    let r := Unpacker.unpackAll p.mem p.blocks (Unpacker.new p.blocks) [.int64, .uint16, .uint8]
    r.1.map (fun o => (o.1, o.2.map (Value.map (StrView.bytes p.mem)))) =
        [(true, some (.int64 0xFFFFFFFFFFFF8000#64)), (true, some (.uint16 300#16)),
          (true, some (.uint8 1#8))] ∧
      ∀ t, (Unpacker.unpack p.mem p.blocks r.2 t).ok = false := by
  apply unpackAll_reading (by decide) (fun _ => 0) 8192
    [⟨.int16 0x8000#16, 0⟩, ⟨.uint64 300#64, 0⟩, ⟨.bool true, 0⟩] (by simp [Packer.Short])
    ?_ [.int64 0xFFFFFFFFFFFF8000#64, .uint16 300#16, .uint8 1#8] (by decide)
  have hext : extents ((Packer.new (fun _ => 0) 4096#32 [] 8192).packAll
      [⟨.int16 0x8000#16, 0⟩, ⟨.uint64 300#64, 0⟩, ⟨.bool true, 0⟩]).blocks = [(8192, 4096)] := by
    decide
  rw [hext]
  exact ⟨List.pairwise_singleton _ _, by simp⟩

end XfUtil
