import XfUtil.Pack.Bounds

/-!
# Packing and unpacking a stream of values

A packed stream is laid out as groups of values, one group a block: the block's
bytes are the group's payloads in order. Only the first group may be empty,
because every later block is allocated for a value that is then written to it.
That is why a reader that hops at most one block for each call finds them all.
-/

namespace XfUtil

open FlatMemory

/-! ## The layout a packer leaves -/

/-- The used part of a block holds the payloads of the values, in order. -/
def Stored (mem : Mem) (b : Block) (vs : List (Value Str)) : Prop :=
  read mem b.buf b.size.toNat = vs.flatMap Value.payload

/-- Address and capacity of each block. -/
def extents (blocks : List Block) : List (Nat × Nat) :=
  blocks.map fun b => (b.buf, b.capacity.toNat)

/-- What the allocators promise about the blocks they handed out: they are
pairwise disjoint and end inside the address space. -/
structure Allocated (ext : List (Nat × Nat)) : Prop where
  apart : ext.Pairwise fun x y => Apart x.1 x.2 y.1 y.2
  below : ∀ x ∈ ext, x.1 + x.2 < 2 ^ 64

theorem Allocated.of_prefix {xs ys : List (Nat × Nat)} (h : Allocated ys) (hx : xs <+: ys) :
    Allocated xs :=
  ⟨h.apart.sublist hx.sublist, fun x hm => h.below x (hx.subset hm)⟩

namespace Packer

/-- All calls in order. -/
def packAll (p : Packer) (calls : List PackCall) : Packer :=
  calls.foldl (fun p c => p.pack c.fresh c.value) p

/-- `gs` are the groups of the closed blocks, `g` that of the current one. -/
structure Layout (p : Packer) (gs : List (List (Value Str))) (g : List (Value Str)) : Prop where
  closed : List.Forall₂ (Stored p.mem) p.closed gs
  current : Stored p.mem p.block g
  within : ∀ b ∈ p.closed, b.size.toNat ≤ b.capacity.toNat
  bounds : InBounds p
  sized : Sized p

theorem Layout.new {blockSize : BitVec 32} (hB : BlockPool.accepts blockSize = true) (mem : Mem)
    (fresh : Nat) : Layout (new mem blockSize [] fresh) [] [] :=
  ⟨List.Forall₂.nil, by simp [Stored, Packer.new], by simp [Packer.new],
    InBounds.new mem blockSize [] fresh, Sized.new hB mem [] fresh⟩

theorem Layout.alloc {p : Packer} {gs : List (List (Value Str))} {g : List (Value Str)}
    (h : Layout p gs g) {r : Reservation} (hfull : r.Full p.block) (fresh : Nat) :
    Layout (p.room r fresh) (gs ++ [g]) [] := by
  have hb := h.bounds.room r fresh
  have hs := h.sized.room r fresh
  rw [Packer.room, if_pos hfull] at *
  refine ⟨List.rel_append h.closed (List.Forall₂.cons h.current List.Forall₂.nil), ?_, ?_, hb, hs⟩
  · simp [Stored, Packer.alloc]
  · intro b hmem
    rcases List.mem_append.mp hmem with hmem | hmem
    · exact h.within b hmem
    · obtain rfl : b = p.block := by simpa using hmem
      exact h.bounds.size_le

theorem extents_emit (p : Packer) (bs : List Byte) :
    extents (p.emit bs).blocks = extents p.blocks := by
  simp [extents, blocks, emit]

theorem extents_room_initial (p : Packer) (r : Reservation) (fresh : Nat) :
    extents p.blocks <+: extents (p.room r fresh).blocks := by
  unfold Packer.room
  split
  · simp [extents, blocks, Packer.alloc]
  · exact List.prefix_rfl

theorem extents_packAll_initial (p : Packer) (calls : List PackCall) :
    extents p.blocks <+: extents (p.packAll calls).blocks := by
  induction calls generalizing p with
  | nil => exact List.prefix_rfl
  | cons c calls ih =>
      refine List.IsPrefix.trans ?_ (ih (p.pack c.fresh c.value))
      rw [pack_eq, extents_emit]
      exact extents_room_initial p _ _

theorem Layout.frame {p : Packer} {gs : List (List (Value Str))} {g : List (Value Str)}
    (h : Layout p gs g) (halloc : Allocated (extents p.blocks)) {bs : List Byte}
    (hroom : p.block.size.toNat + bs.length ≤ p.block.capacity.toNat) :
    ∀ b ∈ p.closed, ∀ vs, Stored p.mem b vs → Stored (write p.mem p.ptr bs) b vs := by
  intro b hb vs hst
  have happart : Apart b.buf b.capacity.toNat p.block.buf p.block.capacity.toNat := by
    have hpair := halloc.apart
    simp only [extents, blocks, List.map_append, List.pairwise_append] at hpair
    exact hpair.2.2 (b.buf, b.capacity.toNat)
      (List.mem_map_of_mem (f := fun b : Block => (b.buf, b.capacity.toNat)) hb)
      (p.block.buf, p.block.capacity.toNat) (by simp)
  have hsize := h.within b hb
  have hptr := h.bounds.ptr_eq
  unfold Stored at *
  rw [read_write_disjoint p.mem bs, hst]
  unfold Apart at happart
  omega

/-- An emission that fits extends the current group and leaves the others. -/
theorem Layout.emit {p : Packer} {gs : List (List (Value Str))} {g : List (Value Str)}
    (h : Layout p gs g) (halloc : Allocated (extents p.blocks)) (v : Value Str)
    (hroom : p.block.size.toNat + v.payload.length ≤ p.block.capacity.toNat) :
    Layout (p.emit v.payload) gs (g ++ [v]) := by
  have hcap := h.sized.capacity_le
  have hptr := h.bounds.ptr_eq
  have hsum : (p.block.size + BitVec.ofNat 32 v.payload.length).toNat =
      p.block.size.toNat + v.payload.length := by
    rw [BitVec.toNat_add, BitVec.toNat_ofNat, Nat.add_mod_mod, Nat.mod_eq_of_lt (by omega)]
  refine ⟨?_, ?_, h.within, (inBounds_emit_iff h.bounds h.sized _).mpr hroom, h.sized.emit _⟩
  · have hframe := h.frame halloc hroom
    refine List.forall₂_iff_zip.mpr ⟨h.closed.length_eq, fun {b vs} hzip => ?_⟩
    exact hframe b (List.of_mem_zip hzip).1 vs ((List.forall₂_iff_zip.mp h.closed).2 hzip)
  · have hbefore : read (write p.mem p.ptr v.payload) p.block.buf p.block.size.toNat =
        g.flatMap Value.payload := by
      rw [read_write_disjoint p.mem v.payload (Or.inl (by omega))]
      exact h.current
    unfold Stored
    simp only [Packer.emit, hsum, read_add, hbefore, ← hptr, read_write_same, List.flatMap_append]
    simp

/-- Short strings always fit, so every call keeps the layout. -/
def Short (c : PackCall) : Prop := ∀ s, c.value = .str s → s.bytes.length < 2 ^ 21

theorem fits_of_short {c : PackCall} (hc : Short c) (p : Packer) : Fits p c := by
  unfold Fits
  split
  · rename_i s hs
    exact Or.inl (hc s hs)
  · trivial

/-- Where a call puts its value: behind the last group, or in a group of its own. -/
def regroup (p : Packer) (c : PackCall) (gs : List (List (Value Str))) (g : List (Value Str)) :
    List (List (Value Str)) × List (Value Str) :=
  if c.value.reservation.Full p.block then (gs ++ [g], [c.value]) else (gs, g ++ [c.value])

/-- The groups after all calls, and the last one. -/
def regroupAll (p : Packer) : List PackCall → List (List (Value Str)) → List (Value Str) →
    List (List (Value Str)) × List (Value Str)
  | [], gs, g => (gs, g)
  | c :: calls, gs, g =>
      regroupAll (p.pack c.fresh c.value) calls (p.regroup c gs g).1 (p.regroup c gs g).2

/-- One call: the value joins the last group, or opens a new one. -/
theorem layout_pack {p : Packer} {gs : List (List (Value Str))} {g : List (Value Str)}
    (h : Layout p gs g) {c : PackCall} (hc : Short c)
    (halloc : Allocated (extents (p.pack c.fresh c.value).blocks)) :
    Layout (p.pack c.fresh c.value) (p.regroup c gs g).1 (p.regroup c gs g).2 := by
  have hfit := (inBounds_pack_iff h.bounds h.sized c).mpr (fits_of_short hc p)
  rw [pack_eq] at hfit halloc ⊢
  rw [extents_emit] at halloc
  have hroom := (inBounds_emit_iff (h.bounds.room _ _) (h.sized.room _ _) _).mp hfit
  by_cases hfull : c.value.reservation.Full p.block
  · rw [regroup, if_pos hfull]
    exact (h.alloc hfull c.fresh).emit halloc c.value hroom
  · have hsame : p.room c.value.reservation c.fresh = p := if_neg hfull
    rw [hsame] at halloc hroom ⊢
    rw [regroup, if_neg hfull]
    exact h.emit halloc c.value hroom

theorem layout_packAll {p : Packer} {gs : List (List (Value Str))} {g : List (Value Str)}
    (h : Layout p gs g) (calls : List PackCall) (hshort : ∀ c ∈ calls, Short c)
    (halloc : Allocated (extents (p.packAll calls).blocks)) :
    Layout (p.packAll calls) (p.regroupAll calls gs g).1 (p.regroupAll calls gs g).2 := by
  induction calls generalizing p gs g with
  | nil => exact h
  | cons c calls ih =>
      have hstep : Allocated (extents (p.pack c.fresh c.value).blocks) :=
        halloc.of_prefix (extents_packAll_initial _ calls)
      exact ih (layout_pack h (hshort c (by simp)) hstep) (fun c hc => hshort c (by simp [hc]))
        halloc

theorem regroupAll_flatten (p : Packer) (calls : List PackCall) (gs : List (List (Value Str)))
    (g : List (Value Str)) :
    ((p.regroupAll calls gs g).1 ++ [(p.regroupAll calls gs g).2]).flatten =
      (gs ++ [g]).flatten ++ calls.map PackCall.value := by
  induction calls generalizing p gs g with
  | nil => simp [regroupAll]
  | cons c calls ih =>
      rw [regroupAll, ih, regroup]
      split <;> simp

theorem regroupAll_append (p : Packer) (calls : List PackCall) (before gs : List (List (Value Str)))
    (g : List (Value Str)) :
    p.regroupAll calls (before ++ gs) g =
      (before ++ (p.regroupAll calls gs g).1, (p.regroupAll calls gs g).2) := by
  induction calls generalizing p gs g with
  | nil => rfl
  | cons c calls ih =>
      have hone : p.regroup c (before ++ gs) g =
          (before ++ (p.regroup c gs g).1, (p.regroup c gs g).2) := by
        unfold regroup
        split <;> simp
      rw [regroupAll, hone, ih]
      rfl

/-- If no group is empty, none will be. -/
theorem regroupAll_ne_nil (p : Packer) (calls : List PackCall) (gs : List (List (Value Str)))
    (g : List (Value Str)) (h : ∀ x ∈ gs ++ [g], x ≠ []) :
    ∀ x ∈ (p.regroupAll calls gs g).1 ++ [(p.regroupAll calls gs g).2], x ≠ [] := by
  induction calls generalizing p gs g with
  | nil => exact h
  | cons c calls ih =>
      apply ih
      unfold regroup
      split
      · intro x hx
        rcases List.mem_append.mp hx with hx | hx
        · exact h x hx
        · simp [List.mem_singleton.mp hx]
      · intro x hx
        rcases List.mem_append.mp hx with hx | hx
        · exact h x (List.mem_append_left _ hx)
        · simp [List.mem_singleton.mp hx]

/-- The groups of a packer that starts on an empty block: only the first can stay empty,
and it does if there is no call or the first value has no room in that block. -/
theorem regroupAll_new (p : Packer) (calls : List PackCall) :
    ∃ g gs, (p.regroupAll calls [] []).1 ++ [(p.regroupAll calls [] []).2] = g :: gs ∧
      (∀ x ∈ gs, x ≠ []) ∧
      (g ≠ [] ↔ ∃ c rest, calls = c :: rest ∧ ¬ c.value.reservation.Full p.block) := by
  cases calls with
  | nil => exact ⟨[], [], rfl, by simp, by simp⟩
  | cons c calls =>
      by_cases hfull : c.value.reservation.Full p.block
      · have happend := regroupAll_append (p.pack c.fresh c.value) calls [[]] [] [c.value]
        have hrest := regroupAll_ne_nil (p.pack c.fresh c.value) calls []
          [c.value] (by simp)
        refine ⟨[], _, ?_, hrest, ?_⟩
        · rw [regroupAll, regroup, if_pos hfull]
          exact congrArg (fun r => r.1 ++ [r.2]) happend
        · simp [hfull]
      · have hall := regroupAll_ne_nil (p.pack c.fresh c.value) calls []
          [c.value] (by simp)
        have heq : p.regroupAll (c :: calls) [] [] =
            (p.pack c.fresh c.value).regroupAll calls [] [c.value] := by
          rw [regroupAll, regroup, if_neg hfull]
          rfl
        rw [heq]
        cases hgs : ((p.pack c.fresh c.value).regroupAll calls [] [c.value]).1 ++
            [((p.pack c.fresh c.value).regroupAll calls [] [c.value]).2] with
        | nil => simp at hgs
        | cons g gs =>
            rw [hgs] at hall
            refine ⟨g, gs, rfl, fun x hx => hall x (by simp [hx]), ?_⟩
            simp [hall g (by simp), hfull]

end Packer

/-! ## The reader -/

namespace Unpacker

variable {mem : Mem} {blocks : List Block}

/-- The cursor stands before the payloads of `g`, which end the current block,
and the following blocks hold the groups `rest`. -/
structure Pending (mem : Mem) (blocks : List Block) (u : Unpacker) (g : List (Value Str))
    (rest : List (List (Value Str))) : Prop where
  idx_nonneg : -1 ≤ u.idx
  fin_lt : u.fin < 2 ^ 64
  fin_eq : u.fin = u.ptr + (g.flatMap Value.payload).length
  here : read mem u.ptr (g.flatMap Value.payload).length = g.flatMap Value.payload
  ahead : List.Forall₂ (Stored mem) (blocks.drop (u.idx + 1).toNat) rest
  below : ∀ b ∈ blocks, b.buf + b.size.toNat < 2 ^ 64

/-- With nothing left here, the cursor is at the end of its block. -/
theorem Pending.exhausted {u : Unpacker} {rest : List (List (Value Str))}
    (h : Pending mem blocks u [] rest) : u.fin ≤ u.ptr := by
  have hfin := h.fin_eq
  rw [List.flatMap_nil, List.length_nil] at hfin
  omega

/-- With nothing left here, `NextBlock` moves to the next group. -/
theorem Pending.next {u : Unpacker} {g : List (Value Str)} {rest : List (List (Value Str))}
    (h : Pending mem blocks u [] (g :: rest)) :
    ∃ u', nextBlock blocks u = (u', true) ∧ Pending mem blocks u' g rest := by
  have hidx := h.idx_nonneg
  obtain ⟨b, later, hb, hlater, hdrop⟩ := List.forall₂_cons_right_iff.mp h.ahead
  have hget : blocks[(u.idx + 1).toNat]? = some b := by
    rw [← List.head?_drop, hdrop, List.head?_cons]
  have hbelow := h.below b (List.mem_of_getElem? hget)
  have hlen : (g.flatMap Value.payload).length = b.size.toNat := by
    rw [← hb, read_length]
  refine ⟨⟨u.idx + 1, b.buf, ptrAdd b.buf b.size.toNat⟩, by simp [nextBlock, hget], ?_⟩
  refine ⟨by dsimp only; omega, ?_, ?_, ?_, ?_, h.below⟩
  · exact Nat.mod_lt _ (by decide)
  · rw [hlen, ptrAdd_of_lt hbelow]
  · rw [hlen]
    exact hb
  · have hsucc : (u.idx + 1 + 1).toNat = (u.idx + 1).toNat + 1 := by omega
    rw [hsucc, ← List.drop_drop, hdrop]
    exact hlater

theorem Pending.next_none {u : Unpacker} (h : Pending mem blocks u [] []) :
    ∃ u', nextBlock blocks u = (u', false) := by
  have hdrop : blocks.drop (u.idx + 1).toNat = [] := List.forall₂_nil_right_iff.mp h.ahead
  have hget : blocks[(u.idx + 1).toNat]? = none :=
    List.getElem?_eq_none (List.drop_eq_nil_iff.mp hdrop)
  exact ⟨⟨u.idx + 1, emptyLiteral, emptyLiteral⟩, by simp only [nextBlock, hget]⟩

theorem unpackWith_here {α : Type} (dec : Nat → Nat → Decoded α) {u : Unpacker}
    (h : u.ptr < u.fin) :
    unpackWith dec blocks u =
      ⟨{ u with ptr := (dec u.ptr u.fin).cursor }, (dec u.ptr u.fin).ok,
        (dec u.ptr u.fin).value⟩ := by
  rw [unpackWith, if_neg (by omega)]

theorem unpackWith_hop {α : Type} (dec : Nat → Nat → Decoded α) {u u' : Unpacker}
    (h : u.fin ≤ u.ptr) (hn : nextBlock blocks u = (u', true)) (h' : u'.ptr < u'.fin) :
    unpackWith dec blocks u = unpackWith dec blocks u' := by
  rw [unpackWith_here dec h', unpackWith, if_pos h, hn]

theorem unpackWith_end {α : Type} (dec : Nat → Nat → Decoded α) {u u' : Unpacker}
    (h : u.fin ≤ u.ptr) (hn : nextBlock blocks u = (u', false)) :
    unpackWith dec blocks u = ⟨u', false, none⟩ := by
  rw [unpackWith, if_pos h, hn]

/-- Whatever the type, a call at the end of a block is the call one block on. -/
theorem unpack_hop {u u' : Unpacker} (h : u.fin ≤ u.ptr)
    (hn : nextBlock blocks u = (u', true)) (h' : u'.ptr < u'.fin) (t : Ty) :
    unpack mem blocks u t = unpack mem blocks u' t := by
  cases t <;>
    simp only [unpack, unpackBool, unpackInt8, unpackUInt8, unpackInt16, unpackUInt16,
      unpackFixed16, unpackInt32, unpackUInt32, unpackFixed32, unpackInt64, unpackUInt64,
      unpackFixed64, unpackFloat, unpackDouble, unpackStr, unpackWith_hop _ h hn h']

/-- Whatever the type, a call at the end of the last block fails. -/
theorem unpack_end {u u' : Unpacker} (h : u.fin ≤ u.ptr)
    (hn : nextBlock blocks u = (u', false)) (t : Ty) : (unpack mem blocks u t).ok = false := by
  cases t <;>
    simp only [unpack, unpackBool, unpackInt8, unpackUInt8, unpackInt16, unpackUInt16,
      unpackFixed16, unpackInt32, unpackUInt32, unpackFixed32, unpackInt64, unpackUInt64,
      unpackFixed64, unpackFloat, unpackDouble, unpackStr, unpackWith_end _ h hn, Unpacked.map,
      Unpacked.mapOk, Bool.false_eq_true, if_false]

theorem unpackWith_decoded {α : Type} {dec : Nat → Nat → Decoded α} {u : Unpacker} {x : α}
    {n : Nat} (hn : 0 < n) (hroom : u.ptr + n ≤ u.fin)
    (hdec : dec u.ptr u.fin = ⟨true, some x, u.ptr + n⟩) :
    unpackWith dec blocks u = ⟨{ u with ptr := u.ptr + n }, true, some x⟩ := by
  rw [unpackWith_here dec (by omega), hdec]

theorem unpackWith_fixed {u : Unpacker} {w n : Nat} {x : BitVec w} {bs : List Byte}
    (hbs : bs = fixedBytes x n) (hw : w ≤ 8 * n) (hpos : 0 < bs.length) (hfin : u.fin < 2 ^ 64)
    (hroom : u.ptr + bs.length ≤ u.fin) (hread : read mem u.ptr bs.length = bs) :
    unpackWith (decodeFixed w n mem) blocks u =
      ⟨{ u with ptr := u.ptr + bs.length }, true, some x⟩ := by
  subst hbs
  rw [fixedBytes_length] at *
  exact unpackWith_decoded hpos hroom (decodeFixed_eq hw hfin hroom hread)

theorem unpackWith_varint {u : Unpacker} {w : Nat} {x : BitVec w} {bs : List Byte}
    (hbs : bs = Leb128.bytes x.toNat) (hw : w ≤ 64) (hpos : 0 < bs.length)
    (hroom : u.ptr + bs.length ≤ u.fin) (hread : read mem u.ptr bs.length = bs) :
    unpackWith (fun buf fin => (decodeVarint64 mem buf fin).map (·.setWidth w)) blocks u =
      ⟨{ u with ptr := u.ptr + bs.length }, true, some x⟩ := by
  subst hbs
  exact unpackWith_decoded hpos hroom (decodeVarint_narrow hw x hread hroom)

theorem unpackWith_varint64 {u : Unpacker} {x : BitVec 64} {bs : List Byte}
    (hbs : bs = Leb128.bytes x.toNat) (hpos : 0 < bs.length)
    (hroom : u.ptr + bs.length ≤ u.fin) (hread : read mem u.ptr bs.length = bs) :
    unpackWith (decodeVarint64 mem) blocks u =
      ⟨{ u with ptr := u.ptr + bs.length }, true, some x⟩ := by
  subst hbs
  exact unpackWith_decoded hpos hroom (decodeVarint64_eq x hread hroom)

theorem unpack_value {u : Unpacker} (v : Value Str) (hfin : u.fin < 2 ^ 64)
    (hroom : u.ptr + v.payload.length ≤ u.fin)
    (hread : read mem u.ptr v.payload.length = v.payload) :
    ∃ w, unpack mem blocks u v.ty =
        ⟨{ u with ptr := u.ptr + v.payload.length }, true, some w⟩ ∧
      w.map (StrView.bytes mem) = v.map Str.bytes := by
  have hpos := v.payload_pos
  cases v with
  | bool x =>
      have h : unpackUInt8 mem blocks u = _ :=
        unpackWith_fixed rfl (by decide) hpos hfin hroom hread
      refine ⟨.bool x, ?_, rfl⟩
      rw [Value.ty, unpack, unpackBool, h]
      cases x <;> rfl
  | int8 x =>
      have h : unpackInt8 mem blocks u = _ :=
        unpackWith_fixed rfl (by decide) hpos hfin hroom hread
      exact ⟨.int8 x, congrArg (Unpacked.map Value.int8) h, rfl⟩
  | uint8 x =>
      have h : unpackUInt8 mem blocks u = _ :=
        unpackWith_fixed rfl (by decide) hpos hfin hroom hread
      exact ⟨.uint8 x, congrArg (Unpacked.map Value.uint8) h, rfl⟩
  | fixed16 x =>
      have h : unpackFixed16 mem blocks u = _ :=
        unpackWith_fixed rfl (by decide) hpos hfin hroom hread
      exact ⟨.fixed16 x, congrArg (Unpacked.map Value.fixed16) h, rfl⟩
  | fixed32 x =>
      have h : unpackFixed32 mem blocks u = _ :=
        unpackWith_fixed rfl (by decide) hpos hfin hroom hread
      exact ⟨.fixed32 x, congrArg (Unpacked.map Value.fixed32) h, rfl⟩
  | fixed64 x =>
      have h : unpackFixed64 mem blocks u = _ :=
        unpackWith_fixed rfl (by decide) hpos hfin hroom hread
      exact ⟨.fixed64 x, congrArg (Unpacked.map Value.fixed64) h, rfl⟩
  | float x =>
      have h : unpackFloat mem blocks u = _ :=
        unpackWith_fixed rfl (by decide) hpos hfin hroom hread
      exact ⟨.float x, congrArg (Unpacked.map Value.float) h, rfl⟩
  | double x =>
      have h : unpackDouble mem blocks u = _ :=
        unpackWith_fixed rfl (by decide) hpos hfin hroom hread
      exact ⟨.double x, congrArg (Unpacked.map Value.double) h, rfl⟩
  | uint16 x =>
      have h : unpackUInt16 mem blocks u = _ :=
        unpackWith_varint rfl (by decide) hpos hroom hread
      exact ⟨.uint16 x, congrArg (Unpacked.map Value.uint16) h, rfl⟩
  | uint32 x =>
      have h : unpackUInt32 mem blocks u = _ :=
        unpackWith_varint rfl (by decide) hpos hroom hread
      exact ⟨.uint32 x, congrArg (Unpacked.map Value.uint32) h, rfl⟩
  | uint64 x =>
      have h : unpackUInt64 mem blocks u = _ := unpackWith_varint64 rfl hpos hroom hread
      exact ⟨.uint64 x, congrArg (Unpacked.map Value.uint64) h, rfl⟩
  | int16 x =>
      have h : unpackUInt16 mem blocks u = _ :=
        unpackWith_varint (x := encodeZigZag16 x) rfl (by decide) hpos hroom hread
      refine ⟨.int16 x, ?_, rfl⟩
      simp only [Value.ty, unpack, unpackInt16, h, Unpacked.mapOk, Unpacked.map, Option.map_some,
        if_true, decodeZigZag16_encodeZigZag16]
      rfl
  | int32 x =>
      have h : unpackUInt32 mem blocks u = _ :=
        unpackWith_varint (x := encodeZigZag32 x) rfl (by decide) hpos hroom hread
      refine ⟨.int32 x, ?_, rfl⟩
      simp only [Value.ty, unpack, unpackInt32, h, Unpacked.mapOk, Unpacked.map, Option.map_some,
        if_true, decodeZigZag32_encodeZigZag32]
      rfl
  | int64 x =>
      have h : unpackUInt64 mem blocks u = _ :=
        unpackWith_varint64 (x := encodeZigZag64 x) rfl hpos hroom hread
      refine ⟨.int64 x, ?_, rfl⟩
      simp only [Value.ty, unpack, unpackInt64, h, Unpacked.mapOk, Unpacked.map, Option.map_some,
        if_true, decodeZigZag64_encodeZigZag64]
      rfl
  | str x =>
      have h : unpackStr mem blocks u = _ :=
        unpackWith_decoded hpos hroom (decodeString_eq x hfin hread hroom)
      refine ⟨_, congrArg (Unpacked.map Value.str) h, ?_⟩
      have hbytes : read mem (u.ptr + (Leb128.bytes x.bytes.length).length) x.bytes.length =
          x.bytes := (read_eq_append hread).2
      simp [Value.map, StrView.bytes, hbytes]

theorem Pending.cons {u : Unpacker} {v : Value Str} {g : List (Value Str)}
    {rest : List (List (Value Str))} (h : Pending mem blocks u (v :: g) rest) :
    ∃ w u', unpack mem blocks u v.ty = ⟨u', true, some w⟩ ∧
      w.map (StrView.bytes mem) = v.map Str.bytes ∧ Pending mem blocks u' g rest := by
  have hfin := h.fin_eq
  have hhere := h.here
  rw [List.flatMap_cons, List.length_append] at hfin
  rw [List.flatMap_cons] at hhere
  obtain ⟨hv, hg⟩ := read_eq_append hhere
  obtain ⟨w, hcall, hw⟩ := unpack_value v h.fin_lt (by omega) hv
  exact ⟨w, _, hcall, hw, h.idx_nonneg, h.fin_lt, by dsimp only; omega, hg, h.ahead, h.below⟩

/-- One call reads the next value of the groups `filled`, hopping to the next block if
the current one is exhausted. -/
theorem Pending.step {u : Unpacker} {g : List (Value Str)} {filled more : List (List (Value Str))}
    (h : Pending mem blocks u g (filled ++ more)) (hfill : ∀ x ∈ filled, x ≠ []) {v : Value Str}
    {vs : List (Value Str)} (hvs : g ++ filled.flatten = v :: vs) :
    ∃ w u' g' filled', unpack mem blocks u v.ty = ⟨u', true, some w⟩ ∧
      w.map (StrView.bytes mem) = v.map Str.bytes ∧ Pending mem blocks u' g' (filled' ++ more) ∧
      (∀ x ∈ filled', x ≠ []) ∧ g' ++ filled'.flatten = vs := by
  cases g with
  | cons x g =>
      obtain ⟨rfl, rfl⟩ : x = v ∧ g ++ filled.flatten = vs := by simpa using hvs
      obtain ⟨w, u', hcall, hw, h'⟩ := h.cons
      exact ⟨w, u', g, filled, hcall, hw, h', hfill, rfl⟩
  | nil =>
      cases filled with
      | nil => simp at hvs
      | cons g filled =>
          cases g with
          | nil => exact absurd rfl (hfill [] (by simp))
          | cons x g =>
              obtain ⟨rfl, rfl⟩ : x = v ∧ g ++ filled.flatten = vs := by simpa using hvs
              obtain ⟨u₁, hnext, h₁⟩ := h.next
              obtain ⟨w, u', hcall, hw, h'⟩ := h₁.cons
              have hthere : u₁.ptr < u₁.fin := by
                have := h₁.fin_eq
                have := x.payload_pos
                simp only [List.flatMap_cons, List.length_append] at *
                omega
              rw [← unpack_hop h.exhausted hnext hthere] at hcall
              exact ⟨w, u', g, filled, hcall, hw, h', fun y hy => hfill y (by simp [hy]), rfl⟩

theorem Pending.all {u : Unpacker} {g : List (Value Str)} {filled more : List (List (Value Str))}
    (h : Pending mem blocks u g (filled ++ more)) (hfill : ∀ x ∈ filled, x ≠ [])
    (vs : List (Value Str)) (hvs : g ++ filled.flatten = vs) :
    (unpackAll mem blocks u (vs.map Value.ty)).1.map
        (fun o => (o.1, o.2.map (Value.map (StrView.bytes mem)))) =
        vs.map (fun v => (true, some (v.map Str.bytes))) ∧
      Pending mem blocks (unpackAll mem blocks u (vs.map Value.ty)).2 [] more := by
  induction vs generalizing u g filled with
  | nil =>
      obtain ⟨rfl, hflat⟩ := List.append_eq_nil_iff.mp hvs
      cases filled with
      | nil => exact ⟨rfl, h⟩
      | cons x filled =>
          simp only [List.flatten_cons, List.append_eq_nil_iff] at hflat
          exact absurd hflat.1 (hfill x (by simp))
  | cons v vs ih =>
      obtain ⟨w, u', g', filled', hcall, hw, h', hfill', hvs'⟩ := h.step hfill hvs
      obtain ⟨hall, hend⟩ := ih h' hfill' hvs'
      simp only [List.map_cons, unpackAll, hcall]
      refine ⟨?_, hend⟩
      rw [hall]
      simp [hw]

theorem pending_new {g : List (Value Str)} {rest : List (List (Value Str))}
    (hst : List.Forall₂ (Stored mem) blocks (g :: rest))
    (hbelow : ∀ b ∈ blocks, b.buf + b.size.toNat < 2 ^ 64) :
    Pending mem blocks (new blocks) g rest := by
  have hstart : Pending mem blocks ⟨-1, 0, 0⟩ [] (g :: rest) :=
    ⟨by decide, by decide, rfl, rfl, hst, hbelow⟩
  obtain ⟨u', hnext, h⟩ := hstart.next
  rw [new, hnext]
  exact h

end Unpacker

/-- Nothing in use behind the capacity of a block, so nothing behind the address space. -/
theorem Packer.Layout.below {p : Packer} {gs : List (List (Value Str))} {g : List (Value Str)}
    (h : Packer.Layout p gs g) (halloc : Allocated (extents p.blocks)) :
    ∀ b ∈ p.blocks, b.buf + b.size.toNat < 2 ^ 64 := by
  intro b hb
  have hend := halloc.below (b.buf, b.capacity.toNat) (List.mem_map_of_mem hb)
  have hsize : b.size.toNat ≤ b.capacity.toNat := by
    rcases List.mem_append.mp hb with hb | hb
    · exact h.within b hb
    · obtain rfl : b = p.block := by simpa using hb
      exact h.bounds.size_le
  dsimp only at hend
  omega

theorem Packer.Layout.stored {p : Packer} {gs : List (List (Value Str))} {g : List (Value Str)}
    (h : Packer.Layout p gs g) : List.Forall₂ (Stored p.mem) p.blocks (gs ++ [g]) :=
  List.rel_append h.closed (List.Forall₂.cons h.current List.Forall₂.nil)

/-- Packing a sequence and unpacking it with the same types gives every value
back, and any further call fails. -/
theorem unpackAll_packAll {blockSize : BitVec 32} (hB : BlockPool.accepts blockSize = true)
    (mem : Mem) (first : Nat) (calls : List PackCall) (hshort : ∀ c ∈ calls, Packer.Short c)
    (halloc : Allocated
      (extents ((Packer.new mem blockSize [] first).packAll calls).blocks)) :
    let p := (Packer.new mem blockSize [] first).packAll calls
    let r := Unpacker.unpackAll p.mem p.blocks (Unpacker.new p.blocks)
      (calls.map fun c => c.value.ty)
    r.1.map (fun o => (o.1, o.2.map (Value.map (StrView.bytes p.mem)))) =
        calls.map (fun c => (true, some (c.value.map Str.bytes))) ∧
      ∀ t, (Unpacker.unpack p.mem p.blocks r.2 t).ok = false := by
  have h := Packer.layout_packAll (Packer.Layout.new hB mem first) calls hshort halloc
  have hflat := Packer.regroupAll_flatten (Packer.new mem blockSize [] first) calls [] []
  obtain ⟨g, filled, hgroups, hfill, -⟩ :=
    Packer.regroupAll_new (Packer.new mem blockSize [] first) calls
  have hst := h.stored
  rw [hgroups] at hst hflat
  dsimp only
  generalize (Packer.new mem blockSize [] first).packAll calls = p at *
  have hpend : Unpacker.Pending p.mem p.blocks (Unpacker.new p.blocks) g (filled ++ []) := by
    rw [List.append_nil]
    exact Unpacker.pending_new hst (h.below halloc)
  have hvs : g ++ filled.flatten = calls.map PackCall.value := by
    rw [← List.flatten_cons, hflat]
    rfl
  obtain ⟨hall, hend⟩ := hpend.all hfill _ hvs
  obtain ⟨u', hnext⟩ := hend.next_none
  rw [List.map_map] at hall hnext hend
  refine ⟨?_, fun t => Unpacker.unpack_end hend.exhausted hnext t⟩
  simpa only [List.map_map, Function.comp_def] using hall

/-- A stream of a negative integer and a string, in one block at 8192. -/
theorem unpackAll_packAll_pair :
    let calls : List PackCall := [⟨.int16 0x8000#16, 0⟩, ⟨.str ⟨[0x61#8], by decide⟩, 0⟩]
    let p := (Packer.new (fun _ => 0) 4096#32 [] 8192).packAll calls
    let r := Unpacker.unpackAll p.mem p.blocks (Unpacker.new p.blocks)
      (calls.map fun c => c.value.ty)
    r.1.map (fun o => (o.1, o.2.map (Value.map (StrView.bytes p.mem)))) =
        calls.map (fun c => (true, some (c.value.map Str.bytes))) ∧
      ∀ t, (Unpacker.unpack p.mem p.blocks r.2 t).ok = false := by
  refine unpackAll_packAll (by decide) _ _ _ ?_ ?_
  · intro c hc s hs
    simp only [List.mem_cons, List.not_mem_nil, or_false] at hc
    rcases hc with rfl | rfl <;> cases hs
    decide
  · have hext : extents ((Packer.new (fun _ => 0) 4096#32 [] 8192).packAll
        [⟨.int16 0x8000#16, 0⟩, ⟨.str ⟨[0x61#8], by decide⟩, 0⟩]).blocks = [(8192, 4096)] := rfl
    rw [hext]
    exact ⟨by simp, by simp⟩

end XfUtil
