import XfUtil.Pack.RoundTrip

/-!
# Several packers on one buffer

Each packer opens a block of its own, which stays empty if nothing is packed or
if the first value is a string without room in it. An unpacker hops one block for
each call: it skips an empty block only when it is constructed on it, and stops
at any later one.
-/

namespace XfUtil

open FlatMemory

/-! ## Empty blocks -/

namespace Unpacker

variable {mem : Mem} {blocks : List Block}

theorem decodeFixed_full (w : Nat) {n : Nat} (m : Mem) {fin : Nat} (hn : 0 < n)
    (hfin : fin + n < 2 ^ 64) : (decodeFixed w n m fin fin).ok = false := by
  rw [decodeFixed, ptrAdd_of_lt hfin, if_neg (by omega)]

theorem decodeVarint64_full (m : Mem) (fin : Nat) : (decodeVarint64 m fin fin).ok = false := by
  simp [decodeVarint64, decodeVarintLoop]

theorem decodeString_full (m : Mem) (fin : Nat) : (decodeString m fin fin).ok = false := by
  simp [decodeString, decodeVarint64_full m fin]

theorem unpackWith_empty {α : Type} {dec : Nat → Nat → Decoded α} {u u' : Unpacker}
    (h : u.fin ≤ u.ptr) (hn : nextBlock blocks u = (u', true))
    (hdec : (dec u'.ptr u'.fin).ok = false) : (unpackWith dec blocks u).ok = false := by
  rw [unpackWith, if_pos h, hn]
  exact hdec

theorem mapOk_ok {α β : Type} (f : α → β) {r : Unpacked α} (h : r.ok = false) :
    (r.mapOk f).ok = false := by
  rw [Unpacked.mapOk, if_neg (by simp [h])]

/-- Whatever the type, a call that hops to an empty block fails. -/
theorem unpack_empty {u u' : Unpacker} (h : u.fin ≤ u.ptr)
    (hn : nextBlock blocks u = (u', true)) (hempty : u'.ptr = u'.fin)
    (hfin : u'.fin + 8 < 2 ^ 64) (t : Ty) : (unpack mem blocks u t).ok = false := by
  have hfixed : ∀ w n, 0 < n → n ≤ 8 → (unpackWith (decodeFixed w n mem) blocks u).ok = false := by
    intro w n hpos hle
    apply unpackWith_empty h hn
    rw [hempty]
    exact decodeFixed_full w mem hpos (by omega)
  have hvarint : (unpackWith (decodeVarint64 mem) blocks u).ok = false := by
    apply unpackWith_empty h hn
    rw [hempty]
    exact decodeVarint64_full mem u'.fin
  have hvarint16 : (unpackWith (decodeVarint16 mem) blocks u).ok = false := by
    apply unpackWith_empty h hn
    rw [hempty]
    exact decodeVarint64_full mem u'.fin
  have hvarint32 : (unpackWith (decodeVarint32 mem) blocks u).ok = false := by
    apply unpackWith_empty h hn
    rw [hempty]
    exact decodeVarint64_full mem u'.fin
  cases t with
  | bool => exact hfixed 8 1 (by decide) (by decide)
  | int8 => exact hfixed 8 1 (by decide) (by decide)
  | uint8 => exact hfixed 8 1 (by decide) (by decide)
  | int16 => exact mapOk_ok decodeZigZag16 hvarint16
  | uint16 => exact hvarint16
  | fixed16 => exact hfixed 16 2 (by decide) (by decide)
  | int32 => exact mapOk_ok decodeZigZag32 hvarint32
  | uint32 => exact hvarint32
  | fixed32 => exact hfixed 32 4 (by decide) (by decide)
  | int64 => exact mapOk_ok decodeZigZag64 hvarint
  | uint64 => exact hvarint
  | fixed64 => exact hfixed 64 8 (by decide) (by decide)
  | float => exact hfixed 32 4 (by decide) (by decide)
  | double => exact hfixed 64 8 (by decide) (by decide)
  | str =>
      have hstr : (unpackWith (decodeString mem) blocks u).ok = false := by
        apply unpackWith_empty h hn
        rw [hempty]
        exact decodeString_full mem u'.fin
      exact hstr

theorem unpackAll_append (u : Unpacker) (ts ts' : List Ty) :
    (unpackAll mem blocks u (ts ++ ts')).1 =
      (unpackAll mem blocks u ts).1 ++
        (unpackAll mem blocks (unpackAll mem blocks u ts).2 ts').1 := by
  induction ts generalizing u with
  | nil => rfl
  | cons t ts ih =>
      rw [List.cons_append, unpackAll, unpackAll, ih]
      rfl

theorem nextBlock_mem {u u' : Unpacker} (h : nextBlock blocks u = (u', true)) :
    ∃ b ∈ blocks, u'.ptr = b.buf := by
  unfold nextBlock at h
  split at h
  · cases h
  · rename_i b hb
    cases h
    exact ⟨b, List.mem_of_getElem? hb, rfl⟩

/-- Behind the first empty group there is no value. -/
def Gapless (gs : List (List (Value Str))) : Prop :=
  (gs.dropWhile fun g => !g.isEmpty).flatten = []

/-- The groups up to the first empty one. -/
theorem gapless_split (gs : List (List (Value Str))) :
    ∃ filled more, gs = filled ++ more ∧ (∀ x ∈ filled, x ≠ []) ∧
      (more = [] ∨ ∃ after, more = [] :: after) ∧ (Gapless gs ↔ more.flatten = []) := by
  induction gs with
  | nil => exact ⟨[], [], rfl, by simp, Or.inl rfl, by simp [Gapless]⟩
  | cons g gs ih =>
      cases g with
      | nil => exact ⟨[], [] :: gs, rfl, by simp, Or.inr ⟨gs, rfl⟩, by simp [Gapless]⟩
      | cons v g =>
          obtain ⟨filled, more, rfl, hfill, hmore, hiff⟩ := ih
          refine ⟨(v :: g) :: filled, more, rfl, ?_, hmore, ?_⟩
          · intro x hx
            rcases List.mem_cons.mp hx with rfl | hx
            · simp
            · exact hfill x hx
          · rw [← hiff]
            simp [Gapless]

/-- A value is asked for at the end of a block before an empty one. -/
theorem Pending.stops {u : Unpacker} {after : List (List (Value Str))}
    (h : Pending mem blocks u [] ([] :: after))
    (hroom : ∀ b ∈ blocks, b.buf + 8 < 2 ^ 64) (t : Ty) :
    (unpack mem blocks u t).ok = false := by
  obtain ⟨u', hnext, h'⟩ := h.next
  have hempty : u'.ptr = u'.fin := by
    have hfin := h'.fin_eq
    rw [List.flatMap_nil, List.length_nil] at hfin
    omega
  obtain ⟨b, hb, hptr⟩ := nextBlock_mem hnext
  have hbelow := hroom b hb
  exact unpack_empty h.exhausted hnext hempty (by omega) t

/-- What an unpacker before the groups `g` and `rest` reads is right exactly if nothing
follows an empty group of `rest`. -/
theorem Pending.reads_iff {u : Unpacker} {g : List (Value Str)} {rest : List (List (Value Str))}
    (h : Pending mem blocks u g rest) (hroom : ∀ b ∈ blocks, b.buf + 8 < 2 ^ 64)
    {vs : List (Value Str)} (hvs : g ++ rest.flatten = vs) :
    (unpackAll mem blocks u (vs.map Value.ty)).1.map
        (fun o => (o.1, o.2.map (Value.map (StrView.bytes mem)))) =
        vs.map (fun v => (true, some (v.map Str.bytes))) ↔ Gapless rest := by
  obtain ⟨filled, more, rfl, hfill, hmore, hiff⟩ := gapless_split rest
  obtain ⟨early, hearly⟩ : ∃ early, g ++ filled.flatten = early := ⟨_, rfl⟩
  obtain ⟨hall, hend⟩ := h.all hfill early hearly
  rw [List.flatten_append, ← List.append_assoc, hearly] at hvs
  rw [hiff, ← hvs]
  constructor
  · intro hread
    cases hv : more.flatten with
    | nil => rfl
    | cons v vs =>
        -- The first value behind the empty group is asked for there.
        obtain rfl | ⟨after, rfl⟩ := hmore
        · cases hv
        · rw [hv, List.map_append, List.map_append, unpackAll_append, List.map_append,
            hall] at hread
          have hfirst := List.append_cancel_left hread
          rw [List.map_cons, unpackAll, List.map_cons, List.map_cons] at hfirst
          have hok := congrArg Prod.fst (List.cons.inj hfirst).1
          dsimp only at hok
          rw [hend.stops hroom] at hok
          cases hok
  · intro hnone
    rw [hnone, List.append_nil]
    exact hall

end Unpacker

/-! ## Packers one after another -/

/-- A packer: the address of the block its constructor gets, and the calls made. -/
structure Session where
  first : Nat
  calls : List PackCall

/-- A value has room in an empty block of the pool, by the check of its overload. -/
def Value.fitsBlock (blockSize : BitVec 32) : Value Str → Bool
  | .str v => decide (maxV16Size + v.bytes.length ≤ blockSize.toNat)
  | _ => true

namespace Session

/-- The packer as its constructor leaves it. -/
def start (blockSize : BitVec 32) (s : Session) (mem : Mem) (blocks : List Block) : Packer :=
  Packer.new mem blockSize blocks s.first

/-- The packer after its calls. -/
def result (blockSize : BitVec 32) (s : Session) (mem : Mem) (blocks : List Block) : Packer :=
  (s.start blockSize mem blocks).packAll s.calls

/-- Memory and blocks of the buffer after all packers. -/
def packSessions (blockSize : BitVec 32) : Mem → List Block → List Session → Mem × List Block
  | mem, blocks, [] => (mem, blocks)
  | mem, blocks, s :: ss =>
      packSessions blockSize (s.result blockSize mem blocks).mem
        (s.result blockSize mem blocks).blocks ss

/-- The packer writes to the block of its constructor. -/
def opens (blockSize : BitVec 32) (s : Session) : Bool :=
  (s.calls.head?.map fun c => c.value.fitsBlock blockSize).getD false

/-- From the first packer on, after the very first, that leaves the block of its
constructor empty, nothing is packed. -/
def Readable (blockSize : BitVec 32) (ss : List Session) : Prop :=
  ∀ s ∈ ss.tail.dropWhile (opens blockSize), s.calls = []

/-- The groups of a session. -/
def groups (blockSize : BitVec 32) (s : Session) (mem : Mem) (blocks : List Block) :
    List (List (Value Str)) :=
  ((s.start blockSize mem blocks).regroupAll s.calls [] []).1 ++
    [((s.start blockSize mem blocks).regroupAll s.calls [] []).2]

/-- The groups of all sessions. -/
def allGroups (blockSize : BitVec 32) :
    Mem → List Block → List Session → List (List (Value Str))
  | _, _, [] => []
  | mem, blocks, s :: ss =>
      s.groups blockSize mem blocks ++
        allGroups blockSize (s.result blockSize mem blocks).mem
          (s.result blockSize mem blocks).blocks ss

/-! ## What the groups are -/

variable {blockSize : BitVec 32}

/-- The reservation checks on a new block of the pool. -/
theorem full_start_iff (hB : BlockPool.accepts blockSize = true) (s : Session) (mem : Mem)
    (blocks : List Block) {c : PackCall} (hc : Packer.Short c) :
    c.value.reservation.Full (s.start blockSize mem blocks).block ↔
      c.value.fitsBlock blockSize = false := by
  obtain ⟨hsize, -⟩ := (BlockPool.accepts_iff blockSize).mp hB
  have hblock : (s.start blockSize mem blocks).block = ⟨s.first, blockSize, 0⟩ :=
    Packer.allocBlock_pool s.first (show 1 ≤ blockSize.toNat by omega)
  rw [hblock]
  have hbytes : ∀ n, n ≤ 10 → ¬ (Reservation.bytes n).Full ⟨s.first, blockSize, 0⟩ := by
    intro n hn hfull
    have hlt : blockSize.toNat < 0 + n := hfull
    omega
  have hvarint : ∀ n, n ≤ 10 → ¬ (Reservation.varint n).Full ⟨s.first, blockSize, 0⟩ := by
    intro n hn hfull
    have hlt : blockSize.toNat < (0#32 + BitVec.ofNat 32 n).toNat := hfull
    rw [BitVec.zero_add, BitVec.toNat_ofNat] at hlt
    omega
  obtain ⟨v, fresh⟩ := c
  cases v with
  | bool => exact iff_of_false (hbytes 1 (by decide)) (by simp [Value.fitsBlock])
  | int8 => exact iff_of_false (hbytes 1 (by decide)) (by simp [Value.fitsBlock])
  | uint8 => exact iff_of_false (hbytes 1 (by decide)) (by simp [Value.fitsBlock])
  | int16 => exact iff_of_false (hvarint 3 (by decide)) (by simp [Value.fitsBlock])
  | uint16 => exact iff_of_false (hvarint 3 (by decide)) (by simp [Value.fitsBlock])
  | fixed16 => exact iff_of_false (hbytes 2 (by decide)) (by simp [Value.fitsBlock])
  | int32 => exact iff_of_false (hvarint 5 (by decide)) (by simp [Value.fitsBlock])
  | uint32 => exact iff_of_false (hvarint 5 (by decide)) (by simp [Value.fitsBlock])
  | fixed32 => exact iff_of_false (hbytes 4 (by decide)) (by simp [Value.fitsBlock])
  | int64 => exact iff_of_false (hvarint 10 (by decide)) (by simp [Value.fitsBlock])
  | uint64 => exact iff_of_false (hvarint 10 (by decide)) (by simp [Value.fitsBlock])
  | fixed64 => exact iff_of_false (hbytes 8 (by decide)) (by simp [Value.fitsBlock])
  | float => exact iff_of_false (hbytes 4 (by decide)) (by simp [Value.fitsBlock])
  | double => exact iff_of_false (hbytes 8 (by decide)) (by simp [Value.fitsBlock])
  | str v =>
      have hlen : v.bytes.length < 2 ^ 21 := hc v rfl
      have hfits : (Value.str v).fitsBlock blockSize = false ↔
          blockSize.toNat < 3 + v.bytes.length :=
        decide_eq_false_iff_not.trans Nat.not_le
      have hzero : (0 : BitVec 32).toNat = 0 := rfl
      rw [hfits]
      refine (Packer.full_str_iff _ v).trans ?_
      rw [hzero, Nat.zero_add, Nat.mod_eq_of_lt (by omega)]

/-- The first group of a session is empty exactly if its packer does not write to the
first block; no other group is. -/
theorem groups_eq (hB : BlockPool.accepts blockSize = true) (s : Session) (mem : Mem)
    (blocks : List Block) (hshort : ∀ c ∈ s.calls, Packer.Short c) :
    ∃ g gs, s.groups blockSize mem blocks = g :: gs ∧ (∀ x ∈ gs, x ≠ []) ∧
      (g ≠ [] ↔ s.opens blockSize = true) := by
  obtain ⟨g, gs, heq, hgs, hg⟩ :=
    Packer.regroupAll_new (s.start blockSize mem blocks) s.calls
  refine ⟨g, gs, heq, hgs, hg.trans ?_⟩
  unfold opens
  cases hcalls : s.calls with
  | nil => simp
  | cons c rest =>
      have hfull := full_start_iff hB s mem blocks (hshort c (by simp [hcalls]))
      constructor
      · rintro ⟨c', rest', hcons, hnot⟩
        obtain ⟨rfl, -⟩ := List.cons.inj hcons
        rw [hfull] at hnot
        simpa using hnot
      · intro hfits
        refine ⟨c, rest, rfl, fun h => ?_⟩
        simp [hfull.mp h] at hfits

theorem groups_flatten (s : Session) (mem : Mem) (blocks : List Block) :
    (s.groups blockSize mem blocks).flatten = s.calls.map PackCall.value := by
  rw [groups, Packer.regroupAll_flatten]
  rfl

theorem allGroups_flatten (blockSize : BitVec 32) (ss : List Session) (mem : Mem)
    (blocks : List Block) :
    (allGroups blockSize mem blocks ss).flatten =
      ss.flatMap fun s => s.calls.map PackCall.value := by
  induction ss generalizing mem blocks with
  | nil => rfl
  | cons s ss ih => rw [allGroups, List.flatten_append, groups_flatten, ih, List.flatMap_cons]

theorem gapless_append {gs gs' : List (List (Value Str))} (h : ∀ x ∈ gs, x ≠ []) :
    Unpacker.Gapless (gs ++ gs') ↔ Unpacker.Gapless gs' := by
  rw [Unpacker.Gapless, List.dropWhile_append_of_pos (by simpa using h)]
  rfl

/-- The groups of packers after the first are without a gap exactly if all values are
packed before a packer leaves its first block empty. -/
theorem gapless_allGroups_iff (hB : BlockPool.accepts blockSize = true) (ss : List Session)
    (mem : Mem) (blocks : List Block) (hshort : ∀ s ∈ ss, ∀ c ∈ s.calls, Packer.Short c) :
    Unpacker.Gapless (allGroups blockSize mem blocks ss) ↔
      ∀ s ∈ ss.dropWhile (opens blockSize), s.calls = [] := by
  induction ss generalizing mem blocks with
  | nil => simp [Unpacker.Gapless, allGroups]
  | cons s ss ih =>
      obtain ⟨g, gs, heq, hgs, hg⟩ := groups_eq hB s mem blocks (hshort s (by simp))
      cases hopens : s.opens blockSize with
      | true =>
          rw [List.dropWhile_cons_of_pos hopens, allGroups, gapless_append, ih]
          · exact fun s hs => hshort s (by simp [hs])
          · intro x hx
            rw [heq] at hx
            rcases List.mem_cons.mp hx with rfl | hx
            · exact hg.mpr hopens
            · exact hgs x hx
      | false =>
          have hnil : g = [] := by
            by_contra h
            rw [hg.mp h] at hopens
            cases hopens
          have hflat := allGroups_flatten blockSize (s :: ss) mem blocks
          have hgap : Unpacker.Gapless (allGroups blockSize mem blocks (s :: ss)) ↔
              (allGroups blockSize mem blocks (s :: ss)).flatten = [] := by
            rw [allGroups, heq, hnil]
            rfl
          rw [hgap, hflat, List.dropWhile_cons_of_neg (by simp [hopens])]
          simp

/-! ## What the blocks hold -/

/-- The used parts of the blocks hold the groups and lie within capacities that leave
room for any fixed-width value. -/
structure Buffered (mem : Mem) (blocks : List Block) (gs : List (List (Value Str))) : Prop where
  stored : List.Forall₂ (Stored mem) blocks gs
  within : ∀ b ∈ blocks, b.size.toNat ≤ b.capacity.toNat
  wide : ∀ x ∈ extents blocks, 4096 ≤ x.2

theorem request_le {c : PackCall} (hc : Packer.Short c) :
    c.value.reservation.request.toNat ≤ 2 ^ 32 - 4096 := by
  have hsmall : ∀ n, n ≤ 10 → (BitVec.ofNat 32 n).toNat ≤ 2 ^ 32 - 4096 := by
    intro n hn
    rw [BitVec.toNat_ofNat]
    omega
  obtain ⟨v, fresh⟩ := c
  cases v with
  | str v =>
      have hlen : v.bytes.length < 2 ^ 21 := hc v rfl
      exact (Packer.request_str v).trans_le (by omega)
  | _ => exact hsmall _ (by decide)

theorem allocBlock_capacity_ge (hB : BlockPool.accepts blockSize = true) {n : BitVec 32}
    (hn : n.toNat ≤ 2 ^ 32 - 4096) (fresh : Nat) :
    4096 ≤ (allocBlock blockSize n fresh).capacity.toNat := by
  obtain ⟨hsize, -⟩ := (BlockPool.accepts_iff blockSize).mp hB
  by_cases h : n.toNat ≤ blockSize.toNat
  · rw [Packer.allocBlock_pool fresh h]
    exact hsize
  · rw [Packer.allocBlock_heap fresh (by omega)]
    omega

theorem wide_packAll {p : Packer} (hB : BlockPool.accepts p.blockSize = true)
    (h : ∀ x ∈ extents p.blocks, 4096 ≤ x.2) (calls : List PackCall)
    (hshort : ∀ c ∈ calls, Packer.Short c) :
    ∀ x ∈ extents (p.packAll calls).blocks, 4096 ≤ x.2 := by
  induction calls generalizing p with
  | nil => exact h
  | cons c calls ih =>
      have hsize : (p.pack c.fresh c.value).blockSize = p.blockSize := by
        rw [Packer.pack_eq, Packer.emit_blockSize, Packer.room_blockSize]
      refine ih (show BlockPool.accepts (p.pack c.fresh c.value).blockSize = true by rwa [hsize])
        ?_ fun c hc => hshort c (by simp [hc])
      show ∀ x ∈ extents (p.pack c.fresh c.value).blocks, 4096 ≤ x.2
      rw [Packer.pack_eq, Packer.extents_emit]
      unfold Packer.room
      split
      · intro x hx
        simp only [extents, Packer.blocks, Packer.alloc, List.map_append, List.mem_append,
          List.map_cons, List.map_nil, List.mem_singleton] at hx
        rcases hx with hx | rfl
        · exact h x (by simpa [extents, Packer.blocks] using hx)
        · exact allocBlock_capacity_ge hB (request_le (hshort c (by simp))) c.fresh
      · exact h

/-- The blocks of a packer are those it found and its own. -/
theorem extents_start (s : Session) (mem : Mem) (blocks : List Block) :
    extents (s.start blockSize mem blocks).blocks =
      extents blocks ++ extents [allocBlock blockSize 1#32 s.first] := by
  simp [start, Packer.new, Packer.blocks, extents]

theorem Buffered.result (hB : BlockPool.accepts blockSize = true) {s : Session} {mem : Mem}
    {blocks : List Block} {gs : List (List (Value Str))} (h : Buffered mem blocks gs)
    (hshort : ∀ c ∈ s.calls, Packer.Short c)
    (halloc : Allocated (extents (s.result blockSize mem blocks).blocks)) :
    Buffered (s.result blockSize mem blocks).mem (s.result blockSize mem blocks).blocks
      (gs ++ s.groups blockSize mem blocks) := by
  have hstart : Packer.Layout (s.start blockSize mem blocks) gs [] :=
    ⟨h.stored, by simp [Stored, start, Packer.new], h.within,
      Packer.InBounds.new mem blockSize blocks s.first, Packer.Sized.new hB mem blocks s.first⟩
  have hend := Packer.layout_packAll hstart s.calls hshort halloc
  have hgroups := Packer.regroupAll_append (s.start blockSize mem blocks) s.calls gs [] []
  rw [List.append_nil] at hgroups
  rw [hgroups] at hend
  refine ⟨?_, ?_, ?_⟩
  · rw [groups, ← List.append_assoc]
    exact hend.stored
  · intro b hb
    rcases List.mem_append.mp hb with hb | hb
    · exact hend.within b hb
    · obtain rfl := List.mem_singleton.mp hb
      exact hend.bounds.size_le
  · refine wide_packAll hB ?_ s.calls hshort
    rw [extents_start]
    intro x hx
    rcases List.mem_append.mp hx with hx | hx
    · exact h.wide x hx
    · obtain rfl := List.mem_singleton.mp hx
      exact allocBlock_capacity_ge hB (by decide) s.first

theorem extents_packSessions_initial (ss : List Session) (mem : Mem) (blocks : List Block) :
    extents blocks <+: extents (packSessions blockSize mem blocks ss).2 := by
  induction ss generalizing mem blocks with
  | nil => exact List.prefix_rfl
  | cons s ss ih =>
      have hresult : extents blocks <+: extents (s.result blockSize mem blocks).blocks := by
        refine List.IsPrefix.trans ?_ (Packer.extents_packAll_initial _ s.calls)
        rw [extents_start]
        exact List.prefix_append _ _
      exact hresult.trans (ih _ _)

theorem Buffered.packSessions (hB : BlockPool.accepts blockSize = true) (ss : List Session)
    {mem : Mem} {blocks : List Block} {gs : List (List (Value Str))} (h : Buffered mem blocks gs)
    (hshort : ∀ s ∈ ss, ∀ c ∈ s.calls, Packer.Short c)
    (halloc : Allocated (extents (Session.packSessions blockSize mem blocks ss).2)) :
    Buffered (Session.packSessions blockSize mem blocks ss).1
      (Session.packSessions blockSize mem blocks ss).2
      (gs ++ allGroups blockSize mem blocks ss) := by
  induction ss generalizing mem blocks gs with
  | nil => simpa [Session.packSessions, allGroups] using h
  | cons s ss ih =>
      have hone := halloc.of_prefix (extents_packSessions_initial ss _ _)
      have hnext := h.result hB (hshort s (by simp)) hone
      rw [allGroups, ← List.append_assoc]
      exact ih hnext (fun s hs => hshort s (by simp [hs])) halloc

/-- One unpacker reads the values of all packers back exactly if they are all packed
before a packer, other than the first, leaves the block of its constructor empty. -/
theorem readsBack_iff (hB : BlockPool.accepts blockSize = true) (mem : Mem) (ss : List Session)
    (hshort : ∀ s ∈ ss, ∀ c ∈ s.calls, Packer.Short c)
    (halloc : Allocated (extents (packSessions blockSize mem [] ss).2)) :
    let r := packSessions blockSize mem [] ss
    let vs := ss.flatMap fun s => s.calls.map PackCall.value
    (Unpacker.unpackAll r.1 r.2 (Unpacker.new r.2) (vs.map Value.ty)).1.map
        (fun o => (o.1, o.2.map (Value.map (StrView.bytes r.1)))) =
        vs.map (fun v => (true, some (v.map Str.bytes))) ↔
      Readable blockSize ss := by
  have hbuf := Buffered.packSessions hB ss
    (show Buffered mem [] [] from ⟨List.Forall₂.nil, by simp, by simp [extents]⟩) hshort halloc
  cases ss with
  | nil => simp [Readable, Unpacker.unpackAll]
  | cons s ss =>
      obtain ⟨g, gs, heq, hgs, -⟩ := groups_eq hB s mem [] (hshort s (by simp))
      have hflat := allGroups_flatten blockSize (s :: ss) mem []
      rw [List.nil_append] at hbuf
      rw [allGroups, heq, List.cons_append] at hbuf hflat
      dsimp only
      generalize packSessions blockSize mem [] (s :: ss) = r at *
      have hbelow : ∀ b ∈ r.2, b.buf + b.capacity.toNat < 2 ^ 64 ∧ 4096 ≤ b.capacity.toNat := by
        intro b hb
        have hmem : (b.buf, b.capacity.toNat) ∈ extents r.2 := List.mem_map_of_mem hb
        exact ⟨halloc.below _ hmem, hbuf.wide _ hmem⟩
      have hpend := Unpacker.pending_new hbuf.stored fun b hb => by
        have hb' := hbelow b hb
        have hsize := hbuf.within b hb
        omega
      rw [hpend.reads_iff (fun b hb => by have hb' := hbelow b hb; omega)
        (List.flatten_cons.symm.trans hflat), gapless_append hgs,
        gapless_allGroups_iff hB ss _ _ fun s hs => hshort s (by simp [hs])]
      rfl

/-- A packer without a value, and one that packs a byte. -/
theorem readsBack_iff_pair :
    let ss : List Session := [⟨8192, []⟩, ⟨16384, [⟨.uint8 7#8, 0⟩]⟩]
    let r := packSessions 4096#32 (fun _ => 0) [] ss
    let vs := ss.flatMap fun s => s.calls.map PackCall.value
    (Unpacker.unpackAll r.1 r.2 (Unpacker.new r.2) (vs.map Value.ty)).1.map
        (fun o => (o.1, o.2.map (Value.map (StrView.bytes r.1)))) =
        vs.map (fun v => (true, some (v.map Str.bytes))) ↔
      Readable 4096#32 ss := by
  refine readsBack_iff (by decide) _ _ ?_ ?_
  · intro s hs c hc str hstr
    simp only [List.mem_cons, List.not_mem_nil, or_false] at hs
    rcases hs with rfl | rfl
    · cases hc
    · obtain rfl := List.mem_singleton.mp hc
      cases hstr
  · have hext : extents (packSessions 4096#32 (fun _ => 0) []
        [⟨8192, []⟩, ⟨16384, [⟨.uint8 7#8, 0⟩]⟩]).2 = [(8192, 4096), (16384, 4096)] := rfl
    rw [hext]
    exact ⟨by simp [Apart], by simp⟩

/-- The block of a packer that packs nothing hides the byte that the next one packs. -/
theorem empty_block_hides_values :
    ¬ ∀ (blockSize : BitVec 32), BlockPool.accepts blockSize = true → ∀ (mem : Mem)
      (ss : List Session), (∀ s ∈ ss, ∀ c ∈ s.calls, Packer.Short c) →
      Allocated (extents (packSessions blockSize mem [] ss).2) →
      let r := packSessions blockSize mem [] ss
      let vs := ss.flatMap fun s => s.calls.map PackCall.value
      (Unpacker.unpackAll r.1 r.2 (Unpacker.new r.2) (vs.map Value.ty)).1.map
        (fun o => (o.1, o.2.map (Value.map (StrView.bytes r.1)))) =
        vs.map (fun v => (true, some (v.map Str.bytes))) := by
  intro hall
  have hread := hall 4096#32 (by decide) (fun _ => 0)
    [⟨8192, [⟨.uint8 7#8, 0⟩]⟩, ⟨16384, []⟩, ⟨24576, [⟨.uint8 8#8, 0⟩]⟩] ?_ ?_
  · have hok := congrArg (List.map Prod.fst) hread
    rw [List.map_map, List.map_map] at hok
    exact absurd hok (by decide)
  · intro s hs c hc str hstr
    simp only [List.mem_cons, List.not_mem_nil, or_false] at hs
    rcases hs with rfl | rfl | rfl
    · obtain rfl := List.mem_singleton.mp hc
      cases hstr
    · cases hc
    · obtain rfl := List.mem_singleton.mp hc
      cases hstr
  · have hext : extents (packSessions 4096#32 (fun _ => 0) []
        [⟨8192, [⟨.uint8 7#8, 0⟩]⟩, ⟨16384, []⟩, ⟨24576, [⟨.uint8 8#8, 0⟩]⟩]).2 =
        [(8192, 4096), (16384, 4096), (24576, 4096)] := rfl
    rw [hext]
    exact ⟨by simp [Apart], by simp⟩

end Session

end XfUtil
