import XfUtil.WriteBuffer.Blocks

/-!
# A buffer backed by a pool

Small requests are cut from a block of the pool, large ones are allocated alone. A
block is left for the next one only when at most half of it remains, so the bytes
owned are bounded by twice the bytes requested and one block.
-/

namespace XfUtil

open FlatMemory

namespace System

/-- A `Write` asks for something. -/
def Op.Positive : Op → Prop
  | .write size _ => 1 ≤ size
  | _ => True

/-- The size of the current block, if there is one. -/
def current (s : System) : Nat := if s.buffer.blocks = [] then 0 else s.buffer.blockSize.toNat

/-- The pool is the buffer's and holds the memory of both. -/
structure PoolHolds (s : System) (p : BlockPool) : Prop where
  pool : s.pool = some p
  size : p.blockSize = s.buffer.blockSize
  holds : p.Holds s.heap (s.buffer.blocks ++ s.others) s.buffer.bufs s.bufRegions

/-- The invariant of a buffer with a pool. `half` says that every block but the current
one is at least half used. -/
structure Backed (s : System) : Prop where
  pool : ∃ p, s.PoolHolds p
  carved : Carved s.owned s.returned s.buffer.ptr s.buffer.size.toNat
  usage : s.buffer.usage.toNat = Region.total s.owned
  left : s.buffer.size.toNat ≤ s.current
  half : Region.total s.owned + 2 * (s.current - s.buffer.size.toNat) ≤
    2 * Region.total s.returned + s.current

namespace PoolHolds

variable {s : System} {p : BlockPool} (h : s.PoolHolds p)
include h

theorem owned_eq : s.owned = s.buffer.blocks.map p.region ++ s.bufRegions := by
  rw [owned, ← h.size]
  rfl

theorem owned_sublist :
    s.owned.Sublist
      ((p.freeBlocks ++ (s.buffer.blocks ++ s.others)).map p.region ++ s.bufRegions) := by
  rw [h.owned_eq]
  refine List.Sublist.append_right (List.Sublist.map _ ?_) _
  exact (List.sublist_append_left _ _).trans (List.sublist_append_right _ _)

theorem owned_apart : s.owned.Pairwise Region.Apart := h.holds.apart.sublist h.owned_sublist

theorem owned_bounds {r : Region} (hr : r ∈ s.owned) : 0 < r.1 ∧ r.1 + r.2 < 2 ^ 64 := by
  rw [h.owned_eq] at hr
  rcases List.mem_append.mp hr with hr | hr
  · obtain ⟨b, hb, rfl⟩ := List.mem_map.mp hr
    exact h.holds.bounds_used (List.mem_append_left _ hb)
  · exact ⟨(h.holds.bufs.bounds hr).1, (h.holds.bufs.bounds hr).2.2⟩

theorem total_lt : Region.total s.owned < 2 ^ 64 := by
  have hle := Region.total_le h.owned_apart 1 (2 ^ 64) fun r hr => by
    have hr := h.owned_bounds hr
    omega
  omega

end PoolHolds

namespace Backed

variable {s : System} (h : s.Backed)
include h

theorem sound : s.Sound := ⟨h.carved.inside, h.carved.apart, h.usage⟩

theorem usage_le :
    s.buffer.usage.toNat ≤ 2 * Region.total s.returned + s.buffer.blockSize.toNat := by
  have hhalf := h.half
  have husage := h.usage
  have hcurrent : s.current ≤ s.buffer.blockSize.toNat := by
    unfold current
    split
    · exact Nat.zero_le _
    · exact le_rfl
  omega

/-! ## Writing -/

theorem left_end (hpos : s.buffer.size.toNat ≠ 0) :
    s.buffer.ptr + s.buffer.size.toNat < 2 ^ 64 := by
  obtain ⟨p, hp⟩ := h.pool
  obtain ⟨r, hr, -, hend⟩ := h.carved.left_inside hpos
  have hbounds := hp.owned_bounds hr
  dsimp only at hend
  omega

/-- A request that the current block can serve. -/
theorem cut {size : BitVec 32} (hpos : size.toNat ≠ 0) (hle : size ≤ s.buffer.size) :
    (s.cut size).Backed := by
  have hsize := BitVec.le_def.mp hle
  have hend := h.left_end (by omega)
  have hptr : (s.cut size).buffer.ptr = s.buffer.ptr + size.toNat := ptrAdd_of_lt (by omega)
  have hleft : (s.cut size).buffer.size.toNat = s.buffer.size.toNat - size.toNat :=
    BitVec.toNat_sub_of_le hle
  obtain ⟨p, hp⟩ := h.pool
  have hcurrent : (s.cut size).current = s.current := rfl
  have howned : (s.cut size).owned = s.owned := rfl
  have hreturned : Region.total (s.cut size).returned = size.toNat + Region.total s.returned := rfl
  have hbound := h.left
  have hhalf := h.half
  refine ⟨⟨p, hp.pool, hp.size, hp.holds⟩, ?_, h.usage, ?_, ?_⟩
  · rw [hptr, hleft, howned]
    exact h.carved.take hpos hsize
  · rw [hleft, hcurrent]
    omega
  · rw [hleft, hcurrent, howned, hreturned]
    omega

theorem pushBuf {size : BitVec 32} {fresh : Nat} {heap : Heap} (hpos : 0 < size.toNat)
    (hm : s.heap.malloc size.toNat fresh = some heap) :
    Backed { s.pushBuf fresh size heap with
      buffer := { (s.pushBuf fresh size heap).buffer with
        usage := s.buffer.usage + size.setWidth 64 }
      returned := (fresh, size.toNat) :: s.returned } := by
  obtain ⟨p, hp⟩ := h.pool
  generalize hs' : ({ s.pushBuf fresh size heap with
      buffer := { (s.pushBuf fresh size heap).buffer with
        usage := s.buffer.usage + size.setWidth 64 }
      returned := (fresh, size.toNat) :: s.returned } : System) = s'
  have hp' : s'.PoolHolds p := by
    subst hs'
    exact ⟨hp.pool, hp.size, hp.holds.push hpos hm⟩
  have howned : s'.owned = s.owned ++ [(fresh, size.toNat)] := by
    subst hs'
    exact (List.append_assoc _ _ _).symm
  have hbuffer : s'.buffer.ptr = s.buffer.ptr ∧ s'.buffer.size = s.buffer.size ∧
      s'.buffer.usage = s.buffer.usage + size.setWidth 64 ∧ s'.current = s.current ∧
      s'.returned = (fresh, size.toNat) :: s.returned := by
    subst hs'
    exact ⟨rfl, rfl, rfl, rfl, rfl⟩
  obtain ⟨hptr, hsize, husage, hcurrent, hreturned⟩ := hbuffer
  have happart : ∀ r ∈ s.owned, Region.Apart (fresh, size.toNat) r := by
    have hall := hp'.owned_apart
    rw [howned] at hall
    intro r hr
    exact ((List.pairwise_append.mp hall).2.2 r hr _ (by simp)).symm
  have htotal : Region.total s'.owned = Region.total s.owned + size.toNat := by
    rw [howned]
    simp
  have hlt := hp'.total_lt
  have hbound := h.left
  have hhalf := h.half
  refine ⟨⟨p, hp'⟩, ?_, ?_, ?_, ?_⟩
  · rw [hptr, hsize, hreturned]
    refine (h.carved.whole happart).congr fun r hr => ?_
    rw [howned]
    rcases List.mem_cons.mp hr with rfl | hr
    · exact List.mem_append_right _ (List.mem_singleton_self _)
    · exact List.mem_append_left _ hr
  · rw [htotal] at hlt ⊢
    rw [husage, BitVec.toNat_add, h.usage, BitVec.toNat_setWidth_of_le (by decide),
      Nat.mod_eq_of_lt hlt]
  · rw [hsize, hcurrent]
    exact hbound
  · rw [htotal, hsize, hcurrent, hreturned, Region.total_cons]
    dsimp only
    omega

/-- A new block, when at most half of the current one is left. -/
theorem refill {p p' : BlockPool} (hp : s.PoolHolds p) {fresh block : Nat} {heap : Heap}
    (ha : poolAlloc p s.heap fresh = some (block, p', heap))
    (hhalf : 2 * s.buffer.size.toNat ≤ s.buffer.blockSize.toNat) :
    Backed { s with
      buffer := { s.buffer with blocks := s.buffer.blocks ++ [block] }.refill block
      pool := some p'
      heap := heap } := by
  obtain ⟨hholds, hsame⟩ := hp.holds.alloc ha
  generalize hs' : ({ s with
      buffer := { s.buffer with blocks := s.buffer.blocks ++ [block] }.refill block
      pool := some p'
      heap := heap } : System) = s'
  have hp' : s'.PoolHolds p' := by
    subst hs'
    refine ⟨rfl, hsame.trans hp.size, hholds.perm ?_⟩
    have hmove : (block :: (s.buffer.blocks ++ s.others)).Perm
        (s.buffer.blocks ++ block :: s.others) := List.perm_middle.symm
    exact hmove.trans (by simp [WriteBuffer.refill])
  have hbuffer : s'.buffer.ptr = block ∧ s'.buffer.size = s.buffer.blockSize ∧
      s'.buffer.usage = s.buffer.usage + s.buffer.blockSize.setWidth 64 ∧
      s'.current = s.buffer.blockSize.toNat ∧ s'.returned = s.returned ∧
      s'.owned = (s.buffer.blocks ++ [block]).map
        (fun b => (b, s.buffer.blockSize.toNat)) ++ s.bufRegions := by
    subst hs'
    exact ⟨rfl, rfl, rfl, by simp [current, WriteBuffer.refill], rfl, rfl⟩
  obtain ⟨hptr, hsize, husage, hcurrent, hreturned, howned⟩ := hbuffer
  have hmove : s'.owned.Perm ((block, s.buffer.blockSize.toNat) :: s.owned) := by
    rw [howned, List.map_append, List.append_assoc]
    exact List.perm_middle
  have happart : ∀ r ∈ s.owned, Region.Apart (block, s.buffer.blockSize.toNat) r :=
    (List.pairwise_cons.mp ((List.Perm.pairwise_iff Region.Apart.symm hmove).mp
      hp'.owned_apart)).1
  have htotal : Region.total s'.owned = s.buffer.blockSize.toNat + Region.total s.owned :=
    (hmove.map Prod.snd).sum_eq
  have hlt := hp'.total_lt
  have hbound := h.left
  have hbefore := h.half
  refine ⟨⟨p', hp'⟩, ?_, ?_, ?_, ?_⟩
  · rw [hptr, hsize, hreturned]
    exact (h.carved.refill happart).congr fun r hr => hmove.mem_iff.mpr hr
  · rw [htotal] at hlt ⊢
    rw [husage, BitVec.toNat_add, h.usage, BitVec.toNat_setWidth_of_le (by decide),
      Nat.mod_eq_of_lt (by omega), Nat.add_comm]
  · rw [hsize, hcurrent]
  · rw [htotal, hsize, hcurrent, hreturned]
    have hcases : s.current = 0 ∨ s.current = s.buffer.blockSize.toNat := by
      unfold current
      split
      · exact Or.inl rfl
      · exact Or.inr rfl
    omega

theorem write {size : BitVec 32} {fresh : Nat} {t : System} (hpos : 1 ≤ size)
    (ht : s.write size fresh = some t) : t.Backed := by
  have hpos' : 0 < size.toNat := BitVec.le_def.mp hpos
  unfold System.write at ht
  split at ht
  · rename_i hle
    obtain rfl := Option.some.inj ht
    exact h.cut (by omega) hle
  · rename_i hnot
    unfold largeWrite at ht
    split at ht
    · obtain ⟨heap, hm, rfl⟩ := Option.map_eq_some_iff.mp ht
      exact h.pushBuf hpos' hm
    · rename_i hsmall
      obtain ⟨p, hp⟩ := h.pool
      rw [hp.pool] at ht
      obtain ⟨⟨block, p', heap⟩, ha, rfl⟩ := Option.map_eq_some_iff.mp ht
      have hlt := BitVec.lt_def.mp (BitVec.not_le.mp hnot)
      have hle := BitVec.le_def.mp (BitVec.not_lt.mp hsmall)
      have htwo : (2 : BitVec 32).toNat = 2 := rfl
      rw [BitVec.toNat_udiv, htwo] at hle
      have hnext := h.refill hp ha (by omega)
      refine hnext.cut (by omega) (BitVec.le_def.mpr ?_)
      show size.toNat ≤ s.buffer.blockSize.toNat
      omega

/-! ## Other users of the pool -/

/-- The invariant reads the buffer and its allocations, and the pool through `PoolHolds`. -/
theorem other {p : BlockPool} {heap : Heap} {others : List Nat}
    (hp : PoolHolds { s with pool := some p, heap := heap, others := others } p) :
    Backed { s with pool := some p, heap := heap, others := others } :=
  ⟨⟨p, hp⟩, h.carved, h.usage, h.left, h.half⟩

theorem alloc {fresh : Nat} {t : System} (ht : step s (.alloc fresh) = some t) : t.Backed := by
  obtain ⟨p, hp⟩ := h.pool
  rw [step, hp.pool, Option.bind_some] at ht
  obtain ⟨⟨block, p', heap⟩, ha, rfl⟩ := Option.map_eq_some_iff.mp ht
  obtain ⟨hholds, hsame⟩ := hp.holds.alloc ha
  apply h.other
  refine ⟨rfl, hsame.trans hp.size, hholds.perm ?_⟩
  have hmove : (block :: (s.buffer.blocks ++ s.others)).Perm
      (s.buffer.blocks ++ block :: s.others) := List.perm_middle.symm
  exact hmove

theorem free {block : Nat} {t : System} (ht : step s (.free block) = some t) : t.Backed := by
  obtain ⟨p, hp⟩ := h.pool
  rw [step] at ht
  split at ht
  · rename_i hmem
    rw [hp.pool, Option.bind_some] at ht
    have hperm : (s.buffer.blocks ++ s.others).Perm
        (block :: (s.buffer.blocks ++ s.others.erase block)) :=
      ((List.perm_cons_erase hmem).append_left _).trans List.perm_middle
    obtain ⟨⟨p', heap⟩, hfree, rfl⟩ := Option.map_eq_some_iff.mp ht
    apply h.other
    rcases hp.holds.free_block hperm with ⟨-, heq, hholds⟩ | ⟨-, -, heap', heq, hholds, -⟩
    · cases heq.symm.trans hfree
      exact ⟨rfl, hp.size, hholds⟩
    · cases heq.symm.trans hfree
      exact ⟨rfl, hp.size, hholds⟩
  · cases ht

end Backed

/-! ## Clearing -/

/-- The blocks of the buffer that are in the arena, the last one first. -/
def arenaBlocks (s : System) (p : BlockPool) : List Nat :=
  (s.buffer.blocks.filter fun b => p.InArena b).reverse

/-- `Clear` takes `s`, whose pool is `p`, to `t`. It gives back every address once: the
blocks of the arena to the deque of the pool, all else to the heap. -/
structure Cleared (s : System) (p : BlockPool) (t : System) : Prop where
  buffer : t.buffer = WriteBuffer.new s.buffer.blockSize
  owned : t.owned = []
  returned : t.returned = []
  others : t.others = s.others
  once : (s.buffer.blocks ++ s.buffer.bufs).Nodup
  pool : t.pool = some { p with freeBlocks := s.arenaBlocks p ++ p.freeBlocks }
  deque : (s.arenaBlocks p ++ p.freeBlocks).Nodup
  freed : ∀ r ∈ s.owned, r ∈ s.heap.live ↔ ¬ (r.1 ∈ s.buffer.blocks ∧ p.InArena r.1)
  heap : ∀ q, q ∈ t.heap.live ↔ q ∈ s.heap.live ∧ q ∉ s.owned

namespace PoolHolds

variable {s : System} {p : BlockPool} (h : s.PoolHolds p)
include h

theorem addresses_nodup : (s.buffer.blocks ++ s.buffer.bufs).Nodup := by
  have haddresses : s.buffer.blocks ++ s.buffer.bufs = s.owned.map Prod.fst := by
    rw [h.owned_eq, List.map_append, List.map_map, h.holds.bufs.addresses]
    congr 1
    exact (List.map_id s.buffer.blocks).symm
  have hpos : ∀ r ∈ s.owned, 0 < r.2 := by
    intro r hr
    rw [h.owned_eq] at hr
    rcases List.mem_append.mp hr with hr | hr
    · obtain ⟨b, -, rfl⟩ := List.mem_map.mp hr
      exact h.holds.size_pos
    · exact (h.holds.bufs.bounds hr).2.1
  rw [haddresses, List.Nodup, List.pairwise_map]
  exact h.owned_apart.imp_of_mem fun hq hr happart => happart.fst_ne (hpos _ hq) (hpos _ hr)

theorem live_iff {r : Region} (hr : r ∈ s.owned) :
    r ∈ s.heap.live ↔ ¬ (r.1 ∈ s.buffer.blocks ∧ p.InArena r.1) := by
  rw [h.owned_eq] at hr
  rcases List.mem_append.mp hr with hr | hr
  · obtain ⟨b, hb, rfl⟩ := List.mem_map.mp hr
    constructor
    · exact fun hlive hblock => h.holds.not_inArena hlive hblock.2
    · intro hnot
      have hplace := h.holds.used b (List.mem_append_left _ hb)
      exact hplace.resolve_left fun harena => hnot ⟨hb, harena⟩
  · refine iff_of_true (h.holds.bufs.live r hr) fun hblock => ?_
    have hbuf : r.1 ∈ s.buffer.bufs := h.holds.bufs.addresses ▸ List.mem_map_of_mem hr
    exact (List.nodup_append.mp h.addresses_nodup).2.2 r.1 hblock.1 r.1 hbuf rfl

theorem clear : ∃ t, s.clear = some t ∧ s.Cleared p t ∧ ∃ p', t.PoolHolds p' := by
  obtain ⟨p', h₁, hblocks, hholds, hp', hlive⟩ := h.holds.freeBlocks
  obtain ⟨h₂, hbufs, hwf, hreserved, hlive₂⟩ := hholds.bufs.freeBufs
  have hrest : p'.Holds h₂ s.others [] [] := by
    refine ⟨hholds.accepted, hreserved ▸ hholds.arena, hholds.start, hholds.free, ?_,
      ⟨hwf, rfl, by simp, List.Pairwise.nil⟩, ?_⟩
    · intro b hb
      refine (hholds.used b hb).imp_right fun hl => (hlive₂ _).mpr ⟨hl, fun hbuf => ?_⟩
      have hmem : p'.region b ∈ (p'.freeBlocks ++ s.others).map p'.region :=
        List.mem_map_of_mem (List.mem_append_right _ hb)
      exact ((List.pairwise_append.mp hholds.apart).2.2 _ hmem _ hbuf).ne hholds.size_pos rfl
    · rw [List.append_nil]
      exact (List.pairwise_append.mp hholds.apart).1
  have hclear : s.clear = some { s with
      buffer := { s.buffer with ptr := 0, size := 0, usage := 0, blocks := [], bufs := [] }
      pool := some p'
      heap := h₂
      bufRegions := []
      returned := [] } := by
    rw [System.clear, h.pool, hblocks, Option.bind_some, hbufs, Option.map_some]
  refine ⟨_, hclear, ⟨rfl, rfl, rfl, rfl, h.addresses_nodup, ?_, ?_, fun r hr => h.live_iff hr, ?_⟩,
    p', rfl, ?_, ?_⟩
  · rw [hp', arenaBlocks]
  · have hdeque : p'.freeBlocks.Nodup := hrest.free_nodup
    rwa [hp'] at hdeque
  · intro q
    rw [h.owned_eq, List.mem_append, not_or, ← and_assoc]
    exact (hlive₂ q).trans (and_congr_left fun _ => hlive q)
  · rw [hp']
    exact h.size
  · exact hrest

end PoolHolds

namespace Backed

theorem of_cleared {s t : System} {p p' : BlockPool} (ht : s.Cleared p t) (hp : t.PoolHolds p') :
    t.Backed := by
  have hbuffer : t.buffer.ptr = 0 ∧ t.buffer.size = 0 ∧ t.buffer.usage = 0 ∧ t.current = 0 := by
    rw [current, ht.buffer]
    exact ⟨rfl, rfl, rfl, rfl⟩
  obtain ⟨hptr, hsize, husage, hcurrent⟩ := hbuffer
  refine ⟨⟨p', hp⟩, ?_, ?_, ?_, ?_⟩
  · rw [ht.owned, ht.returned, hsize]
    exact Carved.empty _
  · rw [husage, ht.owned]
    rfl
  · rw [hsize]
    exact Nat.zero_le _
  · rw [ht.owned, ht.returned, hcurrent, Region.total_nil]
    omega

theorem step {s t : System} (h : s.Backed) {op : Op} (hop : op.Positive)
    (ht : System.step s op = some t) : t.Backed := by
  cases op with
  | write size fresh => exact h.write hop ht
  | clear =>
      obtain ⟨p, hp⟩ := h.pool
      obtain ⟨t', ht', hcleared, p', hp'⟩ := hp.clear
      obtain rfl := Option.some.inj (ht'.symm.trans ht)
      exact of_cleared hcleared hp'
  | alloc fresh => exact h.alloc ht
  | free block => exact h.free ht

end Backed

/-! ## Whole runs -/

theorem new_backed {p : BlockPool} {reserved : List Region}
    (hp : p.Holds ⟨reserved, []⟩ [] [] []) :
    (new p.blockSize (some p) reserved).Backed :=
  ⟨⟨p, rfl, rfl, hp⟩, Carved.empty 0, rfl, le_rfl, Nat.zero_le _⟩

/-- After any calls of the buffer and of the pool's other users: memory is returned from the
buffer's own blocks and buffers, no byte twice, `Usage()` is their size and is bounded by
what was asked for, and `Clear` gives all of it back once. -/
theorem pooled_sound {blockSize cacheNum : BitVec 32} {buf : Nat} {p : BlockPool}
    (hinit : BlockPool.new.init blockSize cacheNum buf = (p, true)) {reserved : List Region}
    (harena : (buf, blockSize.toNat * cacheNum.toNat) ∈ reserved)
    (hend : buf + blockSize.toNat * cacheNum.toNat < 2 ^ 64) {ops : List Op}
    (hops : ∀ op ∈ ops, op.Positive) {s : System}
    (hrun : Machine.run step (new p.blockSize (some p) reserved) ops = some s) :
    s.Sound ∧ s.buffer.usage.toNat ≤ 2 * Region.total s.returned + s.buffer.blockSize.toNat ∧
      ∃ p' t, s.pool = some p' ∧ s.clear = some t ∧ s.Cleared p' t := by
  obtain ⟨-, hholds⟩ := BlockPool.holds_init hinit harena hend
  have hstep : ∀ t op u, Backed t → op.Positive → step t op = some u → Backed u :=
    fun _ _ _ h hop ht => h.step hop ht
  have hbacked : s.Backed := Machine.run_invariant_of_stepsMeet Backed (new_backed hholds) hstep
    (Machine.StepsMeet.of_forall hops) hrun
  obtain ⟨p', hp'⟩ := hbacked.pool
  obtain ⟨t, hclear, hcleared, -⟩ := hp'.clear
  exact ⟨hbacked.sound, hbacked.usage_le, p', t, hp'.pool, hclear, hcleared⟩

/-- A block of the arena, a large request, the rest of the block, and a block of the heap. -/
theorem pooled_sound_blocks :
    ∃ s, Machine.run step (new 4096 (some ⟨4096, 4096, 8192, [4096]⟩) [(4096, 4096)])
        [.write 1500 0, .write 3000 16384, .write 2000 0, .write 2000 32768] = some s ∧
      s.Sound ∧ s.buffer.usage.toNat ≤ 2 * Region.total s.returned + s.buffer.blockSize.toNat ∧
      ∃ p' t, s.pool = some p' ∧ s.clear = some t ∧ s.Cleared p' t := by
  have hinit : BlockPool.new.init 4096 1 4096 = (⟨4096, 4096, 8192, [4096]⟩, true) := rfl
  have harena : ((4096, (4096 : BitVec 32).toNat * (1 : BitVec 32).toNat) : Region) ∈
      [((4096, 4096) : Region)] := by decide
  have hops : ∀ op ∈ [Op.write 1500 0, .write 3000 16384, .write 2000 0, .write 2000 32768],
      op.Positive := by simp [Op.Positive, BitVec.le_def]
  have hrun : Machine.run step (new 4096 (some ⟨4096, 4096, 8192, [4096]⟩) [(4096, 4096)])
      [.write 1500 0, .write 3000 16384, .write 2000 0, .write 2000 32768] =
        some ⟨⟨4096, 34768, 2096, 11192, [4096, 32768], [16384]⟩,
          some ⟨4096, 4096, 8192, []⟩, ⟨[(4096, 4096)], [(32768, 4096), (16384, 3000)]⟩, [],
          [(16384, 3000)], [(32768, 2000), (5596, 2000), (16384, 3000), (4096, 1500)]⟩ := by
    decide +kernel
  exact ⟨_, hrun, pooled_sound hinit harena (by decide) hops hrun⟩

end System

end XfUtil
