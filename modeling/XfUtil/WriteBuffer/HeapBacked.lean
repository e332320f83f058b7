import XfUtil.WriteBuffer.Buffers

/-!
# A buffer with a block size and no pool

For a small request `LargeWrite` accounts a block, but allocates only the request.
The first such call makes `Usage()` wrong, and the calls after it are served from
memory behind the allocation. Requests above half a block are allocated one by one.
-/

namespace XfUtil

open FlatMemory

namespace System

/-- The call is not a `Write` of at most half a block. -/
def Large (s : System) : Op → Prop
  | .write size _ => s.buffer.blockSize / 2 < size
  | _ => True

instance (s : System) (op : Op) : Decidable (Large s op) := by
  cases op <;> unfold Large <;> infer_instance

/-- A buffer without a pool that has made no small request. -/
structure Unpooled (s : System) : Prop where
  pool : s.pool = none
  ptr : s.buffer.ptr = 0
  size : s.buffer.size = 0
  blocks : s.buffer.blocks = []
  bufs : Bufs s.heap s.buffer.bufs s.bufRegions
  returned : s.returned = s.bufRegions.reverse

theorem new_unpooled (blockSize : BitVec 32) (reserved : List Region) :
    (new blockSize none reserved).Unpooled :=
  ⟨rfl, rfl, rfl, rfl, Bufs.none reserved, rfl⟩

namespace Unpooled

variable {s t : System} (h : Unpooled s)
include h

theorem owned_eq : s.owned = s.bufRegions := by
  rw [owned, h.blocks]
  rfl

theorem total_lt : Region.total s.bufRegions < 2 ^ 64 := by
  have hle := Region.total_le h.bufs.apart 1 (2 ^ 64) fun r hr => by
    have hr := h.bufs.bounds hr
    omega
  omega

theorem sound_iff : s.Sound ↔ s.buffer.usage.toNat = Region.total s.bufRegions := by
  constructor
  · intro hs
    rw [← h.owned_eq]
    exact hs.usage
  · intro husage
    have hsymm : s.bufRegions.Pairwise (flip Region.Apart) := h.bufs.apart.imp Region.Apart.symm
    refine ⟨?_, ?_, by rw [h.owned_eq, husage]⟩
    · intro q hq
      rw [h.returned] at hq
      exact ⟨q, by rw [h.owned_eq]; exact List.mem_reverse.mp hq, Region.Within.refl q⟩
    · rw [h.returned]
      exact List.pairwise_reverse.mpr hsymm

/-! ## One call -/

/-- What a `Write` does: nothing is left in a block, so it allocates unless the size is
zero, and accounts what it allocates only if that is more than half a block. -/
theorem write_cases {size : BitVec 32} {fresh : Nat} (ht : s.write size fresh = some t) :
    (size = 0 ∧ t = s.cut size) ∨
      ∃ heap, s.heap.malloc size.toNat fresh = some heap ∧ 0 < size.toNat ∧
        ((s.buffer.blockSize / 2 < size ∧
          t = { s.pushBuf fresh size heap with
            buffer := { (s.pushBuf fresh size heap).buffer with
              usage := s.buffer.usage + size.setWidth 64 }
            returned := (fresh, size.toNat) :: s.returned }) ∨
        (¬ s.buffer.blockSize / 2 < size ∧
          t = { s.pushBuf fresh size heap with
            buffer := (s.pushBuf fresh size heap).buffer.refill fresh }.cut size)) := by
  unfold write at ht
  rw [h.size] at ht
  split at ht
  · rename_i hle
    have hzero : size = 0 := BitVec.le_zero_iff.mp hle
    exact Or.inl ⟨hzero, (Option.some.inj ht).symm⟩
  · rename_i hnot
    have hpos : 0 < size.toNat := BitVec.lt_def.mp (BitVec.not_le.mp hnot)
    unfold largeWrite at ht
    split at ht
    · rename_i hlarge
      obtain ⟨heap, hm, rfl⟩ := Option.map_eq_some_iff.mp ht
      exact Or.inr ⟨heap, hm, hpos, Or.inl ⟨hlarge, rfl⟩⟩
    · rename_i hsmall
      rw [h.pool] at ht
      obtain ⟨heap, hm, rfl⟩ := Option.map_eq_some_iff.mp ht
      exact Or.inr ⟨heap, hm, hpos, Or.inr ⟨hsmall, rfl⟩⟩

theorem pushBuf {size : BitVec 32} {fresh : Nat} {heap : Heap} (usage : BitVec 64)
    (hm : s.heap.malloc size.toNat fresh = some heap) (hpos : 0 < size.toNat) :
    Unpooled { s.pushBuf fresh size heap with
      buffer := { (s.pushBuf fresh size heap).buffer with usage := usage }
      returned := (fresh, size.toNat) :: s.returned } := by
  refine ⟨h.pool, h.ptr, h.size, h.blocks, h.bufs.push hpos hm, ?_⟩
  show (fresh, size.toNat) :: s.returned = (s.bufRegions ++ [(fresh, size.toNat)]).reverse
  rw [h.returned, List.reverse_append]
  rfl

theorem clear (ht : s.clear = some t) : t.Unpooled ∧ t.Sound := by
  obtain ⟨heap, hfree, hwf, -, -⟩ := h.bufs.freeBufs
  have hclear : s.clear = some { s with
      buffer := { s.buffer with ptr := 0, size := 0, usage := 0, blocks := [], bufs := [] }
      pool := s.pool
      heap := heap
      bufRegions := []
      returned := [] } := by
    rw [System.clear, h.blocks, freeBlocks, Option.bind_some, hfree, Option.map_some]
  obtain rfl := Option.some.inj (hclear.symm.trans ht)
  exact ⟨⟨h.pool, rfl, rfl, rfl, ⟨hwf, rfl, by simp, List.Pairwise.nil⟩, rfl⟩,
    by simp, by simp, rfl⟩

/-- A call keeps what it should exactly if it is not a small `Write`. -/
theorem step_sound_iff (hs : s.Sound) {op : Op} (ht : step s op = some t) :
    t.Sound ↔ s.Large op := by
  have husage := h.sound_iff.mp hs
  cases op with
  | write size fresh =>
      rcases h.write_cases ht with ⟨rfl, rfl⟩ | ⟨heap, hm, hpos, ⟨hlarge, rfl⟩ | ⟨hsmall, rfl⟩⟩
      · -- The null pointer is returned, and is in no allocation.
        refine iff_of_false (fun hsound => ?_) (by simp [Large])
        obtain ⟨r, hr, hin, -⟩ := hsound.inside (s.buffer.ptr, 0) (by simp [cut])
        have howned : r ∈ s.owned := hr
        rw [h.owned_eq] at howned
        have hpos := (h.bufs.bounds howned).1
        rw [h.ptr] at hin
        dsimp only at hin
        omega
      · have hnext := h.pushBuf (s.buffer.usage + size.setWidth 64) hm hpos
        refine iff_of_true (hnext.sound_iff.mpr ?_) hlarge
        have hlt := hnext.total_lt
        have htotal : Region.total (s.bufRegions ++ [(fresh, size.toNat)]) =
            Region.total s.bufRegions + size.toNat := by simp
        show (s.buffer.usage + size.setWidth 64).toNat =
          Region.total (s.bufRegions ++ [(fresh, size.toNat)])
        change Region.total (s.bufRegions ++ [(fresh, size.toNat)]) < 2 ^ 64 at hlt
        rw [htotal] at hlt ⊢
        rw [BitVec.toNat_add, husage, BitVec.toNat_setWidth_of_le (by decide),
          Nat.mod_eq_of_lt hlt]
      · -- The counter is advanced by a block, not by the size of the allocation.
        refine iff_of_false (fun hsound => ?_) hsmall
        have hlt := (h.pushBuf s.buffer.usage hm hpos).total_lt
        change Region.total (s.bufRegions ++ [(fresh, size.toNat)]) < 2 ^ 64 at hlt
        have hcount : (s.buffer.usage + s.buffer.blockSize.setWidth 64).toNat =
            Region.total (s.buffer.blocks.map (fun block => (block, s.buffer.blockSize.toNat)) ++
              (s.bufRegions ++ [(fresh, size.toNat)])) := hsound.usage
        have hsize : s.buffer.blockSize.toNat < 2 ^ 32 := s.buffer.blockSize.isLt
        have hhalf : size.toNat ≤ s.buffer.blockSize.toNat / 2 := by
          have hle := BitVec.le_def.mp (BitVec.not_lt.mp hsmall)
          rwa [BitVec.toNat_udiv] at hle
        rw [h.blocks, List.map_nil, List.nil_append, BitVec.toNat_add, husage,
          BitVec.toNat_setWidth_of_le (by decide)] at hcount
        simp only [Region.total_append, Region.total_cons, Region.total_nil] at hcount hlt
        omega
  | clear => exact iff_of_true (h.clear ht).2 trivial
  | alloc fresh =>
      rw [step, h.pool] at ht
      cases ht
  | free block =>
      rw [step, h.pool] at ht
      split at ht <;> cases ht

theorem step_unpooled {op : Op} (ht : step s op = some t) (hlarge : s.Large op) : t.Unpooled := by
  cases op with
  | write size fresh =>
      rcases h.write_cases ht with ⟨rfl, -⟩ | ⟨heap, hm, hpos, ⟨-, rfl⟩ | ⟨hsmall, -⟩⟩
      · simp [Large] at hlarge
      · exact h.pushBuf _ hm hpos
      · exact absurd hlarge hsmall
  | clear => exact (h.clear ht).1
  | alloc fresh =>
      rw [step, h.pool] at ht
      cases ht
  | free block =>
      rw [step, h.pool] at ht
      split at ht <;> cases ht

end Unpooled

/-! ## Whole runs -/

/-- Over any calls and any answers of the allocator: memory is handed out from the buffer's
own allocations and `Usage()` is their size throughout exactly if no `Write` asks for
half a block or less. -/
theorem sound_throughout_iff (blockSize : BitVec 32) (reserved : List Region) {ops : List Op}
    {s : System} (hrun : Machine.run step (new blockSize none reserved) ops = some s) :
    Machine.Throughout step Sound (new blockSize none reserved) ops ↔
      Machine.StepsMeet step Large (new blockSize none reserved) ops :=
  Machine.throughout_iff_stepsMeet_of_run Sound Unpooled (new_sound blockSize none reserved)
    (new_unpooled blockSize reserved) (fun _ _ _ hs h ht => h.step_sound_iff hs ht)
    (fun _ _ _ hs h ht hs' => h.step_unpooled ht ((h.step_sound_iff hs ht).mp hs')) hrun

theorem sound_throughout_iff_large :
    Machine.Throughout step Sound (new 8192 none [])
        [.write 5000 4096, .write 6000 16384, .clear, .write 7000 4096] ↔
      Machine.StepsMeet step Large (new 8192 none [])
        [.write 5000 4096, .write 6000 16384, .clear, .write 7000 4096] :=
  sound_throughout_iff 8192 [] (s := ⟨⟨8192, 0, 0, 7000, [], [4096]⟩, none, ⟨[], [(4096, 7000)]⟩,
    [], [(4096, 7000)], [(4096, 7000)]⟩) (by decide +kernel)

/-- Two requests of sixteen bytes: the allocation has sixteen, the second region lies
behind it, and 8192 bytes are accounted. -/
theorem small_write_leaves_allocation :
    ¬ ∀ (blockSize : BitVec 32) (reserved : List Region) (ops : List Op) (s : System),
      (∀ size fresh, Op.write size fresh ∈ ops → 1 ≤ size) →
        Machine.run step (new blockSize none reserved) ops = some s → s.Sound := by
  intro hall
  have hasked : ∀ size fresh, Op.write size fresh ∈ [Op.write 16 4096, Op.write 16 0] →
      1 ≤ size := by
    intro size fresh hmem
    obtain rfl : size = 16 := by
      rcases List.mem_cons.mp hmem with heq | hmem
      · exact (Op.write.inj heq).1
      · exact (Op.write.inj (List.mem_singleton.mp hmem)).1
    decide
  have hsound := hall 8192 [] [.write 16 4096, .write 16 0]
    ⟨⟨8192, 4128, 8160, 8192, [], [4096]⟩, none, ⟨[], [(4096, 16)]⟩, [], [(4096, 16)],
      [(4112, 16), (4096, 16)]⟩ hasked (by decide +kernel)
  obtain ⟨r, hr, -, hend⟩ := hsound.inside (4112, 16) (by simp)
  obtain rfl := List.mem_singleton.mp hr
  exact absurd hend (by decide)

end System

end XfUtil
