import XfUtil.BlockPool.Safety

/-!
# The alignment of the blocks of a `BlockPool`

The arena comes from `malloc`, which aligns to 16 bytes, and blocks past it from
`posix_memalign`, behind assertions that the size is a power of two. `Init` asks
for neither.
-/

namespace XfUtil.BlockPool

open FlatMemory

/-- The assertions of `xmalloc(size, align)`. -/
def xmallocAsserts (size align : BitVec 64) : Prop :=
  size &&& (size - 1#64) = 0#64 ∧ align &&& (align - 1#64) = 0#64

instance (size align : BitVec 64) : Decidable (xmallocAsserts size align) :=
  inferInstanceAs (Decidable (_ ∧ _))

/-- With the alignment that `Alloc` asks for, the assertions are about the size. -/
theorem xmallocAsserts_iff {size : BitVec 32} (hpos : 0 < size.toNat) :
    xmallocAsserts (size.setWidth 64) (blockAlign.setWidth 64) ↔ size.toNat.isPowerOfTwo := by
  have halign : blockAlign.setWidth 64 &&& (blockAlign.setWidth 64 - 1#64) = 0#64 := by decide
  have hlt := size.isLt
  have hwide : (size.setWidth 64).toNat = size.toNat := by
    rw [BitVec.toNat_setWidth, Nat.mod_eq_of_lt (by omega)]
  have hpred : (size.setWidth 64 - 1#64).toNat = size.toNat - 1 := by
    rw [BitVec.toNat_sub_of_le, hwide]
    · rfl
    · rw [BitVec.le_def, hwide]
      exact hpos
  rw [xmallocAsserts, and_iff_left halign, ← BitVec.toNat_inj, BitVec.toNat_and, hwide, hpred]
  exact Nat.and_sub_one_eq_zero_iff_isPowerOfTwo (by omega)

namespace Shared

variable {Tid : Type*} {base blockSize count : Nat} {s s' : Shared Tid}

/-- Blocks returned by `Alloc` are aligned, and no assertion is about to fail. -/
structure Aligned (s : Shared Tid) : Prop where
  blocks : ∀ held ∈ s.live, blockAlign.toNat ∣ held.1
  asserts : ∀ t, s.threads t = .allocHeap →
    xmallocAsserts (s.pool.blockSize.setWidth 64) (blockAlign.setWidth 64)

theorem Inv.arena_aligned_iff (h : s.Inv base blockSize count)
    (hdvd : blockAlign.toNat ∣ blockSize) {b : Nat} (hb : b ∈ s.pool.freeBlocks) :
    blockAlign.toNat ∣ b ↔ blockAlign.toNat ∣ s.pool.cacheStart := by
  obtain ⟨i, -, heq⟩ := mem_slots.mp (h.conserve.subset (List.mem_append_left _ hb))
  rw [heq, h.arena.1]
  exact (Nat.dvd_add_iff_left (Nat.dvd_mul_left_of_dvd hdvd i)).symm

/-- No more blocks live than before but aligned ones, and no thread newly on its
way to `xmalloc`. -/
theorem Aligned.mono (h : s.Aligned) (hsize : s'.pool.blockSize = s.pool.blockSize)
    (hlive : ∀ held ∈ s'.live, held ∈ s.live ∨ blockAlign.toNat ∣ held.1)
    (hthreads : ∀ t, s'.threads t = .allocHeap → s.threads t = .allocHeap) : s'.Aligned := by
  refine ⟨fun held hmem => ?_, fun t ht => ?_⟩
  · rcases hlive held hmem with hmem | hdvd
    · exact h.blocks held hmem
    · exact hdvd
  · rw [hsize]
    exact h.asserts t (hthreads t ht)

theorem putFree_blockSize {p q : BlockPool} {block : Nat} (h : p.putFree block = some q) :
    q.blockSize = p.blockSize := by
  unfold putFree at h
  split at h
  · cases h
    rfl
  · cases h

/-! ## The machine -/

variable [DecidableEq Tid]

/-- The machine in which `posix_memalign` answers the alignment asked for. -/
def alignedStep : Machine.Step (Shared Tid) (Label Tid)
  | s, .xmalloc t buf => if blockAlign.toNat ∣ buf then s.stepXmalloc t buf else none
  | s, l => s.step l

theorem alignedStep_step {s s' : Shared Tid} {l : Label Tid} (h : alignedStep s l = some s') :
    s.step l = some s' := by
  cases l with
  | xmalloc t buf =>
      simp only [alignedStep] at h
      split at h
      · exact h
      · cases h
  | alloc t => exact h
  | free t block => exact h
  | xfree t => exact h

/-- At each `Alloc`: if the deque serves it then the arena is aligned, and if the
heap does then the block size is a power of two. -/
def Suits (s : Shared Tid) : Label Tid → Prop
  | .alloc _ =>
      if s.pool.freeBlocks = [] then s.pool.blockSize.toNat.isPowerOfTwo
      else blockAlign.toNat ∣ s.pool.cacheStart
  | _ => True

instance (s : Shared Tid) (l : Label Tid) : Decidable (Suits s l) := by
  cases l <;> unfold Suits <;> infer_instance

theorem not_allocHeap_goto {t u : Tid} {pc : Pc} (hpc : pc ≠ .allocHeap)
    (hu : (s.goto t pc).threads u = .allocHeap) : s.threads u = .allocHeap := by
  rw [goto_threads] at hu
  split at hu
  · exact absurd hu hpc
  · exact hu

theorem Aligned.alloc_iff (h : s.Aligned) (hinv : s.Inv base blockSize count)
    (hdvd : blockAlign.toNat ∣ blockSize) {t : Tid} (hstep : s.stepAlloc t = some s') :
    s'.Aligned ↔ Suits s (.alloc t) := by
  have hpos : 0 < s.pool.blockSize.toNat := hinv.size ▸ hinv.pos
  unfold stepAlloc at hstep
  split at hstep
  · cases hstep
  · cases hfree : s.pool.freeBlocks with
    | nil =>
        simp only [takeFree, hfree] at hstep
        cases hstep
        simp only [Suits, hfree, if_true]
        rw [← xmallocAsserts_iff hpos]
        constructor
        · intro h'
          exact h'.asserts t (by rw [goto_threads, if_pos rfl])
        · intro hassert
          exact ⟨h.blocks, fun _ _ => hassert⟩
    | cons b rest =>
        simp only [takeFree, hfree] at hstep
        cases hstep
        have hb : b ∈ s.pool.freeBlocks := by simp [hfree]
        simp only [Suits, hfree, reduceCtorEq, if_false]
        rw [← hinv.arena_aligned_iff hdvd hb]
        constructor
        · intro h'
          exact h'.blocks (b, .cache) List.mem_cons_self
        · intro hblock
          refine h.mono rfl (fun held hmem => ?_) fun _ ht => ht
          rcases List.mem_cons.mp hmem with rfl | hmem
          · exact Or.inr hblock
          · exact Or.inl hmem

theorem Aligned.step_iff (h : s.Aligned) (hinv : s.Inv base blockSize count)
    (hdvd : blockAlign.toNat ∣ blockSize) {l : Label Tid} (hstep : alignedStep s l = some s') :
    s'.Aligned ↔ Suits s l := by
  cases l with
  | alloc t => exact h.alloc_iff hinv hdvd hstep
  | xmalloc t buf =>
      simp only [alignedStep] at hstep
      split at hstep
      · rename_i hbuf
        refine iff_of_true ?_ trivial
        unfold stepXmalloc at hstep
        split at hstep
        · cases hstep
        · split at hstep
          · cases hstep
            exact h.mono rfl (fun _ hmem => Or.inl hmem) fun _ => not_allocHeap_goto (by simp)
          · split at hstep
            · cases hstep
              refine h.mono rfl (fun held hmem => ?_) fun _ => not_allocHeap_goto (s := { s with
                heap := buf :: s.heap, live := (buf, .heap) :: s.live }) (by simp)
              rcases List.mem_cons.mp hmem with rfl | hmem
              · exact Or.inr hbuf
              · exact Or.inl hmem
            · cases hstep
      · cases hstep
  | free t block =>
      refine iff_of_true ?_ trivial
      simp only [alignedStep, step, stepFree] at hstep
      split at hstep
      · cases hstep
      · split at hstep
        · cases hstep
        · split at hstep
          · rename_i hput
            cases hstep
            exact h.mono (putFree_blockSize hput)
              (fun _ hmem => Or.inl (List.mem_of_mem_erase hmem)) fun _ ht => ht
          · cases hstep
            refine h.mono rfl (fun _ hmem => Or.inl (List.mem_of_mem_erase hmem)) fun u hu => ?_
            exact not_allocHeap_goto (s := { s with live := _, frees := _ }) (by simp) hu
  | xfree t =>
      refine iff_of_true ?_ trivial
      simp only [alignedStep, step, stepXfree] at hstep
      split at hstep
      · cases hstep
        refine h.mono rfl (fun _ hmem => Or.inl hmem) fun u hu => ?_
        exact not_allocHeap_goto (s := { s with heap := _, frees := _ }) (by simp) hu
      · cases hstep

/-- In any run after a successful `Init`, every block is aligned and no assertion
fails exactly if every `Alloc` is served from where its needs are met. -/
theorem aligned_throughout_iff {p pool : BlockPool} {bs n : BitVec 32} {buf : Nat}
    (hp : p.freeBlocks = []) (hinit : p.init bs n buf = (pool, true)) {ls : List (Label Tid)}
    (hrun : Machine.run alignedStep (start Tid pool) ls = some s) :
    Machine.Throughout alignedStep Aligned (start Tid pool) ls ↔
      Machine.StepsMeet alignedStep Suits (start Tid pool) ls := by
  have hdvd : blockAlign.toNat ∣ bs.toNat := by
    unfold init at hinit
    split at hinit
    · cases hinit
    · rename_i haccepts
      exact ((accepts_iff bs).mp (by simpa using haccepts)).2
  apply Machine.throughout_iff_stepsMeet_of_run Aligned (Inv buf bs.toNat n.toNat) _
    (start_inv hp hinit) _ _ hrun
  · exact ⟨by simp [start], by simp [start]⟩
  · intro s l s' h hinv hstep
    exact h.step_iff hinv hdvd hstep
  · intro s l s' _ hinv hstep _
    exact hinv.step (alignedStep_step hstep)

/-- A page-aligned arena of one block of 8192 bytes, and one block past it. -/
theorem aligned_throughout_iff_page : ∃ s : Shared Unit,
    Machine.run alignedStep (start Unit (BlockPool.new.init 8192 1 4096).1)
        [.alloc (), .alloc (), .xmalloc () 16384, .free () 4096, .alloc ()] = some s ∧
      Machine.Throughout alignedStep Aligned (start Unit (BlockPool.new.init 8192 1 4096).1)
        [.alloc (), .alloc (), .xmalloc () 16384, .free () 4096, .alloc ()] := by
  have hinit : BlockPool.new.init 8192#32 1#32 4096 =
      ((BlockPool.new.init 8192 1 4096).1, true) := rfl
  obtain ⟨s, hrun⟩ : ∃ s : Shared Unit,
      Machine.run alignedStep (start Unit (BlockPool.new.init 8192 1 4096).1)
        [.alloc (), .alloc (), .xmalloc () 16384, .free () 4096, .alloc ()] = some s := ⟨_, rfl⟩
  exact ⟨s, hrun, (aligned_throughout_iff rfl hinit hrun).mpr
    (Machine.StepsMeet.of_meets (by decide +kernel))⟩

/-- An arena that `malloc` has aligned to 16 bytes: `Alloc` returns 4112. And with
blocks of 12288 bytes the assertion fails as soon as the arena is used up. -/
theorem alloc_misaligned : (∃ s : Shared Unit,
    Machine.run alignedStep (start Unit (BlockPool.new.init 4096 1 4112).1) [.alloc ()] = some s ∧
      s.live = [(4112, .cache)] ∧ ¬ blockAlign.toNat ∣ 4112) ∧
    ∃ s : Shared Unit,
      Machine.run alignedStep (start Unit (BlockPool.new.init 12288 0 4096).1) [.alloc ()] =
          some s ∧
        s.threads () = .allocHeap ∧
        ¬ xmallocAsserts (s.pool.blockSize.setWidth 64) (blockAlign.setWidth 64) :=
  ⟨⟨_, rfl, rfl, by decide⟩, _, rfl, rfl, by decide⟩

end Shared

end XfUtil.BlockPool
