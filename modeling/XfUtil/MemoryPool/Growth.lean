import XfUtil.MemoryPool.Foreign
import XfUtil.MemoryPool.Safety

/-!
# When a `MemoryPool` grows

`Alloc` asks the cache block, then the first block of the free list, and then
the `BlockPool`. What the cache serves, which free slots are passed over, and
what a failure on the way to a new block leaves behind.
-/

namespace XfUtil.MemoryPool

open FlatMemory Links

/-! ## Which branch `Alloc` takes -/

/-- An element can be taken from the block: a freed one or one not carved yet. -/
def HasFreeSlot (h : MemoryBlockHead) : Prop :=
  h.nextElementPtr ≠ 0 ∨ h.nextElementOffset < h.blockSize

instance (h : MemoryBlockHead) : Decidable (HasFreeSlot h) := inferInstanceAs (Decidable (_ ∨ _))

theorem memoryAlloc_eq_none {words : Nat → Nat} {block : Nat} {h : MemoryBlockHead}
    (hfull : ¬ HasFreeSlot h) : memoryAlloc words block h = (0, h) := by
  obtain ⟨hptr, hoff⟩ := not_or.mp hfull
  rw [memoryAlloc, if_neg hptr, if_neg hoff]

theorem memoryAlloc_ne_zero {words : Nat → Nat} {block : Nat} {h : MemoryBlockHead}
    (hblock : block ≠ 0) (hslot : HasFreeSlot h) : (memoryAlloc words block h).1 ≠ 0 := by
  unfold memoryAlloc
  split
  · assumption
  · rename_i hptr
    rw [if_pos (hslot.resolve_left hptr)]
    dsimp only
    omega

/-- The first locked section finds nothing exactly when the cache block is full and
the free list is empty or begins with a full block. -/
theorem allocCached_eq_zero_iff {p : MemoryPool} (hcache : p.cacheBlockHead ≠ 0) :
    p.allocCached.1 = 0 ↔ ¬ HasFreeSlot (p.mem.heads p.cacheBlockHead) ∧
      (p.getFreeMemoryBlock ≠ 0 → ¬ HasFreeSlot (p.mem.heads p.getFreeMemoryBlock)) := by
  by_cases hslot : HasFreeSlot (p.mem.heads p.cacheBlockHead)
  · have hne : (p.allocFrom p.cacheBlockHead).1 ≠ 0 := memoryAlloc_ne_zero hcache hslot
    simp [allocCached, hne, hslot]
  · have hfrom : p.allocFrom p.cacheBlockHead = (0, p) :=
      allocFrom_none (memoryAlloc_eq_none hslot)
    by_cases hhead : p.getFreeMemoryBlock = 0
    · simp [allocCached, hfrom, hhead, hslot]
    · by_cases hslot' : HasFreeSlot (p.mem.heads p.getFreeMemoryBlock)
      · have hne : (p.allocFrom p.getFreeMemoryBlock).1 ≠ 0 := memoryAlloc_ne_zero hhead hslot'
        simp [allocCached, hfrom, hhead, hne, hslot']
      · have hfrom' : p.allocFrom p.getFreeMemoryBlock = (0, p) :=
          allocFrom_none (memoryAlloc_eq_none hslot')
        simp [allocCached, hfrom, hhead, hfrom', hslot, hslot']

/-! ## The cache block -/

variable {p : MemoryPool} {offC capC : Nat} {Tid : Type*} {s : Shared Tid} {free full : List Nat}

theorem Inv.within_cache (h : Inv p offC capC s [] []) :
    within s.live p.cacheBlockHead (cacheLen p) = s.live := by
  refine List.filter_eq_self.mpr fun e he => ?_
  obtain ⟨lo, size, off, cap, ⟨rfl, rfl, -, -⟩ | ⟨hmem, -⟩, hin⟩ := h.content.inside e he
  · simpa using hin
  · exact absurd hmem List.not_mem_nil

theorem Inv.allocCached_cache (h : Inv p offC capC s free full)
    (hroom : (within s.live p.cacheBlockHead (cacheLen p)).length < capC) :
    s.pool.allocCached.1 ≠ 0 := by
  have hhead : s.pool.cacheBlockHead = p.cacheBlockHead := congrArg Config.cacheBlockHead h.config
  rcases (h.content.ok _ _ _ _ (Region.cache p offC capC (free ++ full))).alloc with ⟨hlen, -⟩ |
    ⟨e, h', halloc, hne, -⟩
  · omega
  · have hfrom := allocFrom_eq halloc
    simp only [MemoryPool.allocCached, hhead, hfrom, ne_eq, hne, not_false_eq_true, if_true]

/-- `k` elements have been handed out, all from the cache block, and no call is
in progress. -/
structure FromCache (p : MemoryPool) (s : Shared Tid) (k : Nat) : Prop where
  count : s.live.length = k
  distinct : s.live.Nodup
  inside : ∀ e ∈ s.live, p.cacheBlockHead ≤ e ∧ e + p.elementSize.toNat ≤ p.cacheBlockEnd
  blocks : s.held = [] ∧ s.pool.blocks = ∅
  quiet : s.Quiet

variable [DecidableEq Tid]

theorem Inv.run_cache (h : Inv p offC capC s [] []) (hc : Configured p) (hheld : s.held = [])
    (hquiet : s.Quiet) {ts : List Tid} (hroom : s.live.length + ts.length ≤ capC) :
    ∃ s', Machine.run Shared.step s (ts.map Label.alloc) = some s' ∧ Inv p offC capC s' [] [] ∧
      s'.held = [] ∧ s'.Quiet ∧ s'.live.length = s.live.length + ts.length := by
  induction ts generalizing s with
  | nil => exact ⟨s, rfl, h, hheld, hquiet, rfl⟩
  | cons t ts ih =>
      rw [List.length_cons] at hroom
      have hne : s.pool.allocCached.1 ≠ 0 := h.allocCached_cache (by rw [h.within_cache]; omega)
      have hstep : s.step (.alloc t) = some { s with
          pool := s.pool.allocCached.2
          live := s.pool.allocCached.1 :: s.live } := by
        simp only [Shared.step, Shared.stepAlloc, hquiet t, ne_eq, not_true_eq_false, if_false, hne,
          not_false_eq_true, if_true, Shared.deliver]
      rcases h.allocCached hc with ⟨-, hinv⟩ | ⟨hzero, -⟩
      · obtain ⟨s', hrun, hinv', hheld', hquiet', hlen⟩ :=
          ih hinv hheld hquiet (by rw [List.length_cons]; omega)
        refine ⟨s', ?_, hinv', hheld', hquiet', ?_⟩
        · rw [List.map_cons, Machine.run_cons, hstep]
          exact hrun
        · rw [hlen, List.length_cons, List.length_cons]
          omega
      · exact absurd hzero hne

omit [DecidableEq Tid] in
theorem Inv.fromCache (h : Inv p offC capC s [] []) (hc : Configured p) (hheld : s.held = [])
    (hquiet : s.Quiet) : FromCache p s s.live.length := by
  refine ⟨rfl, h.content.nodup, fun e he => ?_, ⟨hheld, ?_⟩, hquiet⟩
  · have hwithin : e ∈ within s.live p.cacheBlockHead (cacheLen p) := by
      rw [h.within_cache]
      exact he
    have hin := (h.content.ok _ _ _ _ (Region.cache ..)).inside hwithin
    have hpos := hc.cachePos
    unfold cacheLen at hin hpos
    omega
  · refine Finset.eq_empty_iff_forall_notMem.mpr fun e he => ?_
    obtain ⟨b, hb, -⟩ := (h.ends e).mp he
    exact List.not_mem_nil hb

omit [DecidableEq Tid] in
/-- The cache block never serves more elements than `max_element_num` can count. -/
theorem Inv.fromCache_lt {k : Nat} (h : Inv p offC capC s free full) (hfrom : FromCache p s k) :
    k < 2 ^ 16 := by
  -- No block is held, so the lists are empty and the slots are those of the cache.
  have hnil : free ++ full = [] := List.eq_nil_iff_forall_not_mem.mpr fun b hb =>
    List.not_mem_nil (hfrom.blocks.1 ▸ h.separate.listed hb)
  obtain ⟨rfl, rfl⟩ := List.append_eq_nil_iff.mp hnil
  obtain ⟨chain, carved, hrep⟩ := (h.content.ok _ _ _ _ (Region.cache ..)).rep
  have hsum := hrep.live_add_chain
  have hle := hrep.carved_le
  have hcount := hrep.layout.count
  rw [h.within_cache, hfrom.count] at hsum
  omega

/-- The first `cacheNum` calls of `Alloc` are served by the cache block exactly
when the number fits the 16 bits of `max_element_num`. -/
theorem fromCache_iff {n cacheNum bs : BitVec 32} {freeList fullList buf : Nat}
    {links : Links.Heap} {m : Memory} (hn : 1 ≤ n.toNat ∧ n.toNat ≤ 4056)
    (hbs : BlockPool.accepts bs = true) (hlists : freeList ≠ fullList)
    (hinit : (new bs freeList fullList links m).init n cacheNum buf = (p, true))
    (hcache : Shared.Placed p p.cacheBlockHead (cacheLen p)) (ts : List Tid)
    (hts : ts.length = cacheNum.toNat) :
    (∃ s, Machine.run Shared.step (Shared.start Tid p) (ts.map Label.alloc) = some s ∧
      FromCache p s cacheNum.toNat) ↔ cacheNum.toNat < 2 ^ 16 := by
  obtain ⟨hc, -, offC, capC, -, hcap, hinv⟩ :=
    start_inv Tid hn hbs hlists hinit hcache
  constructor
  · intro hserved
    obtain ⟨s, hrun, hfrom⟩ := hserved
    obtain ⟨free, full, hs⟩ := hinv.run hc hrun
    exact hs.fromCache_lt hfrom
  · intro hnum
    have hroom : (Shared.start Tid p).live.length + ts.length ≤ capC := by
      rw [hcap hnum, ← hts]
      exact Nat.le_of_eq (Nat.zero_add _)
    obtain ⟨s, hrun, hs, hheld, hquiet, hlen⟩ := hinv.run_cache hc rfl (fun _ => rfl) hroom
    have hlen' : s.live.length = cacheNum.toNat := by
      rw [hlen, ← hts]
      exact Nat.zero_add _
    exact ⟨s, hrun, hlen' ▸ hs.fromCache hc hheld hquiet⟩

theorem fromCache_iff_two : ∃ p : MemoryPool,
    (new 4096 16 32 ⟨id, id⟩ ⟨fun _ => memoryBlockInit 0 0, fun _ => 0⟩).init 8 2 4096 =
        (p, true) ∧
      ∃ s, Machine.run Shared.step (Shared.start Unit p) [.alloc (), .alloc ()] = some s ∧
        FromCache p s 2 := by
  obtain ⟨p, hinit, hplaced⟩ : ∃ p : MemoryPool,
      (new 4096 16 32 ⟨id, id⟩ ⟨fun _ => memoryBlockInit 0 0, fun _ => 0⟩).init 8 2 4096 =
          (p, true) ∧ Shared.Placed p p.cacheBlockHead (cacheLen p) := ⟨_, rfl, by decide⟩
  exact ⟨p, hinit, (fromCache_iff (by decide) (by decide) (by decide) hinit hplaced [(), ()]
    rfl).mpr (by decide)⟩

/-- With 65536 elements asked for, the count wraps to 0: the first `Alloc` leaves
the cache block untouched and goes for a block. -/
theorem cache_empty_at_65536 : ∃ (p : MemoryPool) (s : Shared Unit),
    (new 4096 16 32 ⟨id, id⟩ ⟨fun _ => memoryBlockInit 0 0, fun _ => 0⟩).init 8 65536 4096 =
        (p, true) ∧
      p.cacheBlockEnd = 4096 + memoryBlockHeadSize + 65536 * 8 ∧
      Machine.run Shared.step (Shared.start Unit p) [.alloc ()] = some s ∧
      s.live = [] ∧ s.threads () = .needBlock :=
  ⟨_, _, rfl, rfl, rfl, rfl, rfl⟩

/-! ## Free slots passed over -/

/-- `Alloc` is to go for a new block only if no free slot is left. -/
def Reuses (s : Shared Tid) : Label Tid → Prop
  | .alloc t => s.threads t = .idle → s.pool.allocCached.1 = 0 →
      ¬ HasFreeSlot (s.pool.mem.heads s.pool.cacheBlockHead) ∧
        ∀ b ∈ s.held, ¬ HasFreeSlot (s.pool.mem.heads b)
  | _ => True

/-- If the cache block and the first block of the free list are full, then so are
the blocks behind it. -/
def FirstTells (s : Shared Tid) : Label Tid → Prop
  | .alloc t => s.threads t = .idle →
      ¬ HasFreeSlot (s.pool.mem.heads s.pool.cacheBlockHead) → s.pool.getFreeMemoryBlock ≠ 0 →
      ¬ HasFreeSlot (s.pool.mem.heads s.pool.getFreeMemoryBlock) →
      ∀ b ∈ s.held, ¬ HasFreeSlot (s.pool.mem.heads b)
  | _ => True

instance (s : Shared Tid) (l : Label Tid) : Decidable (FirstTells s l) := by
  cases l <;> unfold FirstTells <;> infer_instance

omit [DecidableEq Tid] in
/-- While no call is in progress and the free list is empty, held blocks are full. -/
theorem Inv.held_full (h : Inv p offC capC s free full) (hquiet : s.Quiet)
    (hfree : s.pool.getFreeMemoryBlock = 0) {b : Nat} (hb : b ∈ s.held) :
    ¬ HasFreeSlot (s.pool.mem.heads b) := by
  have hget := h.rings.getFreeMemoryBlock (congrArg Config.freeList h.config)
  have hlisted : b ∈ free ++ full := by
    rcases h.hands.accounted b hb with hl | ⟨t, ht⟩
    · exact hl
    · rw [hquiet t] at ht
      cases ht
  cases free with
  | nil =>
      obtain ⟨chain, carved, hrep⟩ := (h.content.ok _ _ _ _ (Region.listed hlisted)).rep
      obtain ⟨hptr, hoff⟩ := hrep.no_slot (h.filled b hlisted)
      exact not_or.mpr ⟨not_not.mpr hptr, hoff⟩
  | cons c free =>
      rw [hfree] at hget
      exact absurd hget.symm (h.head_ne (by simp))

theorem Inv.reuses_iff {s : Shared Unit} (h : Inv p offC capC s free full) (hc : Configured p)
    (l : Label Unit) : Reuses s l ↔ FirstTells s l := by
  cases l with
  | alloc t =>
      refine imp_congr_right fun hpc => ?_
      have hhead : s.pool.cacheBlockHead = p.cacheBlockHead :=
        congrArg Config.cacheBlockHead h.config
      have hcache : s.pool.cacheBlockHead ≠ 0 := hhead ▸ hc.cache.1
      rw [allocCached_eq_zero_iff hcache]
      constructor
      · intro hreuse hfull hne hfirst
        exact (hreuse ⟨hfull, fun _ => hfirst⟩).2
      · intro hfirst hnone
        refine ⟨hnone.1, fun b hb => ?_⟩
        by_cases hempty : s.pool.getFreeMemoryBlock = 0
        · exact h.held_full (fun _ => hpc) hempty hb
        · exact hfirst hnone.1 hempty (hnone.2 hempty) b hb
  | takeBlock t b => exact Iff.rfl
  | addBlock t => exact Iff.rfl
  | free t e => exact Iff.rfl
  | giveBack t => exact Iff.rfl
  | write x value => exact Iff.rfl

/-- In any run of a single thread: `Alloc` never passes over a free slot exactly if
at each `Alloc` the first block of the free list tells for the others. -/
theorem reuses_iff_firstTells {n cacheNum bs : BitVec 32} {freeList fullList buf : Nat}
    {links : Links.Heap} {m : Memory} (hn : 1 ≤ n.toNat ∧ n.toNat ≤ 4056)
    (hbs : BlockPool.accepts bs = true) (hlists : freeList ≠ fullList)
    (hinit : (new bs freeList fullList links m).init n cacheNum buf = (p, true))
    (hcache : Shared.Placed p p.cacheBlockHead (cacheLen p)) (ls : List (Label Unit)) :
    Machine.StepsMeet Shared.step Reuses (Shared.start Unit p) ls ↔
      Machine.StepsMeet Shared.step FirstTells (Shared.start Unit p) ls := by
  obtain ⟨hc, -, offC, capC, -, -, hinv⟩ := start_inv Unit hn hbs hlists hinit hcache
  apply Machine.stepsMeet_congr
  intro pre s hrun l
  obtain ⟨free, full, hs⟩ := hinv.run hc hrun
  exact hs.reuses_iff hc l

/-- A block gets its slot back while it is first: the next `Alloc` takes it. -/
theorem reuses_iff_firstTells_first : ∃ p : MemoryPool,
    (new 4096 16 32 ⟨id, id⟩ ⟨fun _ => memoryBlockInit 0 0, fun _ => 0⟩).init 2024 0 4096 =
        (p, true) ∧
      Machine.StepsMeet Shared.step Reuses (Shared.start Unit p)
        [.alloc (), .takeBlock () 8192, .addBlock (), .alloc (), .free () 8240, .alloc ()] := by
  obtain ⟨p, hinit, hplaced, hmeets⟩ : ∃ p : MemoryPool,
      (new 4096 16 32 ⟨id, id⟩ ⟨fun _ => memoryBlockInit 0 0, fun _ => 0⟩).init 2024 0 4096 =
          (p, true) ∧ Shared.Placed p p.cacheBlockHead (cacheLen p) ∧
        Machine.StepsMeet Shared.step FirstTells (Shared.start Unit p)
          [.alloc (), .takeBlock () 8192, .addBlock (), .alloc (), .free () 8240, .alloc ()] :=
    ⟨_, rfl, by decide, Machine.StepsMeet.of_meets (by decide +kernel)⟩
  exact ⟨p, hinit,
    (reuses_iff_firstTells (by decide) (by decide) (by decide) hinit hplaced _).mpr hmeets⟩

/-- Two slots to a block. The full block 16384 stays first on the free list, the
block 8192 gets a slot back behind it, and `Alloc` goes for a third block. -/
theorem alloc_passes_over_free_slot : ∃ (p : MemoryPool) (s s' : Shared Unit),
    (new 4096 16 32 ⟨id, id⟩ ⟨fun _ => memoryBlockInit 0 0, fun _ => 0⟩).init 2024 0 4096 =
        (p, true) ∧
      Machine.run Shared.step (Shared.start Unit p)
        [.alloc (), .takeBlock () 8192, .addBlock (), .alloc (), .alloc (), .takeBlock () 16384,
          .addBlock (), .alloc (), .free () 8240] = some s ∧
      s.live = [18456, 16432, 10264] ∧ 8192 ∈ s.held ∧ HasFreeSlot (s.pool.mem.heads 8192) ∧
      Shared.step s (.alloc ()) = some s' ∧ s'.threads () = .needBlock := by
  obtain ⟨p, hinit, hends⟩ : ∃ p : MemoryPool,
      (new 4096 16 32 ⟨id, id⟩ ⟨fun _ => memoryBlockInit 0 0, fun _ => 0⟩).init 2024 0 4096 =
          (p, true) ∧
        ((Machine.run Shared.step (Shared.start Unit p)
          [.alloc (), .takeBlock () 8192, .addBlock (), .alloc (), .alloc (), .takeBlock () 16384,
            .addBlock (), .alloc (), .free () 8240]).bind fun s =>
              (Shared.step s (.alloc ())).map fun s' =>
                (s.live, decide (8192 ∈ s.held), decide (HasFreeSlot (s.pool.mem.heads 8192)),
                  s'.threads ())) =
          some ([18456, 16432, 10264], true, true, .needBlock) := ⟨_, rfl, by decide +kernel⟩
  obtain ⟨s, hrun, hends⟩ := Option.bind_eq_some_iff.mp hends
  obtain ⟨s', hstep, hends⟩ := Option.map_eq_some_iff.mp hends
  simp only [Prod.mk.injEq, decide_eq_true_eq] at hends
  obtain ⟨hlive, hheld, hslot, hnext⟩ := hends
  exact ⟨p, s, s', hinit, hrun, hlive, hheld, hslot, hstep, hnext⟩

/-! ## Failures -/

/-- The whole of `Alloc`, with `block` as the answer of `BlockPool::Alloc` if it is
asked. `none` is a write through a null pointer. -/
def alloc (p : MemoryPool) (block : Nat) : Option (Nat × MemoryPool) :=
  let r := p.allocCached
  if r.1 ≠ 0 then some r
  else if block = 0 then none
  else
    let f := r.2.allocFresh block
    some (f.1, f.2.allocAdd block)

/-- A block of the `BlockPool` is too small for an element, or `MemoryBlockInit`
counts none in it. -/
def NoRoom (p : MemoryPool) : Prop :=
  p.blockSize.toNat < memoryBlockHeadSize + p.elementSize.toNat ∨ blockCap p = 0

/-- `Alloc` gets no block, or one without room. -/
def FailingPoint (p : MemoryPool) (block : Nat) : Prop :=
  p.allocCached.1 = 0 ∧ (block = 0 ∨ NoRoom p)

/-- `Alloc` returns `nullptr` and leaves the count and the block set as they were. -/
def FailsCleanly (p : MemoryPool) (block : Nat) : Prop :=
  ∃ q, p.alloc block = some (0, q) ∧ q.usedCnt = p.usedCnt ∧ q.blocks = p.blocks

theorem blockCap_eq_zero {p : MemoryPool} (hbs : memoryBlockHeadSize ≤ p.blockSize.toNat)
    (h : NoRoom p) : blockCap p = 0 := by
  rcases h with hsmall | hzero
  · rw [blockCap, toNat_maxElementNum hbs, Nat.div_eq_of_lt (by omega), Nat.zero_mod]
  · exact hzero

theorem allocFresh_usedCnt (p : MemoryPool) (block : Nat) :
    (p.allocFresh block).2.usedCnt = p.usedCnt := rfl

theorem allocAdd_usedCnt (p : MemoryPool) (block : Nat) :
    (p.allocAdd block).usedCnt = p.usedCnt + 1 := rfl

theorem allocFresh_none {p : MemoryPool} {block : Nat} (hcap : blockCap p = 0) :
    (p.allocFresh block).1 = 0 := by
  have hzero : (memoryBlockInit p.blockSize p.elementSize).maxElementNum = 0 :=
    BitVec.eq_of_toNat_eq hcap
  have hoff : (memoryBlockInit p.blockSize p.elementSize).nextElementOffset = p.blockSize := by
    show p.blockSize - (memoryBlockInit p.blockSize p.elementSize).maxElementNum.setWidth 32 *
      p.elementSize = p.blockSize
    rw [hzero]
    simp
  have hfull : ¬ HasFreeSlot (memoryBlockInit p.blockSize p.elementSize) := by
    rintro (hptr | hlt)
    · exact hptr rfl
    · rw [hoff] at hlt
      exact BitVec.lt_irrefl _ hlt
  have hhead : (p.mem.setHead block (memoryBlockInit p.blockSize p.elementSize)).heads block =
      memoryBlockInit p.blockSize p.elementSize := Function.update_self ..
  simp only [allocFresh, allocFrom, hhead, memoryAlloc_eq_none hfull]

theorem allocCached_none {p : MemoryPool} (h : p.allocCached.1 = 0) :
    p.allocCached.2.usedCnt = p.usedCnt ∧ p.allocCached.2.elementSize = p.elementSize := by
  revert h
  unfold allocCached
  dsimp only
  split
  · rename_i hne
    exact fun h => absurd h hne
  · split
    · split
      · rename_i hne
        exact fun h => absurd h hne
      · exact fun _ => ⟨rfl, rfl⟩
    · exact fun _ => ⟨rfl, rfl⟩

/-- At every point of failure, in every reachable state and for any element size:
without a block `Alloc` writes through a null pointer; with one that has no room
it returns `nullptr`, but counts an element and adds the block. -/
theorem alloc_fails_uncleanly {n cacheNum bs : BitVec 32} {freeList fullList buf : Nat}
    {links : Links.Heap} {m : Memory} (hbs : BlockPool.accepts bs = true)
    (hinit : (new bs freeList fullList links m).init n cacheNum buf = (p, true))
    (hreach : Machine.Reachable Shared.step (Shared.start Tid p) s) {block : Nat}
    (hfail : FailingPoint s.pool block) :
    ¬ FailsCleanly s.pool block ∧ (block = 0 → s.pool.alloc block = none) ∧
      (block ≠ 0 → ∃ q, s.pool.alloc block = some (0, q) ∧ q.usedCnt = s.pool.usedCnt + 1 ∧
        q.blocks = insert (block + bs.toNat) s.pool.blocks) := by
  obtain ⟨hmin, -⟩ := (BlockPool.accepts_iff bs).mp hbs
  have htracked : Tracked bs s := hreach.invariant (Tracked bs) (Tracked.init hinit)
    fun s l s' h hstep => h.step (by omega) hstep
  obtain ⟨hnone, hpoint⟩ := hfail
  obtain ⟨hused, helem⟩ := allocCached_none hnone
  obtain ⟨⟨hsize, -⟩, hblocks⟩ := allocCached_sameSizes s.pool
  by_cases hblock : block = 0
  · have hfault : s.pool.alloc block = none := by simp [alloc, hnone, hblock]
    refine ⟨?_, fun _ => hfault, fun hne => absurd hblock hne⟩
    rintro ⟨q, hq, -⟩
    rw [hfault] at hq
    cases hq
  · have hcap : blockCap s.pool = 0 := by
      apply blockCap_eq_zero _ (hpoint.resolve_left hblock)
      rw [htracked.blockSize, memoryBlockHeadSize]
      omega
    have hfresh : (s.pool.allocCached.2.allocFresh block).1 = 0 := by
      apply allocFresh_none
      rw [blockCap, hsize, helem]
      exact hcap
    obtain ⟨hsize', hblocks', -⟩ := allocFresh_heads s.pool.allocCached.2 block
    have hadd : s.pool.alloc block =
        some (0, (s.pool.allocCached.2.allocFresh block).2.allocAdd block) := by
      simp [alloc, hnone, hblock, hfresh]
    have hcount : ((s.pool.allocCached.2.allocFresh block).2.allocAdd block).usedCnt =
        s.pool.usedCnt + 1 := by
      rw [allocAdd_usedCnt, allocFresh_usedCnt, hused]
    refine ⟨?_, fun h => absurd h hblock, fun _ => ⟨_, hadd, hcount, ?_⟩⟩
    · rintro ⟨q, hq, hsame, -⟩
      rw [hadd] at hq
      cases hq
      rw [hcount] at hsame
      bv_omega
    · show insert (block + (s.pool.allocCached.2.allocFresh block).2.blockSize.toNat)
        (s.pool.allocCached.2.allocFresh block).2.blocks = _
      rw [hsize', hsize, htracked.blockSize, hblocks', hblocks]

/-- Elements of 5000 bytes from a `BlockPool` of 4096-byte blocks, as first call. -/
theorem alloc_fails_uncleanly_large : ∃ p q : MemoryPool,
    (new 4096 16 32 ⟨id, id⟩ ⟨fun _ => memoryBlockInit 0 0, fun _ => 0⟩).init 5000 0 4096 =
        (p, true) ∧
      FailingPoint p 8192 ∧ p.alloc 8192 = some (0, q) ∧ q.usedCnt = p.usedCnt + 1 := by
  obtain ⟨p, hinit, hfail⟩ : ∃ p : MemoryPool,
      (new 4096 16 32 ⟨id, id⟩ ⟨fun _ => memoryBlockInit 0 0, fun _ => 0⟩).init 5000 0 4096 =
          (p, true) ∧ FailingPoint p 8192 := ⟨_, rfl, rfl, Or.inr (Or.inl (by decide))⟩
  have hreach : Machine.Reachable Shared.step (Shared.start Unit p) (Shared.start Unit p) :=
    ⟨[], rfl⟩
  obtain ⟨q, hq, hcount, -⟩ :=
    (alloc_fails_uncleanly (by decide) hinit hreach hfail).2.2 (by decide)
  exact ⟨p, q, hinit, hfail, hq, hcount⟩

/-- The same call: an element is counted and a block held that was never handed
out; and without a block there is no return at all. -/
theorem alloc_counts_failure : ∃ p q : MemoryPool,
    (new 4096 16 32 ⟨id, id⟩ ⟨fun _ => memoryBlockInit 0 0, fun _ => 0⟩).init 5000 0 4096 =
        (p, true) ∧
      FailingPoint p 8192 ∧ p.alloc 8192 = some (0, q) ∧ p.usedCnt = 0 ∧ q.usedCnt = 1 ∧
      p.blocks = ∅ ∧ q.blocks = {12288} ∧ FailingPoint p 0 ∧ p.alloc 0 = none :=
  ⟨_, _, rfl, ⟨rfl, Or.inr (Or.inl (by decide))⟩, rfl, rfl, rfl, rfl, rfl, ⟨rfl, Or.inl rfl⟩, rfl⟩

end XfUtil.MemoryPool
