import XfUtil.Base.Slots
import XfUtil.BlockPool.Threads
import Mathlib.Data.List.Perm.Basic

/-!
# What a `BlockPool` guarantees over whole runs

The pool infers a block's origin from its address. The invariant carries what
makes this right: free and live cache blocks together are a permutation of the
arena's blocks, and every heap block in use lies outside the arena.
-/

namespace XfUtil.BlockPool

open FlatMemory

/-! ## The invariant -/

namespace Shared

variable {Tid : Type*}

/-- Addresses held by callers that came from one source. -/
def liveFrom (s : Shared Tid) (source : Source) : List Nat :=
  (s.live.filter fun held => held.2 = source).map Prod.fst

theorem mem_liveFrom {s : Shared Tid} {source : Source} {b : Nat} :
    b ∈ s.liveFrom source ↔ (b, source) ∈ s.live := by
  simp [liveFrom]

/-- The invariant of every run; `base`, `blockSize` and `count` are the arena's. -/
structure Inv (base blockSize count : Nat) (s : Shared Tid) : Prop where
  pos : 0 < blockSize
  size : s.pool.blockSize.toNat = blockSize
  arena : s.pool.cacheStart = base ∧ s.pool.cacheEnd = base + count * blockSize
  /-- Free blocks and live cache blocks are exactly the blocks of the arena. -/
  conserve : (s.pool.freeBlocks ++ s.liveFrom .cache).Perm (slots base blockSize count)
  heapApart : s.heap.Pairwise fun a b => Apart a blockSize b blockSize
  heapOutside : ∀ b ∈ s.heap, Apart b blockSize base (count * blockSize)
  liveHeap : ∀ b, (b, Source.heap) ∈ s.live → b ∈ s.heap
  liveApart : s.live.Pairwise fun x y => Apart x.1 blockSize y.1 blockSize
  /-- A block on its way to `xfree` is a heap block that nobody else holds or frees. -/
  transit : ∀ t b call, s.threads t = .freeHeap b call →
    b ∈ s.heap ∧ (∀ held ∈ s.live, held.1 ≠ b) ∧ s.frees[call]? = some ⟨b, .heap, []⟩
  transitOnce : ∀ t t' b call call', s.threads t = .freeHeap b call →
    s.threads t' = .freeHeap b call' → t = t'
  /-- A `Free` has returned its block once, to its source, or is still on its way there. -/
  settled : ∀ i call, s.frees[i]? = some call →
    call.returned = [call.source] ∨ ∃ t, s.threads t = .freeHeap call.block i

variable {base blockSize count : Nat} {s : Shared Tid}

/-- A live block is one of the arena or a heap block in use. -/
theorem Inv.live_inside (h : s.Inv base blockSize count) {held : Nat × Source}
    (hmem : held ∈ s.live) :
    held.1 ∈ slots base blockSize count ∧ held.2 = .cache ∨
      held.1 ∈ s.heap ∧ held.2 = .heap := by
  obtain ⟨b, source⟩ := held
  cases source with
  | cache =>
      refine Or.inl ⟨h.conserve.subset ?_, rfl⟩
      exact List.mem_append_right _ (mem_liveFrom.mpr hmem)
  | heap => exact Or.inr ⟨h.liveHeap b hmem, rfl⟩

theorem Inv.heap_apart_cache (h : s.Inv base blockSize count) {a b : Nat} (ha : a ∈ s.heap)
    (hb : b ∈ slots base blockSize count) : Apart a blockSize b blockSize := by
  have hin := slots_inside hb
  exact (h.heapOutside a ha).mono le_rfl le_rfl hin.1 hin.2

/-- The address test of `Free` tells the two sources apart. -/
theorem Inv.putFree_eq (h : s.Inv base blockSize count)
    {held : Nat × Source} (hmem : held ∈ s.live) :
    held.2 = .cache ∧ s.pool.putFree held.1 =
        some { s.pool with freeBlocks := held.1 :: s.pool.freeBlocks } ∨
      held.2 = .heap ∧ held.1 ∈ s.heap ∧ s.pool.putFree held.1 = none := by
  have hpos := h.pos
  obtain ⟨hstart, hend⟩ := h.arena
  rcases h.live_inside hmem with ⟨hin, hsource⟩ | ⟨hin, hsource⟩
  · obtain ⟨hle, hge⟩ := slots_inside hin
    refine Or.inl ⟨hsource, ?_⟩
    rw [putFree, if_pos (by omega)]
  · have hout := h.heapOutside held.1 hin
    refine Or.inr ⟨hsource, hin, ?_⟩
    unfold Apart at hout
    rw [putFree, if_neg (by omega)]

theorem start_inv {p pool : BlockPool} {bs n : BitVec 32} {buf : Nat} (hp : p.freeBlocks = [])
    (h : p.init bs n buf = (pool, true)) : (start Tid pool).Inv buf bs.toNat n.toNat := by
  unfold init at h
  split at h
  · cases h
  · split at h
    · cases h
    · rename_i haccepts _
      dsimp only at h
      split at h
      · cases h
      · cases h
        have hpos := ((accepts_iff bs).mp (by simpa using haccepts)).1
        refine ⟨by omega, rfl, ⟨rfl, by rw [Nat.mul_comm]; rfl⟩, ?_, List.Pairwise.nil, ?_, ?_,
          List.Pairwise.nil,
          ?_, ?_, ?_⟩
        · simp [start, liveFrom, pushBlocks_eq, hp]
        all_goals simp [start]

/-! ## Each step keeps the invariant -/

theorem Inv.take_free (h : s.Inv base blockSize count) {b : Nat} {rest : List Nat}
    (hfree : s.pool.freeBlocks = b :: rest) :
    { s with pool := { s.pool with freeBlocks := rest }, live := (b, .cache) :: s.live }.Inv
      base blockSize count := by
  have hconserve := h.conserve
  rw [hfree] at hconserve
  have hb : b ∈ slots base blockSize count := hconserve.subset (by simp)
  have hnd : (b :: (rest ++ s.liveFrom .cache)).Nodup :=
    hconserve.nodup_iff.mpr (slots_nodup h.pos)
  have hapart : ∀ held ∈ s.live, Apart b blockSize held.1 blockSize := by
    intro held hmem
    rcases h.live_inside hmem with ⟨hin, hsource⟩ | ⟨hin, -⟩
    · refine slots_apart hb hin ?_
      rintro rfl
      have hheld : held.1 ∈ s.liveFrom .cache := mem_liveFrom.mpr (hsource ▸ hmem)
      exact (List.nodup_cons.mp hnd).1 (List.mem_append_right _ hheld)
    · exact (h.heap_apart_cache hin hb).symm
  refine { h with
    conserve := ?_
    liveHeap := fun b' hb' => h.liveHeap b' (by simpa using hb')
    liveApart := List.pairwise_cons.mpr ⟨hapart, h.liveApart⟩
    transit := fun t b' call ht => ?_ }
  · show (rest ++ b :: s.liveFrom .cache).Perm _
    exact List.perm_middle.trans hconserve
  · obtain ⟨hheap, hlive, hcall⟩ := h.transit t b' call ht
    refine ⟨hheap, fun held hmem => ?_, hcall⟩
    rcases List.mem_cons.mp hmem with rfl | hmem
    · exact ((h.heap_apart_cache hheap hb).ne h.pos).symm
    · exact hlive held hmem

theorem Inv.take_heap (h : s.Inv base blockSize count) {b : Nat} (hfresh : s.FreshBlock b) :
    { s with heap := b :: s.heap, live := (b, .heap) :: s.live }.Inv base blockSize count := by
  obtain ⟨hbase, hend⟩ := h.arena
  obtain ⟨hout, hheap⟩ := hfresh
  rw [h.size, hbase, hend, Nat.add_sub_cancel_left] at hout
  rw [h.size] at hheap
  have hapart : ∀ held ∈ s.live, Apart b blockSize held.1 blockSize := by
    intro held hmem
    rcases h.live_inside hmem with ⟨hin, -⟩ | ⟨hin, -⟩
    · obtain ⟨hle, hge⟩ := slots_inside hin
      exact hout.mono le_rfl le_rfl hle hge
    · exact hheap _ hin
  refine { h with
    heapApart := List.pairwise_cons.mpr ⟨hheap, h.heapApart⟩
    heapOutside := List.forall_mem_cons.mpr ⟨hout, h.heapOutside⟩
    liveHeap := fun b' hb' => ?_
    liveApart := List.pairwise_cons.mpr ⟨hapart, h.liveApart⟩
    transit := fun t b' call ht => ?_ }
  · rcases List.mem_cons.mp hb' with heq | hb'
    · cases heq
      exact List.mem_cons_self
    · exact List.mem_cons_of_mem _ (h.liveHeap b' hb')
  · obtain ⟨hin, hlive, hcall⟩ := h.transit t b' call ht
    refine ⟨List.mem_cons_of_mem _ hin, fun held hmem => ?_, hcall⟩
    rcases List.mem_cons.mp hmem with rfl | hmem
    · exact (hheap b' hin).ne h.pos
    · exact hlive held hmem

/-- Live blocks have pairwise different addresses. -/
theorem Inv.erase_ne (h : s.Inv base blockSize count) {held other : Nat × Source}
    (hmem : held ∈ s.live) (hother : other ∈ s.live.erase held) : other.1 ≠ held.1 := by
  have hperm := List.perm_cons_erase hmem
  have hapart := (hperm.pairwise_iff fun hxy => hxy.symm).mp h.liveApart
  exact (((List.pairwise_cons.mp hapart).1 other hother).ne h.pos).symm

theorem getElem?_concat_cases {α : Type*} {xs : List α} {x y : α} {i : Nat}
    (h : (xs ++ [x])[i]? = some y) : xs[i]? = some y ∨ i = xs.length ∧ y = x := by
  rw [List.getElem?_append] at h
  split at h
  · exact Or.inl h
  · have hi : i - xs.length < 1 := (List.getElem?_eq_some_iff.mp h).1
    rw [Nat.lt_one_iff.mp hi] at h
    exact Or.inr ⟨by omega, by simpa using h.symm⟩

theorem Inv.put_free (h : s.Inv base blockSize count) {b : Nat} (hmem : (b, .cache) ∈ s.live) :
    { s with
      pool := { s.pool with freeBlocks := b :: s.pool.freeBlocks }
      live := s.live.erase (b, .cache)
      frees := s.frees ++ [FreeCall.mk b .cache [.cache]] }.Inv base blockSize count := by
  have hlive : (s.liveFrom .cache).Perm
      (b :: ((s.live.erase (b, .cache)).filter fun held => held.2 = .cache).map Prod.fst) :=
    ((List.perm_cons_erase hmem).filter _).map _
  refine { h with
    conserve := ?_
    liveHeap := fun b' hb' => h.liveHeap b' (List.mem_of_mem_erase hb')
    liveApart := h.liveApart.sublist List.erase_sublist
    transit := fun t b' call ht => ?_
    settled := fun i call hcall => ?_ }
  · show (b :: s.pool.freeBlocks ++
      ((s.live.erase (b, .cache)).filter fun held => held.2 = .cache).map Prod.fst).Perm _
    exact (List.perm_middle.symm.trans (hlive.symm.append_left _)).trans h.conserve
  · obtain ⟨hin, hne, hcall⟩ := h.transit t b' call ht
    refine ⟨hin, fun held hheld => hne held (List.mem_of_mem_erase hheld), ?_⟩
    exact (List.getElem?_append_left (List.getElem?_eq_some_iff.mp hcall).1).trans hcall
  · rcases getElem?_concat_cases hcall with hcall | ⟨-, rfl⟩
    · exact h.settled i call hcall
    · exact Or.inl rfl

variable [DecidableEq Tid]

/-- A thread's move that neither begins nor ends the way to `xfree`. -/
theorem Inv.goto_other (h : s.Inv base blockSize count) {t : Tid} {pc : Pc}
    (hfrom : ∀ b call, s.threads t ≠ .freeHeap b call) (hto : ∀ b call, pc ≠ .freeHeap b call) :
    (s.goto t pc).Inv base blockSize count := by
  have hsame : ∀ u b call, (s.goto t pc).threads u = .freeHeap b call ↔
      s.threads u = .freeHeap b call := by
    intro u b call
    rw [goto_threads]
    split
    · rename_i hu
      subst hu
      exact iff_of_false (hto b call) (hfrom b call)
    · exact Iff.rfl
  refine { h with
    transit := fun u b call hu => h.transit u b call ((hsame u b call).mp hu)
    transitOnce := fun u u' b call call' hu hu' =>
      h.transitOnce u u' b call call' ((hsame ..).mp hu) ((hsame ..).mp hu')
    settled := fun i call hcall => ?_ }
  exact (h.settled i call hcall).imp_right fun ⟨u, hu⟩ => ⟨u, (hsame ..).mpr hu⟩

/-- A heap block leaves the live ones and is on its way to `xfree`. -/
theorem Inv.send_heap (h : s.Inv base blockSize count) {t : Tid} {b : Nat}
    (hidle : s.threads t = .idle) (hmem : (b, .heap) ∈ s.live) :
    ({ s with
      live := s.live.erase (b, .heap)
      frees := s.frees ++ [FreeCall.mk b .heap []] }.goto t (.freeHeap b s.frees.length)).Inv
        base blockSize count := by
  have hconserve : (s.live.erase (b, .heap)).filter (fun held => held.2 = .cache) =
      s.live.filter fun held => held.2 = .cache := by
    rw [← List.erase_filter, List.erase_of_not_mem (by simp)]
  refine { h with
    conserve := ?_
    liveHeap := fun b' hb' => h.liveHeap b' (List.mem_of_mem_erase hb')
    liveApart := h.liveApart.sublist List.erase_sublist
    transit := fun u b' call hu => ?_
    transitOnce := fun u u' b' call call' hu hu' => ?_
    settled := fun i call hcall => ?_ }
  · show (s.pool.freeBlocks ++
      ((s.live.erase (b, .heap)).filter fun held => held.2 = .cache).map Prod.fst).Perm _
    rw [hconserve]
    exact h.conserve
  · rw [goto_threads] at hu
    split at hu
    · cases hu
      exact ⟨h.liveHeap b hmem, fun held hheld => h.erase_ne hmem hheld,
        List.getElem?_concat_length⟩
    · obtain ⟨hin, hne, hcall⟩ := h.transit u b' call hu
      refine ⟨hin, fun held hheld => hne held (List.mem_of_mem_erase hheld), ?_⟩
      exact (List.getElem?_append_left (List.getElem?_eq_some_iff.mp hcall).1).trans hcall
  · rw [goto_threads] at hu hu'
    split at hu <;> split at hu'
    · rename_i hut hut'
      exact hut.trans hut'.symm
    · cases hu
      exact absurd rfl ((h.transit u' b call' hu').2.1 _ hmem)
    · cases hu'
      exact absurd rfl ((h.transit u b call hu).2.1 _ hmem)
    · exact h.transitOnce u u' b' call call' hu hu'
  · rcases getElem?_concat_cases hcall with hcall | ⟨rfl, rfl⟩
    · refine (h.settled i call hcall).imp_right fun ⟨u, hu⟩ => ⟨u, ?_⟩
      rw [goto_threads, if_neg]
      · exact hu
      · rintro rfl
        rw [hidle] at hu
        cases hu
    · exact Or.inr ⟨t, by rw [goto_threads, if_pos rfl]⟩

/-- The heap block of a `Free` is back, and that call is settled. -/
theorem Inv.put_heap (h : s.Inv base blockSize count) {t : Tid} {b call : Nat}
    (ht : s.threads t = .freeHeap b call) :
    ({ s with
      heap := s.heap.erase b
      frees := s.frees.modify call fun c => { c with returned := c.returned ++ [Source.heap] }
      }.goto t .idle).Inv base blockSize count := by
  obtain ⟨hb, hne, hcall⟩ := h.transit t b call ht
  -- The other threads on their way to `xfree` have other blocks and other calls.
  have hother : ∀ u b' call', u ≠ t → s.threads u = .freeHeap b' call' → b' ≠ b ∧ call ≠ call' := by
    intro u b' call' hut hu
    have hb' : b' ≠ b := by
      rintro rfl
      exact hut (h.transitOnce u t b' call' call hu ht)
    refine ⟨hb', ?_⟩
    rintro rfl
    have hcall' := (h.transit u b' call hu).2.2
    rw [hcall] at hcall'
    cases hcall'
    exact hb' rfl
  refine { h with
    heapApart := h.heapApart.sublist List.erase_sublist
    heapOutside := fun b' hb' => h.heapOutside b' (List.mem_of_mem_erase hb')
    liveHeap := fun b' hb' => ?_
    transit := fun u b' call' hu => ?_
    transitOnce := fun u u' b' call' call'' hu hu' => ?_
    settled := fun i c hc => ?_ }
  · exact (List.mem_erase_of_ne (hne _ hb')).mpr (h.liveHeap b' hb')
  · rw [goto_threads] at hu
    split at hu
    · cases hu
    · rename_i hut
      obtain ⟨hin, hlive, hcall'⟩ := h.transit u b' call' hu
      obtain ⟨hbne, hcne⟩ := hother u b' call' hut hu
      exact ⟨(List.mem_erase_of_ne hbne).mpr hin, hlive,
        (List.getElem?_modify_ne _ _ hcne).trans hcall'⟩
  · rw [goto_threads] at hu hu'
    split at hu
    · cases hu
    · split at hu'
      · cases hu'
      · exact h.transitOnce u u' b' call' call'' hu hu'
  · by_cases hi : call = i
    · subst hi
      have hset := (List.getElem?_modify_eq _ call s.frees).symm.trans hc
      rw [hcall] at hset
      cases hset
      exact Or.inl rfl
    · have hsettled := h.settled i c ((List.getElem?_modify_ne _ _ hi).symm.trans hc)
      refine hsettled.imp_right fun ⟨u, hu⟩ => ⟨u, ?_⟩
      rw [goto_threads, if_neg]
      · exact hu
      · rintro rfl
        rw [ht] at hu
        cases hu
        exact hi rfl

theorem Inv.step (h : s.Inv base blockSize count) {l : Label Tid} {s' : Shared Tid}
    (hstep : step s l = some s') : s'.Inv base blockSize count := by
  cases l with
  | alloc t =>
      simp only [Shared.step, stepAlloc] at hstep
      split at hstep
      · cases hstep
      · rename_i hidle
        rw [not_not] at hidle
        cases hfree : s.pool.freeBlocks with
        | nil =>
            simp only [takeFree, hfree] at hstep
            cases hstep
            exact h.goto_other (by simp [hidle]) (by simp)
        | cons b rest =>
            simp only [takeFree, hfree] at hstep
            cases hstep
            exact h.take_free hfree
  | xmalloc t buf =>
      simp only [Shared.step, stepXmalloc] at hstep
      split at hstep
      · cases hstep
      · rename_i hpc
        rw [not_not] at hpc
        split at hstep
        · cases hstep
          exact h.goto_other (by simp [hpc]) (by simp)
        · split at hstep
          · rename_i hfresh
            cases hstep
            exact (h.take_heap hfresh).goto_other (by simp [hpc]) (by simp)
          · cases hstep
  | free t block =>
      simp only [Shared.step, stepFree] at hstep
      split at hstep
      · cases hstep
      · rename_i hidle
        rw [not_not] at hidle
        cases hfind : s.live.find? fun held => held.1 = block with
        | none => simp [hfind] at hstep
        | some held =>
            have hmem := List.mem_of_find?_eq_some hfind
            have hblock : held.1 = block := by simpa using List.find?_some hfind
            obtain ⟨b, source⟩ := held
            subst hblock
            rcases h.putFree_eq hmem with ⟨hsource, hput⟩ | ⟨hsource, -, hput⟩
            · simp only [hfind, hput] at hstep
              cases hstep
              obtain rfl : source = .cache := hsource
              exact h.put_free hmem
            · simp only [hfind, hput] at hstep
              cases hstep
              obtain rfl : source = .heap := hsource
              exact h.send_heap hidle hmem
  | xfree t =>
      simp only [Shared.step, stepXfree] at hstep
      split at hstep
      · rename_i b call ht
        cases hstep
        exact h.put_heap ht
      · cases hstep

/-! ## Whole runs -/

/-- What holds in every state of a pool with `count` cache blocks from `base` on. -/
structure Safe (base blockSize count : Nat) (s : Shared Tid) : Prop where
  deque_nodup : s.pool.freeBlocks.Nodup
  deque_form : ∀ b ∈ s.pool.freeBlocks, ∃ i < count, b = base + i * blockSize
  live_not_free : ∀ held ∈ s.live, held.1 ∉ s.pool.freeBlocks
  conserve : (s.pool.freeBlocks ++ s.liveFrom .cache).Perm (slots base blockSize count)
  live_apart : s.live.Pairwise fun x y => Apart x.1 blockSize y.1 blockSize
  /-- Each `Free` has returned its block exactly once, to where it came from, or
  one thread is still about to do so, with a block that came from the heap. -/
  free_once : ∀ i call, s.frees[i]? = some call →
    call.returned = [call.source] ∨
      call.returned = [] ∧ call.source = .heap ∧ call.block ∈ s.heap ∧
        ∃! t, s.threads t = .freeHeap call.block i

omit [DecidableEq Tid] in
theorem Inv.safe (h : s.Inv base blockSize count) : s.Safe base blockSize count := by
  have hnd : (s.pool.freeBlocks ++ s.liveFrom .cache).Nodup :=
    h.conserve.nodup_iff.mpr (slots_nodup h.pos)
  have hin : ∀ b ∈ s.pool.freeBlocks, b ∈ slots base blockSize count :=
    fun b hb => h.conserve.subset (List.mem_append_left _ hb)
  refine ⟨hnd.of_append_left, fun b hb => mem_slots.mp (hin b hb), ?_, h.conserve,
    h.liveApart, ?_⟩
  · intro held hmem hfree
    rcases h.live_inside hmem with ⟨-, hsource⟩ | ⟨hheap, -⟩
    · have hlive : held.1 ∈ s.liveFrom .cache := mem_liveFrom.mpr (hsource ▸ hmem)
      exact List.disjoint_of_nodup_append hnd hfree hlive
    · exact (h.heap_apart_cache hheap (hin _ hfree)).ne h.pos rfl
  · intro i call hcall
    refine (h.settled i call hcall).imp_right fun ⟨t, ht⟩ => ?_
    obtain ⟨hheap, -, hcall'⟩ := h.transit t _ _ ht
    rw [hcall] at hcall'
    have heq : call = ⟨call.block, .heap, []⟩ := Option.some.inj hcall'
    exact ⟨by rw [heq], by rw [heq], hheap, t, ht,
      fun u hu => h.transitOnce u t _ _ _ hu ht⟩

/-- Whole-run safety: whatever the threads do after a successful `Init` on a pool
that was not initialised before. -/
theorem blockPool_safe {p pool : BlockPool} {bs n : BitVec 32} {buf : Nat}
    (hp : p.freeBlocks = []) (hinit : p.init bs n buf = (pool, true))
    (h : Machine.Reachable Shared.step (start Tid pool) s) : s.Safe buf bs.toNat n.toNat :=
  (h.invariant (Inv buf bs.toNat n.toNat) (start_inv hp hinit) fun _ _ _ hs hstep =>
    hs.step hstep).safe

/-- Two threads, one cache block: the second `Alloc` goes to the heap, and both
blocks come back to where they came from. -/
theorem blockPool_safe_two_threads : ∃ s : Shared Bool,
    Machine.run step (start Bool (BlockPool.new.init 4096 1 8192).1)
        [.alloc true, .alloc false, .xmalloc false 20480, .free false 20480, .free true 8192,
          .xfree false] = some s ∧
      s.frees = [⟨20480, .heap, [.heap]⟩, ⟨8192, .cache, [.cache]⟩] ∧ s.Safe 8192 4096 1 := by
  have hinit : BlockPool.new.init 4096#32 1#32 8192 =
      ((BlockPool.new.init 4096 1 8192).1, true) := rfl
  obtain ⟨s, hs, hfrees⟩ : ∃ s : Shared Bool,
      Machine.run step (start Bool (BlockPool.new.init 4096 1 8192).1)
          [.alloc true, .alloc false, .xmalloc false 20480, .free false 20480, .free true 8192,
            .xfree false] = some s ∧
        s.frees = [⟨20480, .heap, [.heap]⟩, ⟨8192, .cache, [.cache]⟩] := ⟨_, rfl, rfl⟩
  exact ⟨s, hs, hfrees, blockPool_safe rfl hinit ⟨_, hs⟩⟩

end Shared

end XfUtil.BlockPool
