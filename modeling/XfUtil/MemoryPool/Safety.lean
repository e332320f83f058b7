import XfUtil.BlockPool.Model
import XfUtil.MemoryPool.Steps
import Mathlib.Order.Interval.Finset.Nat

/-!
# What a `MemoryPool` guarantees over whole runs

The invariant holds after `Init` and in every state that any interleaving of
`Alloc`, `Free` and client writes reaches.
-/

namespace XfUtil.MemoryPool

open FlatMemory Links

/-! ## `Init` -/

/-- The cache block after `Init`, whatever became of its size in 32 bits. It has
all its slots if their number fits 16 bits. -/
theorem cacheBlock_ok {n : BitVec 32} (hn : 1 ≤ n.toNat ∧ n.toNat ≤ 4056) (cacheNum : BitVec 32)
    (m : Memory) (buf : Nat) :
    let es := alignElement n
    let total := cacheSize es cacheNum
    40 ≤ total.toNat ∧ ∃ offC capC, (capC = 0 ∨ 8 ∣ offC) ∧
      (cacheNum.toNat < 2 ^ 16 → capC = cacheNum.toNat) ∧
      BlockOk (m.setHead buf (memoryBlockInit (total.setWidth 32) es)) [] buf total.toNat es.toNat
        offC capC := by
  intro es total
  obtain ⟨hdvd, hlo, hhi⟩ := toNat_alignElement hn.1 hn.2
  have htotal : total.toNat = cacheNum.toNat * es.toNat + 40 := by
    have hnum := cacheNum.isLt
    have hprod : cacheNum.toNat * es.toNat ≤ 2 ^ 32 * 4056 := Nat.mul_le_mul hnum.le hhi
    simp only [total, cacheSize, memoryBlockHeadSize, BitVec.toNat_add, BitVec.toNat_mul,
      BitVec.toNat_setWidth, BitVec.toNat_ofNat]
    rw [Nat.mod_eq_of_lt (by omega : cacheNum.toNat < 2 ^ 64),
      Nat.mod_eq_of_lt (by omega : es.toNat < 2 ^ 64)]
    omega
  have htrunc : (total.setWidth 32).toNat = total.toNat % 2 ^ 32 := BitVec.toNat_setWidth ..
  have hhead : (m.setHead buf (memoryBlockInit (total.setWidth 32) es)).heads buf =
      memoryBlockInit (total.setWidth 32) es := Function.update_self ..
  have hroom : (memoryBlockInit (total.setWidth 32) es).blockSize.toNat ≤ total.toNat := by
    rw [show (memoryBlockInit (total.setWidth 32) es).blockSize.toNat = _ from htrunc]
    exact Nat.mod_le _ _
  have hes : 0 < es.toNat := Nat.lt_of_lt_of_le (by decide) hlo
  have hdvd' : 8 ∣ (total.setWidth 32).toNat := by
    obtain ⟨k, hk⟩ := Nat.dvd_mul_left_of_dvd hdvd cacheNum.toNat
    rw [htrunc, htotal, hk]
    omega
  have hfits : cacheNum.toNat < 2 ^ 16 → total.toNat < 2 ^ 32 := by
    intro hnum
    have hprod : cacheNum.toNat * es.toNat ≤ 2 ^ 16 * 4056 := Nat.mul_le_mul hnum.le hhi
    omega
  refine ⟨by omega, ?_⟩
  by_cases hbs : memoryBlockHeadSize ≤ (total.setWidth 32).toNat
  · obtain ⟨hlayout, hoff⟩ := memoryBlockInit_layout hbs hes
    have hok := hlayout.fresh m.words buf hoff rfl rfl
    rw [← hhead] at hok
    refine ⟨_, _, Or.inr (Nat.dvd_sub hdvd' (Nat.dvd_mul_left_of_dvd hdvd _)), fun hnum => ?_,
      by rw [hhead]; exact hroom, [], 0, hok⟩
    rw [hhead, toNat_maxElementNum hbs, htrunc, Nat.mod_eq_of_lt (hfits hnum), htotal,
      memoryBlockHeadSize, Nat.add_sub_cancel, Nat.mul_div_cancel _ hes, Nat.mod_eq_of_lt hnum]
  · have hoff := memoryBlockInit_degenerate (not_le.mp hbs) hdvd' hdvd hlo hhi
    have hlayout : Layout (memoryBlockInit (total.setWidth 32) es) es.toNat _ 0 :=
      ⟨rfl, hes, by decide, Or.inr ⟨rfl, hoff⟩⟩
    have hok := hlayout.fresh m.words buf rfl rfl rfl
    rw [← hhead] at hok
    refine ⟨_, 0, Or.inl rfl, fun hnum => ?_, by rw [hhead]; exact hroom, [], 0, hok⟩
    have hwhole := hfits hnum
    rw [htrunc, Nat.mod_eq_of_lt hwhole, memoryBlockHeadSize] at hbs
    omega

variable {p : MemoryPool} {Tid : Type*}

theorem start_inv (Tid : Type*) {n cacheNum bs : BitVec 32} {freeList fullList buf : Nat}
    {links : Links.Heap} {m : Memory} (hn : 1 ≤ n.toNat ∧ n.toNat ≤ 4056)
    (hbs : BlockPool.accepts bs = true) (hlists : freeList ≠ fullList)
    (hinit : (new bs freeList fullList links m).init n cacheNum buf = (p, true))
    (hcache : Shared.Placed p p.cacheBlockHead (cacheLen p)) :
    Configured p ∧ p.elementSize = alignElement n ∧
      ∃ offC capC, (capC = 0 ∨ 8 ∣ offC) ∧ (cacheNum.toNat < 2 ^ 16 → capC = cacheNum.toNat) ∧
        Inv p offC capC (Shared.start Tid p) [] [] := by
  obtain ⟨hdvd, hlo, hhi⟩ := toNat_alignElement hn.1 hn.2
  obtain ⟨hsize, offC, capC, halign, hcap, hok⟩ := cacheBlock_ok hn cacheNum m buf
  have hbs' := (BlockPool.accepts_iff bs).mp hbs
  unfold init at hinit
  dsimp only at hinit
  split at hinit
  · cases hinit
  · cases hinit
    refine ⟨⟨⟨hdvd, hlo⟩, hbs', maxElementNum_pos hbs'.1 hbs'.2 hdvd hlo hhi, hcache, ?_⟩, rfl,
      offC, capC, halign, hcap, ?_⟩
    · show 0 < buf + _ - buf
      omega
    · have hlen : buf + (cacheSize (alignElement n) cacheNum).toNat - buf =
          (cacheSize (alignElement n) cacheNum).toNat := Nat.add_sub_cancel_left ..
      have hfull := listInit_ring (listInit links freeList) fullList
      have hne : fullList ∉ [freeList] := by simpa using hlists.symm
      have hfree := listInit_other (listInit_ring links freeList) hne
      refine ⟨rfl, ⟨hfree, hfull, by simpa [new] using hlists.symm⟩, by simp [Shared.start, new],
        ⟨by simp [Shared.start], List.Pairwise.nil, by simp⟩, ⟨?_, by simp, List.nodup_nil,
        by simp [Shared.start]⟩, by simp, by simp, ?_, by simp [Shared.start], rfl, rfl⟩
      · rintro lo size off cap (⟨rfl, rfl, rfl, rfl⟩ | ⟨hmem, -⟩)
        · show BlockOk _ _ _ (lo + _ - lo) _ _ _
          rw [hlen]
          exact hok
        · exact absurd hmem List.not_mem_nil
      · exact ⟨by simp [Shared.start, Pc.block], by simp [Shared.start],
          by simp [Shared.start, Pc.block], by simp [Shared.start]⟩

/-! ## Steps -/

variable {offC capC : Nat} {s s' : Shared Tid} [DecidableEq Tid]

/-- Threads that are between calls and those that want a block hold none. -/
theorem Inv.goto_unblocked {free full : List Nat} (h : Inv p offC capC s free full) {t : Tid}
    {pc : Pc} (hfrom : (s.threads t).block = none) (hto : pc.block = none) :
    Inv p offC capC (s.goto t pc) free full := by
  have hsame : ∀ u, ((s.goto t pc).threads u).block = (s.threads u).block := by
    intro u
    rw [Shared.goto_threads]
    split
    · rename_i hu
      rw [hu, hfrom, hto]
    · rfl
  refine { h with hands := ⟨fun u b hu => h.hands.unlisted u b (hsame u ▸ hu),
    fun u b ptr hu => ?_, fun u u' b hu hu' => h.hands.once u u' b (hsame u ▸ hu) (hsame u' ▸ hu'),
    fun b hb => (h.hands.accounted b hb).imp_right fun ⟨u, hu⟩ => ⟨u, (hsame u).trans hu⟩⟩ }
  rw [Shared.goto_threads] at hu
  split at hu
  · rw [hu] at hto
    cases hto
  · exact h.hands.adding u b ptr hu

theorem Inv.step {free full : List Nat} (h : Inv p offC capC s free full) (hc : Configured p)
    {l : Label Tid} (hstep : Shared.step s l = some s') :
    ∃ free' full', Inv p offC capC s' free' full' := by
  cases l with
  | alloc t =>
      simp only [Shared.step, Shared.stepAlloc] at hstep
      split at hstep
      · cases hstep
      · rename_i hpc
        rw [not_not] at hpc
        rcases h.allocCached hc with ⟨hne, hinv⟩ | ⟨hzero, free', full', hinv⟩
        · rw [if_pos hne, Shared.deliver, if_neg hne] at hstep
          cases hstep
          exact ⟨free, full, hinv⟩
        · rw [if_neg (not_not.mpr hzero)] at hstep
          cases hstep
          exact ⟨free', full', hinv.goto_unblocked (by rw [hpc]; rfl) rfl⟩
  | takeBlock t b =>
      simp only [Shared.step, Shared.stepTakeBlock] at hstep
      split at hstep
      · rename_i hpc
        cases hstep
        exact ⟨free, full, h.takeBlock hc hpc.1 hpc.2⟩
      · cases hstep
  | addBlock t =>
      simp only [Shared.step, Shared.stepAddBlock] at hstep
      split at hstep
      · rename_i b ptr hpc
        obtain ⟨hne, hinv⟩ := h.addBlock hc hpc
        rw [Shared.deliver, if_neg hne] at hstep
        cases hstep
        exact ⟨b :: free, full, hinv⟩
      · cases hstep
  | free t e =>
      simp only [Shared.step, Shared.stepFree] at hstep
      split at hstep
      · rename_i hpc
        obtain ⟨lo, size, off, cap, hr, hin⟩ := h.content.inside e hpc.2
        have he := mem_within.mpr ⟨hpc.2, hin⟩
        rcases hr with ⟨rfl, rfl, -, -⟩ | ⟨hlo, rfl, -, -⟩
        · obtain ⟨hnone, hinv⟩ := h.free_cache hc he
          rw [hnone] at hstep
          cases hstep
          exact ⟨free, full, hinv⟩
        · rcases h.free_block hc hpc.1 hlo he with ⟨free', full', hnone, hinv⟩ |
            ⟨free', full', hsome, hinv⟩
          · rw [hnone] at hstep
            cases hstep
            exact ⟨free', full', hinv⟩
          · rw [hsome] at hstep
            cases hstep
            exact ⟨free', full', hinv⟩
      · cases hstep
  | giveBack t =>
      simp only [Shared.step, Shared.stepGiveBack] at hstep
      split at hstep
      · rename_i b hpc
        cases hstep
        exact ⟨free, full, h.giveBack hc hpc⟩
      · cases hstep
  | write x value =>
      simp only [Shared.step, Shared.stepWrite] at hstep
      split at hstep
      · rename_i hx
        cases hstep
        exact ⟨free, full, h.write hc value hx⟩
      · cases hstep

theorem Inv.run {free full : List Nat} (h : Inv p offC capC s free full) (hc : Configured p)
    {ls : List (Label Tid)} (hrun : Machine.run Shared.step s ls = some s') :
    ∃ free' full', Inv p offC capC s' free' full' :=
  Machine.run_invariant (fun s => ∃ free full, Inv p offC capC s free full) ⟨free, full, h⟩
    (fun _ _ _ ⟨_, _, hs⟩ hstep => hs.step hc hstep) hrun

/-! ## Whole runs -/

/-- What holds in every state of a pool that was `p` after `Init`. -/
structure Safe (p : MemoryPool) (s : Shared Tid) : Prop where
  /-- Every `Alloc` has returned an element. -/
  failures : s.failures = 0
  aligned : ∀ e ∈ s.live, 8 ∣ e
  /-- Elements lie in the cache block or in a held block, past its head. -/
  inside : ∀ e ∈ s.live,
    (p.cacheBlockHead + memoryBlockHeadSize ≤ e ∧ e + p.elementSize.toNat ≤ p.cacheBlockEnd) ∨
      ∃ b ∈ s.held, b + memoryBlockHeadSize ≤ e ∧
        e + p.elementSize.toNat ≤ b + p.blockSize.toNat
  apart : s.live.Pairwise fun x y => Apart x p.elementSize.toNat y p.elementSize.toNat
  used : s.pool.usedCnt.toNat = s.live.length
  /-- The lists partition the blocks of the set, full ones have no free slot, and
  between calls these are exactly the held blocks. Each has a live element. -/
  lists : ∃ free full, Rings p s.pool.links free full ∧ (free ++ full).Nodup ∧
    (∀ e, e ∈ s.pool.blocks ↔ ∃ b ∈ free ++ full, e = b + p.blockSize.toNat) ∧
    (∀ b ∈ full, (s.pool.mem.heads b).nextElementPtr = 0 ∧
      ¬ (s.pool.mem.heads b).nextElementOffset < (s.pool.mem.heads b).blockSize) ∧
    (∀ b ∈ free ++ full, within s.live b p.blockSize.toNat ≠ []) ∧
    (∀ b ∈ free ++ full, b ∈ s.held) ∧ (s.Quiet → ∀ b ∈ s.held, b ∈ free ++ full)
  /-- Each time the `BlockPool` has handed out a block it has got it back once,
  except for the blocks held now. -/
  returned : s.held.Nodup ∧ ∀ b, s.taken b = s.given b + s.held.count b
  /-- A block on its way back is held, is in no list, and has no live element. -/
  leaving : ∀ t b, s.threads t = .giveBack b →
    b ∈ s.held ∧ b + p.blockSize.toNat ∉ s.pool.blocks ∧ within s.live b p.blockSize.toNat = []
  /-- When everything has been freed, every block is back. -/
  drained : s.Quiet → s.live = [] → s.held = [] ∧ ∀ b, s.taken b = s.given b

/-- Fewer than `2 ^ 64` elements fit into the address space. -/
theorem length_lt_of_nodup {live : List Nat} (hnd : live.Nodup)
    (h : ∀ e ∈ live, 0 < e ∧ e < 2 ^ 64) : live.length < 2 ^ 64 := by
  have hsub : live.toFinset ⊆ Finset.Ico 1 (2 ^ 64) := by
    intro e he
    have hpos := h e (List.mem_toFinset.mp he)
    exact Finset.mem_Ico.mpr ⟨hpos.1, hpos.2⟩
  have hcard := Finset.card_le_card hsub
  rw [List.toFinset_card_of_nodup hnd, Nat.card_Ico] at hcard
  omega

omit [DecidableEq Tid] in
theorem Inv.safe {free full : List Nat} (h : Inv p offC capC s free full) (hc : Configured p)
    (halign : capC = 0 ∨ 8 ∣ offC) : Safe p s := by
  have hbs := hc.blockHead.1
  -- Every live element is a slot of some region, and regions are placed.
  have hslot : ∀ e ∈ s.live, ∃ lo size off cap, Region p offC capC (free ++ full) lo size off cap ∧
      Shared.Placed p lo size ∧ e ∈ slots (lo + off) p.elementSize.toNat cap ∧
      lo + memoryBlockHeadSize ≤ e ∧ e + p.elementSize.toNat ≤ lo + size := by
    intro e he
    obtain ⟨lo, size, off, cap, hr, hin⟩ := h.content.inside e he
    refine ⟨lo, size, off, cap, hr, ?_, (h.content.ok _ _ _ _ hr).inside (mem_within.mpr ⟨he, hin⟩)⟩
    rcases hr with ⟨rfl, rfl, -, -⟩ | ⟨hlo, rfl, -, -⟩
    · exact hc.cache
    · exact (h.separate.placed lo (h.separate.listed hlo)).1
  have hquiet : s.Quiet → ∀ b ∈ s.held, b ∈ free ++ full := by
    intro hq b hb
    rcases h.hands.accounted b hb with hl | ⟨t, ht⟩
    · exact hl
    · rw [hq t] at ht
      cases ht
  have hempty : s.Quiet → s.live = [] → s.held = [] := by
    intro hq hlive
    refine List.eq_nil_iff_forall_not_mem.mpr fun b hb => h.nonempty b (hquiet hq b hb) ?_
    rw [hlive]
    rfl
  refine ⟨h.failures, fun e he => ?_, fun e he => ?_, ?_, ?_,
    ⟨free, full, h.rings, h.rings.nodup, h.ends, fun b hb => ?_, h.nonempty,
      fun b hb => h.separate.listed hb, hquiet⟩,
    ⟨h.separate.apart.imp fun hap => hap.ne (by omega), h.counts⟩, fun t b hpc => ?_,
    fun hq hlive => ⟨hempty hq hlive, fun b => ?_⟩⟩
  · obtain ⟨lo, size, off, cap, hr, hplaced, hmem, -⟩ := hslot e he
    refine slots_dvd (Nat.dvd_add hplaced.2.1 ?_) hc.aligned.1 hmem
    rcases hr with ⟨-, -, rfl, rfl⟩ | ⟨-, -, rfl, -⟩
    · rcases halign with rfl | halign
      · exact absurd hmem List.not_mem_nil
      · exact halign
    · exact Nat.dvd_sub (Nat.dvd_trans (by decide) hc.blockHead.2)
        (Nat.dvd_mul_left_of_dvd hc.aligned.1 _)
  · obtain ⟨lo, size, off, cap, hr, -, -, hlo, hhi⟩ := hslot e he
    rcases hr with ⟨rfl, rfl, -, -⟩ | ⟨hmem, rfl, -, -⟩
    · have hpos := hc.cachePos
      unfold cacheLen at hhi hpos
      exact Or.inl ⟨hlo, by omega⟩
    · exact Or.inr ⟨lo, h.separate.listed hmem, hlo, hhi⟩
  · exact h.content.nodup.imp_of_mem fun hx hy hne => h.content.apart hc h.separate hx hy hne
  · rw [h.used, BitVec.toNat_ofNat]
    refine Nat.mod_eq_of_lt (length_lt_of_nodup h.content.nodup fun e he => ?_)
    obtain ⟨lo, size, off, cap, -, hplaced, -, hlo, hhi⟩ := hslot e he
    have hend := hplaced.2.2.1
    have hes := hc.aligned.2
    simp only [memoryBlockHeadSize] at hlo
    omega
  · obtain ⟨chain, carved, hr⟩ :=
      (h.content.ok _ _ _ _ (Region.listed (List.mem_append_right free hb))).rep
    exact hr.no_slot (h.filled b hb)
  · obtain ⟨hheld, hout⟩ := h.hands.unlisted t b (by rw [hpc]; rfl)
    refine ⟨hheld, fun hmem => ?_, h.content.within_unlisted hc h.separate hheld hout⟩
    obtain ⟨c, hcl, heq⟩ := (h.ends _).mp hmem
    rw [Nat.add_right_cancel heq] at hout
    exact hout hcl
  · have hcount := h.counts b
    rw [hempty hq hlive] at hcount
    simpa using hcount

/-- Whole-run safety of a `MemoryPool` on any `BlockPool` of an accepted block
size, from any memory contents and for any number of threads. -/
theorem memoryPool_safe {n cacheNum bs : BitVec 32} {freeList fullList buf : Nat}
    {links : Links.Heap} {m : Memory} (hn : 1 ≤ n.toNat ∧ n.toNat ≤ 4056)
    (hbs : BlockPool.accepts bs = true) (hlists : freeList ≠ fullList)
    (hinit : (new bs freeList fullList links m).init n cacheNum buf = (p, true))
    (hcache : Shared.Placed p p.cacheBlockHead (cacheLen p))
    (h : Machine.Reachable Shared.step (Shared.start Tid p) s) : Safe p s := by
  obtain ⟨hc, -, offC, capC, halign, -, hinv⟩ := start_inv Tid hn hbs hlists hinit hcache
  obtain ⟨ls, hrun⟩ := h
  obtain ⟨free, full, hinv'⟩ := hinv.run hc hrun
  exact hinv'.safe hc halign

/-- Two threads on a cache block with one slot: the second `Alloc` takes a block,
which goes back when its only element is freed. -/
theorem memoryPool_safe_two_threads : ∃ (p : MemoryPool) (s : Shared Bool),
    (new 4096 16 32 ⟨id, id⟩ ⟨fun _ => memoryBlockInit 0 0, fun _ => 0⟩).init 8 1 4096 =
        (p, true) ∧
      Machine.run Shared.step (Shared.start Bool p)
        [.alloc true, .alloc false, .takeBlock false 8192, .addBlock false, .write 8232 7,
          .free false 8232, .giveBack false] = some s ∧
      s.live = [4136] ∧ s.given 8192 = 1 ∧ Safe p s := by
  obtain ⟨p, hinit, hplaced, s, hs, hlive, hgiven⟩ : ∃ p : MemoryPool,
      (new 4096 16 32 ⟨id, id⟩ ⟨fun _ => memoryBlockInit 0 0, fun _ => 0⟩).init 8 1 4096 =
          (p, true) ∧
        Shared.Placed p p.cacheBlockHead (cacheLen p) ∧
        ∃ s : Shared Bool, Machine.run Shared.step (Shared.start Bool p)
          [.alloc true, .alloc false, .takeBlock false 8192, .addBlock false, .write 8232 7,
            .free false 8232, .giveBack false] = some s ∧
          s.live = [4136] ∧ s.given 8192 = 1 :=
    ⟨_, rfl, by decide, _, rfl, rfl, rfl⟩
  exact ⟨p, s, hinit, hs, hlive, hgiven,
    memoryPool_safe (by decide) (by decide) (by decide) hinit hplaced ⟨_, hs⟩⟩

end XfUtil.MemoryPool
