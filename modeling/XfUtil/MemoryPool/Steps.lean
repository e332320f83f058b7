import XfUtil.MemoryPool.Invariant

/-!
# Every step keeps the invariant of a `MemoryPool`

`Alloc` and `Free` change one region each; a block then changes list, leaves the
lists or joins them.
-/

namespace XfUtil.MemoryPool

open FlatMemory Links

variable {p : MemoryPool} {offC capC : Nat} {Tid : Type*} {s : Shared Tid} {free full : List Nat}
  {lo size off cap : Nat}

theorem setHead_self (m : Memory) (b : Nat) : m.setHead b (m.heads b) = m := by
  simp [Memory.setHead]

theorem ofNat_succ_length (live : List Nat) (e : Nat) :
    BitVec.ofNat 64 live.length + 1 = BitVec.ofNat 64 (e :: live).length := by
  rw [List.length_cons, BitVec.ofNat_add]
  rfl

theorem Inv.head_ne (h : Inv p offC capC s free full) {b : Nat} (hb : b ∈ free ++ full) : b ≠ 0 :=
  (h.separate.placed b (h.separate.listed hb)).1.1

theorem Inv.within_apart (h : Inv p offC capC s free full) {live' : List Nat} {m' : Memory}
    (hr : Region p offC capC (free ++ full) lo size off cap)
    (ht : Touches s.pool.mem s.live m' live' lo size) {b : Nat} (hb : b ∈ free ++ full)
    (hne : b ≠ lo) : within live' b p.blockSize.toNat = within s.live b p.blockSize.toNat :=
  ht.live b _ (h.separate.regions (Region.listed hb) hr hne)

/-! ## `Alloc` -/

theorem allocFrom_eq {q : MemoryPool} {b e : Nat} {h' : MemoryBlockHead}
    (h : memoryAlloc q.mem.words b (q.mem.heads b) = (e, h')) :
    q.allocFrom b = (e, { q with mem := q.mem.setHead b h' }) := by
  simp only [allocFrom, h]

theorem allocFrom_none {q : MemoryPool} {b : Nat}
    (h : memoryAlloc q.mem.words b (q.mem.heads b) = (0, q.mem.heads b)) :
    q.allocFrom b = (0, q) := by
  rw [allocFrom_eq h, setHead_self]

theorem Inv.alloc_region (h : Inv p offC capC s free full) (hc : Configured p)
    (hr : Region p offC capC (free ++ full) lo size off cap) {e : Nat} {h' : MemoryBlockHead}
    (hout : e ∉ s.live) (hlt : (within s.live lo size).length < cap) (hin : lo ≤ e ∧ e < lo + size)
    (hmax : h'.maxElementNum = (s.pool.mem.heads lo).maxElementNum)
    (hok : BlockOk (s.pool.mem.setHead lo h') (e :: s.live) lo size p.elementSize.toNat off cap)
    (ht : Touches s.pool.mem s.live (s.pool.mem.setHead lo h') (e :: s.live) lo size) :
    Inv p offC capC { s with
      pool := { s.pool with
        mem := s.pool.mem.setHead lo h'
        usedCnt := s.pool.usedCnt + 1 }
      live := e :: s.live } free full := by
  have hhead : (s.pool.mem.setHead lo h').heads lo = h' := Function.update_self ..
  refine { h with
    content := h.content.touch hc h.separate hr ht hok (by rw [hhead, hmax])
      (List.nodup_cons.mpr ⟨hout, h.content.nodup⟩) fun x hx => ?_
    filled := fun b hb => ?_
    nonempty := fun b hb => ?_
    hands := h.hands.touch ht (h.hands.apart_region hc h.separate hr)
    used := ?_ }
  · rcases List.mem_cons.mp hx with rfl | hx
    · exact Or.inr hin
    · exact Or.inl hx
  · have hbL := List.mem_append_right free hb
    by_cases hne : b = lo
    · subst hne
      obtain ⟨rfl, rfl, rfl⟩ := h.separate.region_unique hc hr (Region.listed hbL)
      have hfull := h.filled b hb
      omega
    · rw [h.within_apart hr ht hbL hne]
      exact h.filled b hb
  · by_cases hne : b = lo
    · subst hne
      obtain ⟨rfl, rfl, rfl⟩ := h.separate.region_unique hc hr (Region.listed hb)
      rw [within_cons_of_in hin]
      exact List.cons_ne_nil _ _
    · rw [h.within_apart hr ht hb hne]
      exact h.nonempty b hb
  · rw [h.used]
    exact ofNat_succ_length s.live e

/-- The blocks stay the same and only change list. -/
theorem Inv.relist (h : Inv p offC capC s free full) {l : Links.Heap} {free' full' : List Nat}
    (hr : Rings p l free' full') (hperm : (free' ++ full').Perm (free ++ full))
    (hf : ∀ b ∈ full', (within s.live b p.blockSize.toNat).length = blockCap p) :
    Inv p offC capC { s with pool := { s.pool with links := l } } free' full' := by
  have hsame : ∀ b, b ∈ free' ++ full' ↔ b ∈ free ++ full := fun b => hperm.mem_iff
  refine { h with
    rings := hr
    ends := fun e => ?_
    separate := { h.separate with listed := fun b hb => h.separate.listed ((hsame b).mp hb) }
    content := h.content.relist (fun b hb => (hsame b).mp hb) fun b hb hout =>
      absurd ((hsame b).mpr hb) hout
    filled := hf
    nonempty := fun b hb => h.nonempty b ((hsame b).mp hb)
    hands := h.hands.relist hsame }
  rw [show e ∈ _ ↔ _ from h.ends e]
  exact exists_congr fun b => and_congr_left' (hsame b).symm

/-- The first locked section of `Alloc`: it hands out an element, or it finds
nothing and at most moves a full block to the full list. -/
theorem Inv.allocCached (h : Inv p offC capC s free full) (hc : Configured p) :
    (s.pool.allocCached.1 ≠ 0 ∧ Inv p offC capC { s with
      pool := s.pool.allocCached.2
      live := s.pool.allocCached.1 :: s.live } free full) ∨
    (s.pool.allocCached.1 = 0 ∧ ∃ free' full',
      Inv p offC capC { s with pool := s.pool.allocCached.2 } free' full') := by
  have hcache := Region.cache p offC capC (free ++ full)
  have hhead : s.pool.cacheBlockHead = p.cacheBlockHead := congrArg Config.cacheBlockHead h.config
  have hfull : s.pool.fullList = p.fullList := congrArg Config.fullList h.config
  have hfree := h.rings.getFreeMemoryBlock (congrArg Config.freeList h.config)
  have hok := h.content.ok _ _ _ _ hcache
  rcases hok.alloc with ⟨-, hnone⟩ |
    ⟨e, h', halloc, hne, hout, hlt, hlo, hhi, hmax, hok, ht⟩
  · have hfrom : s.pool.allocFrom s.pool.cacheBlockHead = (0, s.pool) := by
      rw [← hhead] at hnone
      simp only [allocFrom, hnone, setHead_self]
    cases free with
    | nil =>
        have hzero : s.pool.getFreeMemoryBlock = 0 := hfree
        have hr : s.pool.allocCached = (0, s.pool) := by
          simp [MemoryPool.allocCached, hfrom, hzero]
        rw [hr]
        exact Or.inr ⟨rfl, [], full, h⟩
    | cons b free =>
        have hb : b ∈ b :: free ++ full := by simp
        have hbne : b ≠ 0 := h.head_ne hb
        have hget : s.pool.getFreeMemoryBlock = b := hfree
        have hreg : Region p offC capC (b :: free ++ full) b _ _ _ := Region.listed hb
        rcases (h.content.ok _ _ _ _ hreg).alloc with ⟨hlen, hnone'⟩ |
          ⟨e, h', halloc, hne, hout, hlt, hlo, hhi, hmax, hok, ht⟩
        · have hfrom' := allocFrom_none hnone'
          have hr : s.pool.allocCached = (0, { s.pool with
              links := listAddTail (listDelete s.pool.links b) b s.pool.fullList }) := by
            simp [MemoryPool.allocCached, hfrom, hget, hbne, hfrom']
          obtain ⟨free', full', hrings, hperm, hsub, hoff⟩ := h.rings.delete hb
          have hrings' := hrings.add_tail_full hoff
          rw [hr, hfull]
          refine Or.inr ⟨rfl, free', full' ++ [b], h.relist hrings' ?_ fun x hx => ?_⟩
          · rw [← List.append_assoc]
            exact (List.perm_append_singleton b _).trans hperm.symm
          · rcases List.mem_append.mp hx with hx | hx
            · exact h.filled x (hsub.subset hx)
            · rw [List.mem_singleton.mp hx]
              exact hlen
        · have hfrom' := allocFrom_eq halloc
          have hr : s.pool.allocCached = (e, { s.pool with
              mem := s.pool.mem.setHead b h'
              usedCnt := s.pool.usedCnt + 1 }) := by
            simp [MemoryPool.allocCached, hfrom, hget, hbne, hfrom', hne]
          rw [hr]
          exact Or.inl ⟨hne, h.alloc_region hc hreg hout hlt ⟨hlo, hhi⟩ hmax hok ht⟩
  · have hfrom := allocFrom_eq halloc
    have hr : s.pool.allocCached = (e, { s.pool with
        mem := s.pool.mem.setHead p.cacheBlockHead h'
        usedCnt := s.pool.usedCnt + 1 }) := by
      simp only [MemoryPool.allocCached, hhead, hfrom, ne_eq, hne, not_false_eq_true, if_true]
    rw [hr]
    exact Or.inl ⟨hne, h.alloc_region hc hcache hout hlt ⟨hlo, hhi⟩ hmax hok ht⟩

/-! ## A new block -/

theorem freshBlock_clear {b : Nat} (hconfig : s.pool.config = p.config) (hb : s.FreshBlock b) :
    Shared.Placed p b p.blockSize.toNat ∧
      Apart b p.blockSize.toNat p.cacheBlockHead (cacheLen p) ∧
      ∀ c ∈ s.held, Apart b p.blockSize.toNat c p.blockSize.toNat := by
  have hsize : s.pool.blockSize = p.blockSize := congrArg Config.blockSize hconfig
  have hhead : s.pool.cacheBlockHead = p.cacheBlockHead := congrArg Config.cacheBlockHead hconfig
  have hend : s.pool.cacheBlockEnd = p.cacheBlockEnd := congrArg Config.cacheBlockEnd hconfig
  have hfree : s.pool.freeList = p.freeList := congrArg Config.freeList hconfig
  have hfull : s.pool.fullList = p.fullList := congrArg Config.fullList hconfig
  simpa only [Shared.FreshBlock, Shared.Placed, hsize, hhead, hend, hfree, hfull, cacheLen] using hb

theorem Separate.clear_region {held listed : List Nat} (hs : Separate p held listed) {b : Nat}
    (hc : Configured p) (hcache : Apart b p.blockSize.toNat p.cacheBlockHead (cacheLen p))
    (hheld : ∀ c ∈ held, Apart b p.blockSize.toNat c p.blockSize.toNat)
    (hr : Region p offC capC listed lo size off cap) :
    lo ≠ b ∧ Apart lo size b p.blockSize.toNat := by
  have hbs := hc.blockHead.1
  have hpos := hc.cachePos
  rcases hr with ⟨rfl, rfl, -, -⟩ | ⟨hlo, rfl, -, -⟩
  · refine ⟨?_, hcache.symm⟩
    unfold Apart at hcache
    omega
  · have hap := hheld lo (hs.listed hlo)
    exact ⟨(hap.ne (by omega)).symm, hap.symm⟩

theorem Content.within_clear {m : Memory} {live listed : List Nat}
    (h : Content p offC capC m live listed) {b : Nat}
    (hap : ∀ lo size off cap, Region p offC capC listed lo size off cap →
      lo ≠ b ∧ Apart lo size b p.blockSize.toNat) : within live b p.blockSize.toNat = [] := by
  refine List.eq_nil_iff_forall_not_mem.mpr fun e he => ?_
  obtain ⟨hlive, hin⟩ := mem_within.mp he
  obtain ⟨lo, size, off, cap, hr, hin'⟩ := h.inside e hlive
  have hap' := (hap lo size off cap hr).2
  unfold Apart at hap'
  omega

theorem Inv.allocFresh (h : Inv p offC capC s free full) (hc : Configured p) {b : Nat}
    (hnil : within s.live b p.blockSize.toNat = []) :
    ∃ e h', s.pool.allocFresh b = (e, { s.pool with mem := s.pool.mem.setHead b h' }) ∧
      e ≠ 0 ∧ b ≤ e ∧ e < b + p.blockSize.toNat ∧ h'.maxElementNum.toNat = blockCap p ∧
      BlockOk (s.pool.mem.setHead b h') (e :: s.live) b p.blockSize.toNat p.elementSize.toNat
        (blockOff p) (blockCap p) := by
  have hsize : s.pool.blockSize = p.blockSize := congrArg Config.blockSize h.config
  have helem : s.pool.elementSize = p.elementSize := congrArg Config.elementSize h.config
  have hbs := hc.blockHead.1
  have hes := hc.aligned.2
  obtain ⟨hlayout, hoff⟩ := memoryBlockInit_layout
    (show memoryBlockHeadSize ≤ p.blockSize.toNat by simp only [memoryBlockHeadSize]; omega)
    (show 0 < p.elementSize.toNat by omega)
  let m := s.pool.mem.setHead b (memoryBlockInit s.pool.blockSize s.pool.elementSize)
  have hhead : m.heads b = memoryBlockInit p.blockSize p.elementSize := by
    rw [← hsize, ← helem]
    exact Function.update_self ..
  have hok :
      BlockOk m s.live b p.blockSize.toNat p.elementSize.toNat (blockOff p) (blockCap p) := by
    refine ⟨by rw [hhead]; exact le_rfl, [], 0, ?_⟩
    rw [hnil, hhead]
    exact hlayout.fresh _ b hoff rfl rfl
  rcases hok.alloc with ⟨hlen, -⟩ | ⟨e, h', halloc, hne, -, -, hlo, hhi, hmax, hok', -⟩
  · rw [hnil] at hlen
    exact absurd hlen hc.blockCap.ne
  · have hidem : m.setHead b h' = s.pool.mem.setHead b h' := by
      simp only [m, Memory.setHead, Function.update_idem]
    rw [hidem] at hok'
    refine ⟨e, h', ?_, hne, hlo, hhi, by rw [hmax, hhead]; rfl, hok'⟩
    have hfrom := allocFrom_eq (q := { s.pool with mem := m }) halloc
    exact hfrom.trans (by rw [hidem])

variable [DecidableEq Tid]

/-- `Alloc` outside the lock. -/
theorem Inv.takeBlock (h : Inv p offC capC s free full) (hc : Configured p) {t : Tid} {b : Nat}
    (hpc : s.threads t = .needBlock) (hb : s.FreshBlock b) :
    Inv p offC capC (({ s with
      pool := (s.pool.allocFresh b).2
      held := b :: s.held
      taken := Function.update s.taken b (s.taken b + 1) }).goto t
        (.addBlock b (s.pool.allocFresh b).1)) free full := by
  obtain ⟨hplaced, hcache, hheld⟩ := freshBlock_clear h.config hb
  have hbs := hc.blockHead.1
  have hclear := fun lo size off cap (hr : Region p offC capC (free ++ full) lo size off cap) =>
    h.separate.clear_region hc hcache hheld hr
  have hnil := h.content.within_clear hclear
  obtain ⟨e, h', halloc, hne, hlo, hhi, hmax, hok⟩ := h.allocFresh hc hnil
  rw [halloc]
  have hnew : b ∉ s.held := fun hmem => (hheld b hmem).ne (by omega) rfl
  have hunlisted : b ∉ free ++ full := fun hmem => hnew (h.separate.listed hmem)
  have ht : Touches s.pool.mem s.live (s.pool.mem.setHead b h') s.live b p.blockSize.toNat :=
    ⟨fun c hcb => Function.update_of_ne hcb .., fun _ _ => rfl, fun _ _ _ => rfl⟩
  have htouch := h.hands.touch ht fun u c hu => by
    have hap := hheld c (h.hands.unlisted u c hu).1
    exact ⟨(hap.ne (by omega)).symm, hap.symm⟩
  refine { h with
    separate := ⟨List.forall_mem_cons.mpr ⟨⟨hplaced, hcache⟩, h.separate.placed⟩,
      List.pairwise_cons.mpr ⟨hheld, h.separate.apart⟩,
      fun c hcl => List.mem_cons_of_mem _ (h.separate.listed hcl)⟩
    content := h.content.beside ht hclear
    hands := htouch.gain (by rw [hpc]; rfl) rfl (fun u hu => hnew (h.hands.unlisted u b hu).1)
      (fun _ => List.mem_cons) hunlisted (fun _ => id) (fun _ => Or.inr) fun ptr heq => ?_
    counts := fun c => ?_ }
  · cases heq
    have hself : (s.pool.mem.setHead b h').heads b = h' := Function.update_self ..
    rw [← hself] at hmax
    exact ⟨hne, hlo, hhi, hmax, hok⟩
  · show Function.update s.taken b (s.taken b + 1) c = s.given c + (b :: s.held).count c
    have hcount := h.counts c
    by_cases hcb : c = b
    · subst hcb
      rw [Function.update_self, List.count_cons_self]
      omega
    · rw [Function.update_of_ne hcb, List.count_cons_of_ne (Ne.symm hcb)]
      exact hcount

/-- The second locked section of `Alloc`. -/
theorem Inv.addBlock (h : Inv p offC capC s free full) (hc : Configured p) {t : Tid} {b ptr : Nat}
    (hpc : s.threads t = .addBlock b ptr) :
    ptr ≠ 0 ∧ Inv p offC capC (({ s with
      pool := s.pool.allocAdd b
      live := ptr :: s.live }).goto t .idle) (b :: free) full := by
  have hblock : (s.threads t).block = some b := by rw [hpc]; rfl
  obtain ⟨hheld, hout⟩ := h.hands.unlisted t b hblock
  obtain ⟨hne, hlo, hhi, hmax, hok⟩ := h.hands.adding t b ptr hpc
  have hsize : s.pool.blockSize = p.blockSize := congrArg Config.blockSize h.config
  have hlist : s.pool.freeList = p.freeList := congrArg Config.freeList h.config
  obtain ⟨hplaced, -⟩ := h.separate.placed b hheld
  have hbs := hc.blockHead.1
  have hnil := h.content.within_unlisted hc h.separate hheld hout
  have hptr : ptr ∉ s.live := fun hmem =>
    List.not_mem_nil (hnil ▸ mem_within.mpr ⟨hmem, hlo, hhi⟩)
  -- Only the new block sees the new live element.
  have ht : Touches s.pool.mem s.live s.pool.mem (ptr :: s.live) b p.blockSize.toNat := by
    refine ⟨fun _ _ => rfl, fun _ _ => rfl, fun c n hap => within_cons_of_out ?_⟩
    unfold Apart at hap
    omega
  have hclear : ∀ lo size off cap, Region p offC capC (free ++ full) lo size off cap →
      b ≠ lo ∧ Apart b p.blockSize.toNat lo size := fun lo size off cap hr =>
    h.hands.apart_region hc h.separate hr t b hblock
  have hlose : Hands p s.pool.mem s.live s.held (b :: free ++ full)
      (Function.update s.threads t .idle) :=
    h.hands.lose hblock rfl (fun _ _ => Iff.rfl) (fun c hcb => by simp [hcb])
      fun _ => List.mem_cons_self
  have hother : ∀ u c, (Function.update s.threads t .idle u).block = some c →
      c ≠ b ∧ Apart c p.blockSize.toNat b p.blockSize.toNat := by
    intro u c hu
    obtain ⟨hin, hnot⟩ := hlose.unlisted u c hu
    have hcb : c ≠ b := fun heq => hnot (heq ▸ List.mem_cons_self)
    exact ⟨hcb, h.separate.blocks hin hheld hcb⟩
  have hoff : OffLists p free full b := by
    refine ⟨fun hmem => ?_, fun hmem => ?_⟩
    · rcases List.mem_cons.mp hmem with rfl | hmem
      · exact hplaced.2.2.2.1 ⟨le_rfl, by omega⟩
      · exact hout (List.mem_append_left _ hmem)
    · rcases List.mem_cons.mp hmem with rfl | hmem
      · exact hplaced.2.2.2.2 ⟨le_rfl, by omega⟩
      · exact hout (List.mem_append_right _ hmem)
  have hregion : ∀ lo size off cap, Region p offC capC (b :: free ++ full) lo size off cap →
      Region p offC capC (free ++ full) lo size off cap ∨
        lo = b ∧ size = p.blockSize.toNat ∧ off = blockOff p ∧ cap = blockCap p := by
    intro lo size off cap hr
    rcases hr with hr | ⟨hmem, hrest⟩
    · exact Or.inl (Or.inl hr)
    · rcases List.mem_cons.mp hmem with rfl | hmem
      · exact Or.inr ⟨rfl, hrest⟩
      · exact Or.inl (Or.inr ⟨hmem, hrest⟩)
  refine ⟨hne, { h with
    rings := ?_
    ends := fun e => ?_
    separate := { h.separate with listed := List.cons_subset.mpr ⟨hheld, h.separate.listed⟩ }
    content := ⟨fun lo size off cap hr => ?_, List.forall_mem_cons.mpr ⟨hmax, h.content.count⟩,
      List.nodup_cons.mpr ⟨hptr, h.content.nodup⟩, fun e he => ?_⟩
    filled := fun c hcf => ?_
    nonempty := fun c hcl => ?_
    hands := hlose.touch ht hother
    used := ?_ }⟩
  · show Rings p (listAddHead s.pool.links b s.pool.freeList) _ _
    rw [hlist]
    exact h.rings.add_head_free hoff
  · show e ∈ insert (b + s.pool.blockSize.toNat) s.pool.blocks ↔ _
    rw [Finset.mem_insert, h.ends, hsize]
    simp
  · rcases hregion lo size off cap hr with hr | ⟨rfl, rfl, rfl, rfl⟩
    · obtain ⟨hne, hap⟩ := hclear lo size off cap hr
      exact (h.content.ok lo size off cap hr).other ht hap.symm hne.symm
    · exact hok
  · rcases List.mem_cons.mp he with rfl | he
    · exact ⟨b, _, _, _, Region.listed List.mem_cons_self, hlo, hhi⟩
    · obtain ⟨lo, size, off, cap, hr, hin⟩ := h.content.inside e he
      exact ⟨lo, size, off, cap, hr.imp_right fun hl => ⟨List.mem_cons_of_mem _ hl.1, hl.2⟩, hin⟩
  · have hap := (hclear c _ _ _ (Region.listed (List.mem_append_right free hcf))).2
    show (within (ptr :: s.live) c p.blockSize.toNat).length = _
    rw [ht.live c _ hap.symm]
    exact h.filled c hcf
  · show within (ptr :: s.live) c p.blockSize.toNat ≠ []
    rcases List.mem_cons.mp hcl with rfl | hcl
    · rw [within_cons_of_in ⟨hlo, hhi⟩]
      exact List.cons_ne_nil _ _
    · rw [ht.live c _ (hclear c _ _ _ (Region.listed hcl)).2.symm]
      exact h.nonempty c hcl
  · show s.pool.usedCnt + 1 = _
    rw [h.used]
    exact ofNat_succ_length s.live ptr

/-! ## `Free` -/

theorem ofNat_length_erase {live : List Nat} {e : Nat} (he : e ∈ live) :
    BitVec.ofNat 64 live.length - 1 = BitVec.ofNat 64 (live.erase e).length := by
  have hpos := List.length_pos_of_mem he
  have hlen : live.length = (live.erase e).length + 1 := by
    rw [List.length_erase_of_mem he]
    omega
  rw [hlen, BitVec.ofNat_add]
  exact BitVec.add_sub_cancel ..

omit [DecidableEq Tid] in
theorem Inv.free_region (h : Inv p offC capC s free full) (hc : Configured p)
    (hr : Region p offC capC (free ++ full) lo size off cap) {e : Nat}
    (he : e ∈ within s.live lo size) :
    ∃ m', s.pool.freeTo lo e =
        (if (within s.live lo size).length = 1 then 1
          else if (within s.live lo size).length = (s.pool.mem.heads lo).maxElementNum.toNat then 0
          else -1, { s.pool with mem := m' }) ∧
      Content p offC capC m' (s.live.erase e) (free ++ full) ∧
      Hands p m' (s.live.erase e) s.held (free ++ full) s.threads ∧
      ∀ b ∈ free ++ full, b ≠ lo →
        within (s.live.erase e) b p.blockSize.toNat = within s.live b p.blockSize.toNat := by
  obtain ⟨h', words', hfree, hmax, hok, ht⟩ := (h.content.ok _ _ _ _ hr).free he
  have hhead : (s.pool.mem.setHead lo h').heads lo = h' := Function.update_self ..
  refine ⟨_, ?_, h.content.touch hc h.separate hr ht hok (by rw [hhead, hmax])
    (h.content.nodup.erase e) (fun x hx => Or.inl (List.mem_of_mem_erase hx)),
    h.hands.touch ht (h.hands.apart_region hc h.separate hr),
    fun b hb hne => h.within_apart hr ht hb hne⟩
  simp only [freeTo, hfree]

omit [DecidableEq Tid] in
/-- An element goes back to a block that stays on a list. -/
theorem Inv.free_keep (h : Inv p offC capC s free full) {b e : Nat} {m' : Memory}
    {l : Links.Heap} {free' full' : List Nat} (hb : b ∈ free ++ full)
    (he : e ∈ within s.live b p.blockSize.toNat)
    (hlen : (within s.live b p.blockSize.toNat).length ≠ 1)
    (hcontent : Content p offC capC m' (s.live.erase e) (free ++ full))
    (hhands : Hands p m' (s.live.erase e) s.held (free ++ full) s.threads)
    (hsame : ∀ c ∈ free ++ full, c ≠ b →
      within (s.live.erase e) c p.blockSize.toNat = within s.live c p.blockSize.toNat)
    (hr : Rings p l free' full') (hperm : (free' ++ full').Perm (free ++ full))
    (hfull : ∀ c ∈ full', c ≠ b ∧ c ∈ full) :
    Inv p offC capC { s with
      pool := { s.pool with mem := m', links := l, usedCnt := s.pool.usedCnt - 1 }
      live := s.live.erase e } free' full' := by
  have hmem : ∀ c, c ∈ free' ++ full' ↔ c ∈ free ++ full := fun c => hperm.mem_iff
  refine { h with
    rings := hr
    ends := fun x => ?_
    separate := { h.separate with listed := fun c hcl => h.separate.listed ((hmem c).mp hcl) }
    content := hcontent.relist (fun c hcl => (hmem c).mp hcl) fun c hcl hout =>
      absurd ((hmem c).mpr hcl) hout
    filled := fun c hcf => ?_
    nonempty := fun c hcl => ?_
    hands := hhands.relist hmem
    used := ?_ }
  · rw [show x ∈ _ ↔ _ from h.ends x]
    exact exists_congr fun c => and_congr_left' (hmem c).symm
  · obtain ⟨hcb, hcf⟩ := hfull c hcf
    show (within (s.live.erase e) c _).length = _
    rw [hsame c (List.mem_append_right _ hcf) hcb]
    exact h.filled c hcf
  · show within (s.live.erase e) c _ ≠ []
    have hcl := (hmem c).mp hcl
    by_cases hcb : c = b
    · subst hcb
      intro hnil
      have hlen' := List.length_erase_of_mem he
      rw [← within_erase, hnil, List.length_nil] at hlen'
      have hpos := List.length_pos_of_mem he
      omega
    · rw [hsame c hcl hcb]
      exact h.nonempty c hcl
  · show s.pool.usedCnt - 1 = _
    rw [h.used]
    exact ofNat_length_erase (mem_within.mp he).1

/-- The last live element of a block goes back to it, and the block leaves the pool. -/
theorem Inv.free_last (h : Inv p offC capC s free full) {t : Tid} {b e : Nat} {m' : Memory}
    {l : Links.Heap} {free' full' : List Nat} (hpc : s.threads t = .idle) (hb : b ∈ free ++ full)
    (he : e ∈ within s.live b p.blockSize.toNat)
    (hlen : (within s.live b p.blockSize.toNat).length = 1)
    (hcontent : Content p offC capC m' (s.live.erase e) (free ++ full))
    (hhands : Hands p m' (s.live.erase e) s.held (free ++ full) s.threads)
    (hsame : ∀ c ∈ free ++ full, c ≠ b →
      within (s.live.erase e) c p.blockSize.toNat = within s.live c p.blockSize.toNat)
    (hr : Rings p l free' full') (hperm : (free ++ full).Perm (b :: (free' ++ full')))
    (hsub : full'.Sublist full) :
    Inv p offC capC (({ s with
      pool := { s.pool with
        mem := m'
        links := l
        usedCnt := s.pool.usedCnt - 1
        blocks := s.pool.blocks.erase (b + s.pool.blockSize.toNat) }
      live := s.live.erase e }).goto t (.giveBack b)) free' full' := by
  have hsize : s.pool.blockSize = p.blockSize := congrArg Config.blockSize h.config
  have hmem : ∀ c, c ∈ free ++ full ↔ c = b ∨ c ∈ free' ++ full' := fun c => by
    rw [hperm.mem_iff, List.mem_cons]
  have hnot : b ∉ free' ++ full' := (List.nodup_cons.mp (hperm.nodup_iff.mp h.rings.nodup)).1
  have hin : ∀ c ∈ free' ++ full', c ∈ free ++ full ∧ c ≠ b := fun c hcl =>
    ⟨(hmem c).mpr (Or.inr hcl), fun heq => hnot (heq ▸ hcl)⟩
  have hnil : within (s.live.erase e) b p.blockSize.toNat = [] := by
    rw [within_erase, ← List.length_eq_zero_iff, List.length_erase_of_mem he, hlen]
  refine { h with
    rings := hr
    ends := fun x => ?_
    separate := { h.separate with listed := fun c hcl => h.separate.listed (hin c hcl).1 }
    content := hcontent.relist (fun c hcl => (hin c hcl).1) fun c hcl hout => ?_
    filled := fun c hcf => ?_
    nonempty := fun c hcl => ?_
    hands := hhands.gain (by rw [hpc]; rfl) rfl (fun u hu => (hhands.unlisted u b hu).2 hb)
      (fun _ => (or_iff_right_of_imp fun heq => heq.symm ▸ h.separate.listed hb).symm) hnot
      (fun c hcl => (hin c hcl).1) (fun c hcl => (hmem c).mp hcl) fun ptr heq => ?_
    used := ?_ }
  · show x ∈ s.pool.blocks.erase (b + s.pool.blockSize.toNat) ↔ _
    rw [Finset.mem_erase, h.ends, hsize]
    constructor
    · rintro ⟨hne, c, hcl, rfl⟩
      rcases (hmem c).mp hcl with rfl | hcl
      · exact absurd rfl hne
      · exact ⟨c, hcl, rfl⟩
    · rintro ⟨c, hcl, rfl⟩
      obtain ⟨hcl', hcb⟩ := hin c hcl
      exact ⟨fun heq => hcb (Nat.add_right_cancel heq), c, hcl', rfl⟩
  · rcases (hmem c).mp hcl with rfl | hcl
    · exact hnil
    · exact absurd hcl hout
  · show (within (s.live.erase e) c _).length = _
    obtain ⟨hcl, hcb⟩ := hin c (List.mem_append_right _ hcf)
    rw [hsame c hcl hcb]
    exact h.filled c (hsub.subset hcf)
  · show within (s.live.erase e) c _ ≠ []
    obtain ⟨hcl', hcb⟩ := hin c hcl
    rw [hsame c hcl' hcb]
    exact h.nonempty c hcl'
  · cases heq
  · show s.pool.usedCnt - 1 = _
    rw [h.used]
    exact ofNat_length_erase (mem_within.mp he).1

omit [DecidableEq Tid] in
theorem Inv.free_cache (h : Inv p offC capC s free full) (hc : Configured p) {e : Nat}
    (he : e ∈ within s.live p.cacheBlockHead (cacheLen p)) :
    (s.pool.freeLocked e).2 = none ∧ Inv p offC capC { s with
      pool := (s.pool.freeLocked e).1
      live := s.live.erase e } free full := by
  obtain ⟨hlive, hlo, hhi⟩ := mem_within.mp he
  have hhead : s.pool.cacheBlockHead = p.cacheBlockHead := congrArg Config.cacheBlockHead h.config
  have hend : s.pool.cacheBlockEnd = p.cacheBlockEnd := congrArg Config.cacheBlockEnd h.config
  obtain ⟨m', hfree, hcontent, hhands, hsame⟩ := h.free_region hc (Region.cache ..) he
  have hrange : e < s.pool.cacheBlockEnd ∧ s.pool.cacheBlockHead ≤ e := by
    unfold cacheLen at hhi
    omega
  have hr : s.pool.freeLocked e = ({ s.pool with
      mem := m'
      usedCnt := s.pool.usedCnt - 1 }, none) := by
    rw [← hhead] at hfree
    simp only [freeLocked, if_pos hrange, hfree]
  have hcache : ∀ b ∈ free ++ full, b ≠ p.cacheBlockHead := fun b hb =>
    h.separate.ne_cache hc (h.separate.listed hb)
  rw [hr]
  refine ⟨rfl, { h with
    content := hcontent
    filled := fun b hb => ?_
    nonempty := fun b hb => ?_
    hands := hhands
    used := ?_ }⟩
  · have hbL := List.mem_append_right free hb
    show (within (s.live.erase e) b _).length = _
    rw [hsame b hbL (hcache b hbL)]
    exact h.filled b hb
  · show within (s.live.erase e) b _ ≠ []
    rw [hsame b hb (hcache b hb)]
    exact h.nonempty b hb
  · show s.pool.usedCnt - 1 = _
    rw [h.used]
    exact ofNat_length_erase hlive

/-- The locked section of `Free`, once `MemoryFree` has answered `ret`. -/
theorem freeLocked_eq {q : MemoryPool} {b e : Nat} {ret : Int} {m' : Memory}
    (hrange : ¬ (e < q.cacheBlockEnd ∧ q.cacheBlockHead ≤ e)) (hfind : q.findMemoryBlock e = b)
    (hb : b ≠ 0) (hfree : q.freeTo b e = (ret, { q with mem := m' })) :
    q.freeLocked e =
      if ret < 0 then ({ q with mem := m', usedCnt := q.usedCnt - 1 }, none)
      else if ret = 0 then
        ({ q with
          mem := m'
          links := listAddTail (listDelete q.links b) b q.freeList
          usedCnt := q.usedCnt - 1 }, none)
      else
        ({ q with
          mem := m'
          links := listDelete q.links b
          usedCnt := q.usedCnt - 1
          blocks := q.blocks.erase (b + q.blockSize.toNat) }, some b) := by
  have hcount : { q with usedCnt := q.usedCnt - 1 }.freeTo b e =
      ((q.freeTo b e).1, { (q.freeTo b e).2 with usedCnt := q.usedCnt - 1 }) := rfl
  rw [hfree] at hcount
  simp only [freeLocked, if_neg hrange, hfind, if_neg hb, hcount, removeMemoryBlock]

/-- The locked section of `Free` for an element of a listed block. -/
theorem Inv.free_block (h : Inv p offC capC s free full) (hc : Configured p) {t : Tid} {b e : Nat}
    (hpc : s.threads t = .idle) (hb : b ∈ free ++ full)
    (he : e ∈ within s.live b p.blockSize.toNat) :
    (∃ free' full', (s.pool.freeLocked e).2 = none ∧ Inv p offC capC { s with
      pool := (s.pool.freeLocked e).1
      live := s.live.erase e } free' full') ∨
    ∃ free' full', (s.pool.freeLocked e).2 = some b ∧ Inv p offC capC (({ s with
      pool := (s.pool.freeLocked e).1
      live := s.live.erase e }).goto t (.giveBack b)) free' full' := by
  obtain ⟨hlive, hlo, hhi⟩ := mem_within.mp he
  have hsize : s.pool.blockSize = p.blockSize := congrArg Config.blockSize h.config
  have hlist : s.pool.freeList = p.freeList := congrArg Config.freeList h.config
  have hhead : s.pool.cacheBlockHead = p.cacheBlockHead := congrArg Config.cacheBlockHead h.config
  have hend : s.pool.cacheBlockEnd = p.cacheBlockEnd := congrArg Config.cacheBlockEnd h.config
  obtain ⟨m', hfree, hcontent, hhands, hsame⟩ := h.free_region hc (Region.listed hb) he
  rw [h.content.count b hb] at hfree
  have hrange : ¬ (e < s.pool.cacheBlockEnd ∧ s.pool.cacheBlockHead ≤ e) := by
    have hap := (h.separate.placed b (h.separate.listed hb)).2
    unfold Apart cacheLen at hap
    omega
  have hfind : s.pool.findMemoryBlock e = b :=
    findMemoryBlock_eq (congrArg BitVec.toNat hsize) h.ends (fun x hx y hy hxy =>
      h.separate.blocks (h.separate.listed hx) (h.separate.listed hy) hxy) hb ⟨hlo, hhi⟩
  have hbne := h.head_ne hb
  have hr := freeLocked_eq hrange hfind hbne hfree
  obtain ⟨free', full', hrings, hperm, hsub, hoff⟩ := h.rings.delete hb
  have hb' : b ∉ full' := fun hmem => hoff.2 (List.mem_cons_of_mem _ hmem)
  by_cases hone : (within s.live b p.blockSize.toNat).length = 1
  · -- The block is empty now and is handed back.
    rw [if_pos hone, if_neg (by decide), if_neg (by decide)] at hr
    rw [hr]
    exact Or.inr ⟨free', full', rfl,
      h.free_last hpc hb he hone hcontent hhands hsame hrings hperm hsub⟩
  · rw [if_neg hone] at hr
    by_cases hcap : (within s.live b p.blockSize.toNat).length = blockCap p
    · -- The block was full and has a free slot now.
      have hrings' := hrings.add_tail_free hoff
      rw [← hlist] at hrings'
      rw [if_pos hcap, if_neg (by decide), if_pos rfl] at hr
      rw [hr]
      refine Or.inl ⟨free' ++ [b], full', rfl, h.free_keep hb he hone hcontent hhands hsame
        hrings' ?_ fun c hc => ⟨fun heq => hb' (heq ▸ hc), hsub.subset hc⟩⟩
      exact ((List.perm_append_singleton b free').append_right full').trans hperm.symm
    · rw [if_neg hcap, if_pos (by decide)] at hr
      rw [hr]
      refine Or.inl ⟨free, full, rfl, h.free_keep hb he hone hcontent hhands hsame h.rings
        (List.Perm.refl _) fun c hc => ⟨?_, hc⟩⟩
      rintro rfl
      exact hcap (h.filled c hc)

/-- `Free` outside the lock. -/
theorem Inv.giveBack (h : Inv p offC capC s free full) (hc : Configured p) {t : Tid} {b : Nat}
    (hpc : s.threads t = .giveBack b) :
    Inv p offC capC (({ s with
      held := s.held.erase b
      given := Function.update s.given b (s.given b + 1) }).goto t .idle) free full := by
  have hblock : (s.threads t).block = some b := by rw [hpc]; rfl
  obtain ⟨hheld, hout⟩ := h.hands.unlisted t b hblock
  have hbs := hc.blockHead.1
  have hnd : s.held.Nodup := h.separate.apart.imp fun hap => hap.ne (by omega)
  refine { h with
    separate := ⟨fun c hcb => h.separate.placed c (List.mem_of_mem_erase hcb),
      h.separate.apart.sublist List.erase_sublist, fun c hcl => ?_⟩
    hands := h.hands.lose hblock rfl (fun c hcb => List.mem_erase_of_ne hcb) (fun _ _ => Iff.rfl)
      fun hmem => absurd hmem hnd.not_mem_erase
    counts := fun c => ?_ }
  · refine (List.mem_erase_of_ne ?_).mpr (h.separate.listed hcl)
    rintro rfl
    exact hout hcl
  · show s.taken c = Function.update s.given b (s.given b + 1) c + (s.held.erase b).count c
    have hcount := h.counts c
    by_cases hcb : c = b
    · subst hcb
      have hone := List.count_pos_iff.mpr hheld
      rw [Function.update_self, List.count_erase_self]
      omega
    · rw [Function.update_of_ne hcb, List.count_erase_of_ne hcb]
      exact hcount

omit [DecidableEq Tid] in
theorem Inv.write (h : Inv p offC capC s free full) (hc : Configured p) {x : Nat} (value : Nat)
    (hx : s.OverlapsLive x) :
    Inv p offC capC { s with pool := { s.pool with
      mem := { s.pool.mem with words := Function.update s.pool.mem.words x value } } }
      free full := by
  have helem : s.pool.elementSize = p.elementSize := congrArg Config.elementSize h.config
  obtain ⟨e, he, hlt⟩ := hx
  rw [helem] at hlt
  have hes := hc.aligned.2
  obtain ⟨lo, size, off, cap, hr, hin⟩ := h.content.inside e he
  have hinside := (h.content.ok lo size off cap hr).inside (mem_within.mpr ⟨he, hin⟩)
  refine { h with
    content := { h.content with ok := fun lo' size' off' cap' hr' => ?_ }
    hands := { h.hands with adding := fun t b ptr hpc => ?_ } }
  · refine (h.content.ok lo' size' off' cap' hr').write hes he hlt (fun hout => ?_) value
    have hne : lo' ≠ lo := by
      rintro rfl
      obtain ⟨rfl, -, -⟩ := h.separate.region_unique hc hr hr'
      exact hout hin
    have hap := h.separate.regions hr hr' hne.symm
    exact hap.mono (by omega) hinside.2.2 le_rfl le_rfl
  · obtain ⟨hptr, hlo, hhi, hcount, hok⟩ := h.hands.adding t b ptr hpc
    refine ⟨hptr, hlo, hhi, hcount,
      hok.write hes (List.mem_cons_of_mem ptr he) hlt (fun _ => ?_) value⟩
    have hap := (h.hands.apart_region hc h.separate hr t b (by rw [hpc]; rfl)).2
    exact hap.symm.mono (by omega) hinside.2.2 le_rfl le_rfl

end XfUtil.MemoryPool
