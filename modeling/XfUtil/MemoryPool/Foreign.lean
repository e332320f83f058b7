import XfUtil.BlockPool.Model
import XfUtil.MemoryPool.Lists
import XfUtil.MemoryPool.Threads

/-!
# Foreign addresses

`Free` of an address that the pool does not own. `FindMemoryBlock` answers the
block whose end is the next above the address, wherever that block begins, and
`UsedCount` is lowered before `MemoryFree` looks at the range. Only the block
ends and the sizes in the heads matter here, so the element size is arbitrary.
-/

namespace XfUtil.MemoryPool

/-! ## What the operations keep -/

theorem memoryAlloc_blockSize (words : Nat → Nat) (block : Nat) (h : MemoryBlockHead) :
    (memoryAlloc words block h).2.blockSize = h.blockSize := by
  unfold memoryAlloc
  split
  · rfl
  · split
    · rfl
    · rfl

theorem memoryFree_blockSize (words : Nat → Nat) (block : Nat) (h : MemoryBlockHead)
    (element : Nat) : (memoryFree words block h element).2.1.blockSize = h.blockSize := by
  unfold memoryFree
  split
  · rfl
  · rfl

/-- The block size and the sizes in the heads are as before. -/
def SameSizes (p q : MemoryPool) : Prop :=
  q.blockSize = p.blockSize ∧ ∀ b, (q.mem.heads b).blockSize = (p.mem.heads b).blockSize

theorem SameSizes.refl (p : MemoryPool) : SameSizes p p := ⟨rfl, fun _ => rfl⟩

theorem SameSizes.trans {p q r : MemoryPool} (h : SameSizes p q) (h' : SameSizes q r) :
    SameSizes p r :=
  ⟨h'.1.trans h.1, fun b => (h'.2 b).trans (h.2 b)⟩

theorem sameSizes_setHead {p q : MemoryPool} {block : Nat} {h : MemoryBlockHead}
    (hbs : q.blockSize = p.blockSize) (hheads : q.mem.heads = (p.mem.setHead block h).heads)
    (hsize : h.blockSize = (p.mem.heads block).blockSize) : SameSizes p q := by
  refine ⟨hbs, fun b => ?_⟩
  rw [hheads]
  by_cases hb : b = block
  · rw [hb, ← hsize]
    exact congrArg MemoryBlockHead.blockSize (Function.update_self ..)
  · exact congrArg MemoryBlockHead.blockSize (Function.update_of_ne hb ..)

theorem allocFrom_sameSizes (p : MemoryPool) (block : Nat) :
    SameSizes p (p.allocFrom block).2 ∧ (p.allocFrom block).2.blocks = p.blocks :=
  ⟨sameSizes_setHead rfl rfl (memoryAlloc_blockSize ..), rfl⟩

theorem freeTo_sameSizes (p : MemoryPool) (block element : Nat) :
    SameSizes p (p.freeTo block element).2 ∧ (p.freeTo block element).2.blocks = p.blocks :=
  ⟨sameSizes_setHead rfl rfl (memoryFree_blockSize ..), rfl⟩

theorem allocCached_sameSizes (p : MemoryPool) :
    SameSizes p p.allocCached.2 ∧ p.allocCached.2.blocks = p.blocks := by
  obtain ⟨hcache, hblocks⟩ := allocFrom_sameSizes p p.cacheBlockHead
  unfold allocCached
  dsimp only
  split
  · exact ⟨hcache, hblocks⟩
  · split
    · obtain ⟨hhead, hblocks'⟩ := allocFrom_sameSizes (p.allocFrom p.cacheBlockHead).2
        (p.allocFrom p.cacheBlockHead).2.getFreeMemoryBlock
      split
      · exact ⟨hcache.trans hhead, hblocks'.trans hblocks⟩
      · exact ⟨hcache.trans hhead, hblocks'.trans hblocks⟩
    · exact ⟨hcache, hblocks⟩

/-- `Free` removes the end of the block that it sends back, and no other. -/
theorem freeLocked_sameSizes (p : MemoryPool) (element : Nat) :
    SameSizes p (p.freeLocked element).1 ∧
      (((p.freeLocked element).2 = none ∧ (p.freeLocked element).1.blocks = p.blocks) ∨
        ((p.freeLocked element).2 = some (p.findMemoryBlock element) ∧
          p.findMemoryBlock element ≠ 0 ∧
          (p.freeLocked element).1.blocks =
            p.blocks.erase (p.findMemoryBlock element + p.blockSize.toNat))) := by
  unfold freeLocked
  split
  · obtain ⟨hsame, hblocks⟩ := freeTo_sameSizes p p.cacheBlockHead element
    exact ⟨hsame, Or.inl ⟨rfl, hblocks⟩⟩
  · dsimp only
    split
    · exact ⟨SameSizes.refl p, Or.inl ⟨rfl, rfl⟩⟩
    · rename_i hhead
      obtain ⟨hsame, hblocks⟩ := freeTo_sameSizes { p with usedCnt := p.usedCnt - 1 }
        (p.findMemoryBlock element) element
      split
      · exact ⟨hsame, Or.inl ⟨rfl, hblocks⟩⟩
      · split
        · exact ⟨hsame, Or.inl ⟨rfl, hblocks⟩⟩
        · exact ⟨hsame, Or.inr ⟨rfl, hhead, rfl⟩⟩

theorem allocFresh_heads (p : MemoryPool) (head : Nat) :
    (p.allocFresh head).2.blockSize = p.blockSize ∧ (p.allocFresh head).2.blocks = p.blocks ∧
      ((p.allocFresh head).2.mem.heads head).blockSize = p.blockSize ∧
      ∀ b, b ≠ head →
        ((p.allocFresh head).2.mem.heads b).blockSize = (p.mem.heads b).blockSize := by
  let q : MemoryPool :=
    { p with mem := p.mem.setHead head (memoryBlockInit p.blockSize p.elementSize) }
  obtain ⟨hsame, hblocks⟩ := allocFrom_sameSizes q head
  refine ⟨hsame.1, hblocks, (hsame.2 head).trans ?_, fun b hb => (hsame.2 b).trans ?_⟩
  · simp [q, Memory.setHead, memoryBlockInit]
  · simp [q, Memory.setHead, hb]

/-! ## Block ends and the blocks behind them -/

variable {Tid : Type*} {bs : BitVec 32}

/-- Each end in the set is the end of a held block whose head has the block
size; blocks in some thread's hand are held and not in the set. -/
structure Tracked (bs : BitVec 32) (s : Shared Tid) : Prop where
  blockSize : s.pool.blockSize = bs
  blocks : ∀ e ∈ s.pool.blocks, ∃ b ∈ s.held, e = b + bs.toNat
  heads : ∀ b ∈ s.held, b ≠ 0 ∧ (s.pool.mem.heads b).blockSize = bs
  nodup : s.held.Nodup
  hands : ∀ t b, (s.threads t).block = some b → b ∈ s.held ∧ b + bs.toNat ∉ s.pool.blocks
  once : ∀ t t' b, (s.threads t).block = some b → (s.threads t').block = some b → t = t'

theorem Tracked.init {n cacheNum : BitVec 32} {freeList fullList buf : Nat} {links : Links.Heap}
    {m : Memory} {p : MemoryPool}
    (hinit : (new bs freeList fullList links m).init n cacheNum buf = (p, true)) :
    Tracked bs (Shared.start Tid p) := by
  unfold MemoryPool.init at hinit
  dsimp only at hinit
  split at hinit
  · cases hinit
  · cases hinit
    exact ⟨rfl, by simp [Shared.start, new], by simp [Shared.start], List.nodup_nil,
      by simp [Shared.start, Pc.block], by simp [Shared.start, Pc.block]⟩

variable {s : Shared Tid}

/-- The block found for an address is held, and its end is the next above. -/
theorem Tracked.find (h : Tracked bs s) {a : Nat} (hfind : s.pool.findMemoryBlock a ≠ 0) :
    s.pool.findMemoryBlock a ∈ s.held ∧
      s.pool.findMemoryBlock a + bs.toNat ∈ s.pool.blocks ∧
      a < s.pool.findMemoryBlock a + bs.toNat := by
  unfold findMemoryBlock upperBound at hfind ⊢
  by_cases hne : (s.pool.blocks.filter fun e => a < e).Nonempty
  · rw [dif_pos hne] at hfind ⊢
    obtain ⟨hmem, hlt⟩ := Finset.mem_filter.mp (Finset.min'_mem _ hne)
    obtain ⟨b, hb, heq⟩ := h.blocks _ hmem
    rw [heq] at hmem hlt
    simp only [heq, h.blockSize, Nat.add_sub_cancel]
    exact ⟨hb, hmem, hlt⟩
  · rw [dif_neg hne] at hfind
    exact absurd rfl hfind

theorem Tracked.find_eq_zero_iff (h : Tracked bs s) (a : Nat) :
    s.pool.findMemoryBlock a = 0 ↔ ∀ e ∈ s.pool.blocks, e ≤ a := by
  constructor
  · intro hzero e he
    by_contra hlt
    have hne : (s.pool.blocks.filter fun e => a < e).Nonempty :=
      ⟨e, Finset.mem_filter.mpr ⟨he, not_le.mp hlt⟩⟩
    unfold findMemoryBlock upperBound at hzero
    rw [dif_pos hne] at hzero
    obtain ⟨hmem, -⟩ := Finset.mem_filter.mp (Finset.min'_mem _ hne)
    obtain ⟨b, hb, heq⟩ := h.blocks _ hmem
    simp only [heq, h.blockSize, Nat.add_sub_cancel] at hzero
    exact (h.heads b hb).1 hzero
  · intro hall
    by_contra hne
    obtain ⟨-, hmem, hlt⟩ := h.find hne
    have hle := hall _ hmem
    omega

/-! ## `Free` of a foreign address -/

/-- The address is neither in the cache block nor in a block of the set. -/
def Foreign (p : MemoryPool) (a : Nat) : Prop :=
  ¬ (p.cacheBlockHead ≤ a ∧ a < p.cacheBlockEnd) ∧
    ∀ e ∈ p.blocks, ¬ (e - p.blockSize.toNat ≤ a ∧ a < e)

instance (p : MemoryPool) (a : Nat) : Decidable (Foreign p a) :=
  inferInstanceAs (Decidable (_ ∧ _))

/-- What `Free` does with a foreign address: nothing if no block ends above it,
and otherwise it lowers `UsedCount` and nothing else. -/
theorem Tracked.freeLocked_foreign (h : Tracked bs s) {a : Nat} (ha : Foreign s.pool a) :
    s.pool.freeLocked a =
      if ∀ e ∈ s.pool.blocks, e ≤ a then (s.pool, none)
      else ({ s.pool with usedCnt := s.pool.usedCnt - 1 }, none) := by
  have hcache : ¬ (a < s.pool.cacheBlockEnd ∧ s.pool.cacheBlockHead ≤ a) := fun hin =>
    ha.1 hin.symm
  unfold freeLocked
  rw [if_neg hcache]
  dsimp only
  by_cases hzero : s.pool.findMemoryBlock a = 0
  · rw [if_pos hzero, if_pos ((h.find_eq_zero_iff a).mp hzero)]
  · rw [if_neg hzero, if_neg fun hall => hzero ((h.find_eq_zero_iff a).mpr hall)]
    obtain ⟨hheld, hmem, hlt⟩ := h.find hzero
    obtain ⟨-, hsize⟩ := h.heads _ hheld
    -- The block found begins above the address, so `MemoryFree` refuses it.
    have hout := ha.2 _ hmem
    rw [h.blockSize, Nat.add_sub_cancel] at hout
    have hrange : a < s.pool.findMemoryBlock a ∨
        s.pool.findMemoryBlock a +
          (s.pool.mem.heads (s.pool.findMemoryBlock a)).blockSize.toNat ≤ a := by
      rw [hsize]
      omega
    have hfree : ({ s.pool with usedCnt := s.pool.usedCnt - 1 } : MemoryPool).freeTo
        (s.pool.findMemoryBlock a) a =
        (-1, { s.pool with usedCnt := s.pool.usedCnt - 1 }) := by
      simp [freeTo, memoryFree, hrange, Memory.setHead]
    rw [hfree]
    rfl

/-! ## Steps -/

theorem Tracked.congr {s' : Shared Tid} (h : Tracked bs s) (hsame : SameSizes s.pool s'.pool)
    (hblocks : s'.pool.blocks = s.pool.blocks) (hheld : s'.held = s.held)
    (hthreads : ∀ t, (s'.threads t).block = (s.threads t).block) : Tracked bs s' := by
  refine ⟨hsame.1.trans h.blockSize, ?_, fun b hb => ?_, ?_, ?_, ?_⟩
  · rw [hblocks, hheld]
    exact h.blocks
  · rw [hheld] at hb
    rw [hsame.2 b]
    exact h.heads b hb
  · rw [hheld]
    exact h.nodup
  · simp only [hthreads, hheld, hblocks]
    exact h.hands
  · simp only [hthreads]
    exact h.once

variable [DecidableEq Tid]

theorem goto_block (s : Shared Tid) (t : Tid) (pc : Pc) (u : Tid) :
    ((s.goto t pc).threads u).block = if u = t then pc.block else (s.threads u).block := by
  rw [Shared.goto_threads]
  split
  · rfl
  · rfl

theorem Tracked.goto (h : Tracked bs s) {t : Tid} {pc : Pc}
    (hpc : pc.block = (s.threads t).block) : Tracked bs (s.goto t pc) := by
  refine h.congr (SameSizes.refl _) rfl rfl fun u => ?_
  rw [goto_block]
  split
  · rename_i hu
    rw [hu, hpc]
  · rfl

theorem Tracked.alloc (h : Tracked bs s) {s' : Shared Tid} {t : Tid}
    (hstep : s.stepAlloc t = some s') : Tracked bs s' := by
  obtain ⟨hsame, hblocks⟩ := allocCached_sameSizes s.pool
  have hpool : Tracked bs { s with pool := s.pool.allocCached.2 } :=
    h.congr hsame hblocks rfl fun _ => rfl
  unfold Shared.stepAlloc at hstep
  split at hstep
  · cases hstep
  · rename_i hpc
    rw [not_not] at hpc
    dsimp only at hstep
    split at hstep
    · rename_i hne
      rw [Shared.deliver, if_neg hne] at hstep
      cases hstep
      exact hpool.congr (SameSizes.refl _) rfl rfl fun _ => rfl
    · cases hstep
      apply hpool.goto
      show _ = (s.threads t).block
      rw [hpc]
      rfl

/-- A thread gets a block into its hands whose end is not in the set. -/
theorem Tracked.gain (h : Tracked bs s) {s' : Shared Tid} {t : Tid} {b : Nat}
    (hnew : ∀ u, (s.threads u).block ≠ some b) (hsize : s'.pool.blockSize = bs)
    (hthreads : ∀ u, (s'.threads u).block = if u = t then some b else (s.threads u).block)
    (hheld : s'.held.Nodup ∧ b ∈ s'.held ∧ s.held ⊆ s'.held)
    (hheads : ∀ c ∈ s'.held, c ≠ 0 ∧ (s'.pool.mem.heads c).blockSize = bs)
    (hblocks : ∀ e ∈ s'.pool.blocks, e ∈ s.pool.blocks ∧ e ≠ b + bs.toNat) : Tracked bs s' := by
  obtain ⟨hnd, hb, hsub⟩ := hheld
  refine ⟨hsize, fun e he => ?_, hheads, hnd, fun u c hu => ?_, fun u u' c hu hu' => ?_⟩
  · obtain ⟨c, hc, heq⟩ := h.blocks e (hblocks e he).1
    exact ⟨c, hsub hc, heq⟩
  · rw [hthreads] at hu
    split at hu
    · cases hu
      exact ⟨hb, fun hin => (hblocks _ hin).2 rfl⟩
    · obtain ⟨hc, hout⟩ := h.hands u c hu
      exact ⟨hsub hc, fun hin => hout (hblocks _ hin).1⟩
  · rw [hthreads] at hu hu'
    by_cases hut : u = t
    · by_cases hut' : u' = t
      · exact hut.trans hut'.symm
      · rw [if_pos hut] at hu
        rw [if_neg hut'] at hu'
        cases hu
        exact absurd hu' (hnew u')
    · by_cases hut' : u' = t
      · rw [if_pos hut'] at hu'
        rw [if_neg hut] at hu
        cases hu'
        exact absurd hu (hnew u)
      · rw [if_neg hut] at hu
        rw [if_neg hut'] at hu'
        exact h.once u u' c hu hu'

theorem Tracked.takeBlock (h : Tracked bs s) (hbs : 0 < bs.toNat) {s' : Shared Tid} {t : Tid}
    {b : Nat} (hstep : s.stepTakeBlock t b = some s') : Tracked bs s' := by
  unfold Shared.stepTakeBlock at hstep
  split at hstep
  · rename_i hpc
    obtain ⟨hplaced, -, hapart⟩ := hpc.2
    rw [h.blockSize] at hapart
    obtain ⟨hsize, hblocks, hhead, hother⟩ := allocFresh_heads s.pool b
    have hnew : b ∉ s.held := fun hmem => (hapart b hmem).ne hbs rfl
    cases hstep
    refine h.gain (t := t) (b := b) (fun u hu => hnew (h.hands u b hu).1)
      (hsize.trans h.blockSize) (goto_block _ t _)
      ⟨List.nodup_cons.mpr ⟨hnew, h.nodup⟩, List.mem_cons_self, List.subset_cons_self b _⟩
      (fun c hc => ?_) fun e he => ?_
    · rcases List.mem_cons.mp hc with rfl | hc
      · exact ⟨hplaced.1, hhead.trans h.blockSize⟩
      · have hne : c ≠ b := fun heq => hnew (heq ▸ hc)
        exact ⟨(h.heads c hc).1, (hother c hne).trans (h.heads c hc).2⟩
    · have he' : e ∈ s.pool.blocks := hblocks ▸ he
      obtain ⟨c, hc, rfl⟩ := h.blocks e he'
      exact ⟨he', fun heq => hnew (Nat.add_right_cancel heq ▸ hc)⟩
  · cases hstep

/-- A thread lets go of its block, which joins the set or leaves the held ones. -/
theorem Tracked.letGo (h : Tracked bs s) {s' : Shared Tid} {t : Tid} {b : Nat}
    (hpc : (s.threads t).block = some b) (hsame : SameSizes s.pool s'.pool)
    (hthreads : ∀ u, (s'.threads u).block = if u = t then none else (s.threads u).block)
    (hheld : s'.held.Nodup ∧ s'.held ⊆ s.held ∧ ∀ c ∈ s.held, c ≠ b → c ∈ s'.held)
    (hblocks : ∀ e ∈ s'.pool.blocks,
      e ∈ s.pool.blocks ∨ e = b + bs.toNat ∧ b ∈ s'.held) : Tracked bs s' := by
  obtain ⟨hmem, hout⟩ := h.hands t b hpc
  obtain ⟨hnd, hsub, hkeep⟩ := hheld
  have hother : ∀ u c, (s'.threads u).block = some c → (s.threads u).block = some c ∧ c ≠ b := by
    intro u c hu
    rw [hthreads] at hu
    split at hu
    · cases hu
    · rename_i hut
      refine ⟨hu, ?_⟩
      rintro rfl
      exact hut (h.once u t c hu hpc)
  refine ⟨hsame.1.trans h.blockSize, fun e he => ?_, fun c hc => ?_, hnd, fun u c hu => ?_,
    fun u u' c hu hu' => h.once u u' c (hother u c hu).1 (hother u' c hu').1⟩
  · rcases hblocks e he with he | ⟨heq, hb⟩
    · obtain ⟨c, hc, rfl⟩ := h.blocks e he
      have hcb : c ≠ b := by
        rintro rfl
        exact hout he
      exact ⟨c, hkeep c hc hcb, rfl⟩
    · exact ⟨b, hb, heq⟩
  · rw [hsame.2 c]
    exact h.heads c (hsub hc)
  · obtain ⟨hu, hcb⟩ := hother u c hu
    obtain ⟨hc, hcout⟩ := h.hands u c hu
    refine ⟨hkeep c hc hcb, fun hin => ?_⟩
    rcases hblocks _ hin with hin | ⟨heq, -⟩
    · exact hcout hin
    · exact hcb (Nat.add_right_cancel heq)

theorem Tracked.addBlock (h : Tracked bs s) {s' : Shared Tid} {t : Tid}
    (hstep : s.stepAddBlock t = some s') : Tracked bs s' := by
  unfold Shared.stepAddBlock at hstep
  split at hstep
  · rename_i b ptr hpc
    have hblock : (s.threads t).block = some b := by rw [hpc]; rfl
    have hdeliver : ∀ r : Shared Tid, (r.deliver ptr).pool = r.pool ∧
        (r.deliver ptr).held = r.held ∧ (r.deliver ptr).threads = r.threads := by
      intro r
      unfold Shared.deliver
      split
      · exact ⟨rfl, rfl, rfl⟩
      · exact ⟨rfl, rfl, rfl⟩
    obtain ⟨hpool, hheld, hthreads⟩ := hdeliver { s with pool := s.pool.allocAdd b }
    cases hstep
    refine h.letGo hblock ?_ (fun u => ?_) ?_ fun e he => ?_
    · show SameSizes s.pool (Shared.deliver _ ptr).pool
      rw [hpool]
      exact SameSizes.refl _
    · rw [goto_block, hthreads]
      rfl
    · show (Shared.deliver _ ptr).held.Nodup ∧ (Shared.deliver _ ptr).held ⊆ _ ∧
        ∀ c ∈ s.held, c ≠ b → c ∈ (Shared.deliver _ ptr).held
      rw [hheld]
      exact ⟨h.nodup, List.Subset.refl _, fun c hc _ => hc⟩
    · change e ∈ (Shared.deliver _ ptr).pool.blocks at he
      rw [hpool] at he
      rcases Finset.mem_insert.mp he with heq | he
      · refine Or.inr ⟨by rw [heq, h.blockSize], ?_⟩
        show b ∈ (Shared.deliver _ ptr).held
        rw [hheld]
        exact (h.hands t b hblock).1
      · exact Or.inl he
  · cases hstep

theorem Tracked.freeLocked (h : Tracked bs s) (t : Tid) (a : Nat) (live : List Nat) :
    ((s.pool.freeLocked a).2 = none →
      Tracked bs { s with pool := (s.pool.freeLocked a).1, live := live }) ∧
    ∀ head, (s.pool.freeLocked a).2 = some head →
      Tracked bs (({ s with pool := (s.pool.freeLocked a).1, live := live } : Shared Tid).goto t
        (.giveBack head)) := by
  obtain ⟨hsame, ⟨hnone, hblocks⟩ | ⟨hsome, hfind, hblocks⟩⟩ := freeLocked_sameSizes s.pool a
  · refine ⟨fun _ => h.congr hsame hblocks rfl fun _ => rfl, fun head hhead => ?_⟩
    rw [hnone] at hhead
    cases hhead
  · obtain ⟨hheld, hmem, -⟩ := h.find hfind
    refine ⟨fun hnone => ?_, fun head hhead => ?_⟩
    · rw [hnone] at hsome
      cases hsome
    · obtain rfl : s.pool.findMemoryBlock a = head := Option.some.inj (hsome.symm.trans hhead)
      rw [h.blockSize] at hblocks
      -- The block was in the set, so no thread had it in hand.
      refine h.gain (t := t) (fun u hu => (h.hands u _ hu).2 hmem) (hsame.1.trans h.blockSize)
        (goto_block _ t _) ⟨h.nodup, hheld, List.Subset.refl _⟩ (fun c hc => ?_) fun e he => ?_
      · show _ ∧ ((s.pool.freeLocked a).1.mem.heads c).blockSize = bs
        rw [hsame.2 c]
        exact h.heads c hc
      · change e ∈ (s.pool.freeLocked a).1.blocks at he
        rw [hblocks] at he
        obtain ⟨hne, hin⟩ := Finset.mem_erase.mp he
        exact ⟨hin, hne⟩

/-! ## Runs with foreign calls -/

/-- The calls of a client, and calls of `Free` with addresses it does not own. -/
inductive Call (Tid : Type*) where
  | own (l : Label Tid)
  | freeForeign (t : Tid) (address : Nat)

def Shared.stepFreeForeign (s : Shared Tid) (t : Tid) (address : Nat) : Option (Shared Tid) :=
  if s.threads t = .idle ∧ Foreign s.pool address then
    let r := s.pool.freeLocked address
    let s' := { s with pool := r.1 }
    match r.2 with
    | none => some s'
    | some head => some (s'.goto t (.giveBack head))
  else none

def Shared.stepCall : Machine.Step (Shared Tid) (Call Tid)
  | s, .own l => s.step l
  | s, .freeForeign t address => s.stepFreeForeign t address

/-- A foreign `Free` is to leave the whole pool unchanged. -/
def NoOp (s : Shared Tid) : Call Tid → Prop
  | .own _ => True
  | .freeForeign _ a => Foreign s.pool a → s.pool.freeLocked a = (s.pool, none)

/-- No block of the set ends above a foreign address. -/
def AboveBlocks (s : Shared Tid) : Call Tid → Prop
  | .own _ => True
  | .freeForeign _ a => Foreign s.pool a → ∀ e ∈ s.pool.blocks, e ≤ a

instance (s : Shared Tid) (c : Call Tid) : Decidable (AboveBlocks s c) := by
  cases c <;> unfold AboveBlocks <;> infer_instance

theorem Tracked.step (h : Tracked bs s) (hbs : 0 < bs.toNat) {s' : Shared Tid} {l : Label Tid}
    (hstep : s.step l = some s') : Tracked bs s' := by
  cases l with
  | alloc t => exact h.alloc hstep
  | takeBlock t b => exact h.takeBlock hbs hstep
  | addBlock t => exact h.addBlock hstep
  | free t e =>
      simp only [Shared.step, Shared.stepFree] at hstep
      obtain ⟨hkeep, hsend⟩ := h.freeLocked t e (s.live.erase e)
      split at hstep
      · split at hstep
        · rename_i hnone
          cases hstep
          exact hkeep hnone
        · rename_i head hsome
          cases hstep
          exact hsend head hsome
      · cases hstep
  | giveBack t =>
      simp only [Shared.step, Shared.stepGiveBack] at hstep
      split at hstep
      · rename_i b hpc
        have hblock : (s.threads t).block = some b := by rw [hpc]; rfl
        cases hstep
        refine h.letGo hblock (SameSizes.refl _) (goto_block _ t _)
          ⟨h.nodup.erase b, List.erase_subset, fun c hc hcb => ?_⟩ fun e he => Or.inl he
        exact (List.mem_erase_of_ne hcb).mpr hc
      · cases hstep
  | write x value =>
      simp only [Shared.step, Shared.stepWrite] at hstep
      split at hstep
      · cases hstep
        exact h.congr ⟨rfl, fun _ => rfl⟩ rfl rfl fun _ => rfl
      · cases hstep

theorem Tracked.stepCall (h : Tracked bs s) (hbs : 0 < bs.toNat) {s' : Shared Tid} {c : Call Tid}
    (hstep : s.stepCall c = some s') : Tracked bs s' := by
  cases c with
  | own l => exact h.step hbs hstep
  | freeForeign t a =>
      simp only [Shared.stepCall, Shared.stepFreeForeign] at hstep
      obtain ⟨hkeep, hsend⟩ := h.freeLocked t a s.live
      split at hstep
      · split at hstep
        · rename_i hnone
          cases hstep
          exact hkeep hnone
        · rename_i head hsome
          cases hstep
          exact hsend head hsome
      · cases hstep

/-- In any run of a pool of any element size, with foreign calls among the steps:
each foreign `Free` leaves the pool as it was exactly if each is of an address
that no block of the set ends above. -/
theorem freeForeign_noOp_iff {n cacheNum : BitVec 32} {freeList fullList buf : Nat}
    {links : Links.Heap} {m : Memory} {p : MemoryPool} (hbs : BlockPool.accepts bs = true)
    (hinit : (new bs freeList fullList links m).init n cacheNum buf = (p, true))
    (calls : List (Call Tid)) :
    Machine.StepsMeet Shared.stepCall NoOp (Shared.start Tid p) calls ↔
      Machine.StepsMeet Shared.stepCall AboveBlocks (Shared.start Tid p) calls := by
  have hpos : 0 < bs.toNat := Nat.lt_of_lt_of_le (by decide) ((BlockPool.accepts_iff bs).mp hbs).1
  apply Machine.stepsMeet_congr
  intro pre s hrun c
  have htracked : Tracked bs s :=
    Machine.run_invariant (Tracked bs) (Tracked.init hinit)
      (fun s c s' h hstep => h.stepCall hpos hstep) hrun
  cases c with
  | own l => exact Iff.rfl
  | freeForeign t a =>
      refine imp_congr_right fun ha => ?_
      rw [htracked.freeLocked_foreign ha]
      by_cases hall : ∀ e ∈ s.pool.blocks, e ≤ a
      · rw [if_pos hall]
        exact iff_of_true rfl hall
      · rw [if_neg hall]
        refine iff_of_false (fun heq => ?_) hall
        have hused : s.pool.usedCnt - 1 = s.pool.usedCnt :=
          congrArg MemoryPool.usedCnt (Prod.mk.inj heq).1
        bv_omega

/-- An address above the only block of the pool. -/
theorem freeForeign_noOp_iff_above : ∃ p : MemoryPool,
    (new 4096 16 32 ⟨id, id⟩ ⟨fun _ => memoryBlockInit 0 0, fun _ => 0⟩).init 8 0 4096 =
        (p, true) ∧
      Machine.StepsMeet Shared.stepCall NoOp (Shared.start Unit p)
        [.own (.alloc ()), .own (.takeBlock () 8192), .own (.addBlock ()),
          .freeForeign () 20000] := by
  obtain ⟨p, hinit, hmeets⟩ : ∃ p : MemoryPool,
      (new 4096 16 32 ⟨id, id⟩ ⟨fun _ => memoryBlockInit 0 0, fun _ => 0⟩).init 8 0 4096 =
          (p, true) ∧
        Machine.StepsMeet Shared.stepCall AboveBlocks (Shared.start Unit p)
          [.own (.alloc ()), .own (.takeBlock () 8192), .own (.addBlock ()),
            .freeForeign () 20000] :=
    ⟨_, rfl, Machine.StepsMeet.of_meets (by decide +kernel)⟩
  exact ⟨p, hinit, (freeForeign_noOp_iff (by decide) hinit _).mpr hmeets⟩

/-- Address 5000 is below the only block: `UsedCount` falls from 1 to 0. -/
theorem freeForeign_changes_usedCnt : ∃ (p : MemoryPool) (s : Shared Unit),
    (new 4096 16 32 ⟨id, id⟩ ⟨fun _ => memoryBlockInit 0 0, fun _ => 0⟩).init 8 0 4096 =
        (p, true) ∧
      Machine.run Shared.step (Shared.start Unit p)
        [.alloc (), .takeBlock () 8192, .addBlock ()] = some s ∧
      Foreign s.pool 5000 ∧ s.pool.usedCnt = 1 ∧ (s.pool.freeLocked 5000).1.usedCnt = 0 ∧
      (s.pool.freeLocked 5000).1 ≠ s.pool := by
  obtain ⟨p, s, hinit, hrun, hforeign, hone, hzero⟩ : ∃ (p : MemoryPool) (s : Shared Unit),
      (new 4096 16 32 ⟨id, id⟩ ⟨fun _ => memoryBlockInit 0 0, fun _ => 0⟩).init 8 0 4096 =
          (p, true) ∧
        Machine.run Shared.step (Shared.start Unit p)
          [.alloc (), .takeBlock () 8192, .addBlock ()] = some s ∧
        Foreign s.pool 5000 ∧ s.pool.usedCnt = 1 ∧ (s.pool.freeLocked 5000).1.usedCnt = 0 :=
    ⟨_, _, rfl, rfl, by decide +kernel, rfl, rfl⟩
  refine ⟨p, s, hinit, hrun, hforeign, hone, hzero, fun heq => ?_⟩
  rw [heq, hone] at hzero
  exact absurd hzero (by decide)

end XfUtil.MemoryPool
