import XfUtil.MemoryPool.Blocks
import XfUtil.MemoryPool.Lists
import XfUtil.MemoryPool.Threads
import Mathlib.Data.List.Perm.Basic

/-!
# The invariant of a shared `MemoryPool`

Every live element is in the cache block or in a listed block, each of which is
in order for the live elements in it; blocks in some thread's hand are on no
list. Blocks change list lazily, so a full block may still be on the free list,
but a block on the full list is full.
-/

namespace XfUtil.MemoryPool

open FlatMemory Links

/-! ## Configuration -/

/-- Size of the cache block. -/
def cacheLen (p : MemoryPool) : Nat := p.cacheBlockEnd - p.cacheBlockHead

/-- Elements in a block of the `BlockPool`. -/
def blockCap (p : MemoryPool) : Nat :=
  (memoryBlockInit p.blockSize p.elementSize).maxElementNum.toNat

/-- Offset of the first element in such a block. -/
def blockOff (p : MemoryPool) : Nat := p.blockSize.toNat - blockCap p * p.elementSize.toNat

/-- What `Init` fixes for good. -/
structure Config where
  blockSize : BitVec 32
  elementSize : BitVec 32
  cacheBlockHead : Nat
  cacheBlockEnd : Nat
  freeList : Nat
  fullList : Nat

def config (p : MemoryPool) : Config :=
  ⟨p.blockSize, p.elementSize, p.cacheBlockHead, p.cacheBlockEnd, p.freeList, p.fullList⟩

/-- What holds of the configuration after a successful `Init`. -/
structure Configured (p : MemoryPool) : Prop where
  aligned : 8 ∣ p.elementSize.toNat ∧ 8 ≤ p.elementSize.toNat
  blockHead : 4096 ≤ p.blockSize.toNat ∧ 4096 ∣ p.blockSize.toNat
  blockCap : 0 < blockCap p
  cache : Shared.Placed p p.cacheBlockHead (cacheLen p)
  cachePos : 0 < cacheLen p

/-! ## Regions -/

/-- The cache block and the listed blocks, with the shape of their slots. -/
def Region (p : MemoryPool) (offC capC : Nat) (listed : List Nat) (lo size off cap : Nat) : Prop :=
  (lo = p.cacheBlockHead ∧ size = cacheLen p ∧ off = offC ∧ cap = capC) ∨
    (lo ∈ listed ∧ size = p.blockSize.toNat ∧ off = blockOff p ∧ cap = blockCap p)

theorem Region.cache (p : MemoryPool) (offC capC : Nat) (listed : List Nat) :
    Region p offC capC listed p.cacheBlockHead (cacheLen p) offC capC :=
  Or.inl ⟨rfl, rfl, rfl, rfl⟩

theorem Region.listed {p : MemoryPool} {offC capC : Nat} {listed : List Nat} {b : Nat}
    (hb : b ∈ listed) :
    Region p offC capC listed b p.blockSize.toNat (blockOff p) (blockCap p) :=
  Or.inr ⟨hb, rfl, rfl, rfl⟩

/-- Blocks held from the `BlockPool` are clear of the cache block, of each other
and of the list heads; the listed ones are among them. -/
structure Separate (p : MemoryPool) (held listed : List Nat) : Prop where
  placed : ∀ b ∈ held, Shared.Placed p b p.blockSize.toNat ∧
    Apart b p.blockSize.toNat p.cacheBlockHead (cacheLen p)
  apart : held.Pairwise fun a b => Apart a p.blockSize.toNat b p.blockSize.toNat
  listed : listed ⊆ held

variable {p : MemoryPool} {offC capC : Nat} {held listed : List Nat}

theorem Separate.blocks (h : Separate p held listed) {a b : Nat} (ha : a ∈ held) (hb : b ∈ held)
    (hne : a ≠ b) : Apart a p.blockSize.toNat b p.blockSize.toNat :=
  h.apart.forall ha hb hne

theorem Separate.region (h : Separate p held listed) {b lo size off cap : Nat}
    (hb : b ∈ held) (hr : Region p offC capC listed lo size off cap) (hne : b ≠ lo) :
    Apart b p.blockSize.toNat lo size := by
  rcases hr with ⟨rfl, rfl, -, -⟩ | ⟨hlo, rfl, -, -⟩
  · exact (h.placed b hb).2
  · exact h.blocks hb (h.listed hlo) hne

theorem Separate.regions (h : Separate p held listed) {lo size off cap lo' size' off' cap' : Nat}
    (hr : Region p offC capC listed lo size off cap)
    (hr' : Region p offC capC listed lo' size' off' cap') (hne : lo ≠ lo') :
    Apart lo size lo' size' := by
  rcases hr with ⟨rfl, rfl, rfl, rfl⟩ | ⟨hlo, rfl, rfl, rfl⟩
  · rcases hr' with ⟨rfl, -, -, -⟩ | ⟨hlo', rfl, -, -⟩
    · exact absurd rfl hne
    · exact (h.placed lo' (h.listed hlo')).2.symm
  · exact h.region (h.listed hlo) hr' hne

theorem Separate.ne_cache (h : Separate p held listed) (hc : Configured p) {b : Nat}
    (hb : b ∈ held) : b ≠ p.cacheBlockHead := by
  rintro rfl
  have hap := (h.placed _ hb).2
  have hpos := hc.cachePos
  have hbs := hc.blockHead.1
  unfold Apart at hap
  omega

theorem Separate.region_unique (h : Separate p held listed) (hc : Configured p)
    {lo size off cap size' off' cap' : Nat} (hr : Region p offC capC listed lo size off cap)
    (hr' : Region p offC capC listed lo size' off' cap') :
    size' = size ∧ off' = off ∧ cap' = cap := by
  rcases hr with ⟨hlo, rfl, rfl, rfl⟩ | ⟨hlo, rfl, rfl, rfl⟩ <;>
    rcases hr' with ⟨hlo', rfl, rfl, rfl⟩ | ⟨hlo', rfl, rfl, rfl⟩
  · exact ⟨rfl, rfl, rfl⟩
  · exact absurd hlo (h.ne_cache hc (h.listed hlo'))
  · exact absurd hlo' (h.ne_cache hc (h.listed hlo))
  · exact ⟨rfl, rfl, rfl⟩

/-! ## Contents -/

/-- All regions are in order, and live elements are in them. -/
structure Content (p : MemoryPool) (offC capC : Nat) (m : Memory) (live listed : List Nat) :
    Prop where
  ok : ∀ lo size off cap, Region p offC capC listed lo size off cap →
    BlockOk m live lo size p.elementSize.toNat off cap
  count : ∀ b ∈ listed, (m.heads b).maxElementNum.toNat = blockCap p
  nodup : live.Nodup
  inside : ∀ e ∈ live, ∃ lo size off cap, Region p offC capC listed lo size off cap ∧
    lo ≤ e ∧ e < lo + size

variable {m m' : Memory} {live live' : List Nat} {lo size off cap : Nat}

theorem Content.touch (h : Content p offC capC m live listed) (hc : Configured p)
    (hs : Separate p held listed) (hr : Region p offC capC listed lo size off cap)
    (ht : Touches m live m' live' lo size)
    (hok : BlockOk m' live' lo size p.elementSize.toNat off cap)
    (hcount : (m'.heads lo).maxElementNum = (m.heads lo).maxElementNum) (hnd : live'.Nodup)
    (hin : ∀ e ∈ live', e ∈ live ∨ lo ≤ e ∧ e < lo + size) :
    Content p offC capC m' live' listed := by
  refine ⟨fun lo' size' off' cap' hr' => ?_, fun b hb => ?_, hnd, fun e he => ?_⟩
  · by_cases hlo : lo' = lo
    · subst hlo
      obtain ⟨rfl, rfl, rfl⟩ := hs.region_unique hc hr hr'
      exact hok
    · exact (h.ok lo' size' off' cap' hr').other ht (hs.regions hr' hr hlo) hlo
  · by_cases hb' : b = lo
    · rw [hb', hcount, ← hb']
      exact h.count b hb
    · rw [ht.heads b hb']
      exact h.count b hb
  · rcases hin e he with he | he
    · exact h.inside e he
    · exact ⟨lo, size, off, cap, hr, he⟩

theorem Content.apart (h : Content p offC capC m live listed) (hc : Configured p)
    (hs : Separate p held listed) {x y : Nat} (hx : x ∈ live) (hy : y ∈ live) (hne : x ≠ y) :
    Apart x p.elementSize.toNat y p.elementSize.toNat := by
  obtain ⟨lo, size, off, cap, hr, hin⟩ := h.inside x hx
  obtain ⟨lo', size', off', cap', hr', hin'⟩ := h.inside y hy
  have hxin := (h.ok _ _ _ _ hr).inside (mem_within.mpr ⟨hx, hin⟩)
  have hyin := (h.ok _ _ _ _ hr').inside (mem_within.mpr ⟨hy, hin'⟩)
  by_cases hlo : lo = lo'
  · subst hlo
    obtain ⟨rfl, rfl, rfl⟩ := hs.region_unique hc hr hr'
    exact slots_apart hxin.1 hyin.1 hne
  · exact (hs.regions hr hr' hlo).mono (by omega) hxin.2.2 (by omega) hyin.2.2

/-- A held block that is on no list contains no live element. -/
theorem Content.within_unlisted (h : Content p offC capC m live listed) (hc : Configured p)
    (hs : Separate p held listed) {b : Nat} (hb : b ∈ held) (hout : b ∉ listed) :
    within live b p.blockSize.toNat = [] := by
  refine List.eq_nil_iff_forall_not_mem.mpr fun e he => ?_
  obtain ⟨hlive, hin⟩ := mem_within.mp he
  obtain ⟨lo, size, off, cap, hr, hin'⟩ := h.inside e hlive
  have hne : b ≠ lo := by
    rintro rfl
    rcases hr with ⟨heq, -⟩ | ⟨hmem, -⟩
    · exact hs.ne_cache hc hb heq
    · exact hout hmem
  have hap := hs.region hb hr hne
  unfold Apart at hap
  omega

/-- A block clear of all regions changes. -/
theorem Content.beside (h : Content p offC capC m live listed) {b size : Nat}
    (ht : Touches m live m' live b size)
    (hap : ∀ lo size' off cap, Region p offC capC listed lo size' off cap →
      lo ≠ b ∧ Apart lo size' b size) : Content p offC capC m' live listed := by
  refine ⟨fun lo size' off cap hr => ?_, fun c hc => ?_, h.nodup, h.inside⟩
  · obtain ⟨hne, hap'⟩ := hap lo size' off cap hr
    exact (h.ok lo size' off cap hr).other ht hap' hne
  · rw [ht.heads c (hap c _ _ _ (Region.listed hc)).1]
    exact h.count c hc

/-- Blocks without live elements may leave the lists. -/
theorem Content.relist (h : Content p offC capC m live listed) {listed' : List Nat}
    (hsub : listed' ⊆ listed)
    (hgone : ∀ b ∈ listed, b ∉ listed' → within live b p.blockSize.toNat = []) :
    Content p offC capC m live listed' := by
  refine ⟨fun lo size off cap hr => h.ok lo size off cap (hr.imp_right fun hl => ?_),
    fun b hb => h.count b (hsub hb), h.nodup, fun e he => ?_⟩
  · exact ⟨hsub hl.1, hl.2⟩
  · obtain ⟨lo, size, off, cap, hr, hin⟩ := h.inside e he
    refine ⟨lo, size, off, cap, hr.imp_right fun ⟨hl, hrest⟩ => ⟨?_, hrest⟩, hin⟩
    by_contra hout
    have hnil := hgone lo hl hout
    rw [hrest.1] at hin
    exact List.not_mem_nil (hnil ▸ mem_within.mpr ⟨he, hin⟩)

/-! ## Blocks in hand -/

variable {Tid : Type*} {threads : Tid → Pc}

/-- A block in some thread's hand is held and on no list; one about to be added
has its first element carved already. -/
structure Hands (p : MemoryPool) (m : Memory) (live held listed : List Nat)
    (threads : Tid → Pc) : Prop where
  unlisted : ∀ t b, (threads t).block = some b → b ∈ held ∧ b ∉ listed
  adding : ∀ t b ptr, threads t = .addBlock b ptr →
    ptr ≠ 0 ∧ b ≤ ptr ∧ ptr < b + p.blockSize.toNat ∧
      (m.heads b).maxElementNum.toNat = blockCap p ∧
      BlockOk m (ptr :: live) b p.blockSize.toNat p.elementSize.toNat (blockOff p) (blockCap p)
  once : ∀ t t' b, (threads t).block = some b → (threads t').block = some b → t = t'
  accounted : ∀ b ∈ held, b ∈ listed ∨ ∃ t, (threads t).block = some b

theorem Touches.cons (ht : Touches m live m' live' lo size) (x : Nat) :
    Touches m (x :: live) m' (x :: live') lo size := by
  refine ⟨ht.heads, ht.words, fun b n hap => ?_⟩
  by_cases hx : b ≤ x ∧ x < b + n
  · rw [within_cons_of_in hx, within_cons_of_in hx, ht.live b n hap]
  · rw [within_cons_of_out hx, within_cons_of_out hx, ht.live b n hap]

theorem Hands.touch (h : Hands p m live held listed threads) {b size : Nat}
    (ht : Touches m live m' live' b size)
    (hap : ∀ t c, (threads t).block = some c → c ≠ b ∧ Apart c p.blockSize.toNat b size) :
    Hands p m' live' held listed threads := by
  refine { h with adding := fun t c ptr hpc => ?_ }
  obtain ⟨hptr, hlo, hhi, hcount, hok⟩ := h.adding t c ptr hpc
  obtain ⟨hne, hap'⟩ := hap t c (by rw [hpc]; rfl)
  exact ⟨hptr, hlo, hhi, by rw [ht.heads c hne]; exact hcount, hok.other (ht.cons ptr) hap' hne⟩

theorem Hands.apart_region (h : Hands p m live held listed threads) (hc : Configured p)
    (hs : Separate p held listed) (hr : Region p offC capC listed lo size off cap) (t : Tid)
    (b : Nat)
    (hb : (threads t).block = some b) : b ≠ lo ∧ Apart b p.blockSize.toNat lo size := by
  obtain ⟨hheld, hout⟩ := h.unlisted t b hb
  have hne : b ≠ lo := by
    rintro rfl
    rcases hr with ⟨heq, -⟩ | ⟨hmem, -⟩
    · exact hs.ne_cache hc hheld heq
    · exact hout hmem
  exact ⟨hne, hs.region hheld hr hne⟩

theorem Hands.relist (h : Hands p m live held listed threads) {listed' : List Nat}
    (hsame : ∀ b, b ∈ listed' ↔ b ∈ listed) : Hands p m live held listed' threads :=
  { h with
    unlisted := fun t b hb => by rw [hsame]; exact h.unlisted t b hb
    accounted := fun b hb => by rw [hsame]; exact h.accounted b hb }

section

variable [DecidableEq Tid] {held' listed' : List Nat} {t : Tid} {pc : Pc} {b : Nat}

/-- A thread gets a block into its hands: a new one, or one that leaves the lists. -/
theorem Hands.gain (h : Hands p m live held listed threads) (hbefore : (threads t).block = none)
    (hpc : pc.block = some b) (hnew : ∀ u, (threads u).block ≠ some b)
    (hheld : ∀ c, c ∈ held' ↔ c = b ∨ c ∈ held) (hout : b ∉ listed')
    (hlisted : ∀ c ∈ listed', c ∈ listed) (hleft : ∀ c ∈ listed, c = b ∨ c ∈ listed')
    (hadd : ∀ ptr, pc = .addBlock b ptr →
      ptr ≠ 0 ∧ b ≤ ptr ∧ ptr < b + p.blockSize.toNat ∧
        (m.heads b).maxElementNum.toNat = blockCap p ∧
        BlockOk m (ptr :: live) b p.blockSize.toNat p.elementSize.toNat (blockOff p)
          (blockCap p)) :
    Hands p m live held' listed' (Function.update threads t pc) := by
  refine ⟨fun u c hu => ?_, fun u c ptr hu => ?_, fun u u' c hu hu' => ?_, fun c hc => ?_⟩
  · by_cases hut : u = t
    · subst hut
      rw [Function.update_self, hpc] at hu
      cases hu
      exact ⟨(hheld _).mpr (Or.inl rfl), hout⟩
    · rw [Function.update_of_ne hut] at hu
      obtain ⟨hin, hnot⟩ := h.unlisted u c hu
      exact ⟨(hheld c).mpr (Or.inr hin), fun hmem => hnot (hlisted c hmem)⟩
  · by_cases hut : u = t
    · subst hut
      rw [Function.update_self] at hu
      obtain rfl : c = b := by
        rw [hu] at hpc
        exact Option.some.inj hpc
      exact hadd ptr hu
    · rw [Function.update_of_ne hut] at hu
      exact h.adding u c ptr hu
  · -- Nobody else has the block.
    by_cases hut : u = t <;> by_cases hut' : u' = t
    · exact hut.trans hut'.symm
    · rw [Function.update_of_ne hut'] at hu'
      rw [hut, Function.update_self, hpc] at hu
      exact absurd (Option.some.inj hu ▸ hu') (hnew u')
    · rw [Function.update_of_ne hut] at hu
      rw [hut', Function.update_self, hpc] at hu'
      exact absurd (Option.some.inj hu' ▸ hu) (hnew u)
    · rw [Function.update_of_ne hut] at hu
      rw [Function.update_of_ne hut'] at hu'
      exact h.once u u' c hu hu'
  · have hself : ∃ u, (Function.update threads t pc u).block = some b :=
      ⟨t, by rw [Function.update_self, hpc]⟩
    rcases (hheld c).mp hc with rfl | hc
    · exact Or.inr hself
    · rcases h.accounted c hc with hcl | ⟨u, hu⟩
      · rcases hleft c hcl with rfl | hcl
        · exact Or.inr hself
        · exact Or.inl hcl
      · refine Or.inr ⟨u, ?_⟩
        rw [Function.update_of_ne]
        · exact hu
        · rintro rfl
          rw [hbefore] at hu
          cases hu

/-- A thread lets go of its block: it goes onto a list or is held no longer. -/
theorem Hands.lose (h : Hands p m live held listed threads) (hbefore : (threads t).block = some b)
    (hpc : pc.block = none) (hheld : ∀ c, c ≠ b → (c ∈ held' ↔ c ∈ held))
    (hlisted : ∀ c, c ≠ b → (c ∈ listed' ↔ c ∈ listed)) (hback : b ∈ held' → b ∈ listed') :
    Hands p m live held' listed' (Function.update threads t pc) := by
  have hother : ∀ u c, u ≠ t → (threads u).block = some c → c ≠ b := by
    rintro u c hut hu rfl
    exact hut (h.once u t c hu hbefore)
  have hkeep : ∀ u c, (Function.update threads t pc u).block = some c →
      u ≠ t ∧ (threads u).block = some c := by
    intro u c hu
    by_cases hut : u = t
    · rw [hut, Function.update_self, hpc] at hu
      cases hu
    · rw [Function.update_of_ne hut] at hu
      exact ⟨hut, hu⟩
  refine ⟨fun u c hu => ?_, fun u c ptr hu => ?_, fun u u' c hu hu' => ?_, fun c hc => ?_⟩
  · obtain ⟨hut, hu⟩ := hkeep u c hu
    obtain ⟨hin, hnot⟩ := h.unlisted u c hu
    have hcb := hother u c hut hu
    exact ⟨(hheld c hcb).mpr hin, fun hmem => hnot ((hlisted c hcb).mp hmem)⟩
  · obtain ⟨hut, -⟩ := hkeep u c (by rw [hu]; rfl)
    rw [Function.update_of_ne hut] at hu
    exact h.adding u c ptr hu
  · exact h.once u u' c (hkeep u c hu).2 (hkeep u' c hu').2
  · by_cases hcb : c = b
    · exact Or.inl (hcb ▸ hback (hcb ▸ hc))
    · rcases h.accounted c ((hheld c hcb).mp hc) with hcl | ⟨u, hu⟩
      · exact Or.inl ((hlisted c hcb).mpr hcl)
      · refine Or.inr ⟨u, ?_⟩
        rw [Function.update_of_ne]
        · exact hu
        · rintro rfl
          exact hcb (Option.some.inj (hu.symm.trans hbefore))

end

/-! ## The whole state -/

/-- The invariant; `free` and `full` are the blocks on the two lists in order. -/
structure Inv (p : MemoryPool) (offC capC : Nat) (s : Shared Tid) (free full : List Nat) :
    Prop where
  config : s.pool.config = p.config
  rings : Rings p s.pool.links free full
  ends : ∀ e, e ∈ s.pool.blocks ↔ ∃ b ∈ free ++ full, e = b + p.blockSize.toNat
  separate : Separate p s.held (free ++ full)
  content : Content p offC capC s.pool.mem s.live (free ++ full)
  filled : ∀ b ∈ full, (within s.live b p.blockSize.toNat).length = blockCap p
  nonempty : ∀ b ∈ free ++ full, within s.live b p.blockSize.toNat ≠ []
  hands : Hands p s.pool.mem s.live s.held (free ++ full) s.threads
  counts : ∀ b, s.taken b = s.given b + s.held.count b
  used : s.pool.usedCnt = BitVec.ofNat 64 s.live.length
  failures : s.failures = 0

end XfUtil.MemoryPool
