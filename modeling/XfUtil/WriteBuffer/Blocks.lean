import XfUtil.WriteBuffer.Buffers

/-!
# The blocks of the pool

Blocks of the pool, whether free or in use, and the buffers of the heap are
disjoint chunks of memory. Allocating and freeing move chunks between these places.
-/

namespace XfUtil

open FlatMemory

namespace BlockPool

/-- The block is one of the arena. -/
def InArena (p : BlockPool) (block : Nat) : Prop :=
  p.cacheStart ≤ block ∧ block + p.blockSize.toNat ≤ p.cacheEnd

instance (p : BlockPool) (block : Nat) : Decidable (p.InArena block) :=
  inferInstanceAs (Decidable (_ ∧ _))

/-- The memory of a block. -/
def region (p : BlockPool) (block : Nat) : Region := (block, p.blockSize.toNat)

/-- Free blocks, blocks in use and other allocations are disjoint, and each lies in the
arena or is an allocation of its own. -/
structure Holds (p : BlockPool) (h : Heap) (users : List Nat) (bufs : List Nat)
    (rs : List Region) : Prop where
  accepted : accepts p.blockSize = true
  arena : (p.cacheStart, p.cacheEnd - p.cacheStart) ∈ h.reserved
  start : 0 < p.cacheStart ∧ p.cacheStart ≤ p.cacheEnd ∧ p.cacheEnd < 2 ^ 64
  free : ∀ b ∈ p.freeBlocks, p.InArena b
  used : ∀ b ∈ users, p.InArena b ∨ p.region b ∈ h.live
  bufs : System.Bufs h bufs rs
  apart : ((p.freeBlocks ++ users).map p.region ++ rs).Pairwise Region.Apart

namespace Holds

variable {p : BlockPool} {h : Heap} {users bufs : List Nat} {rs : List Region}

theorem size_pos (hp : p.Holds h users bufs rs) : 0 < p.blockSize.toNat := by
  obtain ⟨hsize, -⟩ := (accepts_iff p.blockSize).mp hp.accepted
  omega

theorem within_arena (hp : p.Holds h users bufs rs) {b : Nat} (hb : p.InArena b) :
    Region.Within (p.region b) (p.cacheStart, p.cacheEnd - p.cacheStart) := by
  have hstart := hp.start
  unfold InArena at hb
  exact ⟨hb.1, show b + p.blockSize.toNat ≤ p.cacheStart + (p.cacheEnd - p.cacheStart) by omega⟩

theorem within (hp : p.Holds h users bufs rs) {q : Region}
    (hq : q ∈ (p.freeBlocks ++ users).map p.region ++ rs) :
    ∃ r ∈ h.reserved ++ h.live, Region.Within q r := by
  rcases List.mem_append.mp hq with hq | hq
  · obtain ⟨b, hb, rfl⟩ := List.mem_map.mp hq
    have hplace : p.InArena b ∨ p.region b ∈ h.live := by
      rcases List.mem_append.mp hb with hb | hb
      · exact Or.inl (hp.free b hb)
      · exact hp.used b hb
    rcases hplace with harena | hlive
    · exact ⟨_, List.mem_append_left _ hp.arena, hp.within_arena harena⟩
    · exact ⟨_, List.mem_append_right _ hlive, Region.Within.refl _⟩
  · exact ⟨q, List.mem_append_right _ (hp.bufs.live q hq), Region.Within.refl q⟩

theorem apart_fresh (hp : p.Holds h users bufs rs) {r : Region}
    (hr : ∀ r' ∈ h.reserved ++ h.live, Region.Apart r r') :
    ∀ q ∈ (p.freeBlocks ++ users).map p.region ++ rs, Region.Apart r q := by
  intro q hq
  obtain ⟨r', hr', hin⟩ := hp.within hq
  exact (hr r' hr').within (Region.Within.refl r) hin

theorem bounds_used (hp : p.Holds h users bufs rs) {b : Nat} (hb : b ∈ users) :
    0 < b ∧ b + p.blockSize.toNat < 2 ^ 64 := by
  have hstart := hp.start
  rcases hp.used b hb with harena | hlive
  · unfold InArena at harena
    omega
  · have hbounds := hp.bufs.wf.bounds _ hlive
    exact ⟨hbounds.1, hbounds.2.2⟩

theorem free_nodup (hp : p.Holds h users bufs rs) : p.freeBlocks.Nodup := by
  have happart := (List.pairwise_append.mp hp.apart).1
  rw [List.map_append] at happart
  have hfree := List.pairwise_map.mp (List.pairwise_append.mp happart).1
  refine hfree.imp fun happart heq => ?_
  exact happart.ne hp.size_pos (congrArg p.region heq)

theorem perm (hp : p.Holds h users bufs rs) {users' : List Nat} (hperm : users.Perm users') :
    p.Holds h users' bufs rs := by
  refine ⟨hp.accepted, hp.arena, hp.start, hp.free, fun b hb => hp.used b (hperm.mem_iff.mpr hb),
    hp.bufs, ?_⟩
  refine (List.Perm.pairwise_iff Region.Apart.symm ?_).mp hp.apart
  exact ((List.Perm.append_left p.freeBlocks hperm).map p.region).append_right rs

theorem apart_cons (hp : p.Holds h users bufs rs) {b : Nat} {users' : List Nat}
    (hperm : users.Perm (b :: users')) :
    ((p.freeBlocks ++ users').map p.region ++ rs).Pairwise Region.Apart ∧
      ∀ q ∈ (p.freeBlocks ++ users').map p.region ++ rs, Region.Apart (p.region b) q := by
  have hmove : (p.freeBlocks ++ b :: users').Perm (b :: (p.freeBlocks ++ users')) :=
    List.perm_middle
  have hall := (List.Perm.pairwise_iff Region.Apart.symm
    ((hmove.map p.region).append_right rs)).mp (hp.perm hperm).apart
  rw [List.map_cons, List.cons_append] at hall
  obtain ⟨hone, hrest⟩ := List.pairwise_cons.mp hall
  exact ⟨hrest, hone⟩

/-! ## Allocation -/

/-- `Alloc` answers a block that overlaps nothing in use. -/
theorem alloc (hp : p.Holds h users bufs rs) {fresh block : Nat} {p' : BlockPool} {h' : Heap}
    (ha : poolAlloc p h fresh = some (block, p', h')) :
    p'.Holds h' (block :: users) bufs rs ∧ p'.blockSize = p.blockSize := by
  unfold poolAlloc at ha
  unfold takeFree at ha
  cases hfree : p.freeBlocks with
  | nil =>
      rw [hfree] at ha
      obtain ⟨h₁, hm, heq⟩ := Option.map_eq_some_iff.mp ha
      cases heq
      have hbufs := hp.bufs.malloc hp.size_pos hm
      obtain ⟨rfl, hpos, hend, happart⟩ := Heap.malloc_eq_some hm
      refine ⟨⟨hp.accepted, hp.arena, hp.start, hp.free, ?_, hbufs, ?_⟩, rfl⟩
      · intro b hb
        rcases List.mem_cons.mp hb with rfl | hb
        · exact Or.inr List.mem_cons_self
        · exact (hp.used b hb).imp_right (List.mem_cons_of_mem _)
      · have hold := hp.apart
        have hnew := hp.apart_fresh happart
        rw [hfree, List.nil_append] at hold hnew ⊢
        rw [List.map_cons, List.cons_append]
        exact List.pairwise_cons.mpr ⟨hnew, hold⟩
  | cons b rest =>
      rw [hfree] at ha
      cases ha
      refine ⟨⟨hp.accepted, hp.arena, hp.start, fun b hb => hp.free b (by simp [hfree, hb]), ?_,
        hp.bufs, ?_⟩, rfl⟩
      · intro b' hb'
        rcases List.mem_cons.mp hb' with rfl | hb'
        · exact Or.inl (hp.free b' (by simp [hfree]))
        · exact hp.used b' hb'
      · have hmove : (p.freeBlocks ++ users).Perm (rest ++ block :: users) := by
          rw [hfree]
          exact List.perm_middle.symm
        exact (List.Perm.pairwise_iff Region.Apart.symm
          ((hmove.map p.region).append_right rs)).mp hp.apart

theorem push (hp : p.Holds h users bufs rs) {h' : Heap} {n a : Nat} (hn : 0 < n)
    (hm : h.malloc n a = some h') : p.Holds h' users (bufs ++ [a]) (rs ++ [(a, n)]) := by
  have hbufs := hp.bufs.push hn hm
  obtain ⟨rfl, -, -, happart⟩ := Heap.malloc_eq_some hm
  refine ⟨hp.accepted, hp.arena, hp.start, hp.free,
    fun b hb => (hp.used b hb).imp_right (List.mem_cons_of_mem _), hbufs, ?_⟩
  rw [← List.append_assoc]
  refine List.pairwise_append.mpr ⟨hp.apart, List.pairwise_singleton _ _, fun q hq r hr => ?_⟩
  obtain rfl := List.mem_singleton.mp hr
  exact (hp.apart_fresh happart q hq).symm

/-! ## Freeing -/

/-- `Free` of a block in use puts it into the deque if it is one of the arena, and frees
it if it is an allocation of its own. -/
theorem free_block (hp : p.Holds h users bufs rs) {b : Nat} {users' : List Nat}
    (hperm : users.Perm (b :: users')) :
    (p.InArena b ∧ poolFree p h b = some ({ p with freeBlocks := b :: p.freeBlocks }, h) ∧
      Holds { p with freeBlocks := b :: p.freeBlocks } h users' bufs rs) ∨
    (¬ p.InArena b ∧ p.region b ∈ h.live ∧ ∃ h', poolFree p h b = some (p, h') ∧
      p.Holds h' users' bufs rs ∧ ∀ q, q ∈ h'.live ↔ q ∈ h.live ∧ q ≠ p.region b) := by
  obtain ⟨hrest, hone⟩ := hp.apart_cons hperm
  have husers : ∀ b' ∈ users', b' ∈ users := fun b' hb' => hperm.mem_iff.mpr (by simp [hb'])
  have hpos := hp.size_pos
  by_cases harena : p.InArena b
  · refine Or.inl ⟨harena, ?_, hp.accepted, hp.arena, hp.start, ?_,
      fun b' hb' => hp.used b' (husers b' hb'), hp.bufs, ?_⟩
    · have hin : p.cacheStart ≤ b ∧ b < p.cacheEnd := by
        unfold InArena at harena
        omega
      simp only [poolFree, putFree, if_pos hin]
    · intro b' hb'
      rcases List.mem_cons.mp hb' with rfl | hb'
      · exact harena
      · exact hp.free b' hb'
    · exact List.pairwise_cons.mpr ⟨hone, hrest⟩
  · have hlive : p.region b ∈ h.live :=
      (hp.used b (hperm.mem_iff.mpr (by simp))).resolve_left harena
    have hout : ¬ (p.cacheStart ≤ b ∧ b < p.cacheEnd) := by
      have happart := hp.bufs.wf.reserved _ hlive _ hp.arena
      unfold Region.Apart FlatMemory.Apart region at happart
      have hstart := hp.start
      dsimp only at happart
      omega
    obtain ⟨h', hfree, hwf, hreserved, hmem⟩ := hp.bufs.wf.free hlive
    refine Or.inr ⟨harena, hlive, h', ?_, ⟨hp.accepted, hreserved ▸ hp.arena, hp.start, hp.free,
      ?_, ⟨hwf, hp.bufs.addresses, ?_, hp.bufs.apart⟩, hrest⟩, hmem⟩
    · have hfree' : h.free b = some h' := hfree
      simp only [poolFree, putFree, if_neg hout, hfree', Option.map_some]
    · intro b' hb'
      refine (hp.used b' (husers b' hb')).imp_right fun hl => (hmem _).mpr ⟨hl, ?_⟩
      exact ((hone (p.region b') (List.mem_append_left _
        (List.mem_map_of_mem (List.mem_append_right _ hb')))).ne hpos).symm
    · intro r hr
      exact (hmem r).mpr ⟨hp.bufs.live r hr, ((hone r (List.mem_append_right _ hr)).ne hpos).symm⟩

theorem not_inArena (hp : p.Holds h users bufs rs) {b : Nat} (hlive : p.region b ∈ h.live) :
    ¬ p.InArena b := by
  intro harena
  have happart := (hp.bufs.wf.reserved _ hlive _ hp.arena).within (Region.Within.refl _)
    (hp.within_arena harena)
  exact happart.ne hp.size_pos rfl

/-- The loop of `Clear` puts the arena's blocks into the deque and frees the others. -/
theorem freeBlocks {blocks others : List Nat} (hp : p.Holds h (blocks ++ others) bufs rs) :
    ∃ p' h', XfUtil.freeBlocks (some p) h blocks = some (some p', h') ∧
      p'.Holds h' others bufs rs ∧
      p' = { p with freeBlocks := (blocks.filter fun b => p.InArena b).reverse ++ p.freeBlocks } ∧
      ∀ q, q ∈ h'.live ↔ q ∈ h.live ∧ q ∉ blocks.map p.region := by
  induction blocks generalizing p h with
  | nil => exact ⟨p, h, rfl, hp, rfl, by simp⟩
  | cons b blocks ih =>
      rcases hp.free_block (List.Perm.refl (b :: (blocks ++ others))) with
        ⟨harena, hfree, hp₁⟩ | ⟨harena, hlive, h₁, hfree, hp₁, hmem₁⟩
      · obtain ⟨p', h', hloop, hp', heq, hmem⟩ := ih hp₁
        refine ⟨p', h', ?_, hp', ?_, fun q => ?_⟩
        · rw [XfUtil.freeBlocks, hfree, Option.bind_some, hloop]
        · rw [heq, List.filter_cons_of_pos (by simpa using harena), List.reverse_cons,
            List.append_assoc]
          rfl
        · rw [hmem q, List.map_cons, List.mem_cons, not_or]
          refine ⟨fun hq => ⟨hq.1, fun hqb => ?_, hq.2⟩, fun hq => ⟨hq.1, hq.2.2⟩⟩
          exact hp.not_inArena (hqb ▸ hq.1) harena
      · obtain ⟨p', h', hloop, hp', heq, hmem⟩ := ih hp₁
        refine ⟨p', h', ?_, hp', ?_, fun q => ?_⟩
        · rw [XfUtil.freeBlocks, hfree, Option.bind_some, hloop]
        · rw [heq, List.filter_cons_of_neg (by simpa using harena)]
        · rw [hmem q, hmem₁ q, List.map_cons, List.mem_cons, not_or, and_assoc]

end Holds

theorem holds_init {blockSize cacheNum : BitVec 32} {buf : Nat} {p : BlockPool}
    (hinit : new.init blockSize cacheNum buf = (p, true)) {reserved : List Region}
    (harena : (buf, blockSize.toNat * cacheNum.toNat) ∈ reserved)
    (hend : buf + blockSize.toNat * cacheNum.toNat < 2 ^ 64) :
    p.blockSize = blockSize ∧ p.Holds ⟨reserved, []⟩ [] [] [] := by
  unfold init at hinit
  split at hinit
  · cases hinit
  · rename_i haccepts
    split at hinit
    · cases hinit
    · dsimp only at hinit
      split at hinit
      · cases hinit
      · rename_i hbuf
        cases hinit
        have haccepts' : accepts blockSize = true := by simpa using haccepts
        obtain ⟨hsize, -⟩ := (accepts_iff blockSize).mp haccepts'
        have hslots : pushBlocks blockSize.toNat cacheNum.toNat buf new.freeBlocks =
            slots buf blockSize.toNat cacheNum.toNat := pushBlocks_eq _ _ _ _
        refine ⟨rfl, haccepts', ?_, ⟨Nat.pos_of_ne_zero hbuf, Nat.le_add_right _ _, hend⟩, ?_,
          by simp, System.Bufs.none reserved, ?_⟩
        · simpa using harena
        · intro b hb
          rw [hslots] at hb
          obtain ⟨hlow, hhigh⟩ := slots_inside hb
          exact ⟨hlow, by rwa [Nat.mul_comm] at hhigh⟩
        · rw [hslots, List.append_nil, List.append_nil, List.pairwise_map]
          refine (slots_nodup (by omega)).imp_of_mem fun ha hb hne => ?_
          exact slots_apart ha hb hne

end BlockPool

end XfUtil
