import XfUtil.Pack.Model
import XfUtil.WriteBuffer.Blocks

/-!
# The accounts of a pool

The blocks of the arena are in the deque or in use, and the heap holds the other
blocks in use and the buffers. Every allocation and every release keeps these accounts.
-/

namespace XfUtil

open FlatMemory

namespace BlockPool

/-- `users` are the blocks in use and `rs` the buffers; `base` and `count` are the arena's. -/
structure Kept (base count : Nat) (p : BlockPool) (h : Heap) (users : List Nat)
    (rs : List Region) : Prop where
  holds : p.Holds h users (rs.map Prod.fst) rs
  deque : (p.freeBlocks ++ users.filter fun b => p.InArena b).Perm
    (slots base p.blockSize.toNat count)
  heap : ∀ q, q ∈ h.live ↔ (∃ b ∈ users, ¬ p.InArena b ∧ q = p.region b) ∨ q ∈ rs

namespace Kept

variable {base count : Nat} {p p' : BlockPool} {h h' : Heap} {users users' : List Nat}
  {rs rs' : List Region}

/-- The order in which blocks and buffers are listed does not matter. -/
theorem perm (hk : Kept base count p h users rs) (husers : users.Perm users')
    (hrs : rs.Perm rs') : Kept base count p h users' rs' := by
  have hholds := hk.holds.perm husers
  have hbufs : System.Bufs h (rs'.map Prod.fst) rs' :=
    ⟨hholds.bufs.wf, rfl, fun r hr => hholds.bufs.live r (hrs.mem_iff.mpr hr),
      (List.Perm.pairwise_iff Region.Apart.symm hrs).mp hholds.bufs.apart⟩
  have happart := (List.Perm.pairwise_iff Region.Apart.symm
    (hrs.append_left ((p.freeBlocks ++ users').map p.region))).mp hholds.apart
  refine ⟨⟨hholds.accepted, hholds.arena, hholds.start, hholds.free, hholds.used, hbufs, happart⟩,
    ?_, fun q => ?_⟩
  · exact ((husers.filter _).symm.append_left _).trans hk.deque
  · rw [hk.heap q, hrs.mem_iff]
    simp only [husers.mem_iff]

/-- The accounts of some of the blocks and buffers in use. -/
theorem restrict (hk : Kept base count p h users rs) (husers : users'.Sublist users)
    (hrs : rs'.Sublist rs) : p.Holds h users' (rs'.map Prod.fst) rs' := by
  have hholds := hk.holds
  refine ⟨hholds.accepted, hholds.arena, hholds.start, hholds.free,
    fun b hb => hholds.used b (husers.subset hb), ?_, ?_⟩
  · exact ⟨hholds.bufs.wf, rfl, fun r hr => hholds.bufs.live r (hrs.subset hr),
      hholds.bufs.apart.sublist hrs⟩
  · exact hholds.apart.sublist (((husers.append_left _).map _).append hrs)

/-! ## Allocations -/

theorem take (hk : Kept base count p h users rs) {fresh b : Nat}
    (ha : poolAlloc p h fresh = some (b, p', h')) :
    p'.blockSize = p.blockSize ∧ Kept base count p' h' (b :: users) rs := by
  obtain ⟨hholds, hsize⟩ := hk.holds.alloc ha
  have hdeque := hk.deque
  unfold poolAlloc takeFree at ha
  cases hfree : p.freeBlocks with
  | nil =>
      rw [hfree] at ha hdeque
      obtain ⟨h₁, hm, heq⟩ := Option.map_eq_some_iff.mp ha
      cases heq
      obtain ⟨rfl, -, -, -⟩ := Heap.malloc_eq_some hm
      have hout := hholds.not_inArena (List.mem_cons_self : p.region fresh ∈ _)
      refine ⟨rfl, hholds, ?_, fun q => ?_⟩
      · rw [hfree, List.filter_cons_of_neg (by simpa using hout)]
        exact hdeque
      · rw [List.mem_cons, hk.heap q, List.exists_mem_cons_iff, or_assoc]
        simp [hout, region]
  | cons b' rest =>
      rw [hfree] at ha hdeque
      cases ha
      have hin : p.InArena b := hk.holds.free b (by simp [hfree])
      refine ⟨rfl, hholds, ?_, fun q => ?_⟩
      · show (rest ++ (b :: users).filter fun b => p.InArena b).Perm _
        rw [List.filter_cons_of_pos (by simpa using hin)]
        exact List.perm_middle.trans hdeque
      · rw [hk.heap q, List.exists_mem_cons_iff]
        have hin' : InArena { p with freeBlocks := rest } b := hin
        simp only [hin', not_true_eq_false, false_and, false_or]
        rfl

theorem malloc (hk : Kept base count p h users rs) {n a : Nat} (hn : 0 < n)
    (hm : h.malloc n a = some h') : Kept base count p h' users ((a, n) :: rs) := by
  have hholds := hk.holds.push hn hm
  obtain ⟨rfl, -, -, -⟩ := Heap.malloc_eq_some hm
  have hmove : (rs ++ [(a, n)]).Perm ((a, n) :: rs) := List.perm_append_singleton _ _
  have hpushed : Kept base count p { h with live := (a, n) :: h.live } users
      (rs ++ [(a, n)]) := by
    refine ⟨by simpa using hholds, hk.deque, fun q => ?_⟩
    rw [List.mem_cons, hk.heap q, List.mem_append, List.mem_singleton, or_comm, or_assoc]
  exact hpushed.perm (List.Perm.refl _) hmove

/-! ## Releases -/

theorem give {b : Nat} (hk : Kept base count p h (b :: users) rs) :
    ∃ p' h', poolFree p h b = some (p', h') ∧ p'.blockSize = p.blockSize ∧
      Kept base count p' h' users rs := by
  have hdeque := hk.deque
  rcases hk.holds.free_block (List.Perm.refl _) with
    ⟨hin, hfree, hholds⟩ | ⟨hout, hlive, h', hfree, hholds, hmem⟩
  · refine ⟨_, _, hfree, rfl, hholds, ?_, fun q => ?_⟩
    · rw [List.filter_cons_of_pos (by simpa using hin)] at hdeque
      exact List.perm_middle.symm.trans hdeque
    · rw [hk.heap q, List.exists_mem_cons_iff]
      simp only [hin, not_true_eq_false, false_and, false_or]
      rfl
  · refine ⟨_, _, hfree, rfl, hholds, ?_, fun q => ?_⟩
    · rwa [List.filter_cons_of_neg (by simpa using hout)] at hdeque
    · rw [hmem q, hk.heap q, List.exists_mem_cons_iff]
      obtain ⟨-, hone⟩ := hk.holds.apart_cons (List.Perm.refl _)
      have hpos := hk.holds.size_pos
      constructor
      · rintro ⟨(⟨-, heq⟩ | hrest) | hr, hne⟩
        · exact absurd heq hne
        · exact Or.inl hrest
        · exact Or.inr hr
      · rintro (⟨b', hb', hout', rfl⟩ | hr)
        · refine ⟨Or.inl (Or.inr ⟨b', hb', hout', rfl⟩), ?_⟩
          have hmem' : p.region b' ∈ (p.freeBlocks ++ users).map p.region :=
            List.mem_map_of_mem (List.mem_append_right p.freeBlocks hb')
          exact ((hone _ (List.mem_append_left _ hmem')).ne hpos).symm
        · exact ⟨Or.inr hr, ((hone q (List.mem_append_right _ hr)).ne hpos).symm⟩

theorem free {r : Region} (hk : Kept base count p h users (r :: rs)) :
    ∃ h', h.free r.1 = some h' ∧ Kept base count p h' users rs := by
  have hholds := hk.holds
  obtain ⟨h', hfree, hwf, hreserved, hmem⟩ :=
    hholds.bufs.wf.free (hholds.bufs.live r List.mem_cons_self)
  have hrpos : 0 < r.2 := (hholds.bufs.bounds List.mem_cons_self).2.1
  obtain ⟨hr, hrs⟩ := List.pairwise_cons.mp hholds.bufs.apart
  have hmiddle := (List.Perm.pairwise_iff Region.Apart.symm List.perm_middle).mp hholds.apart
  obtain ⟨hone, happart⟩ := List.pairwise_cons.mp hmiddle
  -- What else is in use is not the buffer that is freed.
  have hne : ∀ q ∈ (p.freeBlocks ++ users).map p.region ++ rs, q ≠ r :=
    fun q hq => ((hone q hq).ne hrpos).symm
  have hblock : ∀ b ∈ users, p.region b ≠ r := fun b hb =>
    hne _ (List.mem_append_left _ (List.mem_map_of_mem (List.mem_append_right _ hb)))
  have hbuf : ∀ q ∈ rs, q ≠ r := fun q hq => hne q (List.mem_append_right _ hq)
  refine ⟨h', hfree, ⟨hholds.accepted, hreserved ▸ hholds.arena, hholds.start, hholds.free,
    fun b hb => ?_, ⟨hwf, rfl, fun q hq => ?_, hrs⟩, happart⟩, hk.deque, fun q => ?_⟩
  · exact (hholds.used b hb).imp_right fun hl => (hmem _).mpr ⟨hl, hblock b hb⟩
  · exact (hmem q).mpr ⟨hholds.bufs.live q (List.mem_cons_of_mem _ hq), hbuf q hq⟩
  · rw [hmem q, hk.heap q, List.mem_cons]
    constructor
    · rintro ⟨hb | hq | hq, hqr⟩
      · exact Or.inl hb
      · exact absurd hq hqr
      · exact Or.inr hq
    · rintro (⟨b, hb, hout, rfl⟩ | hq)
      · exact ⟨Or.inl ⟨b, hb, hout, rfl⟩, hblock b hb⟩
      · exact ⟨Or.inr (Or.inr hq), hbuf q hq⟩

/-! ## The loops of `WriteBuffer::Clear` -/

theorem freeBlocks {blocks : List Nat} (hk : Kept base count p h (blocks ++ users) rs) :
    ∃ p' h', XfUtil.freeBlocks (some p) h blocks = some (some p', h') ∧
      p'.blockSize = p.blockSize ∧ Kept base count p' h' users rs := by
  induction blocks generalizing p h with
  | nil => exact ⟨p, h, rfl, rfl, hk⟩
  | cons b blocks ih =>
      obtain ⟨p₁, h₁, hfree, hsize₁, hk₁⟩ := hk.give
      obtain ⟨p', h', hloop, hsize, hk'⟩ := ih hk₁
      refine ⟨p', h', ?_, hsize.trans hsize₁, hk'⟩
      rw [XfUtil.freeBlocks, hfree, Option.bind_some, hloop]

theorem freeBufs {bufs : List Region} (hk : Kept base count p h users (bufs ++ rs)) :
    ∃ h', XfUtil.freeBufs h (bufs.map Prod.fst) = some h' ∧ Kept base count p h' users rs := by
  induction bufs generalizing h with
  | nil => exact ⟨h, rfl, hk⟩
  | cons r bufs ih =>
      obtain ⟨h₁, hfree, hk₁⟩ := hk.free
      obtain ⟨h', hloop, hk'⟩ := ih hk₁
      refine ⟨h', ?_, hk'⟩
      rw [List.map_cons, XfUtil.freeBufs, hfree, Option.bind_some, hloop]

end Kept

/-- The accounts of a pool that `Init` has set up. -/
theorem kept_init {blockSize cacheNum : BitVec 32} {buf : Nat} {p : BlockPool}
    (hinit : new.init blockSize cacheNum buf = (p, true)) {reserved : List Region}
    (harena : (buf, blockSize.toNat * cacheNum.toNat) ∈ reserved)
    (hend : buf + blockSize.toNat * cacheNum.toNat < 2 ^ 64) :
    p.blockSize = blockSize ∧ Kept buf cacheNum.toNat p ⟨reserved, []⟩ [] [] := by
  obtain ⟨hsize, hholds⟩ := holds_init hinit harena hend
  refine ⟨hsize, hholds, ?_, by simp⟩
  unfold init at hinit
  split at hinit
  · cases hinit
  · split at hinit
    · cases hinit
    · dsimp only at hinit
      split at hinit
      · cases hinit
      · cases hinit
        simp [pushBlocks_eq, new]

end BlockPool

end XfUtil
