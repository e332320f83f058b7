import XfUtil.Base.Links
import XfUtil.Base.Slots
import XfUtil.MemoryBlock.Model

/-!
# The slots of a memory block

The last `cap * es` bytes of a block are its slots. `BlockRep` says that the
carved ones are exactly the live and the chained elements; `MemoryAlloc` and
`MemoryFree` move one element between the two.
-/

namespace XfUtil

open FlatMemory Links

/-- The block's `cap` slots of `es` bytes begin at offset `off` and end with the
block, or there are none and nothing can be carved. -/
structure Layout (h : MemoryBlockHead) (es off cap : Nat) : Prop where
  elementSize : h.elementSize.toNat = es
  pos : 0 < es
  count : cap < 2 ^ 16
  whole : off + cap * es = h.blockSize.toNat ∧ memoryBlockHeadSize ≤ off ∨
    cap = 0 ∧ h.blockSize.toNat ≤ off

/-- The block at `block` has handed out `live`, chains the free elements `chain`
and has carved its first `carved` slots. -/
structure BlockRep (words : Nat → Nat) (block : Nat) (h : MemoryBlockHead) (es off cap : Nat)
    (live chain : List Nat) (carved : Nat) : Prop where
  layout : Layout h es off cap
  carved_le : carved ≤ cap
  offset : h.nextElementOffset.toNat = off + carved * es
  used : h.elementUsedCnt.toNat = live.length
  linked : Chain words h.nextElementPtr chain
  perm : (live ++ chain).Perm (slots (block + off) es carved)

/-! ## Initialisation -/

theorem toNat_maxElementNum {bs es : BitVec 32} (hbs : memoryBlockHeadSize ≤ bs.toNat) :
    (memoryBlockInit bs es).maxElementNum.toNat =
      (bs.toNat - memoryBlockHeadSize) / es.toNat % 2 ^ 16 := by
  have hlt := bs.isLt
  have hes := es.isLt
  have hsub : (bs.setWidth 64 - BitVec.ofNat 64 memoryBlockHeadSize).toNat =
      bs.toNat - memoryBlockHeadSize := by
    rw [BitVec.toNat_sub_of_le]
    · simp [memoryBlockHeadSize]
      omega
    · rw [BitVec.le_def]
      simp [memoryBlockHeadSize] at hbs ⊢
      omega
  simp only [memoryBlockInit, BitVec.toNat_setWidth, BitVec.toNat_udiv, hsub]
  rw [Nat.mod_eq_of_lt (by omega : es.toNat < 2 ^ 64)]

/-- A block that can hold its own head is cut into whole slots at its end. -/
theorem memoryBlockInit_layout {bs es : BitVec 32} (hbs : memoryBlockHeadSize ≤ bs.toNat)
    (hes : 0 < es.toNat) :
    let h := memoryBlockInit bs es
    Layout h es.toNat (bs.toNat - h.maxElementNum.toNat * es.toNat) h.maxElementNum.toNat ∧
      h.nextElementOffset.toNat = bs.toNat - h.maxElementNum.toNat * es.toNat := by
  intro h
  have hmax : h.maxElementNum.toNat = _ := toNat_maxElementNum hbs
  have hfit : h.maxElementNum.toNat * es.toNat ≤ bs.toNat - memoryBlockHeadSize := by
    rw [hmax]
    exact (Nat.mul_le_mul_right _ (Nat.mod_le _ _)).trans (Nat.div_mul_le_self _ _)
  have hlt := bs.isLt
  have hprod : (h.maxElementNum.setWidth 32 * es).toNat = h.maxElementNum.toNat * es.toNat := by
    have hnum := h.maxElementNum.isLt
    have hwide : h.maxElementNum.toNat % 2 ^ 32 = h.maxElementNum.toNat :=
      Nat.mod_eq_of_lt (by omega)
    rw [BitVec.toNat_mul, BitVec.toNat_setWidth, hwide, Nat.mod_eq_of_lt (by omega)]
  refine ⟨⟨rfl, hes, h.maxElementNum.isLt, Or.inl ⟨?_, ?_⟩⟩, ?_⟩
  · show _ = bs.toNat
    omega
  · omega
  · show (bs - h.maxElementNum.setWidth 32 * es).toNat = _
    rw [BitVec.toNat_sub_of_le (by rw [BitVec.le_def, hprod]; omega), hprod]

theorem Layout.fresh {h : MemoryBlockHead} {es off cap : Nat} (hl : Layout h es off cap)
    (words : Nat → Nat) (block : Nat) (hoff : h.nextElementOffset.toNat = off)
    (hused : h.elementUsedCnt = 0) (hptr : h.nextElementPtr = 0) :
    BlockRep words block h es off cap [] [] 0 :=
  ⟨hl, Nat.zero_le _, by simp [hoff], by simp [hused], hptr, by simp⟩

/-! ## The operations -/

variable {words words' : Nat → Nat} {block : Nat} {h : MemoryBlockHead} {es off cap carved : Nat}
  {live chain : List Nat}

/-- Only the words of chained elements matter. -/
theorem BlockRep.frame (hr : BlockRep words block h es off cap live chain carved)
    (hsame : ∀ e ∈ chain, words' e = words e) :
    BlockRep words' block h es off cap live chain carved :=
  { hr with linked := hr.linked.frame hsame }

theorem BlockRep.nodup (hr : BlockRep words block h es off cap live chain carved) :
    (live ++ chain).Nodup :=
  hr.perm.nodup_iff.mpr (slots_nodup hr.layout.pos)

theorem BlockRep.mem_slots (hr : BlockRep words block h es off cap live chain carved) {e : Nat}
    (he : e ∈ live ++ chain) : e ∈ slots (block + off) es cap :=
  slots_subset hr.carved_le (hr.perm.subset he)

theorem BlockRep.live_add_chain (hr : BlockRep words block h es off cap live chain carved) :
    live.length + chain.length = carved := by
  simpa using hr.perm.length_eq

theorem Layout.slot_inside (hl : Layout h es off cap) {e : Nat}
    (he : e ∈ slots (block + off) es cap) :
    block + memoryBlockHeadSize ≤ e ∧ e + es ≤ block + h.blockSize.toNat := by
  have hin := slots_inside he
  rcases hl.whole with ⟨hend, hpast⟩ | ⟨hcap, -⟩
  · omega
  · subst hcap
    simp at he

theorem Layout.exhausted (hl : Layout h es off cap)
    (hoff : h.nextElementOffset.toNat = off + cap * es) : ¬ h.nextElementOffset < h.blockSize := by
  rw [BitVec.lt_def, hoff]
  rcases hl.whole with ⟨hend, -⟩ | ⟨-, hend⟩
  · omega
  · omega

theorem BlockRep.no_slot (hr : BlockRep words block h es off cap live chain carved)
    (hlen : live.length = cap) :
    h.nextElementPtr = 0 ∧ ¬ h.nextElementOffset < h.blockSize := by
  have hsum := hr.live_add_chain
  have hle := hr.carved_le
  have hcarved : carved = cap := by omega
  have hchain : chain = [] := List.length_eq_zero_iff.mp (by omega)
  have hoff := hr.offset
  rw [hcarved] at hoff
  exact ⟨hr.linked.eq_zero_iff.mpr hchain, hr.layout.exhausted hoff⟩

/-- `MemoryAlloc` hands out a slot that is not live, and fails exactly when all are. -/
theorem BlockRep.alloc (hr : BlockRep words block h es off cap live chain carved) :
    (live.length = cap ∧ memoryAlloc words block h = (0, h)) ∨
    ∃ e h' chain' carved', memoryAlloc words block h = (e, h') ∧ e ≠ 0 ∧ live.length < cap ∧
      e ∈ slots (block + off) es cap ∧ e ∉ live ∧ h'.blockSize = h.blockSize ∧
      h'.maxElementNum = h.maxElementNum ∧
      BlockRep words block h' es off cap (e :: live) chain' carved' := by
  have hsum := hr.live_add_chain
  have hle := hr.carved_le
  have hcount := hr.layout.count
  have hused : live.length < cap → (h.elementUsedCnt + 1).toNat = live.length + 1 := by
    intro hlt
    rw [BitVec.toNat_add, hr.used]
    exact Nat.mod_eq_of_lt (by simp; omega)
  cases chain with
  | cons e chain =>
      obtain ⟨hptr, hne, htail⟩ := hr.linked
      have hmem : e ∈ slots (block + off) es cap := hr.mem_slots (by simp)
      have hlive : e ∉ live := fun hl => (List.nodup_append.mp hr.nodup).2.2 e hl e (by simp) rfl
      rw [List.length_cons] at hsum
      refine Or.inr ⟨e, { h with
        nextElementPtr := words e
        elementUsedCnt := h.elementUsedCnt + 1 }, chain, carved, ?_, hne, by omega, hmem, hlive,
        rfl, rfl, ?_⟩
      · simp [memoryAlloc, hptr, hne]
      · exact ⟨⟨hr.layout.elementSize, hr.layout.pos, hcount, hr.layout.whole⟩, hle, hr.offset,
          hused (by omega), htail, List.perm_middle.symm.trans hr.perm⟩
  | nil =>
      have hptr : h.nextElementPtr = 0 := hr.linked
      simp only [List.length_nil, Nat.add_zero] at hsum
      by_cases hroom : carved < cap
      · -- The next uncarved slot.
        obtain ⟨hend, hpast⟩ : off + cap * es = h.blockSize.toNat ∧ memoryBlockHeadSize ≤ off := by
          rcases hr.layout.whole with hw | ⟨hcap, -⟩
          · exact hw
          · omega
        have hstep : off + (carved + 1) * es ≤ h.blockSize.toNat := by
          rw [← hend]
          exact Nat.add_le_add_left (Nat.mul_le_mul_right es hroom) off
        rw [Nat.add_mul, Nat.one_mul] at hstep
        have hpos := hr.layout.pos
        have hlt : h.nextElementOffset < h.blockSize := by
          rw [BitVec.lt_def, hr.offset]
          omega
        have hmem : block + off + carved * es ∈ slots (block + off) es cap :=
          FlatMemory.mem_slots.mpr ⟨carved, hroom, rfl⟩
        have hlive : block + off + carved * es ∉ live := by
          intro hl
          obtain ⟨i, hi, heq⟩ :=
            FlatMemory.mem_slots.mp (hr.perm.subset (List.mem_append_left _ hl))
          have : carved = i := Nat.eq_of_mul_eq_mul_right hpos (Nat.add_left_cancel heq)
          omega
        refine Or.inr ⟨block + off + carved * es, { h with
          nextElementOffset := h.nextElementOffset + h.elementSize
          elementUsedCnt := h.elementUsedCnt + 1 }, [], carved + 1, ?_, ?_, by omega, hmem, hlive,
          rfl, rfl, ?_⟩
        · simp [memoryAlloc, hptr, hlt, hr.offset, Nat.add_assoc]
        · simp only [memoryBlockHeadSize] at hpast
          omega
        · refine ⟨⟨hr.layout.elementSize, hpos, hcount, hr.layout.whole⟩, hroom, ?_,
            hused (by omega), hptr, ?_⟩
          · show (h.nextElementOffset + h.elementSize).toNat = _
            have hbs := h.blockSize.isLt
            rw [BitVec.toNat_add, hr.offset, hr.layout.elementSize, Nat.add_mul]
            exact (Nat.mod_eq_of_lt (by omega)).trans (by omega)
          · have hperm := hr.perm
            rw [List.append_nil] at hperm ⊢
            rw [slots_succ]
            exact (hperm.cons _).trans (List.perm_append_singleton _ _).symm
      · have hlen : live.length = cap := by omega
        obtain ⟨-, hfull⟩ := hr.no_slot hlen
        refine Or.inl ⟨hlen, ?_⟩
        simp [memoryAlloc, hptr, hfull]

/-- `MemoryFree` of a live element chains it, and tells whether the block is
empty now or was full before. -/
theorem BlockRep.free (hr : BlockRep words block h es off cap live chain carved) {e : Nat}
    (he : e ∈ live) :
    ∃ h', memoryFree words block h e =
        (if live.length = 1 then 1 else if live.length = h.maxElementNum.toNat then 0 else -1,
          h', Function.update words e h.nextElementPtr) ∧
      h'.blockSize = h.blockSize ∧ h'.maxElementNum = h.maxElementNum ∧
      BlockRep (Function.update words e h.nextElementPtr) block h' es off cap (live.erase e)
        (e :: chain) carved := by
  have hin := hr.layout.slot_inside (hr.mem_slots (List.mem_append_left _ he))
  have hpos := hr.layout.pos
  have hone : 0 < live.length := List.length_pos_of_mem he
  have hused : (h.elementUsedCnt - 1).toNat = live.length - 1 := by
    rw [BitVec.toNat_sub_of_le, hr.used]
    · rfl
    · rw [BitVec.le_def, hr.used]
      exact hone
  have hempty : h.elementUsedCnt - 1 = 0 ↔ live.length = 1 := by
    rw [← BitVec.toNat_inj, hused]
    simp
    omega
  have hfull : ((live.length - 1 : Nat) : Int) = h.maxElementNum.toNat - 1 ↔
      live.length = h.maxElementNum.toNat := by omega
  have hchain : e ∉ chain := fun hc => (List.nodup_append.mp hr.nodup).2.2 e he e hc rfl
  refine ⟨{ h with
    nextElementPtr := e
    elementUsedCnt := h.elementUsedCnt - 1 }, ?_, rfl, rfl, ?_⟩
  · have hrange : ¬ (e < block ∨ block + h.blockSize.toNat ≤ e) := by omega
    simp only [memoryFree, if_neg hrange, hused, hempty, hfull]
  · refine ⟨⟨hr.layout.elementSize, hpos, hr.layout.count, hr.layout.whole⟩, hr.carved_le,
      hr.offset, ?_, ⟨rfl, ?_, ?_⟩, ?_⟩
    · rw [List.length_erase_of_mem he]
      exact hused
    · simp only [memoryBlockHeadSize] at hin
      omega
    · rw [Function.update_self]
      refine hr.linked.frame fun x hx => Function.update_of_ne ?_ ..
      rintro rfl
      exact hchain hx
    · exact (List.perm_middle.trans ((List.perm_cons_erase he).symm.append_right chain)).trans
        hr.perm

end XfUtil
