import XfUtil.MemoryBlock.Slots
import XfUtil.MemoryPool.Model

/-!
# The blocks of a pool, side by side

One `MemoryAlloc` or `MemoryFree` touches one block. `Touches` says what that
leaves alone, so that every block apart from the one touched stays as it was.
-/

namespace XfUtil.MemoryPool

open FlatMemory Links

/-- The live elements in `[lo, lo + size)`. -/
def within (live : List Nat) (lo size : Nat) : List Nat :=
  live.filter fun e => lo ≤ e ∧ e < lo + size

theorem mem_within {live : List Nat} {lo size e : Nat} :
    e ∈ within live lo size ↔ e ∈ live ∧ lo ≤ e ∧ e < lo + size := by
  simp [within]

theorem within_cons_of_in {live : List Nat} {lo size e : Nat} (h : lo ≤ e ∧ e < lo + size) :
    within (e :: live) lo size = e :: within live lo size := by
  simp [within, h]

theorem within_cons_of_out {live : List Nat} {lo size e : Nat} (h : ¬ (lo ≤ e ∧ e < lo + size)) :
    within (e :: live) lo size = within live lo size := by
  exact List.filter_cons_of_neg (by simpa using h)

theorem within_erase (live : List Nat) (lo size e : Nat) :
    within (live.erase e) lo size = (within live lo size).erase e := by
  rw [within, within, List.erase_filter]

/-- The block at `lo` of `size` bytes, with the live elements in it, is in order. -/
structure BlockOk (m : Memory) (live : List Nat) (lo size es off cap : Nat) : Prop where
  room : (m.heads lo).blockSize.toNat ≤ size
  rep : ∃ chain carved,
    BlockRep m.words lo (m.heads lo) es off cap (within live lo size) chain carved

/-- Only the head at `lo`, words and live elements in `[lo, lo + size)` may differ. -/
structure Touches (m : Memory) (live : List Nat) (m' : Memory) (live' : List Nat)
    (lo size : Nat) : Prop where
  heads : ∀ b, b ≠ lo → m'.heads b = m.heads b
  words : ∀ x, ¬ (lo ≤ x ∧ x < lo + size) → m'.words x = m.words x
  live : ∀ b n, Apart b n lo size → within live' b n = within live b n

variable {m m' : Memory} {live live' : List Nat} {lo size es off cap : Nat}

theorem BlockOk.inside (h : BlockOk m live lo size es off cap) {e : Nat}
    (he : e ∈ within live lo size) :
    e ∈ slots (lo + off) es cap ∧ lo + memoryBlockHeadSize ≤ e ∧ e + es ≤ lo + size := by
  obtain ⟨chain, carved, hr⟩ := h.rep
  have hmem := hr.mem_slots (List.mem_append_left chain he)
  have hin := hr.layout.slot_inside hmem
  have hroom := h.room
  exact ⟨hmem, hin.1, by omega⟩

theorem BlockOk.apart (h : BlockOk m live lo size es off cap) {x y : Nat}
    (hx : x ∈ within live lo size) (hy : y ∈ within live lo size) (hne : x ≠ y) :
    Apart x es y es :=
  slots_apart (h.inside hx).1 (h.inside hy).1 hne

theorem BlockOk.other {b n off' cap' : Nat} (h : BlockOk m live b n es off' cap')
    (ht : Touches m live m' live' lo size) (hap : Apart b n lo size) (hne : b ≠ lo) :
    BlockOk m' live' b n es off' cap' := by
  obtain ⟨chain, carved, hr⟩ := h.rep
  have hhead := ht.heads b hne
  refine ⟨hhead ▸ h.room, chain, carved, ?_⟩
  rw [hhead, ht.live b n hap]
  refine hr.frame fun e he => ht.words e ?_
  have hin := hr.layout.slot_inside (hr.mem_slots (List.mem_append_right _ he))
  have hroom := h.room
  have hpos := hr.layout.pos
  unfold Apart at hap
  omega

/-- A client's write into a live element reaches no chained one. -/
theorem BlockOk.write (h : BlockOk m live lo size es off cap) (hes : 8 ≤ es) {e x : Nat}
    (he : e ∈ live) (hx : e < x + 8 ∧ x < e + es)
    (hother : ¬ (lo ≤ e ∧ e < lo + size) → Apart e es lo size) (value : Nat) :
    BlockOk { m with words := Function.update m.words x value } live lo size es off cap := by
  obtain ⟨chain, carved, hr⟩ := h.rep
  refine ⟨h.room, chain, carved, hr.frame fun c hc => Function.update_of_ne ?_ ..⟩
  rintro rfl
  have hc' := hr.mem_slots (List.mem_append_right _ hc)
  have hin := hr.layout.slot_inside hc'
  have hroom := h.room
  by_cases hr' : lo ≤ e ∧ e < lo + size
  · have he' : e ∈ within live lo size := mem_within.mpr ⟨he, hr'⟩
    have hne : e ≠ c := fun heq => (List.nodup_append.mp hr.nodup).2.2 e he' c hc heq
    have hap := slots_apart (h.inside he').1 hc' hne
    unfold Apart at hap
    omega
  · have hap := hother hr'
    unfold Apart at hap
    omega

theorem BlockOk.alloc (h : BlockOk m live lo size es off cap) :
    ((within live lo size).length = cap ∧
      memoryAlloc m.words lo (m.heads lo) = (0, m.heads lo)) ∨
    ∃ e h', memoryAlloc m.words lo (m.heads lo) = (e, h') ∧ e ≠ 0 ∧ e ∉ live ∧
      (within live lo size).length < cap ∧ lo ≤ e ∧ e < lo + size ∧
      h'.maxElementNum = (m.heads lo).maxElementNum ∧
      BlockOk (m.setHead lo h') (e :: live) lo size es off cap ∧
      Touches m live (m.setHead lo h') (e :: live) lo size := by
  obtain ⟨chain, carved, hr⟩ := h.rep
  have hroom := h.room
  have hpos := hr.layout.pos
  rcases hr.alloc with hfull |
    ⟨e, h', chain', carved', halloc, hne, hlt, hslot, hout, hsize, hmax, hr'⟩
  · exact Or.inl hfull
  · have hin := hr.layout.slot_inside hslot
    have hrange : lo ≤ e ∧ e < lo + size := by omega
    have hhead : (m.setHead lo h').heads lo = h' := Function.update_self ..
    refine Or.inr ⟨e, h', halloc, hne, fun hl => hout (mem_within.mpr ⟨hl, hrange⟩), hlt, hrange.1,
      hrange.2, hmax, ⟨?_, chain', carved', ?_⟩, fun b hb => Function.update_of_ne hb ..,
      fun _ _ => rfl, fun b n hap => within_cons_of_out ?_⟩
    · rw [hhead, hsize]
      exact hroom
    · rw [hhead, within_cons_of_in hrange]
      exact hr'
    · unfold Apart at hap
      omega

theorem BlockOk.free (h : BlockOk m live lo size es off cap) {e : Nat}
    (he : e ∈ within live lo size) :
    ∃ h' words', memoryFree m.words lo (m.heads lo) e =
        (if (within live lo size).length = 1 then 1
          else if (within live lo size).length = (m.heads lo).maxElementNum.toNat then 0 else -1,
          h', words') ∧
      h'.maxElementNum = (m.heads lo).maxElementNum ∧
      BlockOk { m.setHead lo h' with words := words' } (live.erase e) lo size es off cap ∧
      Touches m live { m.setHead lo h' with words := words' } (live.erase e) lo size := by
  obtain ⟨chain, carved, hr⟩ := h.rep
  obtain ⟨h', hfree, hsize, hmax, hr'⟩ := hr.free he
  have hrange := (mem_within.mp he).2
  have hhead : (m.setHead lo h').heads lo = h' := Function.update_self ..
  refine ⟨h', _, hfree, hmax, ⟨?_, e :: chain, carved, ?_⟩,
    fun b hb => Function.update_of_ne hb .., fun x hx => Function.update_of_ne ?_ ..,
    fun b n hap => ?_⟩
  · rw [hhead, hsize]
    exact h.room
  · rw [hhead, within_erase]
    exact hr'
  · rintro rfl
    exact hx hrange
  · rw [within_erase]
    refine List.erase_of_not_mem fun hmem => ?_
    have hout := (mem_within.mp hmem).2
    unfold Apart at hap
    omega

/-! ## Blocks as `Init` and `Alloc` set them up -/

theorem toNat_alignElement {n : BitVec 32} (hlo : 1 ≤ n.toNat) (hhi : n.toNat ≤ 4056) :
    8 ∣ (alignElement n).toNat ∧ 8 ≤ (alignElement n).toNat ∧ (alignElement n).toNat ≤ 4056 := by
  have height : (8#64) = BitVec.twoPow 64 3 := by decide
  have halign : (alignElement n).toNat = (n.toNat + 7) / 8 * 8 := by
    rw [alignElement, BitVec.toNat_setWidth, height, alignUp_twoPow _ (by decide),
      BitVec.toNat_setWidth]
    omega
  rw [halign]
  omega

/-- A block of the `BlockPool` has room for an element: its size is a multiple
of 4096, so the count of elements never wraps to zero. -/
theorem maxElementNum_pos {bs es : BitVec 32} (hbs : 4096 ≤ bs.toNat) (hdvd : 4096 ∣ bs.toNat)
    (hes : 8 ∣ es.toNat) (hlo : 8 ≤ es.toNat) (hhi : es.toNat ≤ 4056) :
    0 < (memoryBlockInit bs es).maxElementNum.toNat := by
  rw [toNat_maxElementNum (by simp [memoryBlockHeadSize]; omega)]
  refine Nat.pos_of_ne_zero fun hzero => ?_
  obtain ⟨k, hk⟩ := hdvd
  obtain ⟨e, he⟩ := hes
  have hdiv := Nat.div_add_mod (bs.toNat - memoryBlockHeadSize) es.toNat
  have hmod := Nat.mod_lt (bs.toNat - memoryBlockHeadSize) (by omega : 0 < es.toNat)
  obtain ⟨j, hj⟩ : 2 ^ 16 ∣ (bs.toNat - memoryBlockHeadSize) / es.toNat :=
    Nat.dvd_of_mod_eq_zero hzero
  rw [hj, he] at hdiv
  rw [he] at hmod
  have hprod : 8 * e * (2 ^ 16 * j) = 2 ^ 19 * (e * j) := by
    rw [show 2 ^ 19 = 8 * 2 ^ 16 from rfl, Nat.mul_assoc, Nat.mul_left_comm e, Nat.mul_assoc 8]
  simp only [memoryBlockHeadSize] at hdiv hmod hj
  generalize e * j = q at hprod
  omega

/-- A cache block too small, after truncation, for its own head: nothing is ever
carved from it. -/
theorem memoryBlockInit_degenerate {bs es : BitVec 32} (hbs : bs.toNat < memoryBlockHeadSize)
    (hdvd : 8 ∣ bs.toNat) (hes : 8 ∣ es.toNat) (hlo : 8 ≤ es.toNat) (hhi : es.toNat ≤ 4056) :
    bs.toNat ≤ (memoryBlockInit bs es).nextElementOffset.toNat := by
  have hsub : (bs.setWidth 64 - BitVec.ofNat 64 memoryBlockHeadSize).toNat =
      2 ^ 64 - 40 + bs.toNat := by
    simp only [memoryBlockHeadSize] at hbs ⊢
    rw [BitVec.toNat_sub, BitVec.toNat_setWidth, BitVec.toNat_ofNat]
    omega
  have hmax : (memoryBlockInit bs es).maxElementNum.toNat =
      (2 ^ 64 - 40 + bs.toNat) / es.toNat % 2 ^ 16 := by
    simp only [memoryBlockInit, BitVec.toNat_setWidth, BitVec.toNat_udiv, hsub]
    rw [Nat.mod_eq_of_lt (by omega : es.toNat < 2 ^ 64)]
  -- The count is far too large for the few elements that would fit below `bs`.
  have hbig : bs.toNat < (2 ^ 64 - 40 + bs.toNat) / es.toNat % 2 ^ 16 * es.toNat ∨
      32 < es.toNat := by
    obtain ⟨i, hi⟩ := hes
    obtain ⟨j, hj⟩ := hdvd
    rw [hi, hj]
    by_cases hsmall : i < 5
    · have hj5 : j < 5 := by
        simp only [memoryBlockHeadSize] at hbs
        omega
      have hall : ∀ i < 5, 0 < i → ∀ j < 5,
          8 * j < (2 ^ 64 - 40 + 8 * j) / (8 * i) % 2 ^ 16 * (8 * i) := by decide
      exact Or.inl (hall i hsmall (by omega) j hj5)
    · exact Or.inr (by omega)
  generalize (2 ^ 64 - 40 + bs.toNat) / es.toNat = q at hmax hbig
  have hprod : (memoryBlockInit bs es).maxElementNum.toNat * es.toNat < 2 ^ 32 := by
    rw [hmax]
    exact (Nat.mul_le_mul (Nat.le_of_lt_succ (Nat.mod_lt q (by decide))) hhi).trans_lt (by decide)
  have hwide : (memoryBlockInit bs es).maxElementNum.toNat % 2 ^ 32 =
      (memoryBlockInit bs es).maxElementNum.toNat := Nat.mod_eq_of_lt (by
    have := (memoryBlockInit bs es).maxElementNum.isLt
    omega)
  have hoff : (memoryBlockInit bs es).nextElementOffset.toNat =
      (2 ^ 32 - (memoryBlockInit bs es).maxElementNum.toNat * es.toNat + bs.toNat) % 2 ^ 32 := by
    show (bs - (memoryBlockInit bs es).maxElementNum.setWidth 32 * es).toNat = _
    rw [BitVec.toNat_sub, BitVec.toNat_mul, BitVec.toNat_setWidth, hwide, Nat.mod_eq_of_lt hprod]
  rw [hoff]
  have hcount : (memoryBlockInit bs es).maxElementNum.toNat * es.toNat = 0 ∨
      bs.toNat < (memoryBlockInit bs es).maxElementNum.toNat * es.toNat := by
    rw [hmax]
    rcases hbig with hbig | hbig
    · exact Or.inr hbig
    · rcases Nat.eq_zero_or_pos (q % 2 ^ 16) with hzero | hpos
      · exact Or.inl (by rw [hzero, Nat.zero_mul])
      · have hle : 1 * es.toNat ≤ q % 2 ^ 16 * es.toNat := Nat.mul_le_mul_right _ hpos
        simp only [memoryBlockHeadSize] at hbs
        exact Or.inr (by omega)
  omega

end XfUtil.MemoryPool
