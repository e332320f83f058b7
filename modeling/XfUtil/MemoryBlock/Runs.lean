import XfUtil.Base.Machine
import XfUtil.MemoryBlock.Slots

/-!
# A memory block in use

Any sequence of `MemoryAlloc`, of `MemoryFree` of live elements and of writes into
live elements, on a block that `MemoryBlockInit` has set up. The elements that are
handed out never overlap, each other or the head, and the counters tell how many
there are.
-/

namespace XfUtil

open FlatMemory Links

namespace MemoryBlock

/-! ## The machine -/

structure State where
  words : Nat → Nat
  head : MemoryBlockHead
  /-- The elements handed out and not freed since; ghost. -/
  live : List Nat

inductive Op where
  | alloc
  | free (element : Nat)
  /-- Write into an element; `data` is what the words that it meets are like afterwards. -/
  | write (element : Nat) (data : Nat → Nat)

/-- The words that the `size` bytes at `element` do not meet stay. -/
def overwrite (words data : Nat → Nat) (element size : Nat) : Nat → Nat := fun a =>
  if a + 8 ≤ element ∨ element + size ≤ a then words a else data a

/-- An operation on the block at `block`. Only live elements are freed or written to. -/
def step (block : Nat) : Machine.Step State Op
  | s, .alloc =>
      let (element, head) := memoryAlloc s.words block s.head
      some { s with head := head, live := if element = 0 then s.live else element :: s.live }
  | s, .free element =>
      if s.live.contains element then
        let (_, head, words) := memoryFree s.words block s.head element
        some ⟨words, head, s.live.erase element⟩
      else none
  | s, .write element data =>
      if s.live.contains element then
        some { s with words := overwrite s.words data element s.head.elementSize.toNat }
      else none

/-- `MemoryBlockInit` on any memory. -/
def init (blockSize elementSize : BitVec 32) (words : Nat → Nat) : State :=
  ⟨words, memoryBlockInit blockSize elementSize, []⟩

/-- The slots behind `next_element_offset`. -/
def uncarved (h : MemoryBlockHead) : Nat :=
  (h.blockSize.toNat - h.nextElementOffset.toNat) / h.elementSize.toNat

/-! ## The invariant -/

/-- The head of the block, of `blockSize` bytes cut into `cap` slots of `es` bytes from
offset `off` on, agrees with its memory and with what has been handed out. -/
structure Rep (block : Nat) (blockSize : BitVec 32) (es off cap : Nat) (s : State) : Prop where
  size : s.head.blockSize = blockSize
  max : s.head.maxElementNum.toNat = cap
  slots : ∃ chain carved, BlockRep s.words block s.head es off cap s.live chain carved

section

variable {block : Nat} {blockSize : BitVec 32} {es off cap : Nat} {s t : State}

/-- A write into a live element meets no other slot, so not the word of a chained one. -/
theorem overwrite_chain {words data : Nat → Nat} {h : MemoryBlockHead} {live chain : List Nat}
    {carved e : Nat} (hr : BlockRep words block h es off cap live chain carved) (hword : 8 ≤ es)
    (he : e ∈ live) : ∀ x ∈ chain, overwrite words data e es x = words x := by
  intro x hx
  have hne : x ≠ e := fun heq =>
    (List.nodup_append.mp hr.nodup).2.2 e he x hx heq.symm
  have hapart := slots_apart (hr.mem_slots (List.mem_append_right _ hx))
    (hr.mem_slots (List.mem_append_left _ he)) hne
  unfold Apart at hapart
  exact if_pos (by omega)

theorem Rep.step (hs : Rep block blockSize es off cap s) (hword : 8 ≤ es) {op : Op}
    (h : step block s op = some t) : Rep block blockSize es off cap t := by
  obtain ⟨hsize, hmax, chain, carved, hr⟩ := hs
  cases op with
  | alloc =>
      rcases hr.alloc with
        ⟨-, halloc⟩ | ⟨e, h', chain', carved', halloc, hne, -, -, -, hbs, hnum, hr'⟩
      · simp only [MemoryBlock.step, halloc, if_true] at h
        cases h
        exact ⟨hsize, hmax, chain, carved, hr⟩
      · simp only [MemoryBlock.step, halloc, if_neg hne] at h
        cases h
        exact ⟨hbs.trans hsize, hnum ▸ hmax, chain', carved', hr'⟩
  | free e =>
      by_cases he : e ∈ s.live
      · obtain ⟨h', hfree, hbs, hnum, hr'⟩ := hr.free he
        simp only [MemoryBlock.step, hfree, List.contains_iff_mem.mpr he, if_true] at h
        cases h
        exact ⟨hbs.trans hsize, hnum ▸ hmax, e :: chain, carved, hr'⟩
      · simp [MemoryBlock.step, he] at h
  | write e data =>
      by_cases he : e ∈ s.live
      · simp only [MemoryBlock.step, List.contains_iff_mem.mpr he, if_true] at h
        cases h
        rw [hr.layout.elementSize]
        exact ⟨hsize, hmax, chain, carved, hr.frame (overwrite_chain hr hword he)⟩
      · simp [MemoryBlock.step, he] at h

/-! ## What the invariant says -/

theorem carved_add_uncarved {words : Nat → Nat} {h : MemoryBlockHead} {live chain : List Nat}
    {carved : Nat} (hr : BlockRep words block h es off cap live chain carved) :
    carved + uncarved h = cap := by
  have hle := hr.carved_le
  have hlay := hr.layout
  have hrest : h.blockSize.toNat - h.nextElementOffset.toNat = (cap - carved) * es := by
    rw [hr.offset, Nat.sub_mul]
    rcases hlay.whole with ⟨hend, -⟩ | ⟨hcap, hend⟩
    · omega
    · subst hcap
      omega
  rw [uncarved, hrest, hlay.elementSize, Nat.mul_div_cancel _ hlay.pos]
  omega

theorem full_iff {words : Nat → Nat} {h : MemoryBlockHead} {live chain : List Nat} {carved : Nat}
    (hr : BlockRep words block h es off cap live chain carved)
    (hmax : h.maxElementNum.toNat = cap) :
    h.elementUsedCnt = h.maxElementNum ↔ live.length = cap := by
  rw [← BitVec.toNat_inj, hr.used, hmax]

/-- The elements that a block of `blockSize` bytes has handed out are apart, the counters
are right, and `MemoryAlloc` and `MemoryFree` tell when the block is full or empty. -/
structure Sound (block : Nat) (blockSize elementSize : BitVec 32) (s : State) : Prop where
  inside : ∀ e ∈ s.live,
    block + memoryBlockHeadSize ≤ e ∧ e + elementSize.toNat ≤ block + blockSize.toNat
  apart : s.live.Pairwise fun a b => Apart a elementSize.toNat b elementSize.toNat
  max : s.head.maxElementNum.toNat =
    (blockSize.toNat - memoryBlockHeadSize) / elementSize.toNat % 2 ^ 16
  counted : ∃ chain, Chain s.words s.head.nextElementPtr chain ∧
    s.live.length + chain.length + uncarved s.head = s.head.maxElementNum.toNat
  used : s.head.elementUsedCnt.toNat = s.live.length
  alloc : (memoryAlloc s.words block s.head).1 = 0 ↔ s.head.elementUsedCnt = s.head.maxElementNum
  free : ∀ e ∈ s.live, (memoryFree s.words block s.head e).1 =
    if s.live.erase e = [] then 1
    else if s.head.elementUsedCnt = s.head.maxElementNum then 0 else -1

theorem Rep.sound {elementSize : BitVec 32} (hbs : memoryBlockHeadSize ≤ blockSize.toNat)
    (hs : Rep block blockSize elementSize.toNat off
      (memoryBlockInit blockSize elementSize).maxElementNum.toNat s) :
    Sound block blockSize elementSize s := by
  obtain ⟨hsize, hmax, chain, carved, hr⟩ := hs
  have hslot : ∀ e ∈ s.live, e ∈ FlatMemory.slots (block + off) elementSize.toNat _ :=
    fun e he => hr.mem_slots (List.mem_append_left _ he)
  refine ⟨fun e he => ?_, ?_, hmax.trans (toNat_maxElementNum hbs), ⟨chain, hr.linked, ?_⟩,
    hr.used, ?_, fun e he => ?_⟩
  · rw [← hsize]
    exact hr.layout.slot_inside (hslot e he)
  · have hnodup : s.live.Nodup := (List.nodup_append.mp hr.nodup).1
    exact hnodup.imp_of_mem fun ha hb hne => slots_apart (hslot _ ha) (hslot _ hb) hne
  · rw [hr.live_add_chain, hmax, carved_add_uncarved hr]
  · rw [full_iff hr hmax]
    rcases hr.alloc with ⟨hfull, halloc⟩ | ⟨e, h', chain', carved', halloc, hne, hlt, -⟩
    · rw [halloc]
      exact iff_of_true rfl hfull
    · rw [halloc]
      exact iff_of_false hne hlt.ne
  · obtain ⟨h', hfree, -⟩ := hr.free he
    have hlast : s.live.erase e = [] ↔ s.live.length = 1 := by
      rw [← List.length_eq_zero_iff, List.length_erase_of_mem he]
      have hpos := List.length_pos_of_mem he
      omega
    rw [hfree, hmax]
    simp only [hlast, full_iff hr hmax]

/-- After any operations on a block that can hold its own head, whatever was written into
live elements in between. -/
theorem elements_apart {blockSize elementSize : BitVec 32}
    (hbs : memoryBlockHeadSize ≤ blockSize.toNat) (hpos : 0 < elementSize.toNat)
    (hdvd : 8 ∣ elementSize.toNat) {words : Nat → Nat} {ops : List Op}
    (hrun : Machine.run (MemoryBlock.step block) (init blockSize elementSize words) ops = some s) :
    Sound block blockSize elementSize s := by
  obtain ⟨hlayout, hoff⟩ := memoryBlockInit_layout hbs hpos
  have hinit : Rep block blockSize elementSize.toNat _
      (memoryBlockInit blockSize elementSize).maxElementNum.toNat
      (init blockSize elementSize words) :=
    ⟨rfl, rfl, [], 0, hlayout.fresh words block hoff rfl rfl⟩
  have hword : 8 ≤ elementSize.toNat := Nat.le_of_dvd hpos hdvd
  exact (Machine.run_invariant _ hinit (fun _ _ _ hs h => hs.step hword h) hrun).sound hbs

/-- Three slots are handed out, two are freed around a write into the third, and the last
one freed is handed out again. -/
theorem elements_apart_three : ∃ s,
    Machine.run (MemoryBlock.step 4096) (init 64 8 fun _ => 0)
        [.alloc, .alloc, .alloc, .free 4136, .write 4144 fun _ => 9, .free 4152, .alloc] = some s ∧
      s.live = [4152, 4144] ∧ Sound 4096 64 8 s := by
  obtain ⟨s, hs, hlive⟩ : ∃ s,
      Machine.run (MemoryBlock.step 4096) (init 64 8 fun _ => 0)
          [.alloc, .alloc, .alloc, .free 4136, .write 4144 fun _ => 9, .free 4152, .alloc] =
        some s ∧ s.live = [4152, 4144] := ⟨_, rfl, rfl⟩
  exact ⟨s, hs, hlive, elements_apart (by decide) (by decide) (by decide) hs⟩

end

end MemoryBlock

end XfUtil
