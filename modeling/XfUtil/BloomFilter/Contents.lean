import XfUtil.BloomFilter.Membership

/-!
# What a filter holds

Every bit of a filter is either one that a probe for a hash of the list has set, or one
that was there before: `Create` resizes the data and keeps what fits. On a fresh filter
only the set of hashes and their number matter.
-/

namespace XfUtil

open BitTable

namespace BloomFilter

variable {product : BitVec 32 → BitVec 32}

/-- The number of bits of a filter for so many keys. -/
def bitCount (count bitnumPerkey : Nat) : Nat := 8 * ((count * bitnumPerkey + 7) / 8)

/-- Some probe for some hash of the list goes to bit `p` of so many. -/
def Probed (kNum : Nat) (hashs : List (BitVec 32)) (totalBits p : Nat) : Prop :=
  ∃ hc ∈ hashs, ∃ j < kNum, p = (rotate^[j] hc).toNat % totalBits

/-! ## Bits -/

theorem mem_positions (totalBits : BitVec 64) (k : Nat) (hc : BitVec 32) (p : Nat) :
    p ∈ positions totalBits k hc ↔ ∃ j < k, p = (rotate^[j] hc).toNat % totalBits.toNat := by
  induction k generalizing hc with
  | zero => simp [positions]
  | succ k ih =>
      rw [positions, List.mem_cons, ih, toNat_bitPos]
      constructor
      · rintro (rfl | ⟨j, hj, rfl⟩)
        · exact ⟨0, Nat.succ_pos k, rfl⟩
        · exact ⟨j + 1, Nat.succ_lt_succ hj, rfl⟩
      · rintro ⟨j, hj, rfl⟩
        cases j with
        | zero => exact Or.inl rfl
        | succ j => exact Or.inr ⟨j, Nat.lt_of_succ_lt_succ hj, rfl⟩

theorem insertAll_eq_setAll (totalBits : BitVec 64) (k : Nat) (hashs : List (BitVec 32))
    (data : List (BitVec 8)) :
    insertAll totalBits k hashs data = setAll data (hashs.flatMap (positions totalBits k)) := by
  induction hashs generalizing data with
  | nil => rfl
  | cons hc hashs ih =>
      rw [insertAll, List.foldl_cons, ← insertAll, ih, insertLoop_eq, List.flatMap_cons,
        setAll_append]

theorem bit_insertAll {totalBits : BitVec 64} {data : List (BitVec 8)}
    (hpos : 0 < totalBits.toNat) (hdata : totalBits.toNat ≤ 8 * data.length) (k : Nat)
    (hashs : List (BitVec 32)) (p : Nat) :
    bit (insertAll totalBits k hashs data) p = true ↔
      bit data p = true ∨ Probed k hashs totalBits.toNat p := by
  have hrange : ∀ q ∈ hashs.flatMap (positions totalBits k), q < 8 * data.length := by
    intro q hq
    obtain ⟨hc, -, hq⟩ := List.mem_flatMap.mp hq
    exact (positions_lt hpos k hc q hq).trans_le hdata
  rw [insertAll_eq_setAll, bit_setAll hrange, Bool.or_eq_true, decide_eq_true_eq,
    List.mem_flatMap]
  simp only [mem_positions, Probed]

/-- What fits into the new size stays, and the rest of it is zero. -/
theorem bit_resize (data : List (BitVec 8)) (n p : Nat) :
    bit (resize data n) p = true ↔ p < 8 * n ∧ bit data p = true := by
  have hiff : p < 8 * n ↔ p / 8 < n := by omega
  unfold bit resize
  rw [hiff, List.getElem?_append, List.length_take]
  by_cases hn : p / 8 < n
  · by_cases hl : p / 8 < data.length
    · simp [hn, hl]
    · have hbehind : ¬ p / 8 < min n data.length := by omega
      simp only [hbehind, if_false, List.getElem?_replicate, List.getElem?_eq_none
        (Nat.not_lt.mp hl)]
      split <;> simp
  · have hbehind : ¬ p / 8 < min n data.length := by omega
    simp only [hn, hbehind, if_false, List.getElem?_replicate, false_and, iff_false]
    split <;> simp

section

variable {f : BloomFilter product} {hashs : List (BitVec 32)} (hbit : f.bitnumPerkey ≠ 0)
  (hne : hashs ≠ []) (hlen : hashs.length < 2 ^ 32)

include hbit hne hlen

theorem length_filled :
    8 * (f.filled hashs).data.length = bitCount hashs.length f.bitnumPerkey.toNat := by
  have hpos : 0 < f.bitnumPerkey.toNat := by
    apply Nat.pos_of_ne_zero
    intro h
    exact hbit (BitVec.eq_of_toNat_eq (by simpa using h))
  obtain ⟨heq, -⟩ := totalBytes_bounds (List.length_pos_of_ne_nil hne) hlen hpos
    f.bitnumPerkey.isLt
  rw [BitVec.ofNat_toNat, BitVec.setWidth_eq] at heq
  rw [filled, length_insertAll, length_resize, heq, bitCount]

theorem bit_filled (p : Nat) :
    bit (f.filled hashs).data p = true ↔
      (p < bitCount hashs.length f.bitnumPerkey.toNat ∧ bit f.data p = true) ∨
        Probed f.kNum.toNat hashs (bitCount hashs.length f.bitnumPerkey.toNat) p := by
  obtain ⟨hpos, hbits⟩ := filled_sizes hbit hne hlen
  have hlength := length_filled hbit hne hlen
  rw [filled, length_insertAll, length_resize] at hlength
  rw [filled]
  dsimp only
  rw [bit_insertAll (by omega) (by rw [length_resize, hbits]), bit_resize, hbits, hlength]

end

/-! ## Fresh filters -/

theorem ne_zero_of_one_le {b : BitVec 32} (h : 1 ≤ b) : b ≠ 0 := by
  rintro rfl
  exact absurd h (by decide)

section

variable {bitnumPerkey : BitVec 32} {hashs : List (BitVec 32)} (hbit : bitnumPerkey ≠ 0)
  (hne : hashs ≠ []) (hlen : hashs.length < 2 ^ 32)

include hbit hne hlen

theorem bit_filled_new (p : Nat) :
    bit ((new product bitnumPerkey).filled hashs).data p = true ↔
      Probed (probeCount product bitnumPerkey).toNat hashs
        (bitCount hashs.length bitnumPerkey.toNat) p := by
  have hnone : bit (new product bitnumPerkey).data p ≠ true := by simp [new, bit]
  rw [bit_filled hbit hne hlen]
  exact ⟨fun h => h.resolve_left fun hold => hnone hold.2, Or.inr⟩

theorem filled_new_of_perm {hashs' : List (BitVec 32)} (hperm : hashs'.Perm hashs) :
    (new product bitnumPerkey).filled hashs' = (new product bitnumPerkey).filled hashs := by
  have hne' : hashs' ≠ [] := fun h => hne (List.nil_perm.mp (h ▸ hperm))
  have hlen' : hashs'.length < 2 ^ 32 := hperm.length_eq ▸ hlen
  have hdata : ((new product bitnumPerkey).filled hashs').data =
      ((new product bitnumPerkey).filled hashs).data := by
    have hbits := length_filled (f := new product bitnumPerkey) hbit hne hlen
    have hbits' := length_filled (f := new product bitnumPerkey) hbit hne' hlen'
    rw [hperm.length_eq] at hbits'
    apply eq_of_bits (by omega)
    intro p _
    rw [Bool.eq_iff_iff, bit_filled_new hbit hne hlen, bit_filled_new hbit hne' hlen',
      hperm.length_eq]
    simp only [Probed, hperm.mem_iff]
  rw [filled, filled] at hdata ⊢
  congr 1

end

/-- On a fresh filter both overloads of `Create` leave the same data, which does not depend
on the order of the hashes: exactly the bits of the probes are set. -/
theorem builders_agree {bitnumPerkey : BitVec 32} (hbit : 1 ≤ bitnumPerkey)
    {hashs hashs' : List (BitVec 32)} (hne : hashs ≠ []) (hlen : hashs.length < 2 ^ 32)
    (hperm : hashs'.Perm hashs) {hashPtr hashPtr' : Nat → BitVec 32}
    (hptr : (List.range hashs.length).map hashPtr = hashs)
    (hptr' : (List.range hashs'.length).map hashPtr' = hashs') :
    ∃ g : BloomFilter product,
      (new product bitnumPerkey).create hashPtr (BitVec.ofNat 32 hashs.length) = some (g, true) ∧
      (new product bitnumPerkey).createDeque hashs = some (g, true, []) ∧
      (new product bitnumPerkey).create hashPtr' (BitVec.ofNat 32 hashs'.length) =
        some (g, true) ∧
      (new product bitnumPerkey).createDeque hashs' = some (g, true, []) ∧
      8 * g.data.length = bitCount hashs.length bitnumPerkey.toNat ∧
      ∀ p, bit g.data p = true ↔ Probed (probeCount product bitnumPerkey).toNat hashs
        (bitCount hashs.length bitnumPerkey.toNat) p := by
  have hbit' := ne_zero_of_one_le hbit
  have hne' : hashs' ≠ [] := fun h => hne (List.nil_perm.mp (h ▸ hperm))
  have hlen' : hashs'.length < 2 ^ 32 := hperm.length_eq ▸ hlen
  have hsame : (new product bitnumPerkey).filled hashs' = (new product bitnumPerkey).filled hashs :=
    filled_new_of_perm hbit' hne hlen hperm
  refine ⟨(new product bitnumPerkey).filled hashs, create_eq hbit' hne hlen hptr,
    createDeque_eq hbit' hne hlen, ?_, ?_, length_filled hbit' hne hlen,
    bit_filled_new hbit' hne hlen⟩
  · rw [← hsame]
    exact create_eq hbit' hne' hlen' hptr'
  · rw [← hsame]
    exact createDeque_eq hbit' hne' hlen'

/-- Two hashes in either order. -/
theorem builders_agree_two :
    ∃ g : BloomFilter fun _ => 6,
      (new (fun _ => 6) 10).create (fun i => if i = 0 then 7 else 9) 2 = some (g, true) ∧
      (new (fun _ => 6) 10).createDeque [7, 9] = some (g, true, []) ∧
      (new (fun _ => 6) 10).create (fun i => if i = 0 then 9 else 7) 2 = some (g, true) ∧
      (new (fun _ => 6) 10).createDeque [9, 7] = some (g, true, []) ∧
      8 * g.data.length = bitCount 2 10 ∧
      ∀ p, bit g.data p = true ↔ Probed 6 [7, 9] (bitCount 2 10) p :=
  @builders_agree (fun _ => 6) 10 (by decide) [7, 9] [9, 7] (by decide) (by decide) (by decide)
    _ _ (by decide) (by decide)

/-! ## Filters that are created again -/

/-- `resize` keeps the bytes of the first creation, so the second one leaves what it would
leave on a fresh filter exactly if it sets all the old bits that fit as well. -/
theorem rebuilt_iff {bitnumPerkey : BitVec 32} (hbit : 1 ≤ bitnumPerkey)
    {old hashs : List (BitVec 32)} (hold : old ≠ []) (holdlen : old.length < 2 ^ 32)
    (hne : hashs ≠ []) (hlen : hashs.length < 2 ^ 32) {oldPtr hashPtr : Nat → BitVec 32}
    (holdptr : (List.range old.length).map oldPtr = old)
    (hptr : (List.range hashs.length).map hashPtr = hashs) :
    ∃ f g fresh : BloomFilter product,
      (new product bitnumPerkey).create oldPtr (BitVec.ofNat 32 old.length) = some (f, true) ∧
      (new product bitnumPerkey).createDeque old = some (f, true, []) ∧
      f.create hashPtr (BitVec.ofNat 32 hashs.length) = some (g, true) ∧
      f.createDeque hashs = some (g, true, []) ∧
      (new product bitnumPerkey).create hashPtr (BitVec.ofNat 32 hashs.length) =
        some (fresh, true) ∧
      (new product bitnumPerkey).createDeque hashs = some (fresh, true, []) ∧
      (g.data = fresh.data ↔ ∀ p < bitCount hashs.length bitnumPerkey.toNat,
        Probed (probeCount product bitnumPerkey).toNat old
            (bitCount old.length bitnumPerkey.toNat) p →
          Probed (probeCount product bitnumPerkey).toNat hashs
            (bitCount hashs.length bitnumPerkey.toNat) p) := by
  have hbit' := ne_zero_of_one_le hbit
  let f : BloomFilter product := (new product bitnumPerkey).filled old
  have hf : f.bitnumPerkey ≠ 0 := hbit'
  refine ⟨f, f.filled hashs, (new product bitnumPerkey).filled hashs,
    create_eq hbit' hold holdlen holdptr, createDeque_eq hbit' hold holdlen,
    create_eq hf hne hlen hptr, createDeque_eq hf hne hlen, create_eq hbit' hne hlen hptr,
    createDeque_eq hbit' hne hlen, ?_⟩
  have hbits : ∀ p, bit (f.filled hashs).data p = true ↔ _ := bit_filled hf hne hlen
  have hfresh : ∀ p, bit ((new product bitnumPerkey).filled hashs).data p = true ↔ _ :=
    bit_filled_new hbit' hne hlen
  have hkept : ∀ p, bit f.data p = true ↔ _ := bit_filled_new hbit' hold holdlen
  constructor
  · intro heq p hp hprobed
    rw [← hfresh p, ← heq, hbits p]
    exact Or.inl ⟨hp, (hkept p).mpr hprobed⟩
  · intro hcover
    have hlength := length_filled hf hne hlen
    have hlength' := length_filled (f := new product bitnumPerkey) hbit' hne hlen
    apply eq_of_bits (by
      have hsame : f.bitnumPerkey = (new product bitnumPerkey).bitnumPerkey := rfl
      rw [hsame] at hlength
      omega)
    intro p _
    rw [Bool.eq_iff_iff, hbits p, hfresh p]
    constructor
    · rintro (⟨hp, hset⟩ | hprobed)
      · exact hcover p hp ((hkept p).mp hset)
      · exact hprobed
    · exact Or.inr

/-- Five probes that all go to bit 0, then five that all go to bit 7. -/
theorem rebuilt_iff_one :
    ∃ f g fresh : BloomFilter fun _ => 5,
      (new (fun _ => 5) 8).createDeque [0] = some (f, true, []) ∧
      f.createDeque [0xffffffff] = some (g, true, []) ∧
      (new (fun _ => 5) 8).createDeque [0xffffffff] = some (fresh, true, []) ∧
      (g.data = fresh.data ↔ ∀ p < bitCount 1 8,
        Probed 5 [0] (bitCount 1 8) p → Probed 5 [0xffffffff] (bitCount 1 8) p) := by
  obtain ⟨f, g, fresh, -, hf, -, hg, -, hfresh, hiff⟩ :=
    @rebuilt_iff (fun _ => 5) 8 (by decide) [0] [0xffffffff] (by decide) (by decide) (by decide)
      (by decide) (fun _ => 0) (fun _ => 0xffffffff) rfl rfl
  exact ⟨f, g, fresh, hf, hg, hfresh, hiff⟩

/-- The bit of the old hash is still set. -/
theorem rebuilding_keeps_bits :
    ∃ f g fresh : BloomFilter fun _ => 5,
      (new (fun _ => 5) 8).createDeque [0] = some (f, true, []) ∧
      f.createDeque [0xffffffff] = some (g, true, []) ∧
      (new (fun _ => 5) 8).createDeque [0xffffffff] = some (fresh, true, []) ∧
      g.data = [0x81] ∧ fresh.data = [0x80] :=
  ⟨_, _, _, rfl, rfl, rfl, by decide, by decide⟩

end BloomFilter

end XfUtil
