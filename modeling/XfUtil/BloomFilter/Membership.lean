import XfUtil.BloomFilter.Model

/-!
# A filter knows every hash it was created from

Creation and checking walk over the same positions as long as they agree on the
number of bits: creation computes it from the number of keys, checking from the
length of the data.
-/

namespace XfUtil

open BitTable

namespace BloomFilter

variable {product : BitVec 32 → BitVec 32}

/-! ## Positions -/

/-- The positions of the probes for a hash. -/
def positions (totalBits : BitVec 64) : Nat → BitVec 32 → List Nat
  | 0, _ => []
  | j + 1, hc => (bitPos hc totalBits).toNat :: positions totalBits j (rotate hc)

theorem toNat_bitPos (hc : BitVec 32) (totalBits : BitVec 64) :
    (bitPos hc totalBits).toNat = hc.toNat % totalBits.toNat := by
  have hle : hc.toNat % totalBits.toNat ≤ hc.toNat := Nat.mod_le _ _
  have hlt := hc.isLt
  rw [bitPos, BitVec.toNat_setWidth, BitVec.toNat_umod, BitVec.toNat_setWidth_of_le (by decide),
    Nat.mod_eq_of_lt (by omega)]

theorem positions_lt {totalBits : BitVec 64} (h : 0 < totalBits.toNat) (k : Nat) (hc : BitVec 32) :
    ∀ p ∈ positions totalBits k hc, p < totalBits.toNat := by
  induction k generalizing hc with
  | zero => simp [positions]
  | succ k ih =>
      intro p hp
      rcases List.mem_cons.mp hp with rfl | hp
      · rw [toNat_bitPos]
        exact Nat.mod_lt _ h
      · exact ih (rotate hc) p hp

theorem insertLoop_eq (totalBits : BitVec 64) (k : Nat) (hc : BitVec 32)
    (data : List (BitVec 8)) :
    insertLoop totalBits k hc data = setAll data (positions totalBits k hc) := by
  induction k generalizing hc data with
  | zero => rfl
  | succ k ih => exact ih (rotate hc) _

theorem checkLoop_eq (data : List (BitVec 8)) (totalBits : BitVec 64) (k : Nat) (hc : BitVec 32) :
    checkLoop data totalBits k hc = hasAll data (positions totalBits k hc) := by
  induction k generalizing hc with
  | zero => rfl
  | succ k ih =>
      have htest := and_one_shiftLeft_eq_zero
        (data[(bitPos hc totalBits).toNat / 8]?.getD 0)
        (Nat.mod_lt (bitPos hc totalBits).toNat (by decide : 0 < 8))
      simp only [checkLoop, htest, ih, hasAll, positions, List.all_cons, bit]
      split <;> simp_all

/-! ## Creation -/

theorem length_resize (data : List (BitVec 8)) (n : Nat) : (resize data n).length = n := by
  simp [resize]
  omega

/-- The table after all hashes of a list. -/
def insertAll (totalBits : BitVec 64) (k : Nat) (hashs : List (BitVec 32))
    (data : List (BitVec 8)) : List (BitVec 8) :=
  hashs.foldl (fun data hc => insertLoop totalBits k hc data) data

theorem insertAll_map (totalBits : BitVec 64) (k : Nat) (hashPtr : Nat → BitVec 32)
    (is : List Nat) (data : List (BitVec 8)) :
    insertAll totalBits k (is.map hashPtr) data =
      is.foldl (fun data i => insertLoop totalBits k (hashPtr i) data) data := by
  rw [insertAll, List.foldl_map]

theorem length_insertAll (totalBits : BitVec 64) (k : Nat) (hashs : List (BitVec 32))
    (data : List (BitVec 8)) : (insertAll totalBits k hashs data).length = data.length := by
  induction hashs generalizing data with
  | nil => rfl
  | cons hc hashs ih =>
      rw [insertAll, List.foldl_cons, ← insertAll, ih, insertLoop_eq, length_setAll]

theorem popLoop_eq (totalBits : BitVec 64) (k : Nat) (hashs : List (BitVec 32))
    (data : List (BitVec 8)) :
    popLoop totalBits k hashs data = (insertAll totalBits k hashs data, []) := by
  induction hashs generalizing data with
  | nil => rfl
  | cons hc hashs ih => exact ih _

/-- Later hashes lose nothing, so a hash of the list or one known before is known after. -/
theorem hasAll_insertAll {totalBits : BitVec 64} {k : Nat} (hpos : 0 < totalBits.toNat)
    {data : List (BitVec 8)} (hdata : totalBits.toNat ≤ 8 * data.length)
    (hashs : List (BitVec 32)) (hc : BitVec 32)
    (h : hc ∈ hashs ∨ hasAll data (positions totalBits k hc) = true) :
    hasAll (insertAll totalBits k hashs data) (positions totalBits k hc) = true := by
  induction hashs generalizing data with
  | nil => simpa [insertAll] using h
  | cons hc' hashs ih =>
      have hrange : ∀ p ∈ positions totalBits k hc', p < 8 * data.length := by
        intro p hp
        exact (positions_lt hpos k hc' p hp).trans_le hdata
      rw [insertAll, List.foldl_cons, ← insertAll, insertLoop_eq]
      apply ih (by rwa [length_setAll])
      rcases h with h | h
      · rcases List.mem_cons.mp h with rfl | h
        · exact Or.inr (hasAll_setAll_self hrange)
        · exact Or.inl h
      · exact Or.inr (hasAll_setAll hrange h)

/-- The number of bits is that of a whole number of bytes, at least one. -/
theorem totalBytes_bounds {count bitnumPerkey : Nat} (hcount : 0 < count) (hc : count < 2 ^ 32)
    (hbit : 0 < bitnumPerkey) (hb : bitnumPerkey < 2 ^ 32) :
    (totalBytes (BitVec.ofNat 64 count) (BitVec.ofNat 32 bitnumPerkey)).toNat =
        (count * bitnumPerkey + 7) / 8 ∧
      0 < (count * bitnumPerkey + 7) / 8 ∧ (count * bitnumPerkey + 7) / 8 < 2 ^ 61 := by
  have hprod : count * bitnumPerkey ≤ (2 ^ 32 - 1) * (2 ^ 32 - 1) :=
    Nat.mul_le_mul (by omega) (by omega)
  have hpos : 0 < count * bitnumPerkey := Nat.mul_pos hcount hbit
  refine ⟨?_, by omega, by omega⟩
  rw [totalBytes, BitVec.toNat_udiv, BitVec.toNat_add, BitVec.toNat_mul,
    BitVec.toNat_setWidth, BitVec.toNat_ofNat, BitVec.toNat_ofNat,
    Nat.mod_eq_of_lt (show bitnumPerkey < 2 ^ 32 by omega),
    Nat.mod_eq_of_lt (show bitnumPerkey < 2 ^ 64 by omega),
    Nat.mod_eq_of_lt (show count < 2 ^ 64 by omega),
    Nat.mod_eq_of_lt (show count * bitnumPerkey < 2 ^ 64 by omega)]
  have hseven : (7 : BitVec 64).toNat = 7 := rfl
  have height : (8 : BitVec 64).toNat = 8 := rfl
  rw [hseven, height, Nat.mod_eq_of_lt (by omega)]

/-- The filter that either overload leaves. -/
def filled (f : BloomFilter product) (hashs : List (BitVec 32)) : BloomFilter product :=
  let bytes := totalBytes (BitVec.ofNat 64 hashs.length) f.bitnumPerkey
  { f with data := insertAll (bytes * 8) f.kNum.toNat hashs (resize f.data bytes.toNat) }

section

variable {f : BloomFilter product} {hashs : List (BitVec 32)} (hbit : f.bitnumPerkey ≠ 0)
  (hne : hashs ≠ []) (hlen : hashs.length < 2 ^ 32)

include hbit hne hlen

/-- Both sums stay below the width of their types. -/
theorem filled_sizes :
    0 < (totalBytes (BitVec.ofNat 64 hashs.length) f.bitnumPerkey).toNat ∧
      (totalBytes (BitVec.ofNat 64 hashs.length) f.bitnumPerkey * 8).toNat =
        8 * (totalBytes (BitVec.ofNat 64 hashs.length) f.bitnumPerkey).toNat := by
  have hpos : 0 < f.bitnumPerkey.toNat := by
    apply Nat.pos_of_ne_zero
    intro h
    exact hbit (BitVec.eq_of_toNat_eq (by simpa using h))
  obtain ⟨heq, hlow, hhigh⟩ := totalBytes_bounds (List.length_pos_of_ne_nil hne) hlen hpos
    f.bitnumPerkey.isLt
  rw [BitVec.ofNat_toNat, BitVec.setWidth_eq] at heq
  have height : (8 : BitVec 64).toNat = 8 := rfl
  rw [BitVec.toNat_mul, heq, height]
  exact ⟨hlow, by omega⟩

theorem totalBits_ne_zero :
    totalBytes (BitVec.ofNat 64 hashs.length) f.bitnumPerkey * 8 ≠ 0 := by
  obtain ⟨hpos, hbits⟩ := filled_sizes hbit hne hlen
  intro h
  rw [h] at hbits
  have hzero : (0 : BitVec 64).toNat = 0 := rfl
  omega

theorem create_eq {hashPtr : Nat → BitVec 32}
    (hptr : (List.range hashs.length).map hashPtr = hashs) :
    f.create hashPtr (BitVec.ofNat 32 hashs.length) = some (f.filled hashs, true) := by
  have hcount : (BitVec.ofNat 32 hashs.length).toNat = hashs.length := by
    rw [BitVec.toNat_ofNat, Nat.mod_eq_of_lt hlen]
  have hwide : (BitVec.ofNat 32 hashs.length).setWidth 64 = BitVec.ofNat 64 hashs.length := by
    apply BitVec.eq_of_toNat_eq
    rw [BitVec.toNat_setWidth, hcount, BitVec.toNat_ofNat]
  have hpos : 0 < hashs.length := List.length_pos_of_ne_nil hne
  have hzero : BitVec.ofNat 32 hashs.length ≠ 0 := by
    intro h
    rw [h] at hcount
    have hzero : (0 : BitVec 32).toNat = 0 := rfl
    omega
  rw [create, if_neg hzero]
  dsimp only
  rw [hwide, if_neg (totalBits_ne_zero hbit hne hlen), hcount, ← insertAll_map, hptr]
  rfl

theorem createDeque_eq : f.createDeque hashs = some (f.filled hashs, true, []) := by
  rw [createDeque, if_neg hne]
  dsimp only
  rw [if_neg (totalBits_ne_zero hbit hne hlen), popLoop_eq]
  rfl

theorem check_filled {hc : BitVec 32} (hmem : hc ∈ hashs) : (f.filled hashs).check hc = true := by
  obtain ⟨hpos, hbits⟩ := filled_sizes hbit hne hlen
  have hlength : (f.filled hashs).data.length =
      (totalBytes (BitVec.ofNat 64 hashs.length) f.bitnumPerkey).toNat := by
    rw [filled, length_insertAll, length_resize]
  have hdata : (f.filled hashs).data ≠ [] := List.ne_nil_of_length_pos (by omega)
  rw [check, if_neg hdata, hlength, BitVec.ofNat_toNat, BitVec.setWidth_eq, checkLoop_eq]
  apply hasAll_insertAll
  · omega
  · rw [length_resize, hbits]
  · exact Or.inl hmem

end

/-- What `Check` answers depends on the number of probes and the data alone. -/
theorem check_congr {f g : BloomFilter product} (hk : f.kNum = g.kNum) (hdata : f.data = g.data)
    (hc : BitVec 32) : f.check hc = g.check hc := by
  rw [check, check, hk, hdata]

/-- There are no false negatives: both overloads of `Create` leave the same filter,
whatever it held before, and the filter and every other one that its data is attached to
answer alike; for the hashes given the answer is true. -/
theorem check_of_create {f : BloomFilter product} (hbit : 1 ≤ f.bitnumPerkey)
    {hashs : List (BitVec 32)} (hne : hashs ≠ []) (hlen : hashs.length < 2 ^ 32)
    {hashPtr : Nat → BitVec 32} (hptr : (List.range hashs.length).map hashPtr = hashs) :
    ∃ f' : BloomFilter product,
      f.create hashPtr (BitVec.ofNat 32 hashs.length) = some (f', true) ∧
      f.createDeque hashs = some (f', true, []) ∧
      (∀ hc ∈ hashs, f'.check hc = true) ∧
      ∀ g : BloomFilter product, g.bitnumPerkey = f.bitnumPerkey →
        ∀ hc, (g.attach f'.data).check hc = f'.check hc := by
  have hbit' : f.bitnumPerkey ≠ 0 := by
    intro h
    rw [h] at hbit
    exact absurd hbit (by decide)
  refine ⟨f.filled hashs, create_eq hbit' hne hlen hptr, createDeque_eq hbit' hne hlen,
    fun hc => check_filled hbit' hne hlen, fun g hg hc => ?_⟩
  apply check_congr
  · show g.kNum = f.kNum
    rw [g.kNum_eq, f.kNum_eq, hg]
  · rfl

/-- Six probes for each key; the filter holds a byte from before. -/
theorem check_of_create_two :
    ∃ f' : BloomFilter fun _ => 6,
      (attach (new (fun _ => 6) 10) [0x81]).create (fun i => if i = 0 then 7 else 0x80000001) 2 =
        some (f', true) ∧
      (attach (new (fun _ => 6) 10) [0x81]).createDeque [7, 0x80000001] = some (f', true, []) ∧
      (∀ hc ∈ [7, 0x80000001], f'.check hc = true) ∧
      ∀ g : BloomFilter fun _ => 6, g.bitnumPerkey = 10 →
        ∀ hc, (g.attach f'.data).check hc = f'.check hc :=
  @check_of_create _ (attach (new (fun _ => 6) 10) [0x81]) (by decide) [7, 0x80000001]
    (by decide) (by decide) _ (by decide)

end BloomFilter

end XfUtil
