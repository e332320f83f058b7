import XfUtil.Hash.Polynomial

/-!
# Strings that differ in one word

With an odd seed every round of `Hash32` can be undone, so strings of one length that
differ in a single word, be it a whole one or the padded last one, never collide.
-/

namespace XfUtil

open FlatMemory

theorem word_inj {xs ys : List Byte} (hlen : xs.length = ys.length) (hfour : xs.length ≤ 4)
    (h : word xs = word ys) : xs = ys := by
  have hdigits := congrArg BitVec.toNat h
  rw [toNat_word hfour, toNat_word (hlen ▸ hfour)] at hdigits
  have hbyte : ∀ bs : List Byte, ∀ x ∈ bs.map BitVec.toNat, x < 256 := by
    intro bs x hx
    obtain ⟨b, -, rfl⟩ := List.mem_map.mp hx
    exact b.isLt
  have hmap : xs.map BitVec.toNat = ys.map BitVec.toNat := by
    apply Nat.ofDigits_inj_of_len_eq (by decide) _ (hbyte xs) (hbyte ys) hdigits
    rw [List.length_map, List.length_map, hlen]
  exact List.map_injective_iff.mpr (fun a b => BitVec.eq_of_toNat_eq) hmap

theorem read_eq_read_iff {m m' : Mem} {a a' n : Nat} :
    read m a n = read m' a' n ↔ ∀ j < n, m (a + j) = m' (a' + j) := by
  rw [read_eq_map, read_eq_map, List.map_inj_left]
  simp only [List.mem_range]

section

variable {m m' : Mem} {data data' : Nat} {len : BitVec 64} {seed : BitVec 32}

theorem hash32_eq_at (hfits : data + len.toNat + 4 < 2 ^ 64) {i : Nat} (hi : 4 * i < len.toNat) :
    hash32 m data len seed = Horner.eval seed (seed * BitVec.ofNat 32 len.toNat)
      (words (read m data (4 * i)) ++
        word (read m (data + 4 * i) (min 4 (len.toNat - 4 * i))) ::
          words (read m (data + 4 * i + 4) (len.toNat - 4 * i - 4))) := by
  rw [hash32_eq hfits, words_read m data hi]

theorem hash32_ne (hseed : seed.toNat % 2 = 1) (hfits : data + len.toNat + 4 < 2 ^ 64)
    (hfits' : data' + len.toNat + 4 < 2 ^ 64) {i : Nat}
    (hsame : ∀ j < len.toNat, j / 4 ≠ i → m (data + j) = m' (data' + j))
    (hdiff : ∃ j < len.toNat, m (data + j) ≠ m' (data' + j)) :
    hash32 m data len seed ≠ hash32 m' data' len seed := by
  obtain ⟨j, hj, hne⟩ := hdiff
  have hword : j / 4 = i := by
    by_contra hother
    exact hne (hsame j hj hother)
  have hi : 4 * i < len.toNat := by omega
  have hbefore : read m data (4 * i) = read m' data' (4 * i) :=
    read_eq_read_iff.mpr fun k hk => hsame k (by omega) (by omega)
  have hafter : read m (data + 4 * i + 4) (len.toNat - 4 * i - 4) =
      read m' (data' + 4 * i + 4) (len.toNat - 4 * i - 4) := by
    apply read_eq_read_iff.mpr
    intro k hk
    have hbyte := hsame (4 * i + 4 + k) (by omega) (by omega)
    simpa only [Nat.add_assoc] using hbyte
  rw [hash32_eq_at hfits hi, hash32_eq_at hfits' hi, hbefore, hafter]
  apply (Horner.word_bijective (Horner.isUnit_of_odd hseed) _ _ _).1.ne
  intro heq
  have hblock := read_eq_read_iff.mp (word_inj (by simp) (by simp) heq)
  have hbyte := hblock (j - 4 * i) (by omega)
  rw [Nat.add_assoc, Nat.add_assoc, show 4 * i + (j - 4 * i) = j by omega] at hbyte
  exact hne hbyte

/-- Writing a whole word changes nothing but that word of the hash. -/
theorem hash32_encodeFixed32 (hfits : data + len.toNat + 4 < 2 ^ 64) {i : Nat}
    (hi : 4 * i + 4 ≤ len.toNat) (w : BitVec 32) :
    hash32 (encodeFixed32 m (data + 4 * i) w).1 data len seed =
      Horner.eval seed (seed * BitVec.ofNat 32 len.toNat)
        (words (read m data (4 * i)) ++
          w :: words (read m (data + 4 * i + 4) (len.toNat - 4 * i - 4))) := by
  have hlength : (fixedBytes w 4).length = 4 := fixedBytes_length w 4
  have hblock := read_write_same m (data + 4 * i) (fixedBytes w 4)
  rw [hlength] at hblock
  rw [hash32_eq_at hfits (show 4 * i < len.toNat by omega), encodeFixed32, encodeFixed_eq]
  dsimp only
  rw [Nat.min_eq_left (by omega), hblock, word_fixedBytes,
    read_write_disjoint m _ (Or.inl (Nat.le_refl _)),
    read_write_disjoint m _ (Or.inr (by rw [hlength]))]

end

/-- For an odd seed, strings of one length that differ in one word only have different
hashes, and the hash is a bijection in every whole word. -/
theorem hash32_one_word {seed : BitVec 32} (hseed : seed.toNat % 2 = 1) (len : BitVec 64) :
    (∀ (m m' : Mem) (data data' i : Nat), data + len.toNat + 4 < 2 ^ 64 →
      data' + len.toNat + 4 < 2 ^ 64 →
      (∀ j < len.toNat, j / 4 ≠ i → m (data + j) = m' (data' + j)) →
      read m data len.toNat ≠ read m' data' len.toNat →
      hash32 m data len seed ≠ hash32 m' data' len seed) ∧
    ∀ (m : Mem) (data i : Nat), data + len.toNat + 4 < 2 ^ 64 → 4 * i + 4 ≤ len.toNat →
      Function.Bijective fun w => hash32 (encodeFixed32 m (data + 4 * i) w).1 data len seed := by
  constructor
  · intro m m' data data' i hfits hfits' hsame hdiff
    apply hash32_ne hseed hfits hfits' hsame
    by_contra hnone
    push Not at hnone
    exact hdiff (read_eq_read_iff.mpr hnone)
  · intro m data i hfits hi
    simp only [hash32_encodeFixed32 hfits hi]
    exact Horner.word_bijective (Horner.isUnit_of_odd hseed) _ _ _

/-- The default seed is odd. -/
theorem hash32_one_word_default :
    hash32 (write (fun _ => 0) 16 [1, 2, 3, 4, 5]) 16 5 defaultSeed ≠
        hash32 (write (fun _ => 0) 16 [1, 2, 3, 4, 6]) 16 5 defaultSeed ∧
      Function.Bijective fun w =>
        hash32 (encodeFixed32 (fun _ => 0) (16 + 4 * 0) w).1 16 5 defaultSeed := by
  have hodd := @hash32_one_word defaultSeed (by decide) 5
  refine ⟨hodd.1 _ _ 16 16 1 (by decide) (by decide) (by decide) (by decide),
    hodd.2 _ 16 0 (by decide) (by decide)⟩

end XfUtil
