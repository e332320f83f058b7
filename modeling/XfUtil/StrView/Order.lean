import XfUtil.StrView.Model

/-!
# The order of views

`Compare` orders views as their bytes are ordered. Where it decides is where the longest
common prefix ends, and `==`, `StartWith` and `GetPrefixLength` say the same of it.
-/

namespace XfUtil

open FlatMemory Lexicographic

namespace Memcmp

/-- The difference of the first bytes that differ. -/
def firstDifference : List Byte → List Byte → Int
  | x :: xs, y :: ys => if x = y then firstDifference xs ys else (x.toNat : Int) - y.toNat
  | _, _ => 0

theorem firstDifference_append (front xs ys : List Byte) :
    firstDifference (front ++ xs) (front ++ ys) = firstDifference xs ys := by
  induction front with
  | nil => rfl
  | cons x front ih => rw [List.cons_append, List.cons_append, firstDifference, if_pos rfl, ih]

theorem firstDifference_cons {a b : Byte} (h : a.toNat ≠ b.toNat) (xs ys : List Byte) :
    firstDifference (a :: xs) (b :: ys) = (a.toNat : Int) - b.toNat :=
  if_neg fun heq => h (congrArg BitVec.toNat heq)

/-- An implementation. -/
def difference : Memcmp where
  run := firstDifference
  same := by
    intro xs
    have h := firstDifference_append xs [] []
    rwa [List.append_nil] at h
  below := by
    intro front a b xs ys h
    rw [firstDifference_append, firstDifference_cons (by omega)]
    omega
  above := by
    intro front a b xs ys h
    rw [firstDifference_append, firstDifference_cons (by omega)]
    omega

variable (memcmp : Memcmp)

/-- As many bytes are compared as lists of bytes are. -/
theorem run_cases {xs ys : List Byte} (h : xs.length = ys.length) :
    (xs < ys ∧ memcmp.run xs ys < 0) ∨ (xs = ys ∧ memcmp.run xs ys = 0) ∨
      (ys < xs ∧ 0 < memcmp.run xs ys) := by
  obtain ⟨front, xs', ys', rfl, rfl, -, hdiffer⟩ := split_commonPrefix xs ys
  rw [append_lt_append_iff rfl, append_lt_append_iff rfl]
  cases xs' with
  | nil =>
      obtain rfl : ys' = [] := by simpa using h
      exact Or.inr (Or.inl ⟨rfl, memcmp.same _⟩)
  | cons a xs' =>
      cases ys' with
      | nil => simp at h
      | cons b ys' =>
          have hne : a.toNat ≠ b.toNat := fun heq =>
            hdiffer a rfl b rfl (BitVec.eq_of_toNat_eq heq)
          rcases Nat.lt_or_gt_of_ne hne with hlt | hgt
          · exact Or.inl ⟨Or.inr ⟨rfl, List.cons_lt_cons_iff.mpr (Or.inl hlt)⟩,
              memcmp.below front xs' ys' hlt⟩
          · exact Or.inr (Or.inr ⟨Or.inr ⟨rfl, List.cons_lt_cons_iff.mpr (Or.inl hgt)⟩,
              memcmp.above front xs' ys' hgt⟩)

/-- Of as many bytes, those that differ are told apart. -/
theorem run_eq_zero_iff {xs ys : List Byte} (h : xs.length = ys.length) :
    memcmp.run xs ys = 0 ↔ xs = ys := by
  rcases memcmp.run_cases h with ⟨hlt, hneg⟩ | ⟨heq, hzero⟩ | ⟨hgt, hpos⟩
  · exact iff_of_false (by omega) fun heq => List.lt_irrefl _ (heq ▸ hlt)
  · exact iff_of_true hzero heq
  · exact iff_of_false (by omega) fun heq => List.lt_irrefl _ (heq ▸ hgt)

end Memcmp

namespace StrView

variable (memcmp : Memcmp) (m : Mem) (a b c : StrView)

@[simp] theorem length_bytes : (a.bytes m).length = a.size.toNat := read_length ..

/-! ## Comparing -/

theorem lt_iff_front {n : Nat} (hn : n = min a.size.toNat b.size.toNat) :
    a.bytes m < b.bytes m ↔ read m a.data n < read m b.data n ∨
      read m a.data n = read m b.data n ∧ a.size.toNat < b.size.toNat := by
  have hlt := lt_iff_take (a.bytes m) (b.bytes m) (n := n) (by rw [length_bytes, length_bytes, hn])
  rwa [length_bytes, length_bytes, bytes, bytes, read_take m a.data (by omega),
    read_take m b.data (by omega)] at hlt

/-- The first difference decides, or else the sizes. -/
theorem compare_cases :
    (a.bytes m < b.bytes m ∧ compare memcmp m a b < 0) ∨
      (a.bytes m = b.bytes m ∧ compare memcmp m a b = 0) ∨
      (b.bytes m < a.bytes m ∧ 0 < compare memcmp m a b) := by
  obtain ⟨n, hn⟩ : ∃ n, n = min a.size.toNat b.size.toNat := ⟨_, rfl⟩
  rw [lt_iff_front m a b hn, lt_iff_front m b a (hn.trans (Nat.min_comm ..)), compare, ← hn]
  rcases memcmp.run_cases (show (read m a.data n).length = (read m b.data n).length by
    rw [read_length, read_length]) with ⟨hlt, hneg⟩ | ⟨heq, hzero⟩ | ⟨hgt, hpos⟩
  · rw [if_neg (by omega)]
    exact Or.inl ⟨Or.inl hlt, hneg⟩
  · rw [if_pos hzero]
    rcases Nat.lt_trichotomy a.size.toNat b.size.toNat with hlt | hsame | hgt
    · rw [if_pos (BitVec.lt_def.mpr hlt)]
      exact Or.inl ⟨Or.inr ⟨heq, hlt⟩, by decide⟩
    · rw [if_neg (mt BitVec.lt_def.mp (by omega)), if_neg (mt BitVec.lt_def.mp (by omega)),
        bytes, bytes, ← hsame, show a.size.toNat = n by omega]
      exact Or.inr (Or.inl ⟨heq, hzero⟩)
    · rw [if_neg (mt BitVec.lt_def.mp (by omega)), if_pos (BitVec.lt_def.mpr hgt)]
      exact Or.inr (Or.inr ⟨Or.inr ⟨heq.symm, hgt⟩, by decide⟩)
  · rw [if_neg (by omega)]
    exact Or.inr (Or.inr ⟨Or.inl hgt, hpos⟩)

theorem compare_neg_iff : compare memcmp m a b < 0 ↔ a.bytes m < b.bytes m := by
  rcases compare_cases memcmp m a b with ⟨hlt, hneg⟩ | ⟨heq, hzero⟩ | ⟨hgt, hpos⟩
  · exact iff_of_true hneg hlt
  · exact iff_of_false (by omega) (heq ▸ List.lt_irrefl _)
  · exact iff_of_false (by omega) (List.lt_asymm hgt)

theorem compare_pos_iff : 0 < compare memcmp m a b ↔ b.bytes m < a.bytes m := by
  rcases compare_cases memcmp m a b with ⟨hlt, hneg⟩ | ⟨heq, hzero⟩ | ⟨hgt, hpos⟩
  · exact iff_of_false (by omega) (List.lt_asymm hlt)
  · exact iff_of_false (by omega) (heq ▸ List.lt_irrefl _)
  · exact iff_of_true hpos hgt

theorem compare_eq_zero_iff : compare memcmp m a b = 0 ↔ a.bytes m = b.bytes m := by
  rcases compare_cases memcmp m a b with ⟨hlt, hneg⟩ | ⟨heq, hzero⟩ | ⟨hgt, hpos⟩
  · exact iff_of_false (by omega) fun heq => List.lt_irrefl _ (heq ▸ hlt)
  · exact iff_of_true hzero heq
  · exact iff_of_false (by omega) fun heq => List.lt_irrefl _ (heq ▸ hgt)

theorem equals_iff : equals memcmp m a b = true ↔ a.bytes m = b.bytes m := by
  rw [equals, decide_eq_true_iff]
  constructor
  · intro h
    obtain ⟨hsize, hzero⟩ := h
    rw [← hsize] at hzero
    have heq := (memcmp.run_eq_zero_iff (by rw [read_length, read_length])).mp hzero
    rw [bytes, heq, bytes, hsize]
  · intro h
    have hsize : a.size = b.size := by
      apply BitVec.eq_of_toNat_eq
      rw [← length_bytes m a, h, length_bytes]
    refine ⟨hsize, ?_⟩
    rw [← hsize, memcmp.run_eq_zero_iff (by rw [read_length, read_length])]
    rw [bytes, bytes, ← hsize] at h
    exact h

/-! ## Prefixes -/

/-- The loop counts up to the first difference while the counter does not wrap. -/
theorem toNat_prefixLoop (data strData : Nat) (i : BitVec 32) (rounds : Nat)
    (h : i.toNat + rounds < 2 ^ 32) :
    (prefixLoop m data strData i rounds).toNat = i.toNat +
      commonPrefix (read m (data + i.toNat) rounds) (read m (strData + i.toNat) rounds) := by
  induction rounds generalizing i with
  | zero => rfl
  | succ rounds ih =>
      have hnext : (i + 1).toNat = i.toNat + 1 := by
        have hone : (1 : BitVec 32).toNat = 1 := rfl
        rw [BitVec.toNat_add, hone]
        omega
      rw [prefixLoop, FlatMemory.read, FlatMemory.read, commonPrefix]
      by_cases hbyte : m (data + i.toNat) = m (strData + i.toNat)
      · rw [if_neg (not_not.mpr hbyte), if_pos hbyte, ih _ (by omega), hnext, ← Nat.add_assoc,
          ← Nat.add_assoc]
        omega
      · rw [if_pos hbyte, if_neg hbyte, Nat.add_zero]

theorem toNat_getPrefixLength (ha : a.size.toNat < 2 ^ 32) :
    (getPrefixLength m a b).toNat = commonPrefix (a.bytes m) (b.bytes m) := by
  obtain ⟨hleft, hright⟩ := commonPrefix_le (a.bytes m) (b.bytes m)
  rw [length_bytes] at hleft hright
  have hmin : (BitVec.ofNat 32 (min a.size.toNat b.size.toNat)).toNat =
      min a.size.toNat b.size.toNat := by
    rw [BitVec.toNat_ofNat]
    omega
  have hzero : (0 : BitVec 32).toNat = 0 := rfl
  have hloop := toNat_prefixLoop m a.data b.data 0 (min a.size.toNat b.size.toNat) (by omega)
  rw [hzero, Nat.zero_add, Nat.add_zero, Nat.add_zero] at hloop
  rw [getPrefixLength, hmin, hloop, ← read_take m a.data (Nat.min_le_left ..),
    ← read_take m b.data (Nat.min_le_right ..)]
  exact commonPrefix_take _ _ (Nat.le_min.mpr ⟨hleft, hright⟩)

theorem startWith_iff :
    startWith memcmp m a b = true ↔ commonPrefix (a.bytes m) (b.bytes m) = b.size.toNat := by
  obtain ⟨hleft, hright⟩ := commonPrefix_le (a.bytes m) (b.bytes m)
  rw [length_bytes] at hleft hright
  have htake : b.size.toNat ≤ a.size.toNat →
      ((memcmp.run (read m a.data b.size.toNat) (read m b.data b.size.toNat) = 0) ↔
        b.size.toNat ≤ commonPrefix (a.bytes m) (b.bytes m)) := by
    intro hsize
    rw [memcmp.run_eq_zero_iff (by rw [read_length, read_length]),
      ← take_eq_take_iff (by rwa [length_bytes]) (by rw [length_bytes]), bytes, bytes,
      read_take m a.data hsize, read_take m b.data (Nat.le_refl _)]
  rw [startWith, decide_eq_true_iff, BitVec.le_def]
  constructor
  · intro h
    have hle := (htake h.1).mp h.2
    omega
  · intro h
    have hsize : b.size.toNat ≤ a.size.toNat := by omega
    exact ⟨hsize, (htake hsize).mpr (by omega)⟩

theorem getElem?_bytes {i : Nat} (h : i < a.size.toNat) :
    (a.bytes m)[i]? = some (m (a.data + i)) := by
  rw [bytes, read_eq_map, List.getElem?_map, List.getElem?_range h, Option.map_some]

/-- Where the common prefix ends the next bytes decide, or the sizes. -/
theorem lt_iff_at_prefix {p : Nat} (hp : p = commonPrefix (a.bytes m) (b.bytes m)) :
    (p < a.size.toNat → p < b.size.toNat → m (a.data + p) ≠ m (b.data + p) ∧
        (a.bytes m < b.bytes m ↔ (m (a.data + p)).toNat < (m (b.data + p)).toNat)) ∧
      (p = a.size.toNat ∨ p = b.size.toNat →
        (a.bytes m < b.bytes m ↔ a.size.toNat < b.size.toNat)) := by
  obtain ⟨front, xs, ys, hx, hy, hlength, hdiffer⟩ := split_commonPrefix (a.bytes m) (b.bytes m)
  have hsize : a.size.toNat = p + xs.length := by
    rw [← length_bytes m a, hx, List.length_append, hlength, hp]
  have hsize' : b.size.toNat = p + ys.length := by
    rw [← length_bytes m b, hy, List.length_append, hlength, hp]
  rw [← hp] at hlength
  constructor
  · intro hlt hlt'
    have hbyte := getElem?_bytes m a hlt
    have hbyte' := getElem?_bytes m b hlt'
    rw [hx, ← hlength, List.getElem?_append_right (Nat.le_refl _), Nat.sub_self] at hbyte
    rw [hy, ← hlength, List.getElem?_append_right (Nat.le_refl _), Nat.sub_self] at hbyte'
    obtain ⟨x, xs, rfl⟩ := List.exists_cons_of_ne_nil (l := xs) (by rintro rfl; simp at hbyte)
    obtain ⟨y, ys, rfl⟩ := List.exists_cons_of_ne_nil (l := ys) (by rintro rfl; simp at hbyte')
    have hfirst : x = m (a.data + p) := by
      rw [← hlength]
      exact Option.some.inj hbyte
    have hfirst' : y = m (b.data + p) := by
      rw [← hlength]
      exact Option.some.inj hbyte'
    have hne := hdiffer x rfl y rfl
    rw [← hfirst, ← hfirst', hx, hy, append_lt_append_iff rfl, List.cons_lt_cons_iff,
      BitVec.lt_def]
    refine ⟨hne, ?_⟩
    simp [hne]
  · intro hend
    rw [hx, hy, append_lt_append_iff rfl, hsize, hsize']
    rcases hend with hend | hend
    · obtain rfl : xs = [] := List.eq_nil_of_length_eq_zero (by omega)
      cases ys with
      | nil => simp
      | cons y ys => simp
    · obtain rfl : ys = [] := List.eq_nil_of_length_eq_zero (by omega)
      simp

/-! ## The order -/

/-- `Compare` is the order of the bytes, a total one, and zero where `==` is true. The
prefix length is that of the longest common prefix; there the bytes, or else the sizes,
decide, and it is the whole of the second view if the first one starts with that. -/
theorem compare_order (ha : a.size.toNat < 2 ^ 32) :
    (compare memcmp m a b < 0 ↔ a.bytes m < b.bytes m) ∧
      (0 < compare memcmp m a b ↔ b.bytes m < a.bytes m) ∧
      (compare memcmp m a b < 0 ↔ 0 < compare memcmp m b a) ∧
      (compare memcmp m a b ≤ 0 → compare memcmp m b c ≤ 0 → compare memcmp m a c ≤ 0) ∧
      (compare memcmp m a b < 0 → compare memcmp m b c < 0 → compare memcmp m a c < 0) ∧
      (compare memcmp m a b = 0 ↔ equals memcmp m a b = true) ∧
      let p := (getPrefixLength m a b).toNat
      (∀ k, k ≤ a.size.toNat ∧ k ≤ b.size.toNat ∧ (a.bytes m).take k = (b.bytes m).take k ↔
          k ≤ p) ∧
        (startWith memcmp m a b = true ↔ p = b.size.toNat) ∧
        (p < a.size.toNat → p < b.size.toNat → m (a.data + p) ≠ m (b.data + p) ∧
          (compare memcmp m a b < 0 ↔ (m (a.data + p)).toNat < (m (b.data + p)).toNat)) ∧
        (p = a.size.toNat ∨ p = b.size.toNat →
          (compare memcmp m a b < 0 ↔ a.size.toNat < b.size.toNat) ∧
            (0 < compare memcmp m a b ↔ b.size.toNat < a.size.toNat)) := by
  have hp := toNat_getPrefixLength m a b ha
  obtain ⟨hinside, hend⟩ := lt_iff_at_prefix m a b hp
  have hneg := compare_neg_iff memcmp m a b
  have hpos := compare_pos_iff memcmp m a b
  refine ⟨hneg, hpos, ?_, ?_, ?_, ?_, ?_, ?_, ?_, ?_⟩
  · rw [hneg, compare_pos_iff]
  · rw [← Int.not_lt, ← Int.not_lt, ← Int.not_lt, hpos, compare_pos_iff, compare_pos_iff]
    exact fun hab hbc => List.not_lt.mpr
      (List.le_trans (List.not_lt.mp hab) (List.not_lt.mp hbc))
  · rw [hneg, compare_neg_iff, compare_neg_iff]
    exact List.lt_trans
  · rw [compare_eq_zero_iff, equals_iff]
  · intro k
    obtain ⟨hleft, hright⟩ := commonPrefix_le (a.bytes m) (b.bytes m)
    rw [length_bytes, ← hp] at hleft hright
    constructor
    · intro h
      rw [hp, ← take_eq_take_iff (by rw [length_bytes]; exact h.1)
        (by rw [length_bytes]; exact h.2.1)]
      exact h.2.2
    · intro h
      refine ⟨by omega, by omega, ?_⟩
      rw [take_eq_take_iff (by rw [length_bytes]; omega) (by rw [length_bytes]; omega), ← hp]
      exact h
  · rw [startWith_iff, hp]
  · rw [hneg]
    exact hinside
  · intro h
    have hback := lt_iff_at_prefix m b a (hp.trans (commonPrefix_comm _ _))
    exact ⟨hneg.trans (hend h), hpos.trans (hback.2 h.symm)⟩

/-- With a high byte, a zero byte and a proper prefix. -/
theorem compare_order_sample :
    let m := write (fun _ => 0) 64 [0x61, 0x00, 0xC3, 0x61, 0x00, 0x7A, 0x62]
    0 < compare Memcmp.difference m ⟨64, 3⟩ ⟨67, 4⟩ ∧
      compare Memcmp.difference m ⟨64, 2⟩ ⟨67, 4⟩ < 0 ∧
      (startWith Memcmp.difference m ⟨67, 4⟩ ⟨64, 2⟩ = true ↔
        (getPrefixLength m ⟨67, 4⟩ ⟨64, 2⟩).toNat = 2) :=
  ⟨(compare_order Memcmp.difference _ ⟨64, 3⟩ ⟨67, 4⟩ ⟨67, 4⟩ (by decide)).2.1.mpr (by decide),
    (compare_order Memcmp.difference _ ⟨64, 2⟩ ⟨67, 4⟩ ⟨67, 4⟩ (by decide)).1.mpr (by decide),
    (compare_order Memcmp.difference _ ⟨67, 4⟩ ⟨64, 2⟩ ⟨67, 4⟩ (by decide)).2.2.2.2.2.2.2.1⟩

end StrView

end XfUtil
