import Mathlib.Algebra.Order.Ring.Int
import Mathlib.Data.List.Induction
import Mathlib.Data.List.TakeWhile
import XfUtil.Base.Format
import XfUtil.Base.Lexicographic

/-!
# Decimal numbers in text

`strtol` reads digits up to the first other character, and `%0wu` prints a number with
leading zeros. What is printed in the width of a string of digits is that string.
-/

namespace Decimal

open FlatMemory

def zero : Byte := 0x30#8
def plus : Byte := 0x2B#8
def minus : Byte := 0x2D#8

def IsDigit (b : Byte) : Prop := 0x30 ≤ b.toNat ∧ b.toNat ≤ 0x39

instance (b : Byte) : Decidable (IsDigit b) := inferInstanceAs (Decidable (_ ∧ _))

/-- `isspace` of the C locale. -/
def IsSpace (b : Byte) : Prop := b.toNat = 0x20 ∨ (0x09 ≤ b.toNat ∧ b.toNat ≤ 0x0D)

instance (b : Byte) : Decidable (IsSpace b) := inferInstanceAs (Decidable (_ ∨ _))

/-- The number that a string of digits denotes. -/
def number (bs : List Byte) : Nat := bs.foldl (fun n b => 10 * n + (b.toNat - 0x30)) 0

/-- A `long` as near to the number as there is one. -/
def clamp (n : Int) : Int := max (-2 ^ 63) (min n (2 ^ 63 - 1))

/-- `strtol(text, nullptr, 10)` on bytes in front of a terminator; a zero ends a number too. -/
def strtol (text : List Byte) : Int :=
  match text.dropWhile fun b => decide (IsSpace b) with
  | [] => 0
  | b :: rest =>
      if b = minus then clamp (-number (rest.takeWhile fun b => decide (IsDigit b)))
      else if b = plus then clamp (number (rest.takeWhile fun b => decide (IsDigit b)))
      else clamp (number ((b :: rest).takeWhile fun b => decide (IsDigit b)))

/-- `%0wu` for the width `w`. -/
def padded (width n : Nat) : List Byte :=
  List.replicate (width - (Format.decimal n).length) zero ++ Format.decimal n

/-- `%0wd` for the width `w`; the sign counts. -/
def paddedInt (width : Nat) (n : Int) : List Byte :=
  if n < 0 then minus :: padded (width - 1) n.natAbs else padded width n.natAbs

example : padded 4 42 = [0x30, 0x30, 0x34, 0x32] := by decide

theorem IsDigit.not_space {b : Byte} (h : IsDigit b) : ¬ IsSpace b := by
  unfold IsDigit at h
  unfold IsSpace
  omega

theorem IsDigit.ne_sign {b : Byte} (h : IsDigit b) : b ≠ minus ∧ b ≠ plus := by
  constructor
  · rintro rfl
    exact absurd h (by decide)
  · rintro rfl
    exact absurd h (by decide)

theorem zero_not_mem_padded (width n : Nat) : 0#8 ∉ padded width n := by
  rw [padded, List.mem_append, not_or]
  refine ⟨fun hmem => ?_, Format.zero_not_mem_decimal n⟩
  exact absurd (List.eq_of_mem_replicate hmem) (by decide)

theorem zero_not_mem_paddedInt (width : Nat) (n : Int) : 0#8 ∉ paddedInt width n := by
  unfold paddedInt
  split
  · rw [List.mem_cons, not_or]
    exact ⟨by decide, zero_not_mem_padded _ _⟩
  · exact zero_not_mem_padded _ _

/-! ## Numbers -/

theorem number_snoc (bs : List Byte) (b : Byte) :
    number (bs ++ [b]) = 10 * number bs + (b.toNat - 0x30) :=
  List.foldl_append

theorem number_lt {bs : List Byte} (h : ∀ b ∈ bs, IsDigit b) : number bs < 10 ^ bs.length := by
  induction bs using List.reverseRecOn with
  | nil => exact Nat.one_pos
  | append_singleton bs b ih =>
      have hlow := ih fun x hx => h x (List.mem_append_left _ hx)
      have hdigit := h b (by simp)
      unfold IsDigit at hdigit
      rw [number_snoc, List.length_append, List.length_singleton, Nat.pow_succ]
      omega

/-! ## Printing -/

theorem decimal_of_lt {n : Nat} (h : n < 10) : Format.decimal n = [BitVec.ofNat 8 (0x30 + n)] := by
  have hdigits : ∀ n : Fin 10, Format.decimal n = [BitVec.ofNat 8 (0x30 + n)] := by decide
  exact hdigits ⟨n, h⟩

theorem decimal_snoc {n d : Nat} (hn : 0 < n) (hd : d < 10) :
    Format.decimal (10 * n + d) = Format.decimal n ++ Format.decimal d := by
  rw [Format.decimal, ← Nat.toDigits_append_toDigits (by decide) hn hd, List.map_append]
  rfl

theorem padded_snoc {width d : Nat} (hwidth : 0 < width) (n : Nat) (hd : d < 10) :
    padded (width + 1) (10 * n + d) = padded width n ++ Format.decimal d := by
  have hone : (Format.decimal d).length = 1 := by rw [decimal_of_lt hd, List.length_singleton]
  by_cases hn : n = 0
  · subst hn
    have hzero : Format.decimal 0 = [zero] := rfl
    obtain ⟨w, rfl⟩ : ∃ w, width = w + 1 := ⟨width - 1, by omega⟩
    rw [Nat.mul_zero, Nat.zero_add, padded, padded, hone, hzero, List.length_singleton,
      Nat.add_sub_cancel, Nat.add_sub_cancel, ← List.replicate_succ']
  · rw [padded, padded, decimal_snoc (Nat.pos_of_ne_zero hn) hd, List.length_append, hone,
      Nat.add_sub_add_right, List.append_assoc]

theorem decimal_digit {b : Byte} (h : IsDigit b) : Format.decimal (b.toNat - 0x30) = [b] := by
  unfold IsDigit at h
  rw [decimal_of_lt (by omega), show 0x30 + (b.toNat - 0x30) = b.toNat by omega,
    BitVec.ofNat_toNat, BitVec.setWidth_eq]

/-- A string of digits is what its number looks like in its width. -/
theorem padded_number {bs : List Byte} (hne : bs ≠ []) (h : ∀ b ∈ bs, IsDigit b) :
    padded bs.length (number bs) = bs := by
  induction bs using List.reverseRecOn with
  | nil => exact absurd rfl hne
  | append_singleton bs b ih =>
      have hdigit : IsDigit b := h b (by simp)
      by_cases hfirst : bs = []
      · subst hfirst
        have hnumber : number ([] ++ [b]) = b.toNat - 0x30 := by
          rw [number_snoc]
          exact Nat.zero_add _
        rw [hnumber, padded, decimal_digit hdigit]
        rfl
      · have hlow : b.toNat - 0x30 < 10 := by
          unfold IsDigit at hdigit
          omega
        rw [number_snoc, List.length_append, List.length_singleton,
          padded_snoc (List.length_pos_of_ne_nil hfirst) _ hlow,
          ih hfirst fun x hx => h x (List.mem_append_left _ hx), decimal_digit hdigit]

theorem isDigit_ofNat {d : Nat} (h : d < 10) : IsDigit (BitVec.ofNat 8 (0x30 + d)) := by
  unfold IsDigit
  rw [BitVec.toNat_ofNat]
  omega

/-- What is printed in a width that suffices: so many digits of that number. -/
theorem number_padded {width : Nat} (hwidth : 0 < width) {n : Nat} (h : n < 10 ^ width) :
    (padded width n).length = width ∧ (∀ b ∈ padded width n, IsDigit b) ∧
      number (padded width n) = n := by
  induction width, hwidth using Nat.le_induction generalizing n with
  | base =>
      have hlow : n < 10 := by simpa using h
      have hpadded : padded 1 n = [BitVec.ofNat 8 (0x30 + n)] := by
        rw [padded, decimal_of_lt hlow]
        rfl
      rw [hpadded]
      refine ⟨rfl, ?_, ?_⟩
      · simpa using isDigit_ofNat hlow
      · simp only [number, List.foldl_cons, List.foldl_nil, BitVec.toNat_ofNat]
        omega
  | succ width hwidth ih =>
      have hlow : n % 10 < 10 := Nat.mod_lt n (by decide)
      have hhigh : n / 10 < 10 ^ width := by
        rw [Nat.pow_succ] at h
        omega
      obtain ⟨hlength, hdigits, hnumber⟩ := ih hhigh
      have hpadded : padded (width + 1) n =
          padded width (n / 10) ++ [BitVec.ofNat 8 (0x30 + n % 10)] := by
        rw [← decimal_of_lt hlow, ← padded_snoc hwidth (n / 10) hlow, Nat.div_add_mod]
      rw [hpadded]
      refine ⟨?_, ?_, ?_⟩
      · rw [List.length_append, hlength, List.length_singleton]
      · intro b hb
        rcases List.mem_append.mp hb with hb | hb
        · exact hdigits b hb
        · rw [List.mem_singleton.mp hb]
          exact isDigit_ofNat hlow
      · rw [number_snoc, hnumber, BitVec.toNat_ofNat]
        omega

/-! ## The order -/

section

variable {xs ys : List Byte} (hlen : xs.length = ys.length) (hx : ∀ b ∈ xs, IsDigit b)
  (hy : ∀ b ∈ ys, IsDigit b)

include hlen hx hy

/-- Strings of so many digits with one number are equal. -/
theorem number_inj : number xs = number ys ↔ xs = ys := by
  constructor
  · intro h
    by_cases hne : xs = []
    · subst hne
      exact (List.eq_nil_of_length_eq_zero hlen.symm).symm
    · have hne' : ys ≠ [] := by
        apply List.ne_nil_of_length_pos
        rw [← hlen]
        exact List.length_pos_of_ne_nil hne
      calc xs = padded xs.length (number xs) := (padded_number hne hx).symm
        _ = padded ys.length (number ys) := by rw [hlen, h]
        _ = ys := padded_number hne' hy
  · exact fun h => congrArg number h

/-- Strings of so many digits are ordered as their numbers. -/
theorem number_lt_iff : number xs < number ys ↔ xs < ys := by
  induction xs using List.reverseRecOn generalizing ys with
  | nil =>
      obtain rfl : ys = [] := List.eq_nil_of_length_eq_zero hlen.symm
      simp
  | append_singleton xs x ih =>
      rcases List.eq_nil_or_concat ys with rfl | ⟨ys, y, rfl⟩
      · simp at hlen
      · rw [List.concat_eq_append] at hlen hy ⊢
        have hlength : xs.length = ys.length := by simpa using hlen
        have hx' : ∀ b ∈ xs, IsDigit b := fun b hb => hx b (List.mem_append_left _ hb)
        have hy' : ∀ b ∈ ys, IsDigit b := fun b hb => hy b (List.mem_append_left _ hb)
        have hlast : IsDigit x := hx x (by simp)
        have hlast' : IsDigit y := hy y (by simp)
        have hdigit : ([x] : List Byte) < [y] ↔ x.toNat < y.toNat := by
          rw [List.cons_lt_cons_iff, BitVec.lt_def]
          simp
        have hlt := ih hlength hx' hy'
        have heq := number_inj hlength hx' hy'
        unfold IsDigit at hlast hlast'
        rw [Lexicographic.append_lt_append_iff hlength, number_snoc, number_snoc, hdigit, ← hlt,
          ← heq]
        omega

end

/-! ## Reading -/

/-- Behind blanks and a sign digits are read up to the first other character; a `long`
holds 18 of them. -/
theorem strtol_parts {blanks sign digits rest : List Byte} (hblanks : ∀ b ∈ blanks, IsSpace b)
    (hsign : sign = [] ∨ sign = [minus] ∨ sign = [plus]) (hne : digits ≠ [])
    (hdigits : ∀ b ∈ digits, IsDigit b) (hlen : digits.length ≤ 18)
    (hrest : ∀ b ∈ rest.head?, ¬ IsDigit b) :
    strtol (blanks ++ (sign ++ (digits ++ rest))) =
      if sign = [minus] then -(number digits : Int) else number digits := by
  have htake : (digits ++ rest).takeWhile (fun b => decide (IsDigit b)) = digits := by
    rw [List.takeWhile_append_of_pos (by simpa using hdigits)]
    cases rest with
    | nil => simp
    | cons c rest => simp [hrest c rfl]
  have hlt : number digits < 10 ^ 18 :=
    Nat.lt_of_lt_of_le (number_lt hdigits) (Nat.pow_le_pow_right (by decide) hlen)
  have hdrop : ∀ {b : Byte} {tail : List Byte}, ¬ IsSpace b →
      (blanks ++ b :: tail).dropWhile (fun b => decide (IsSpace b)) = b :: tail := by
    intro b tail hb
    rw [List.dropWhile_append_of_pos (by simpa using hblanks),
      List.dropWhile_cons_of_neg (by simpa using hb)]
  rcases hsign with rfl | rfl | rfl
  · obtain ⟨b, ds, rfl⟩ := List.exists_cons_of_ne_nil hne
    have hdigit : IsDigit b := hdigits b List.mem_cons_self
    obtain ⟨hminus, hplus⟩ := hdigit.ne_sign
    rw [strtol, List.nil_append, List.cons_append, hdrop hdigit.not_space]
    dsimp only
    rw [if_neg hminus, if_neg hplus, ← List.cons_append, htake, clamp, if_neg (by decide)]
    omega
  · rw [strtol, List.singleton_append, hdrop (by decide)]
    dsimp only
    rw [if_pos rfl, htake, clamp, if_pos rfl]
    omega
  · rw [strtol, List.singleton_append, hdrop (by decide)]
    dsimp only
    rw [if_neg (by decide), if_pos rfl, htake, clamp, if_neg (by decide)]
    omega

theorem strtol_digits {bs rest : List Byte} (hne : bs ≠ []) (h : ∀ b ∈ bs, IsDigit b)
    (hlen : bs.length ≤ 18) (hrest : ∀ b ∈ rest.head?, ¬ IsDigit b) :
    strtol (bs ++ rest) = number bs :=
  strtol_parts (List.forall_mem_nil _) (Or.inl rfl) hne h hlen hrest

/-! ## Where a number ends -/

/-- Blanks, perhaps a sign, and digits: the number may go on behind these bytes. -/
def Unfinished (bs : List Byte) : Prop :=
  match bs.dropWhile fun b => decide (IsSpace b) with
  | [] => True
  | b :: rest => if b = minus ∨ b = plus then ∀ c ∈ rest, IsDigit c else ∀ c ∈ b :: rest, IsDigit c

instance (bs : List Byte) : Decidable (Unfinished bs) :=
  match h : bs.dropWhile fun b => decide (IsSpace b) with
  | [] => isTrue (by rw [Unfinished, h]; trivial)
  | b :: rest =>
      decidable_of_iff
        (if b = minus ∨ b = plus then ∀ c ∈ rest, IsDigit c else ∀ c ∈ b :: rest, IsDigit c)
        (by rw [Unfinished, h])

theorem takeWhile_append_of_not_all {p : Byte → Prop} [DecidablePred p] {xs : List Byte}
    (h : ¬ ∀ b ∈ xs, p b) (ys : List Byte) :
    (xs ++ ys).takeWhile (fun b => decide (p b)) = xs.takeWhile fun b => decide (p b) := by
  rw [List.takeWhile_append, if_neg]
  intro hlength
  apply h
  have hall : xs.takeWhile (fun b => decide (p b)) = xs :=
    (List.takeWhile_prefix _).eq_of_length hlength
  simpa using List.takeWhile_eq_self_iff.mp hall

/-- A number that ends within the bytes does not depend on what follows them. -/
theorem strtol_append_of_finished {bs : List Byte} (h : ¬ Unfinished bs) (rest : List Byte) :
    strtol (bs ++ rest) = strtol bs := by
  unfold Unfinished at h
  have hdrop : (bs ++ rest).dropWhile (fun b => decide (IsSpace b)) = _ := List.dropWhile_append
  cases hbs : bs.dropWhile fun b => decide (IsSpace b) with
  | nil => simp [hbs] at h
  | cons b tail =>
      rw [hbs] at h hdrop
      dsimp only at h
      rw [List.isEmpty_cons, if_neg (by decide), List.cons_append] at hdrop
      rw [strtol, strtol, hdrop, hbs]
      dsimp only
      by_cases hminus : b = minus
      · rw [if_pos (Or.inl hminus)] at h
        rw [if_pos hminus, if_pos hminus, takeWhile_append_of_not_all h]
      · by_cases hplus : b = plus
        · rw [if_pos (Or.inr hplus)] at h
          rw [if_neg hminus, if_neg hminus, if_pos hplus, if_pos hplus,
            takeWhile_append_of_not_all h]
        · rw [if_neg (not_or.mpr ⟨hminus, hplus⟩)] at h
          rw [if_neg hminus, if_neg hminus, if_neg hplus, if_neg hplus, ← List.cons_append,
            takeWhile_append_of_not_all h]

theorem unfinished_digits {bs : List Byte} (h : ∀ b ∈ bs, IsDigit b) : Unfinished bs := by
  cases bs with
  | nil => trivial
  | cons b bs =>
      have hdigit : IsDigit b := h b List.mem_cons_self
      have hsign : ¬ (b = minus ∨ b = plus) := not_or.mpr hdigit.ne_sign
      rw [Unfinished, List.dropWhile_cons_of_neg (by simpa using hdigit.not_space)]
      dsimp only
      rwa [if_neg hsign]

theorem Unfinished.split {bs : List Byte} (h : Unfinished bs) :
    ∃ blanks sign digits, bs = blanks ++ (sign ++ digits) ∧ (∀ b ∈ blanks, IsSpace b) ∧
      (sign = [] ∨ sign = [minus] ∨ sign = [plus]) ∧ ∀ b ∈ digits, IsDigit b := by
  have hparts := List.takeWhile_append_dropWhile (p := fun b => decide (IsSpace b)) (l := bs)
  have hblanks : ∀ b ∈ bs.takeWhile fun b => decide (IsSpace b), IsSpace b := by
    intro b hb
    simpa using List.mem_takeWhile_imp hb
  unfold Unfinished at h
  cases hbs : bs.dropWhile fun b => decide (IsSpace b) with
  | nil =>
      rw [hbs] at hparts
      exact ⟨_, [], [], hparts.symm, hblanks, Or.inl rfl, List.forall_mem_nil _⟩
  | cons c tail =>
      rw [hbs] at h hparts
      dsimp only at h
      by_cases hsign : c = minus ∨ c = plus
      · rw [if_pos hsign] at h
        exact ⟨_, [c], tail, hparts.symm, hblanks, Or.inr (by simpa using hsign), h⟩
      · rw [if_neg hsign] at h
        exact ⟨_, [], c :: tail, hparts.symm, hblanks, Or.inl rfl, h⟩

/-- In a number that may go on there is no other character. -/
theorem Unfinished.mem {bs : List Byte} (h : Unfinished bs) {b : Byte} (hb : b ∈ bs) :
    IsSpace b ∨ b = minus ∨ b = plus ∨ IsDigit b := by
  obtain ⟨blanks, sign, digits, rfl, hblanks, hsign, hdigits⟩ := h.split
  rcases List.mem_append.mp hb with hb | hb
  · exact Or.inl (hblanks b hb)
  · rcases List.mem_append.mp hb with hb | hb
    · rcases hsign with rfl | rfl | rfl
      · cases hb
      · exact Or.inr (Or.inl (List.mem_singleton.mp hb))
      · exact Or.inr (Or.inr (Or.inl (List.mem_singleton.mp hb)))
    · exact Or.inr (Or.inr (Or.inr (hdigits b hb)))

/-- Behind a character that is neither blank nor digit, what may go on begins anew. -/
theorem Unfinished.right {bs rest : List Byte} {c : Byte} (hspace : ¬ IsSpace c)
    (hdigit : ¬ IsDigit c) (h : Unfinished (bs ++ c :: rest)) : Unfinished rest := by
  unfold Unfinished at h
  rw [List.dropWhile_append] at h
  cases hbs : bs.dropWhile fun b => decide (IsSpace b) with
  | nil =>
      rw [hbs, List.isEmpty_nil, if_pos rfl,
        List.dropWhile_cons_of_neg (by simpa using hspace)] at h
      dsimp only at h
      by_cases hsign : c = minus ∨ c = plus
      · rw [if_pos hsign] at h
        exact unfinished_digits h
      · rw [if_neg hsign] at h
        exact absurd (h c List.mem_cons_self) hdigit
  | cons b tail =>
      rw [hbs, List.isEmpty_cons, if_neg (by decide)] at h
      dsimp only [List.cons_append] at h
      by_cases hsign : b = minus ∨ b = plus
      · rw [if_pos hsign] at h
        exact absurd (h c (by simp)) hdigit
      · rw [if_neg hsign] at h
        exact absurd (h c (by simp)) hdigit

/-- The next digit decides whether the number is even. -/
theorem Unfinished.strtol_snoc {bs : List Byte} (h : Unfinished bs) (hlen : bs.length < 18)
    {d : Byte} (hd : IsDigit d) : (strtol (bs ++ [d]) - d.toNat) % 2 = 0 := by
  obtain ⟨blanks, sign, digits, rfl, hblanks, hsign, hdigits⟩ := h.split
  rw [List.length_append, List.length_append] at hlen
  have hall : ∀ b ∈ digits ++ [d], IsDigit b := by
    intro b hb
    rcases List.mem_append.mp hb with hb | hb
    · exact hdigits b hb
    · rw [List.mem_singleton.mp hb]
      exact hd
  have hshort : (digits ++ [d]).length ≤ 18 := by
    rw [List.length_append, List.length_singleton]
    omega
  have hread : strtol (blanks ++ (sign ++ (digits ++ [d] ++ []))) = _ :=
    strtol_parts hblanks hsign (by simp) hall hshort (by simp)
  unfold IsDigit at hd
  rw [List.append_nil, number_snoc] at hread
  rw [List.append_assoc, List.append_assoc, hread]
  split
  · omega
  · omega

end Decimal
