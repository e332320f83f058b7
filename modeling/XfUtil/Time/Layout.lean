import XfUtil.Base.BitFields
import XfUtil.Time.Model

/-!
# Fields and layouts

`ParseTime` and `ParseDate` are one parser with two layouts: three numbers between two
separators, packed into a code one above the other.
-/

namespace XfUtil

open FlatMemory Decimal

namespace DateTime

/-! ## Fields -/

/-- Digits of a field that is so many characters wide. -/
structure Field (width : Nat) where
  digits : List Byte
  length_eq : digits.length = width
  isDigit : ∀ b ∈ digits, IsDigit b

namespace Field

variable {width : Nat}

def value (f : Field width) : Nat := number f.digits

theorem value_lt (f : Field width) : f.value < 10 ^ width := by
  have hlt := number_lt f.isDigit
  rwa [f.length_eq] at hlt

theorem ne_nil (f : Field width) (hwidth : 0 < width) : f.digits ≠ [] := by
  apply List.ne_nil_of_length_pos
  rwa [f.length_eq]

theorem padded_value (f : Field width) (hwidth : 0 < width) : padded width f.value = f.digits := by
  have hpadded := padded_number (f.ne_nil hwidth) f.isDigit
  rwa [f.length_eq] at hpadded

/-- A field is read up to the separator behind it, or to the end. -/
theorem parseField_eq (f : Field width) (hwidth : 0 < width) (hshort : width ≤ 4)
    {rest : List Byte} (hrest : ∀ b ∈ rest.head?, ¬ IsDigit b) :
    parseField (f.digits ++ rest) = BitVec.ofNat 32 f.value := by
  have hread := strtol_digits (f.ne_nil hwidth) f.isDigit (by rw [f.length_eq]; omega) hrest
  rw [parseField, hread, BitVec.ofInt_natCast, value]

/-- So many digits fit into the word. -/
theorem toNat_value (f : Field width) (hshort : width ≤ 4) :
    (BitVec.ofNat 32 f.value).toNat = f.value := by
  have hlt := f.value_lt
  have hpow : 10 ^ width ≤ 10 ^ 4 := Nat.pow_le_pow_right (by decide) hshort
  rw [BitVec.toNat_ofNat]
  omega

theorem zero_not_mem (f : Field width) : 0#8 ∉ f.digits := by
  intro hmem
  exact absurd (f.isDigit 0#8 hmem) (by decide)

end Field

/-- Three fields of few digits, one above the other. -/
theorem toNat_pack_fields {i j k : Nat} (x : Field i) (y : Field j) (z : Field k) (hi : i ≤ 4)
    (hj : j ≤ 4) (hk : k ≤ 4) {a b : Nat} (hz : z.value < 2 ^ b)
    (hy : z.value + 2 ^ b * y.value < 2 ^ a)
    (hx : z.value + 2 ^ b * y.value + 2 ^ a * x.value < 2 ^ 32) :
    ((BitVec.ofNat 32 x.value <<< a) ||| (BitVec.ofNat 32 y.value <<< b) |||
      BitVec.ofNat 32 z.value).toNat = z.value + 2 ^ b * y.value + 2 ^ a * x.value := by
  have hhigh := x.toNat_value hi
  have hmid := y.toNat_value hj
  have hlow := z.toNat_value hk
  rw [BitFields.toNat_pack (by rwa [hlow]) (by rwa [hlow, hmid]) (by rwa [hlow, hmid, hhigh]),
    hhigh, hmid, hlow]

/-! ## Characters at their places -/

theorem charAt_append {xs : List Byte} {i : Nat} (h : xs.length = i) (c : Byte) (ys : List Byte) :
    charAt (xs ++ c :: ys) i = c := by
  subst h
  simp [charAt]

theorem charAt_drop (buf : List Byte) (k i : Nat) :
    charAt (buf.drop k) i = charAt buf (k + i) := by
  rw [charAt, charAt, List.getElem?_drop]

theorem drop_append {xs : List Byte} {i : Nat} (h : xs.length = i) (c : Byte) (ys : List Byte) :
    (xs ++ c :: ys).drop (i + 1) = ys := by
  subst h
  simp

section

variable {xs ys : List Byte} {i j : Nat} (hx : xs.length = i) (hy : ys.length = j) (c c' : Byte)
  (zs : List Byte)

include hx hy

theorem charAt_second : charAt (xs ++ c :: (ys ++ c' :: zs)) (i + 1 + j) = c' := by
  rw [← charAt_drop, drop_append hx, charAt_append hy]

theorem drop_second : (xs ++ c :: (ys ++ c' :: zs)).drop (i + 1 + (j + 1)) = zs := by
  rw [← List.drop_drop, drop_append hx, drop_append hy]

end

/-- Behind a separator, or at the end, a number stops. -/
theorem stops {c : Byte} (hc : ¬ IsDigit c) (rest : List Byte) :
    ∀ b ∈ (c :: rest).head?, ¬ IsDigit b := by
  intro b hb
  cases hb
  exact hc

/-! ## Layouts -/

/-- Three numbers between separators, and where they stand in a code. -/
structure Layout where
  length : Nat
  separator : Byte
  first : Nat
  second : Nat
  high : Nat
  mid : Nat
  separator_ne : separator ≠ 0#8 ∧ ¬ IsSpace separator ∧ ¬ IsDigit separator := by decide
  first_lt : first < second := by decide
  second_lt : second < length := by decide
  length_lt : length < 18 := by decide
  shifts : 0 < mid ∧ 0 < high := by decide

namespace Layout

def time : Layout where
  length := 8
  separator := colon
  first := 2
  second := 5
  high := 12
  mid := 6

def date : Layout where
  length := 10
  separator := dash
  first := 4
  second := 7
  high := 9
  mid := 5

variable (l : Layout)

/-- The length and the separators are right. -/
def Shape (buf : List Byte) (bufLen : Int) : Prop :=
  bufLen = l.length ∧ charAt buf l.first = l.separator ∧ charAt buf l.second = l.separator

instance (buf : List Byte) (bufLen : Int) : Decidable (l.Shape buf bufLen) :=
  inferInstanceAs (Decidable (_ ∧ _))

/-- Between the separators are digits. -/
def Digits (buf : List Byte) : Prop :=
  ∀ i < l.length, i ≠ l.first → i ≠ l.second → IsDigit (charAt buf i)

instance (buf : List Byte) : Decidable (l.Digits buf) :=
  inferInstanceAs (Decidable (∀ i < l.length, _))

def number1 (buf : List Byte) : BitVec 32 := parseField buf
def number2 (buf : List Byte) : BitVec 32 := parseField (buf.drop (l.first + 1))
def number3 (buf : List Byte) : BitVec 32 := parseField (buf.drop (l.second + 1))

/-- The numbers that are read leave no bit of the code zero. -/
def Covers (buf : List Byte) : Prop :=
  ∀ k < 32, (l.number3 buf).getLsbD k ∨ (l.mid ≤ k ∧ (l.number2 buf).getLsbD (k - l.mid)) ∨
    (l.high ≤ k ∧ (number1 buf).getLsbD (k - l.high))

instance (buf : List Byte) : Decidable (l.Covers buf) :=
  inferInstanceAs (Decidable (∀ k < 32, _))

def parse (buf : List Byte) (bufLen : Int) : BitVec 32 :=
  if bufLen ≠ l.length ∨ charAt buf l.first ≠ l.separator ∨ charAt buf l.second ≠ l.separator
  then -1
  else (number1 buf <<< l.high) ||| (l.number2 buf <<< l.mid) ||| l.number3 buf

theorem parseTime_eq : parseTime = time.parse := rfl

theorem parseDate_eq : parseDate = date.parse := rfl

variable {l : Layout} {buf : List Byte} {bufLen : Int}

theorem parse_of_shape (h : l.Shape buf bufLen) :
    l.parse buf bufLen =
      (number1 buf <<< l.high) ||| (l.number2 buf <<< l.mid) ||| l.number3 buf := by
  obtain ⟨hlen, hfirst, hsecond⟩ := h
  rw [parse, if_neg (by simp [hlen, hfirst, hsecond])]

/-- Fields between the separators are the three numbers, if no digit stands behind them. -/
theorem parse_fields (l : Layout) {i j k : Nat} (hfirst : l.first = i)
    (hsecond : l.second = i + 1 + j) (hi : 0 < i ∧ i ≤ 4) (hj : 0 < j ∧ j ≤ 4)
    (hk : 0 < k ∧ k ≤ 4) (x : Field i) (y : Field j) (z : Field k) {rest : List Byte}
    (hrest : ∀ b ∈ rest.head?, ¬ IsDigit b) :
    l.parse (x.digits ++ l.separator :: (y.digits ++ l.separator :: (z.digits ++ rest)))
        l.length =
      (BitVec.ofNat 32 x.value <<< l.high) ||| (BitVec.ofNat 32 y.value <<< l.mid) |||
        BitVec.ofNat 32 z.value := by
  obtain ⟨-, -, hdigit⟩ := l.separator_ne
  have hx := x.parseField_eq hi.1 hi.2
    (stops hdigit (y.digits ++ l.separator :: (z.digits ++ rest)))
  have hy := y.parseField_eq hj.1 hj.2 (stops hdigit (z.digits ++ rest))
  have hz := z.parseField_eq hk.1 hk.2 hrest
  have hshape : l.Shape (x.digits ++ l.separator :: (y.digits ++ l.separator ::
      (z.digits ++ rest))) l.length := by
    refine ⟨rfl, ?_, ?_⟩
    · rw [hfirst, charAt_append x.length_eq]
    · rw [hsecond, charAt_second x.length_eq y.length_eq]
  rw [parse_of_shape hshape, number1, number2, number3, hfirst, hsecond, hx,
    drop_append x.length_eq, hy, Nat.add_assoc _ j, drop_second x.length_eq y.length_eq, hz]

theorem parse_of_not_shape (h : ¬ l.Shape buf bufLen) : l.parse buf bufLen = -1 := by
  rw [parse, if_pos]
  rwa [Shape, not_and_or, not_and_or] at h

/-- The answer is not the one for a failure if the shape is right and a bit is zero. -/
theorem parse_ne_iff : l.parse buf bufLen ≠ -1 ↔ l.Shape buf bufLen ∧ ¬ l.Covers buf := by
  by_cases hshape : l.Shape buf bufLen
  · have hbits := BitFields.pack_eq_allOnes_iff (number1 buf) (l.number2 buf) (l.number3 buf)
      l.high l.mid
    rw [parse_of_shape hshape, and_iff_right hshape]
    exact not_congr hbits
  · rw [parse_of_not_shape hshape]
    simp [hshape]

end Layout

end DateTime

end XfUtil
