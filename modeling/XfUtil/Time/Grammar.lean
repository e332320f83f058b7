import XfUtil.Time.RoundTrip

/-!
# What the parsers accept

A parser looks at the separators only. What stands between them is read by `strtol`,
which also takes blanks and signs, or nothing at all, and goes on behind the end; and a
code can be the answer for a failure. `Form` is the grammar that the comments give.
-/

namespace XfUtil

open FlatMemory Decimal

namespace DateTime

/-! ## Grammar -/

/-- What a place asks for: a character, or a digit. -/
abbrev Form := List (Option Byte)

namespace Form

/-- `hh:mm:ss` -/
def time : Form := [none, none, some colon, none, none, some colon, none, none]

/-- `yyyy-mm-dd` -/
def date : Form :=
  [none, none, none, none, some dash, none, none, some dash, none, none]

/-- `yyyy-mm-dd hh:mm:ss` -/
def dateTime : Form := date ++ some space :: time

/-- A character is what its place asks for. -/
def Fits (c : Byte) : Option Byte → Prop
  | some s => c = s
  | none => IsDigit c

instance (c : Byte) (o : Option Byte) : Decidable (Fits c o) :=
  match o with
  | some s => inferInstanceAs (Decidable (c = s))
  | none => inferInstanceAs (Decidable (IsDigit c))

/-- The length is that of the form, and so many characters are what it asks for. -/
def Matches (form : Form) (buf : List Byte) (bufLen : Int) : Prop :=
  bufLen = form.length ∧ ∀ i o, form[i]? = some o → Fits (charAt buf i) o

end Form

/-! ## Answers -/

theorem parseTime_ne_iff (buf : List Byte) (bufLen : Int) :
    parseTime buf bufLen ≠ -1 ↔ Layout.time.Shape buf bufLen ∧ ¬ Layout.time.Covers buf := by
  rw [Layout.parseTime_eq]
  exact Layout.parse_ne_iff

theorem parseDate_ne_iff (buf : List Byte) (bufLen : Int) :
    parseDate buf bufLen ≠ -1 ↔ Layout.date.Shape buf bufLen ∧ ¬ Layout.date.Covers buf := by
  rw [Layout.parseDate_eq]
  exact Layout.parse_ne_iff

/-! ## Forms and layouts -/

theorem Form.matches_iff {form : Form} {l : Layout} (hlen : form.length = l.length)
    (hplaces : ∀ i < l.length, form[i]? =
      some (if i = l.first ∨ i = l.second then some l.separator else none))
    (buf : List Byte) (bufLen : Int) :
    form.Matches buf bufLen ↔ l.Shape buf bufLen ∧ l.Digits buf := by
  have hsecond := l.second_lt
  have hfirst : l.first < l.length := Nat.lt_trans l.first_lt hsecond
  rw [Matches, hlen]
  constructor
  · intro h
    obtain ⟨hcount, hfits⟩ := h
    refine ⟨⟨hcount, ?_, ?_⟩, fun i hi hne hne' => ?_⟩
    · have hsep := hfits l.first _ (hplaces l.first hfirst)
      rwa [if_pos (Or.inl rfl)] at hsep
    · have hsep := hfits l.second _ (hplaces l.second hsecond)
      rwa [if_pos (Or.inr rfl)] at hsep
    · have hdigit := hfits i _ (hplaces i hi)
      rwa [if_neg (not_or.mpr ⟨hne, hne'⟩)] at hdigit
  · intro h
    obtain ⟨⟨hcount, hsep, hsep'⟩, hdigits⟩ := h
    refine ⟨hcount, fun i o ho => ?_⟩
    have hi : i < l.length := by
      rw [← hlen]
      exact (List.getElem?_eq_some_iff.mp ho).1
    rw [hplaces i hi, Option.some.injEq] at ho
    rw [← ho]
    by_cases hplace : i = l.first ∨ i = l.second
    · rw [if_pos hplace]
      rcases hplace with rfl | rfl
      · exact hsep
      · exact hsep'
    · rw [if_neg hplace]
      obtain ⟨hne, hne'⟩ := not_or.mp hplace
      exact hdigits i hi hne hne'

theorem Form.time_matches (buf : List Byte) (bufLen : Int) :
    Form.time.Matches buf bufLen ↔ Layout.time.Shape buf bufLen ∧ Layout.time.Digits buf :=
  matches_iff rfl (by decide) buf bufLen

theorem Form.date_matches (buf : List Byte) (bufLen : Int) :
    Form.date.Matches buf bufLen ↔ Layout.date.Shape buf bufLen ∧ Layout.date.Digits buf :=
  matches_iff rfl (by decide) buf bufLen

/-- Two forms with a character between them. -/
theorem Form.append_matches (f g : Form) (c : Byte) (buf : List Byte) (bufLen : Int) :
    Matches (f ++ some c :: g) buf bufLen ↔ bufLen = (f.length + (g.length + 1) : Nat) ∧
      charAt buf f.length = c ∧ f.Matches buf f.length ∧
        g.Matches (buf.drop (f.length + 1)) g.length := by
  have hlength : (f ++ some c :: g).length = f.length + (g.length + 1) := by
    rw [List.length_append, List.length_cons]
  have hplace : (f ++ some c :: g)[f.length]? = some (some c) := by
    rw [List.getElem?_append_right (Nat.le_refl _), Nat.sub_self, List.getElem?_cons_zero]
  have hbehind : ∀ i, (f ++ some c :: g)[f.length + 1 + i]? = g[i]? := by
    intro i
    rw [List.getElem?_append_right (by omega), Nat.add_assoc, Nat.add_sub_cancel_left,
      Nat.add_comm 1, List.getElem?_cons_succ]
  rw [Matches, hlength]
  constructor
  · intro h
    obtain ⟨hcount, hfits⟩ := h
    refine ⟨hcount, hfits f.length _ hplace, ⟨rfl, fun i o ho => ?_⟩, rfl, fun i o ho => ?_⟩
    · have hi := (List.getElem?_eq_some_iff.mp ho).1
      exact hfits i o (by rw [List.getElem?_append_left hi, ho])
    · rw [charAt_drop]
      exact hfits (f.length + 1 + i) o (by rw [hbehind, ho])
  · intro h
    obtain ⟨hcount, hsep, ⟨-, hfront⟩, -, hback⟩ := h
    refine ⟨hcount, fun i o ho => ?_⟩
    rcases Nat.lt_trichotomy i f.length with hi | rfl | hi
    · rw [List.getElem?_append_left hi] at ho
      exact hfront i o ho
    · rw [hplace, Option.some.injEq] at ho
      rw [← ho]
      exact hsep
    · obtain ⟨j, rfl⟩ : ∃ j, i = f.length + 1 + j := ⟨i - (f.length + 1), by omega⟩
      rw [hbehind] at ho
      rw [← charAt_drop]
      exact hback j o ho

/-! ## Dates with times -/

def DateTimeShape (buf : List Byte) (bufLen : Int) : Prop :=
  bufLen = 19 ∧ charAt buf 10 = space ∧ Layout.date.Shape buf 10 ∧
    Layout.time.Shape (buf.drop 11) 8

instance (buf : List Byte) (bufLen : Int) : Decidable (DateTimeShape buf bufLen) :=
  inferInstanceAs (Decidable (_ ∧ _))

def DateTimeDigits (buf : List Byte) : Prop :=
  Layout.date.Digits buf ∧ Layout.time.Digits (buf.drop 11)

/-- One of the halves leaves no bit zero. -/
def DateTimeCovers (buf : List Byte) : Prop :=
  Layout.date.Covers buf ∨ Layout.time.Covers (buf.drop 11)

theorem Form.dateTime_matches (buf : List Byte) (bufLen : Int) :
    Form.dateTime.Matches buf bufLen ↔ DateTimeShape buf bufLen ∧ DateTimeDigits buf := by
  have hdate := Form.date_matches buf 10
  have htime := Form.time_matches (buf.drop 11) 8
  have happend := Form.append_matches Form.date Form.time space buf bufLen
  refine happend.trans ?_
  constructor
  · intro h
    obtain ⟨hcount, hsep, hfront, hback⟩ := h
    obtain ⟨hshape, hdigits⟩ := hdate.mp hfront
    obtain ⟨hshape', hdigits'⟩ := htime.mp hback
    exact ⟨⟨hcount, hsep, hshape, hshape'⟩, hdigits, hdigits'⟩
  · intro h
    obtain ⟨⟨hcount, hsep, hshape, hshape'⟩, hdigits, hdigits'⟩ := h
    exact ⟨hcount, hsep, hdate.mpr ⟨hshape, hdigits⟩, htime.mpr ⟨hshape', hdigits'⟩⟩

/-- If the halves are no failures, neither is the whole. -/
theorem halves_ne_neg_one (date : BitVec 32) {time : BitVec 32} (h : time ≠ -1) :
    (date.setWidth 64 <<< 32) ||| time.setWidth 64 ≠ -1 := by
  intro heq
  have hlow := low_half date time
  rw [heq] at hlow
  exact h (hlow.symm.trans (by decide))

theorem parseDateTime_ne_iff (buf : List Byte) (bufLen : Int) :
    parseDateTime buf bufLen ≠ -1 ↔ DateTimeShape buf bufLen ∧ ¬ DateTimeCovers buf := by
  have hdate := parseDate_ne_iff buf 10
  have htime := parseTime_ne_iff (buf.drop 11) 8
  rw [DateTimeShape, DateTimeCovers, not_or]
  by_cases houter : bufLen ≠ 19 ∨ charAt buf 10 ≠ space
  · rw [parseDateTime, if_pos houter]
    refine iff_of_false (fun h => h rfl) fun h => ?_
    rcases houter with hcount | hsep
    · exact hcount h.1.1
    · exact hsep h.1.2.1
  · obtain ⟨hcount, hsep⟩ := not_or.mp houter
    rw [parseDateTime, if_neg houter]
    dsimp only
    by_cases hd : parseDate buf 10 = -1
    · rw [if_pos hd]
      refine iff_of_false (fun h => h rfl) fun h => ?_
      exact hdate.mpr ⟨h.1.2.2.1, h.2.1⟩ hd
    · rw [if_neg hd]
      by_cases ht : parseTime (buf.drop 11) 8 = -1
      · rw [if_pos ht]
        refine iff_of_false (fun h => h rfl) fun h => ?_
        exact htime.mpr ⟨h.1.2.2.2, h.2.2⟩ ht
      · rw [if_neg ht]
        obtain ⟨hshape, hcovers⟩ := hdate.mp hd
        obtain ⟨hshape', hcovers'⟩ := htime.mp ht
        refine iff_of_true (halves_ne_neg_one _ ht) ?_
        exact ⟨⟨not_not.mp hcount, not_not.mp hsep, hshape, hshape'⟩, hcovers, hcovers'⟩

/-! ## Texts of the form -/

/-- A run of digits that ends is read as a number of so many digits. -/
theorem parseField_lt {buf : List Byte} {p k : Nat} (hk : 0 < k) (hshort : k ≤ 4)
    (hdigits : ∀ i < k, IsDigit (charAt buf (p + i))) (hend : ¬ IsDigit (charAt buf (p + k))) :
    (parseField (buf.drop p)).toNat < 10 ^ k := by
  have hplace : ∀ i < k, ∃ h : p + i < buf.length, IsDigit buf[p + i] := by
    intro i hi
    have hdigit := hdigits i hi
    cases hget : buf[p + i]? with
    | none =>
        rw [charAt, hget] at hdigit
        exact absurd hdigit (by decide)
    | some b =>
        obtain ⟨hlt, heq⟩ := List.getElem?_eq_some_iff.mp hget
        rw [charAt, hget, Option.getD_some, ← heq] at hdigit
        exact ⟨hlt, hdigit⟩
  obtain ⟨hlast, -⟩ := hplace (k - 1) (by omega)
  let f : Field k :=
    { digits := (buf.drop p).take k
      length_eq := by
        rw [List.length_take, List.length_drop]
        omega
      isDigit := by
        intro b hb
        obtain ⟨i, hi, rfl⟩ := List.getElem_of_mem hb
        rw [List.length_take] at hi
        rw [List.getElem_take, List.getElem_drop]
        exact (hplace i (by omega)).2 }
  have hrest : ∀ b ∈ ((buf.drop p).drop k).head?, ¬ IsDigit b := by
    intro b hb
    rw [List.drop_drop, List.head?_drop, Option.mem_def] at hb
    rw [charAt, hb] at hend
    exact hend
  have hread := f.parseField_eq hk hshort hrest
  rw [List.take_append_drop] at hread
  rw [hread, f.toNat_value hshort]
  exact f.value_lt

namespace Layout

/-- A number of few digits has no high bit. -/
theorem getLsbD_high {v : BitVec 32} {k i : Nat} (hk : k ≤ 4) (hv : v.toNat < 10 ^ k)
    (hi : 14 ≤ i) : v.getLsbD i = false := by
  have hpow : 10 ^ k ≤ 10 ^ 4 := Nat.pow_le_pow_right (by decide) hk
  have hbit : 2 ^ 14 ≤ 2 ^ i := Nat.pow_le_pow_right (by decide) hi
  apply Nat.testBit_lt_two_pow
  omega

/-- Digits leave the highest bit zero if no digit follows them. -/
theorem not_covers {l : Layout} {buf : List Byte} {bufLen : Int}
    (hfirst : 0 < l.first ∧ l.first ≤ 4)
    (hmiddle : l.first + 1 < l.second ∧ l.second - (l.first + 1) ≤ 4)
    (hlast : l.second + 1 < l.length ∧ l.length - (l.second + 1) ≤ 4)
    (hshifts : l.mid ≤ 17 ∧ l.high ≤ 17) (hshape : l.Shape buf bufLen) (hdigits : l.Digits buf)
    (hend : ¬ IsDigit (charAt buf l.length)) : ¬ l.Covers buf := by
  obtain ⟨-, hsep, hsep'⟩ := hshape
  obtain ⟨-, -, hnodigit⟩ := l.separator_ne
  have hnumber1 : (number1 buf).toNat < 10 ^ l.first := by
    refine parseField_lt (p := 0) hfirst.1 hfirst.2 (fun i hi => ?_) ?_
    · rw [Nat.zero_add]
      exact hdigits i (by omega) (by omega) (by omega)
    · rwa [Nat.zero_add, hsep]
  have hnumber2 : (l.number2 buf).toNat < 10 ^ (l.second - (l.first + 1)) := by
    refine parseField_lt (by omega) hmiddle.2 (fun i hi => ?_) ?_
    · exact hdigits _ (by omega) (by omega) (by omega)
    · rwa [show l.first + 1 + (l.second - (l.first + 1)) = l.second by omega, hsep']
  have hnumber3 : (l.number3 buf).toNat < 10 ^ (l.length - (l.second + 1)) := by
    refine parseField_lt (by omega) hlast.2 (fun i hi => ?_) ?_
    · exact hdigits _ (by omega) (by omega) (by omega)
    · rwa [show l.second + 1 + (l.length - (l.second + 1)) = l.length by omega]
  intro hcovers
  rcases hcovers 31 (by decide) with hbit | ⟨-, hbit⟩ | ⟨-, hbit⟩
  · rw [getLsbD_high hlast.2 hnumber3 (by decide)] at hbit
    cases hbit
  · rw [getLsbD_high hmiddle.2 hnumber2 (by omega)] at hbit
    cases hbit
  · rw [getLsbD_high hfirst.2 hnumber1 (by omega)] at hbit
    cases hbit

end Layout

theorem parseTime_accepts {buf : List Byte} (hform : Form.time.Matches buf 8)
    (hend : ¬ IsDigit (charAt buf 8)) : parseTime buf 8 ≠ -1 := by
  obtain ⟨hshape, hdigits⟩ := (Form.time_matches buf 8).mp hform
  exact (parseTime_ne_iff buf 8).mpr ⟨hshape, Layout.not_covers (by decide) (by decide)
    (by decide) (by decide) hshape hdigits hend⟩

theorem parseDate_accepts {buf : List Byte} (hform : Form.date.Matches buf 10)
    (hend : ¬ IsDigit (charAt buf 10)) : parseDate buf 10 ≠ -1 := by
  obtain ⟨hshape, hdigits⟩ := (Form.date_matches buf 10).mp hform
  exact (parseDate_ne_iff buf 10).mpr ⟨hshape, Layout.not_covers (by decide) (by decide)
    (by decide) (by decide) hshape hdigits hend⟩

/-- A text of the form is accepted if no digit follows it. -/
theorem parseDateTime_accepts {buf : List Byte} (hform : Form.dateTime.Matches buf 19)
    (hend : ¬ IsDigit (charAt buf 19)) : parseDateTime buf 19 ≠ -1 := by
  obtain ⟨hshape, hdigits, hdigits'⟩ := (Form.dateTime_matches buf 19).mp hform
  obtain ⟨-, hblank, hdate, htime⟩ := id hshape
  have hdateEnd : ¬ IsDigit (charAt buf 10) := by
    rw [hblank]
    decide
  have htimeEnd : ¬ IsDigit (charAt (buf.drop 11) 8) := by
    rwa [charAt_drop]
  have hfront := parseDate_accepts ((Form.date_matches buf 10).mpr ⟨hdate, hdigits⟩) hdateEnd
  have hback := parseTime_accepts ((Form.time_matches _ 8).mpr ⟨htime, hdigits'⟩) htimeEnd
  refine (parseDateTime_ne_iff buf 19).mpr ⟨hshape, not_or.mpr ⟨?_, ?_⟩⟩
  · exact ((parseDate_ne_iff buf 10).mp hfront).2
  · exact ((parseTime_ne_iff _ 8).mp hback).2

/-! ## The grammar and the parsers -/

/-- Shape and covering decide what is accepted, shape and digits what is in the grammar. -/
theorem exact_iff {accepted grammar shape digits covers : Prop}
    (haccepted : accepted ↔ shape ∧ ¬ covers) (hgrammar : grammar ↔ shape ∧ digits) :
    (accepted ↔ grammar) ↔ ¬ shape ∨ digits ∧ ¬ covers ∨ ¬ digits ∧ covers := by
  rw [haccepted, hgrammar]
  by_cases hshape : shape
  · by_cases hdigits : digits
    · simp [hshape, hdigits]
    · simp [hshape, hdigits]
  · simp [hshape]

/-- A parser accepts what is of the form, and no more, just when a separator or the
length is wrong, or there are digits that do not cover the code, or none and they do. What is of
the form is accepted if no digit follows it. -/
theorem parsers_exact_iff (buf : List Byte) (bufLen : Int) :
    ((parseTime buf bufLen ≠ -1 ↔ Form.time.Matches buf bufLen) ↔
      ¬ Layout.time.Shape buf bufLen ∨ Layout.time.Digits buf ∧ ¬ Layout.time.Covers buf ∨
        ¬ Layout.time.Digits buf ∧ Layout.time.Covers buf) ∧
    ((parseDate buf bufLen ≠ -1 ↔ Form.date.Matches buf bufLen) ↔
      ¬ Layout.date.Shape buf bufLen ∨ Layout.date.Digits buf ∧ ¬ Layout.date.Covers buf ∨
        ¬ Layout.date.Digits buf ∧ Layout.date.Covers buf) ∧
    ((parseDateTime buf bufLen ≠ -1 ↔ Form.dateTime.Matches buf bufLen) ↔
      ¬ DateTimeShape buf bufLen ∨ DateTimeDigits buf ∧ ¬ DateTimeCovers buf ∨
        ¬ DateTimeDigits buf ∧ DateTimeCovers buf) ∧
    (Form.time.Matches buf 8 → ¬ IsDigit (charAt buf 8) → parseTime buf 8 ≠ -1) ∧
    (Form.date.Matches buf 10 → ¬ IsDigit (charAt buf 10) → parseDate buf 10 ≠ -1) ∧
    (Form.dateTime.Matches buf 19 → ¬ IsDigit (charAt buf 19) → parseDateTime buf 19 ≠ -1) :=
  ⟨exact_iff (parseTime_ne_iff buf bufLen) (Form.time_matches buf bufLen),
    exact_iff (parseDate_ne_iff buf bufLen) (Form.date_matches buf bufLen),
    exact_iff (parseDateTime_ne_iff buf bufLen) (Form.dateTime_matches buf bufLen),
    parseTime_accepts, parseDate_accepts, parseDateTime_accepts⟩

/-- Blanks and a sign are accepted; digits behind the end make a time a failure. -/
theorem parseTime_not_exact :
    let blanks : List Byte := [0x20, 0x31, 0x3A, 0x2B, 0x32, 0x3A, 0x20, 0x33]
    let digits : List Byte := [0x31, 0x32, 0x3A, 0x33, 0x34, 0x3A] ++ List.replicate 19 0x39
    (parseTime blanks 8 = BitVec.ofNat 32 (1 * 2 ^ 12 + 2 * 2 ^ 6 + 3) ∧
        ¬ (parseTime blanks 8 ≠ -1 ↔ Form.time.Matches blanks 8)) ∧
      ¬ (parseTime digits 8 ≠ -1 ↔ Form.time.Matches digits 8) := by
  dsimp only
  rw [Form.time_matches, Form.time_matches]
  decide +kernel

end DateTime

end XfUtil
