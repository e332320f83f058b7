import XfUtil.Time.Grammar

/-!
# What the parsers read behind the end

The length is checked, and then `strtol` reads the last number as far as it goes. If
that number ends within the characters that were given, what follows them does not
matter; if it may go on, the next character shows in the lowest bit of the code.
-/

namespace XfUtil

open FlatMemory Decimal

namespace DateTime

/-- What stands behind the characters that are given does not matter. -/
def Decides {w : Nat} (parse : List Byte → Int → BitVec w) (front : List Byte) (bufLen : Int) :
    Prop :=
  ∀ rest rest', parse (front ++ rest) bufLen = parse (front ++ rest') bufLen

/-! ## Characters and numbers at their places -/

variable {front : List Byte}

theorem charAt_append_left {i : Nat} (hi : i < front.length) (rest : List Byte) :
    charAt (front ++ rest) i = charAt front i := by
  rw [charAt, charAt, List.getElem?_append_left hi]

theorem split_at_charAt {i : Nat} {c : Byte} (hc : c ≠ 0#8) (h : charAt front i = c) :
    front = front.take i ++ c :: front.drop (i + 1) := by
  cases hget : front[i]? with
  | none =>
      rw [charAt, hget] at h
      exact absurd h.symm hc
  | some b =>
      obtain ⟨hi, heq⟩ := List.getElem?_eq_some_iff.mp hget
      rw [charAt, hget, Option.getD_some] at h
      rw [← h, ← heq, ← List.drop_eq_getElem_cons hi, List.take_append_drop]

theorem unfinished_drop {i : Nat} {c : Byte} (hc : c ≠ 0#8 ∧ ¬ IsSpace c ∧ ¬ IsDigit c)
    (h : charAt front i = c) (hunfinished : Unfinished front) :
    Unfinished (front.drop (i + 1)) := by
  rw [split_at_charAt hc.1 h] at hunfinished
  exact hunfinished.right hc.2.1 hc.2.2

theorem finished_of_colon {i : Nat} (h : charAt front i = colon) : ¬ Unfinished front := by
  intro hunfinished
  have hmem : colon ∈ front := by
    rw [split_at_charAt (by decide) h]
    simp
  exact absurd (hunfinished.mem hmem) (by decide)

theorem parseField_append {i : Nat} (hi : i ≤ front.length) (h : ¬ Unfinished (front.drop i))
    (rest : List Byte) : parseField ((front ++ rest).drop i) = parseField (front.drop i) := by
  rw [List.drop_append_of_le_length hi, parseField, parseField, strtol_append_of_finished h]

/-- A digit at the end of a number that may go on. -/
theorem parseField_snoc {i : Nat} (hi : i ≤ front.length) (h : Unfinished (front.drop i))
    (hlen : front.length < 18) {d : Byte} (hd : IsDigit d) :
    (parseField ((front ++ [d]).drop i)).getLsbD 0 = decide ((d.toNat : Int) % 2 = 1) := by
  have hsnoc := h.strtol_snoc (by rw [List.length_drop]; omega) hd
  rw [List.drop_append_of_le_length hi, parseField, BitFields.getLsbD_zero_ofInt (by decide),
    decide_eq_decide]
  omega

namespace Layout

variable {l : Layout} {bufLen : Int}

/-! ## Layouts -/

theorem shape_append (hlen : l.length ≤ front.length) (rest : List Byte) :
    l.Shape (front ++ rest) bufLen ↔ l.Shape front bufLen := by
  have hfirst := l.first_lt
  have hsecond := l.second_lt
  rw [Shape, Shape, charAt_append_left (by omega), charAt_append_left (by omega)]

/-- If the last number ends, so do the others. -/
theorem finished (hshape : l.Shape front bufLen)
    (h : ¬ Unfinished (front.drop (l.second + 1))) :
    ¬ Unfinished (front.drop (l.first + 1)) ∧ ¬ Unfinished front := by
  obtain ⟨-, -, hsecond⟩ := hshape
  have hlt := l.first_lt
  refine ⟨fun hmiddle => h ?_, fun hfirst => h (unfinished_drop l.separator_ne hsecond hfirst)⟩
  have hplace : charAt (front.drop (l.first + 1)) (l.second - (l.first + 1)) = l.separator := by
    rw [charAt_drop, show l.first + 1 + (l.second - (l.first + 1)) = l.second by omega, hsecond]
  have hlast := unfinished_drop l.separator_ne hplace hmiddle
  rwa [List.drop_drop,
    show l.first + 1 + (l.second - (l.first + 1) + 1) = l.second + 1 by omega] at hlast

theorem parse_append (hlen : l.length ≤ front.length) (hshape : l.Shape front bufLen)
    (h1 : ¬ Unfinished front) (h2 : ¬ Unfinished (front.drop (l.first + 1)))
    (h3 : ¬ Unfinished (front.drop (l.second + 1))) (rest : List Byte) :
    l.parse (front ++ rest) bufLen = l.parse front bufLen := by
  have hfirst := l.first_lt
  have hsecond := l.second_lt
  have hnumber : parseField (front ++ rest) = parseField front := by
    rw [parseField, parseField, strtol_append_of_finished h1]
  rw [parse_of_shape ((shape_append hlen rest).mpr hshape), parse_of_shape hshape, number1,
    number1, hnumber, number2, number2, parseField_append (by omega) h2, number3, number3,
    parseField_append (by omega) h3]

/-- If the last number goes on, the digit behind the end shows. -/
theorem parse_snoc (hlen : front.length = l.length) (hshape : l.Shape front bufLen)
    (h : Unfinished (front.drop (l.second + 1))) {d : Byte} (hd : IsDigit d) :
    (l.parse (front ++ [d]) bufLen).getLsbD 0 = decide ((d.toNat : Int) % 2 = 1) := by
  have hsecond := l.second_lt
  have hshort := l.length_lt
  obtain ⟨hmid, hhigh⟩ := l.shifts
  rw [parse_of_shape ((shape_append hlen.ge [d]).mpr hshape),
    BitFields.getLsbD_zero_pack _ _ _ hhigh hmid, number3,
    parseField_snoc (by omega) h (by omega) hd]

/-- What follows does not matter if the answer is a failure or the last number ends. -/
theorem decides_iff (l : Layout) (hlen : front.length = bufLen.toNat) :
    Decides l.parse front bufLen ↔
      ¬ l.Shape front bufLen ∨ ¬ Unfinished (front.drop (l.second + 1)) := by
  by_cases hcount : bufLen = l.length
  · have hlength : front.length = l.length := by omega
    by_cases hshape : l.Shape front bufLen
    · by_cases hlast : Unfinished (front.drop (l.second + 1))
      · refine iff_of_false (fun h => ?_) (by simp [hshape, hlast])
        have heven := parse_snoc hlength hshape hlast (d := 0x30#8) (by decide)
        have hodd := parse_snoc hlength hshape hlast (d := 0x31#8) (by decide)
        rw [h [0x30#8] [0x31#8], hodd] at heven
        exact absurd heven (by decide)
      · obtain ⟨hmiddle, hfirst⟩ := finished hshape hlast
        refine iff_of_true (fun rest rest' => ?_) (Or.inr hlast)
        rw [parse_append hlength.ge hshape hfirst hmiddle hlast rest,
          parse_append hlength.ge hshape hfirst hmiddle hlast rest']
    · refine iff_of_true (fun rest rest' => ?_) (Or.inl hshape)
      rw [parse_of_not_shape (mt (shape_append hlength.ge rest).mp hshape),
        parse_of_not_shape (mt (shape_append hlength.ge rest').mp hshape)]
  · have hnot : ∀ buf, ¬ l.Shape buf bufLen := fun buf h => hcount h.1
    refine iff_of_true (fun rest rest' => ?_) (Or.inl (hnot front))
    rw [parse_of_not_shape (hnot _), parse_of_not_shape (hnot _)]

end Layout

/-! ## Dates with times -/

theorem parseDateTime_of_not_shape {buf : List Byte} {bufLen : Int}
    (h : ¬ DateTimeShape buf bufLen) : parseDateTime buf bufLen = -1 := by
  by_contra hne
  exact h ((parseDateTime_ne_iff buf bufLen).mp hne).1

theorem parseDateTime_of_covers {buf : List Byte} {bufLen : Int} (h : Layout.date.Covers buf) :
    parseDateTime buf bufLen = -1 := by
  by_contra hne
  exact ((parseDateTime_ne_iff buf bufLen).mp hne).2 (Or.inl h)

theorem parseDateTime_of_shape {buf : List Byte} {bufLen : Int}
    (h : DateTimeShape buf bufLen) (hcovers : ¬ Layout.date.Covers buf) :
    parseDateTime buf bufLen =
      if parseTime (buf.drop 11) 8 = -1 then (-1 : BitVec 64)
      else ((parseDate buf 10).setWidth 64 <<< 32) ||| (parseTime (buf.drop 11) 8).setWidth 64 := by
  obtain ⟨hcount, hsep, hshape, -⟩ := h
  rw [parseDateTime, if_neg (by simp [hcount, hsep])]
  dsimp only
  rw [if_neg ((parseDate_ne_iff buf 10).mpr ⟨hshape, hcovers⟩)]

/-- The lowest bit of the answer is that of the time. -/
theorem parseDateTime_lowest {buf : List Byte} {bufLen : Int} (h : DateTimeShape buf bufLen)
    (hcovers : ¬ Layout.date.Covers buf) :
    (parseDateTime buf bufLen).getLsbD 0 = (parseTime (buf.drop 11) 8).getLsbD 0 := by
  rw [parseDateTime_of_shape h hcovers]
  by_cases ht : parseTime (buf.drop 11) 8 = -1
  · rw [if_pos ht, ht]
    decide
  · rw [if_neg ht]
    simp

theorem dateTimeShape_append (hlen : front.length = 19) (rest : List Byte) {bufLen : Int} :
    DateTimeShape (front ++ rest) bufLen ↔ DateTimeShape front bufLen := by
  have hdrop : (front ++ rest).drop 11 = front.drop 11 ++ rest :=
    List.drop_append_of_le_length (by omega)
  have hdate : Layout.date.length ≤ front.length := by
    rw [hlen]
    decide
  have htime : Layout.time.length ≤ (front.drop 11).length := by
    rw [List.length_drop, hlen]
    decide
  rw [DateTimeShape, DateTimeShape, charAt_append_left (by omega), hdrop,
    Layout.shape_append hdate, Layout.shape_append htime]

theorem date_finished {bufLen : Int} (h : DateTimeShape front bufLen) :
    ¬ Unfinished front ∧ ¬ Unfinished (front.drop 5) ∧ ¬ Unfinished (front.drop 8) := by
  obtain ⟨-, -, -, -, hcolon, -⟩ := h
  have hplace : charAt front 13 = colon := by
    exact (charAt_drop front 11 2).symm.trans hcolon
  refine ⟨finished_of_colon hplace, finished_of_colon (i := 8) ?_, finished_of_colon (i := 5) ?_⟩
  · rwa [charAt_drop]
  · rwa [charAt_drop]

theorem parseDate_append (hlen : front.length = 19) {bufLen : Int}
    (h : DateTimeShape front bufLen) (rest : List Byte) :
    parseDate (front ++ rest) 10 = parseDate front 10 := by
  obtain ⟨hfirst, hmiddle, hlast⟩ := date_finished h
  have hdate : Layout.date.length ≤ front.length := by
    rw [hlen]
    decide
  rw [Layout.parseDate_eq]
  exact Layout.parse_append hdate h.2.2.1 hfirst hmiddle hlast rest

theorem date_covers_append (hlen : front.length = 19) {bufLen : Int}
    (h : DateTimeShape front bufLen) (rest : List Byte) :
    Layout.date.Covers (front ++ rest) ↔ Layout.date.Covers front := by
  have happend := (dateTimeShape_append hlen rest).mpr h
  have hanswer := parseDate_ne_iff (front ++ rest) 10
  rw [parseDate_append hlen h, parseDate_ne_iff, and_iff_right h.2.2.1,
    and_iff_right happend.2.2.1] at hanswer
  exact (not_iff_not.mp hanswer).symm

theorem dateTime_decides_iff {bufLen : Int} (hlen : front.length = bufLen.toNat) :
    Decides parseDateTime front bufLen ↔
      ¬ DateTimeShape front bufLen ∨ Layout.date.Covers front ∨
        ¬ Unfinished (front.drop 17) := by
  by_cases hcount : bufLen = 19
  · have hlength : front.length = 19 := by omega
    by_cases hshape : DateTimeShape front bufLen
    · have hshape' := fun rest => (dateTimeShape_append hlength rest).mpr hshape
      by_cases hcovers : Layout.date.Covers front
      · refine iff_of_true (fun rest rest' => ?_) (Or.inr (Or.inl hcovers))
        rw [parseDateTime_of_covers ((date_covers_append hlength hshape rest).mpr hcovers),
          parseDateTime_of_covers ((date_covers_append hlength hshape rest').mpr hcovers)]
      · have hcovers' := fun rest => mt (date_covers_append hlength hshape rest).mp hcovers
        have htime : (front.drop 11).length = 8 := by
          rw [List.length_drop, hlength]
        have hdrop : ∀ rest, (front ++ rest).drop 11 = front.drop 11 ++ rest := fun rest =>
          List.drop_append_of_le_length (by omega)
        have hlast : (front.drop 11).drop 6 = front.drop 17 := List.drop_drop ..
        by_cases hend : Unfinished (front.drop 17)
        · refine iff_of_false (fun h => ?_) (by simp [hshape, hcovers, hend])
          rw [← hlast] at hend
          have hbit : ∀ d : Byte, IsDigit d → (parseDateTime (front ++ [d]) bufLen).getLsbD 0 =
              decide ((d.toNat : Int) % 2 = 1) := by
            intro d hd
            rw [parseDateTime_lowest (hshape' [d]) (hcovers' [d]), hdrop, Layout.parseTime_eq]
            exact Layout.parse_snoc htime hshape.2.2.2 hend hd
          have heven := hbit 0x30#8 (by decide)
          rw [h [0x30#8] [0x31#8], hbit 0x31#8 (by decide)] at heven
          exact absurd heven (by decide)
        · have htimes : Decides parseTime (front.drop 11) 8 := by
            rw [Layout.parseTime_eq]
            refine (Layout.time.decides_iff htime).mpr (Or.inr ?_)
            rwa [← hlast] at hend
          refine iff_of_true (fun rest rest' => ?_) (Or.inr (Or.inr hend))
          rw [parseDateTime_of_shape (hshape' rest) (hcovers' rest),
            parseDateTime_of_shape (hshape' rest') (hcovers' rest'), hdrop, hdrop,
            htimes rest rest', parseDate_append hlength hshape, parseDate_append hlength hshape]
    · refine iff_of_true (fun rest rest' => ?_) (Or.inl hshape)
      rw [parseDateTime_of_not_shape (mt (dateTimeShape_append hlength rest).mp hshape),
        parseDateTime_of_not_shape (mt (dateTimeShape_append hlength rest').mp hshape)]
  · have hnot : ∀ buf, ¬ DateTimeShape buf bufLen := fun buf h => hcount h.1
    refine iff_of_true (fun rest rest' => ?_) (Or.inl (hnot front))
    rw [parseDateTime_of_not_shape (hnot _), parseDateTime_of_not_shape (hnot _)]

/-- What follows the characters that are given matters just when the length and the
separators are right, no half has failed, and the last number may go on. -/
theorem parsers_decide_iff (front : List Byte) (bufLen : Int)
    (hlen : front.length = bufLen.toNat) :
    (Decides parseTime front bufLen ↔
        ¬ Layout.time.Shape front bufLen ∨ ¬ Unfinished (front.drop 6)) ∧
      (Decides parseDate front bufLen ↔
        ¬ Layout.date.Shape front bufLen ∨ ¬ Unfinished (front.drop 8)) ∧
      (Decides parseDateTime front bufLen ↔
        ¬ DateTimeShape front bufLen ∨ Layout.date.Covers front ∨
          ¬ Unfinished (front.drop 17)) :=
  ⟨Layout.time.decides_iff hlen, Layout.date.decides_iff hlen, dateTime_decides_iff hlen⟩

/-- A blank after the seconds ends them. -/
theorem parsers_decide_blank :
    Decides parseTime [0x31, 0x32, 0x3A, 0x33, 0x34, 0x3A, 0x35, 0x20] 8 :=
  (parsers_decide_iff [0x31, 0x32, 0x3A, 0x33, 0x34, 0x3A, 0x35, 0x20] 8 rfl).1.mpr
    (Or.inr (by decide))

/-- 12:34:56 is something else in front of a 7. -/
theorem parseTime_reads_on :
    let front : List Byte := [0x31, 0x32, 0x3A, 0x33, 0x34, 0x3A, 0x35, 0x36]
    parseTime (front ++ []) 8 = BitVec.ofNat 32 (12 * 2 ^ 12 + 34 * 2 ^ 6 + 56) ∧
      parseTime (front ++ [0x37]) 8 ≠ parseTime (front ++ []) 8 ∧
      ¬ Decides parseTime front 8 := by
  dsimp only
  have hother : parseTime ([0x31, 0x32, 0x3A, 0x33, 0x34, 0x3A, 0x35, 0x36] ++ [0x37]) 8 ≠
      parseTime ([0x31, 0x32, 0x3A, 0x33, 0x34, 0x3A, 0x35, 0x36] ++ []) 8 := by
    decide +kernel
  exact ⟨by decide +kernel, hother, fun h => hother (h [0x37] [])⟩

end DateTime

end XfUtil
