import XfUtil.Time.RoundTrip

/-!
# Parsing what was formatted

Formatting takes a code apart and parsing puts the pieces together again. The three
pieces of a time are all of it. Of the month of a date one bit is printed, the lowest
of the year, and it falls on that bit when it is parsed.
-/

namespace XfUtil

open FlatMemory Decimal

namespace DateTime

/-! ## Printed fields -/

/-- A number as it is printed in a width that suffices. -/
def Field.print (width n : Nat) (hwidth : 0 < width) (hn : n < 10 ^ width) : Field width where
  digits := padded width n
  length_eq := (number_padded hwidth hn).1
  isDigit := (number_padded hwidth hn).2.1

theorem Field.value_print {width n : Nat} (hwidth : 0 < width) (hn : n < 10 ^ width) :
    (Field.print width n hwidth hn).value = n :=
  (number_padded hwidth hn).2.2

theorem Field.ofNat_value_print {width : Nat} (hwidth : 0 < width) {v : BitVec 32}
    (hv : v.toNat < 10 ^ width) :
    BitVec.ofNat 32 (Field.print width v.toNat hwidth hv).value = v := by
  rw [Field.value_print, BitVec.ofNat_toNat, BitVec.setWidth_eq]

theorem zero_not_mem_fields {i j k : Nat} (x : Field i) (y : Field j) (z : Field k) {c : Byte}
    (hc : 0#8 ≠ c) : 0#8 ∉ x.digits ++ c :: (y.digits ++ c :: z.digits) := by
  simp [x.zero_not_mem, y.zero_not_mem, z.zero_not_mem, hc]

theorem length_fields {i j k : Nat} (x : Field i) (y : Field j) (z : Field k) (c : Byte) :
    (x.digits ++ c :: (y.digits ++ c :: z.digits)).length = i + j + k + 2 := by
  simp only [List.length_append, List.length_cons, x.length_eq, y.length_eq, z.length_eq]
  omega

/-! ## The pieces of a code -/

theorem time_pieces (time : BitVec 32) :
    ((time >>> 12) <<< 12) ||| (((time >>> 6) &&& 63) <<< 6) ||| (time &&& 63) = time := by
  have hhour := toNat_hour time
  have hminute := toNat_minute time
  have hsecond := toNat_second time
  have hlt := time.isLt
  apply BitVec.eq_of_toNat_eq
  rw [BitFields.toNat_pack, hhour, hminute, hsecond]
  · omega
  · omega
  · omega
  · omega

/-- The bit that is printed of the month falls on the bit of the year that it is. -/
theorem year_or_month (date : BitVec 32) :
    ((date >>> 9) <<< 9) ||| (((date >>> 5) &&& 16) <<< 5) = (date >>> 9) <<< 9 := by
  apply BitVec.eq_of_getLsbD_eq
  intro i hi
  have hmask : (16#32).getLsbD (i - 5) = decide (i - 5 = 4) := by
    rw [show (16#32) = BitVec.twoPow 32 4 by decide, BitVec.getLsbD_twoPow]
    simp [eq_comm]
  simp only [BitVec.getLsbD_or, BitVec.getLsbD_shiftLeft, BitVec.getLsbD_and,
    BitVec.getLsbD_ushiftRight]
  by_cases hbit : i = 9
  · subst hbit
    simp
  · by_cases hlow : i < 5
    · simp [hlow]
    · have hother : i - 5 ≠ 4 := by omega
      have hzero : (16#32).getLsbD (i - 5) = false := by rw [hmask, decide_eq_false hother]
      simp [hzero]

/-- The month is lost: the pieces that are printed are a whole date if it has none. -/
theorem date_pieces_iff (date : BitVec 32) :
    ((date >>> 9) <<< 9) ||| (((date >>> 5) &&& 16) <<< 5) ||| (date &&& 31) = date ↔
      (date >>> 5) &&& 15 = 0 := by
  have hyear := toNat_year date
  have hday := toNat_day date
  have hmonth : ((date >>> 5) &&& 15).toNat = date.toNat / 2 ^ 5 % 2 ^ 4 := by
    rw [← BitFields.toNat_shiftRight]
    exact BitFields.toNat_and_ones (date >>> 5) (show 4 ≤ 32 by decide)
  have hlt := date.isLt
  have hsum : (((date >>> 9) <<< 9) ||| (date &&& 31)).toNat =
      date.toNat % 2 ^ 5 + 2 ^ 9 * (date.toNat / 2 ^ 9) := by
    have hlow : (date &&& 31).toNat < 2 ^ 9 := by omega
    rw [BitVec.or_comm, BitFields.or_shiftLeft_eq _ _ hlow, BitVec.toNat_ofNat, hyear, hday]
    omega
  rw [year_or_month, ← BitVec.toNat_inj, ← BitVec.toNat_inj, hsum, hmonth]
  change _ ↔ _ = 0
  omega

/-! ## Formatting, then parsing -/

/-- The text that is in the buffer after formatting parses as the code. -/
def DateSurvives (mem : Mem) (buf : Nat) (bufLen : Int) (date : BitVec 32) : Prop :=
  let r := formatDate mem buf bufLen date
  ∃ text, Format.StringAt r.1 buf text ∧ parseDate text r.2 = date

def TimeSurvives (mem : Mem) (buf : Nat) (bufLen : Int) (time : BitVec 32) : Prop :=
  let r := formatTime mem buf bufLen time
  ∃ text, Format.StringAt r.1 buf text ∧ parseTime text r.2 = time

/-- Three printed fields stand in a buffer that has room for them, so they are what is
parsed. -/
theorem parses_printed_iff (mem : Mem) (buf : Nat) {i j k : Nat} (x : Field i) (y : Field j)
    (z : Field k) {c : Byte} (hc : 0#8 ≠ c) {size : Nat} (hsize : i + j + k + 2 < size)
    (parse : List Byte → Int → BitVec 32) (code : BitVec 32) :
    let r := Format.snprintf mem buf size (x.digits ++ c :: (y.digits ++ c :: z.digits))
    (∃ text, Format.StringAt r.1 buf text ∧ parse text r.2 = code) ↔
      parse (x.digits ++ c :: (y.digits ++ c :: z.digits)) (i + j + k + 2 : Nat) = code := by
  have hlength := length_fields x y z c
  have hstands := Format.snprintf_stringAt mem buf (by omega : _ < size)
    (zero_not_mem_fields x y z hc)
  dsimp only
  rw [Format.snprintf] at hstands ⊢
  rw [hlength]
  constructor
  · intro h
    obtain ⟨text, htext, heq⟩ := h
    rwa [hstands.unique htext]
  · intro heq
    exact ⟨_, hstands, heq⟩

section

variable (mem : Mem) (buf : Nat) {bufLen : Int}

theorem timeSurvives (hlen : 9 ≤ bufLen) {time : BitVec 32} (hhour : time.toNat / 2 ^ 12 ≤ 99) :
    TimeSurvives mem buf bufLen time := by
  have hh : (time >>> 12).toNat < 10 ^ 2 := by
    rw [toNat_hour]
    omega
  have hm : ((time >>> 6) &&& 63).toNat < 10 ^ 2 := by
    rw [toNat_minute]
    omega
  have hs : (time &&& 63).toNat < 10 ^ 2 := by
    rw [toNat_second]
    omega
  let h := Field.print 2 _ (by decide) hh
  let m := Field.print 2 _ (by decide) hm
  let s := Field.print 2 _ (by decide) hs
  have hformat : formatTime mem buf bufLen time = Format.snprintf mem buf bufLen.toNat
      (h.digits ++ colon :: (m.digits ++ colon :: s.digits)) := by
    rw [formatTime, if_neg (by omega)]
    rfl
  have hparse := parseTime_fields h m s [] (by simp)
  rw [List.append_nil, Field.ofNat_value_print, Field.ofNat_value_print,
    Field.ofNat_value_print, time_pieces] at hparse
  rw [TimeSurvives, hformat]
  exact (parses_printed_iff mem buf h m s (by decide)
    (show 2 + 2 + 2 + 2 < bufLen.toNat by omega) parseTime time).mpr hparse

theorem dateSurvives_iff (hlen : 11 ≤ bufLen) {date : BitVec 32}
    (hyear : date.toNat / 2 ^ 9 ≤ 9999) :
    DateSurvives mem buf bufLen date ↔ (date >>> 5) &&& 15 = 0 := by
  have hy : (date >>> 9).toNat < 10 ^ 4 := by
    rw [toNat_year]
    omega
  have hm : ((date >>> 5) &&& 16).toNat < 10 ^ 2 := by
    rw [toNat_monthBit]
    omega
  have hd : (date &&& 31).toNat < 10 ^ 2 := by
    rw [toNat_day]
    omega
  let y := Field.print 4 _ (by decide) hy
  let m := Field.print 2 _ (by decide) hm
  let d := Field.print 2 _ (by decide) hd
  have hformat : formatDate mem buf bufLen date = Format.snprintf mem buf bufLen.toNat
      (y.digits ++ dash :: (m.digits ++ dash :: d.digits)) := by
    rw [formatDate, if_neg (by omega)]
    rfl
  have hparse := parseDate_fields y m d [] (by simp)
  rw [List.append_nil, Field.ofNat_value_print, Field.ofNat_value_print,
    Field.ofNat_value_print] at hparse
  rw [DateSurvives, hformat, ← date_pieces_iff, ← hparse]
  exact parses_printed_iff mem buf y m d (by decide)
    (show 4 + 2 + 2 + 2 < bufLen.toNat by omega) parseDate date

/-- Codes of times come back; codes of dates come back if their month bits are zero. -/
theorem codes_survive_iff (mem : Mem) (buf : Nat) (bufLen : Int) :
    (∀ time : BitVec 32, time.toNat / 2 ^ 12 ≤ 99 → 9 ≤ bufLen →
      TimeSurvives mem buf bufLen time) ∧
    ∀ date : BitVec 32, date.toNat / 2 ^ 9 ≤ 9999 → 11 ≤ bufLen →
      (DateSurvives mem buf bufLen date ↔ (date >>> 5) &&& 15 = 0) :=
  ⟨fun _ hhour hlen => timeSurvives mem buf hlen hhour,
    fun _ hyear hlen => dateSurvives_iff mem buf hlen hyear⟩

end

/-- 21:43:56 and day 15 of no month in 2023. -/
theorem codes_survive_sample :
    TimeSurvives (fun _ => 0xff) 64 11 (BitVec.ofNat 32 (21 * 2 ^ 12 + 43 * 2 ^ 6 + 56)) ∧
      DateSurvives (fun _ => 0xff) 64 11 (BitVec.ofNat 32 (2023 * 2 ^ 9 + 15)) :=
  have h := codes_survive_iff (fun _ => 0xff) 64 11
  ⟨h.1 _ (by decide) (by decide), (h.2 _ (by decide) (by decide)).mpr (by decide)⟩

/-- 2023-07-15 is printed as 2023-16-15 and comes back without a month. -/
theorem july_lost :
    let date := BitVec.ofNat 32 (2023 * 2 ^ 9 + 7 * 2 ^ 5 + 15)
    let r := formatDate (fun _ => 0xff) 64 11 date
    let text : List Byte := [0x32, 0x30, 0x32, 0x33, 0x2D, 0x31, 0x36, 0x2D, 0x31, 0x35]
    Format.StringAt r.1 64 text ∧ parseDate text r.2 = BitVec.ofNat 32 (2023 * 2 ^ 9 + 15) ∧
      ¬ DateSurvives (fun _ => 0xff) 64 11 date := by
  refine ⟨⟨by decide, by decide, by decide⟩, by decide, ?_⟩
  rw [dateSurvives_iff (fun _ => 0xff) 64 (by decide) (by decide)]
  decide

end DateTime

end XfUtil
