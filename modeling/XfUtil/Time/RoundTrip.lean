import XfUtil.Time.Layout

/-!
# What formatting leaves of a parsed date and time

Parsing packs the fields one above the other. Formatting takes the month out with a
mask of one bit, which is the lowest of the year, and cuts off the last digits of the
day and of the seconds to put terminators there.
-/

namespace XfUtil

open FlatMemory Decimal

namespace DateTime

/-! ## Texts -/

/-- Characters of the form `yyyy-mm-dd hh:mm:ss`; a month or a day may be zero. -/
structure Stamp where
  year : Field 4
  month : Field 2
  day : Field 2
  hour : Field 2
  minute : Field 2
  second : Field 2
  month_le : month.value ≤ 12
  day_le : day.value ≤ 31
  hour_lt : hour.value < 24
  minute_lt : minute.value < 60
  second_lt : second.value < 60

namespace Stamp

def timeChars (t : Stamp) : List Byte :=
  t.hour.digits ++ colon :: (t.minute.digits ++ colon :: t.second.digits)

def chars (t : Stamp) : List Byte :=
  t.year.digits ++ dash :: (t.month.digits ++ dash :: (t.day.digits ++ space :: t.timeChars))

end Stamp

/-- A text of the form `yyyy-mm-dd hh:mm:ss`. -/
structure Text where
  year : Field 4
  month : Field 2
  day : Field 2
  hour : Field 2
  minute : Field 2
  second : Field 2
  month_range : 1 ≤ month.value ∧ month.value ≤ 12
  day_range : 1 ≤ day.value ∧ day.value ≤ 31
  hour_lt : hour.value < 24
  minute_lt : minute.value < 60
  second_lt : second.value < 60

namespace Text

def dateChars (t : Text) : List Byte :=
  t.year.digits ++ dash :: (t.month.digits ++ dash :: t.day.digits)

def timeChars (t : Text) : List Byte :=
  t.hour.digits ++ colon :: (t.minute.digits ++ colon :: t.second.digits)

def chars (t : Text) : List Byte := t.dateChars ++ space :: t.timeChars

def stamp (t : Text) : Stamp :=
  { t with month_le := t.month_range.2, day_le := t.day_range.2 }

theorem chars_stamp (t : Text) : t.stamp.chars = t.chars := by
  simp only [Stamp.chars, chars, dateChars, List.append_assoc, List.cons_append]
  rfl

end Text

/-! ## Parsing -/

theorem parseDate_fields (y : Field 4) (m d : Field 2) (rest : List Byte)
    (hrest : ∀ b ∈ rest.head?, ¬ IsDigit b) :
    parseDate (y.digits ++ dash :: (m.digits ++ dash :: (d.digits ++ rest))) 10 =
      (BitVec.ofNat 32 y.value <<< 9) ||| (BitVec.ofNat 32 m.value <<< 5) |||
        BitVec.ofNat 32 d.value :=
  Layout.date.parse_fields rfl rfl (by decide) (by decide) (by decide) y m d hrest

theorem parseTime_fields (h m s : Field 2) (rest : List Byte)
    (hrest : ∀ b ∈ rest.head?, ¬ IsDigit b) :
    parseTime (h.digits ++ colon :: (m.digits ++ colon :: (s.digits ++ rest))) 8 =
      (BitVec.ofNat 32 h.value <<< 12) ||| (BitVec.ofNat 32 m.value <<< 6) |||
        BitVec.ofNat 32 s.value :=
  Layout.time.parse_fields rfl rfl (by decide) (by decide) (by decide) h m s hrest

theorem toNat_parseDate (y : Field 4) (m d : Field 2) (hm : m.value < 2 ^ 4)
    (hd : d.value < 2 ^ 5) {rest : List Byte} (hrest : ∀ b ∈ rest.head?, ¬ IsDigit b) :
    (parseDate (y.digits ++ dash :: (m.digits ++ dash :: (d.digits ++ rest))) 10).toNat =
      d.value + 2 ^ 5 * m.value + 2 ^ 9 * y.value := by
  have hlt : y.value < 10 ^ 4 := y.value_lt
  rw [parseDate_fields y m d rest hrest]
  exact toNat_pack_fields y m d (by decide) (by decide) (by decide) hd (by omega) (by omega)

theorem toNat_parseTime (h m s : Field 2) (hm : m.value < 2 ^ 6) (hs : s.value < 2 ^ 6) :
    (parseTime (h.digits ++ colon :: (m.digits ++ colon :: s.digits)) 8).toNat =
      s.value + 2 ^ 6 * m.value + 2 ^ 12 * h.value := by
  have hlt : h.value < 10 ^ 2 := h.value_lt
  have hfields := parseTime_fields h m s [] (by simp)
  rw [List.append_nil] at hfields
  rw [hfields]
  exact toNat_pack_fields h m s (by decide) (by decide) (by decide) hs (by omega) (by omega)

theorem ne_neg_one {v : BitVec 32} (h : v.toNat < 2 ^ 32 - 1) : v ≠ -1 := by
  rintro rfl
  exact absurd h (by decide)

/-! ## The halves of a code -/

theorem high_half (date time : BitVec 32) :
    (((date.setWidth 64 <<< 32) ||| time.setWidth 64) >>> 32).setWidth 32 = date := by
  apply BitVec.eq_of_getLsbD_eq
  intro i hi
  have hlow : ¬ 32 + i < 32 := by omega
  have hwide : 32 + i < 64 := by omega
  simp [hi, hlow, hwide]

theorem low_half (date time : BitVec 32) :
    ((date.setWidth 64 <<< 32) ||| time.setWidth 64).setWidth 32 = time := by
  apply BitVec.eq_of_getLsbD_eq
  intro i hi
  simp [hi]

/-- Both halves are read, and neither of them is the answer for a failure. -/
theorem parseDateTime_eq (t : Stamp) :
    ∃ date time : BitVec 32,
      date.toNat = t.day.value + 2 ^ 5 * t.month.value + 2 ^ 9 * t.year.value ∧
      time.toNat = t.second.value + 2 ^ 6 * t.minute.value + 2 ^ 12 * t.hour.value ∧
      parseDateTime t.chars 19 = (date.setWidth 64 <<< 32) ||| time.setWidth 64 := by
  have hmonth := t.month_le
  have hday := t.day_le
  have hhour := t.hour_lt
  have hminute := t.minute_lt
  have hsecond := t.second_lt
  have hyear : t.year.value < 10 ^ 4 := t.year.value_lt
  have hdate := toNat_parseDate t.year t.month t.day (by omega) (by omega)
    (stops (c := space) (by decide) t.timeChars)
  have htime := toNat_parseTime t.hour t.minute t.second (by omega) (by omega)
  have hchars : t.chars = (t.year.digits ++ dash :: (t.month.digits ++ dash :: t.day.digits)) ++
      space :: t.timeChars := by
    simp only [Stamp.chars, List.append_assoc, List.cons_append]
  have hlength : (t.year.digits ++ dash :: (t.month.digits ++ dash :: t.day.digits)).length =
      10 := by
    simp [t.year.length_eq, t.month.length_eq, t.day.length_eq]
  refine ⟨_, _, hdate, htime, ?_⟩
  have hblank : charAt t.chars 10 = space := by
    rw [hchars]
    exact charAt_append hlength space t.timeChars
  have hrest : t.chars.drop 11 = t.timeChars := by
    rw [hchars]
    exact drop_append hlength space t.timeChars
  rw [parseDateTime, if_neg (by simp [hblank]), hrest, Stamp.chars]
  dsimp only
  rw [if_neg (ne_neg_one (by omega)), Stamp.timeChars, if_neg (ne_neg_one (by omega))]

/-! ## The pieces of a code -/

theorem toNat_hour (time : BitVec 32) : (time >>> 12).toNat = time.toNat / 2 ^ 12 :=
  BitFields.toNat_shiftRight time 12

theorem toNat_minute (time : BitVec 32) :
    ((time >>> 6) &&& 63).toNat = time.toNat / 2 ^ 6 % 2 ^ 6 := by
  rw [← BitFields.toNat_shiftRight]
  exact BitFields.toNat_and_ones (time >>> 6) (show 6 ≤ 32 by decide)

theorem toNat_second (time : BitVec 32) : (time &&& 63).toNat = time.toNat % 2 ^ 6 :=
  BitFields.toNat_and_ones time (show 6 ≤ 32 by decide)

theorem toNat_year (date : BitVec 32) : (date >>> 9).toNat = date.toNat / 2 ^ 9 :=
  BitFields.toNat_shiftRight date 9

/-- Of the month one bit is taken. -/
theorem toNat_monthBit (date : BitVec 32) :
    ((date >>> 5) &&& 16).toNat = 2 ^ 4 * (date.toNat / 2 ^ 9 % 2) := by
  have hmask := BitFields.toNat_and_bit (date >>> 5) (show 4 < 32 by decide)
  rw [BitFields.toNat_shiftRight, Nat.div_div_eq_div_mul] at hmask
  exact hmask

theorem toNat_day (date : BitVec 32) : (date &&& 31).toNat = date.toNat % 2 ^ 5 :=
  BitFields.toNat_and_ones date (show 5 ≤ 32 by decide)

/-! ## Formatting -/

/-- What the masks leave of a date: the month is a bit of the year. -/
def printedDate (y : Field 4) (d : Field 2) : List Byte :=
  y.digits ++ dash :: (padded 2 (2 ^ 4 * (y.value % 2)) ++ dash :: d.digits)

def printedTime (h m s : Field 2) : List Byte :=
  h.digits ++ colon :: (m.digits ++ colon :: s.digits)

theorem length_printedDate (y : Field 4) (d : Field 2) : (printedDate y d).length = 10 := by
  have hmonth : (padded 2 (2 ^ 4 * (y.value % 2))).length = 2 := by
    rcases Nat.mod_two_eq_zero_or_one y.value with hbit | hbit
    · rw [hbit]
      decide
    · rw [hbit]
      decide
  simp only [printedDate, List.length_append, List.length_cons, hmonth, y.length_eq, d.length_eq]

theorem length_printedTime (h m s : Field 2) : (printedTime h m s).length = 8 := by
  simp only [printedTime, List.length_append, List.length_cons, h.length_eq, m.length_eq,
    s.length_eq]

/-- Of the date nine characters are stored. -/
theorem formatDate_eq (mem : Mem) (buf : Nat) (y : Field 4) (d : Field 2) {month : Nat}
    {date : BitVec 32} (hdate : date.toNat = d.value + 2 ^ 5 * month + 2 ^ 9 * y.value)
    (hmonth : month < 2 ^ 4) (hd : d.value < 2 ^ 5) :
    formatDate mem buf 10 date = (write mem buf ((printedDate y d).take 9 ++ [0#8]), 10) := by
  have hyear : (date >>> 9).toNat = y.value := by
    rw [toNat_year, hdate]
    omega
  have hbit : ((date >>> 5) &&& 16).toNat = 2 ^ 4 * (y.value % 2) := by
    rw [toNat_monthBit, hdate]
    omega
  have hday : (date &&& 31).toNat = d.value := by
    rw [toNat_day, hdate]
    omega
  rw [formatDate, if_neg (by decide)]
  dsimp only
  rw [hyear, hbit, hday, y.padded_value (by decide), d.padded_value (by decide), ← printedDate,
    Format.snprintf, length_printedDate]
  rfl

/-- Of the time seven characters are stored. -/
theorem formatTime_eq (mem : Mem) (buf : Nat) (h m s : Field 2) {time : BitVec 32}
    (htime : time.toNat = s.value + 2 ^ 6 * m.value + 2 ^ 12 * h.value)
    (hm : m.value < 2 ^ 6) (hs : s.value < 2 ^ 6) :
    formatTime mem buf 8 time = (write mem buf ((printedTime h m s).take 7 ++ [0#8]), 8) := by
  have hhour : (time >>> 12).toNat = h.value := by
    rw [toNat_hour, htime]
    omega
  have hminute : ((time >>> 6) &&& 63).toNat = m.value := by
    rw [toNat_minute, htime]
    omega
  have hsecond : (time &&& 63).toNat = s.value := by
    rw [toNat_second, htime]
    omega
  rw [formatTime, if_neg (by decide)]
  dsimp only
  rw [hhour, hminute, hsecond, h.padded_value (by decide), m.padded_value (by decide),
    s.padded_value (by decide), ← printedTime, Format.snprintf, length_printedTime]
  rfl

/-! ## Formatting what was parsed -/

/-- The characters that formatting leaves of a text. -/
def Text.formatted (t : Text) : List Byte :=
  ((printedDate t.year t.day).take 9 ++ [0#8]) ++
    space :: ((printedTime t.hour t.minute t.second).take 7 ++ [0#8])

theorem Text.length_formatted (t : Text) : t.formatted.length = 19 := by
  simp only [formatted, List.length_append, List.length_cons, List.length_take,
    length_printedDate, length_printedTime]
  rfl

theorem formatDateTime_parseDateTime (t : Text) (mem : Mem) (buf : Nat) {bufLen : Int}
    (hlen : 19 ≤ bufLen) :
    formatDateTime mem buf bufLen (parseDateTime t.chars 19) =
      (write mem buf t.formatted, 18) := by
  obtain ⟨date, time, hdate, htime, hparse⟩ := parseDateTime_eq t.stamp
  have hmonth := t.stamp.month_le
  obtain ⟨-, hday⟩ := t.day_range
  have hminute := t.minute_lt
  have hsecond := t.second_lt
  have hlength : ((printedDate t.year t.day).take 9 ++ [0#8]).length = 10 := by
    rw [List.length_append, List.length_take, length_printedDate]
    rfl
  rw [t.chars_stamp] at hparse
  rw [formatDateTime, if_neg (by omega), hparse]
  dsimp only
  rw [high_half, low_half, formatDate_eq mem buf t.year t.day hdate (by omega) (by omega),
    formatTime_eq _ _ t.hour t.minute t.second htime (by omega) (by omega), Text.formatted,
    write_append mem buf (_ ++ [0#8]) (space :: _), hlength]
  rfl

/-- There is no terminator within a text. -/
theorem Text.zero_not_mem_chars (t : Text) : 0#8 ∉ t.chars := by
  have hcolon : 0#8 ≠ colon := by decide
  have hdash : 0#8 ≠ dash := by decide
  have hspace : 0#8 ≠ space := by decide
  simp [chars, dateChars, timeChars, Field.zero_not_mem, hcolon, hdash, hspace]

/-- Whatever the text, the sizes passed on put terminators into it and the month is lost;
the two pieces are counted without the space between them. -/
theorem formatDateTime_never_text (t : Text) (mem : Mem) (buf : Nat) {bufLen : Int}
    (hlen : 20 ≤ bufLen) :
    let r := formatDateTime mem buf bufLen (parseDateTime t.chars 19)
    r.2 = 18 ∧ read r.1 buf 19 = t.formatted ∧ ¬ (read r.1 buf 19 = t.chars ∨ r.2 = 19) := by
  rw [formatDateTime_parseDateTime t mem buf (by omega)]
  have hread : read (write mem buf t.formatted) buf 19 = t.formatted := by
    have hsame := read_write_same mem buf t.formatted
    rwa [t.length_formatted] at hsame
  refine ⟨rfl, hread, fun h => ?_⟩
  rcases h with htext | hcount
  · have hterminator : 0#8 ∈ t.formatted := by simp [Text.formatted]
    rw [← hread, htext] at hterminator
    exact t.zero_not_mem_chars hterminator
  · exact absurd hcount (show ¬ (18 : Int) = 19 by decide)

/-- 2023-07-15 21:43:56. -/
def sampleText : Text where
  year := ⟨[0x32, 0x30, 0x32, 0x33], rfl, by decide⟩
  month := ⟨[0x30, 0x37], rfl, by decide⟩
  day := ⟨[0x31, 0x35], rfl, by decide⟩
  hour := ⟨[0x32, 0x31], rfl, by decide⟩
  minute := ⟨[0x34, 0x33], rfl, by decide⟩
  second := ⟨[0x35, 0x36], rfl, by decide⟩
  month_range := by decide
  day_range := by decide
  hour_lt := by decide
  minute_lt := by decide
  second_lt := by decide

theorem formatDateTime_never_sampleText :
    let r := formatDateTime (fun _ => 0xff) 64 20 (parseDateTime sampleText.chars 19)
    r.2 = 18 ∧ read r.1 64 19 = sampleText.formatted ∧
      ¬ (read r.1 64 19 = sampleText.chars ∨ r.2 = 19) :=
  formatDateTime_never_text sampleText (fun _ => 0xff) 64 (by decide)

/-- Month 7 of an odd year comes back as 16, and both pieces end one character early. -/
theorem formatDateTime_loses_month :
    let r := formatDateTime (fun _ => 0xff) 64 20 (parseDateTime sampleText.chars 19)
    r.2 = 18 ∧ read r.1 64 19 =
      [0x32, 0x30, 0x32, 0x33, 0x2D, 0x31, 0x36, 0x2D, 0x31, 0x00, 0x20,
        0x32, 0x31, 0x3A, 0x34, 0x33, 0x3A, 0x35, 0x00] ∧
      sampleText.chars =
        [0x32, 0x30, 0x32, 0x33, 0x2D, 0x30, 0x37, 0x2D, 0x31, 0x35, 0x20,
          0x32, 0x31, 0x3A, 0x34, 0x33, 0x3A, 0x35, 0x36] :=
  ⟨by decide +kernel, by decide +kernel, by decide +kernel⟩

end DateTime

end XfUtil
