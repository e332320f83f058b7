import XfUtil.Time.RoundTrip

/-!
# The order of packed dates and times

The fields stand in a code as they stand in a text, the year first, and each one stays
below the next. So codes are ordered as texts are, and as points in time are.
-/

namespace XfUtil

open FlatMemory Decimal

namespace DateTime

namespace Field

variable {width : Nat}

theorem digits_lt_iff (f g : Field width) : f.digits < g.digits ↔ f.value < g.value :=
  (number_lt_iff (f.length_eq.trans g.length_eq.symm) f.isDigit g.isDigit).symm

theorem digits_eq_iff (f g : Field width) : f.digits = g.digits ↔ f.value = g.value :=
  (number_inj (f.length_eq.trans g.length_eq.symm) f.isDigit g.isDigit).symm

/-- Texts that begin with a field and a separator. -/
theorem append_lt_iff (f g : Field width) (c : Byte) (xs ys : List Byte) :
    f.digits ++ c :: xs < g.digits ++ c :: ys ↔
      f.value < g.value ∨ f.value = g.value ∧ xs < ys := by
  rw [Lexicographic.append_cons_lt_append_cons_iff (f.length_eq.trans g.length_eq.symm),
    f.digits_lt_iff, f.digits_eq_iff]

end Field

namespace Stamp

/-- The one point in time is before the other: the first field that differs decides. -/
def Before (a b : Stamp) : Prop :=
  a.year.value < b.year.value ∨ a.year.value = b.year.value ∧
    (a.month.value < b.month.value ∨ a.month.value = b.month.value ∧
      (a.day.value < b.day.value ∨ a.day.value = b.day.value ∧
        (a.hour.value < b.hour.value ∨ a.hour.value = b.hour.value ∧
          (a.minute.value < b.minute.value ∨ a.minute.value = b.minute.value ∧
            a.second.value < b.second.value))))

theorem chars_lt_iff (a b : Stamp) : a.chars < b.chars ↔ a.Before b := by
  rw [chars, chars, Field.append_lt_iff, Field.append_lt_iff, Field.append_lt_iff, timeChars,
    timeChars, Field.append_lt_iff, Field.append_lt_iff, Field.digits_lt_iff, Before]

/-- The number that a text is packed into. -/
def key (t : Stamp) : Nat :=
  t.second.value + 2 ^ 6 * t.minute.value + 2 ^ 12 * t.hour.value +
    2 ^ 32 * (t.day.value + 2 ^ 5 * t.month.value + 2 ^ 9 * t.year.value)

theorem toNat_parseDateTime (t : Stamp) : (parseDateTime t.chars 19).toNat = t.key := by
  obtain ⟨date, time, hdate, htime, hparse⟩ := parseDateTime_eq t
  have hlow : (time.setWidth 64).toNat = time.toNat := by
    rw [BitVec.toNat_setWidth]
    omega
  have hhigh : (date.setWidth 64).toNat = date.toNat := by
    rw [BitVec.toNat_setWidth]
    omega
  have hlt := time.isLt
  rw [hparse, BitVec.or_comm, BitFields.or_shiftLeft_eq _ _ (hlow ▸ hlt), hlow, hhigh,
    BitVec.toNat_ofNat, key, ← hdate, ← htime]
  omega

theorem key_lt_iff (a b : Stamp) : a.key < b.key ↔ a.Before b := by
  have hmonth := a.month_le
  have hmonth' := b.month_le
  have hday := a.day_le
  have hday' := b.day_le
  have hhour := a.hour_lt
  have hhour' := b.hour_lt
  have hminute := a.minute_lt
  have hminute' := b.minute_lt
  have hsecond := a.second_lt
  have hsecond' := b.second_lt
  unfold key Before
  omega

theorem key_lt (t : Stamp) : t.key < 2 ^ 64 - 1 := by
  have hyear : t.year.value < 10 ^ 4 := t.year.value_lt
  have hmonth := t.month_le
  have hday := t.day_le
  have hhour := t.hour_lt
  have hminute := t.minute_lt
  have hsecond := t.second_lt
  unfold key
  omega

end Stamp

/-- Codes are ordered as the texts are, and texts as points in time; a code has one text
and is not the answer for a failure. -/
theorem parseDateTime_order (a b : Stamp) :
    (parseDateTime a.chars 19 < parseDateTime b.chars 19 ↔ a.chars < b.chars) ∧
      (a.chars < b.chars ↔ a.Before b) ∧
      (parseDateTime a.chars 19 = parseDateTime b.chars 19 → a.chars = b.chars) ∧
      parseDateTime a.chars 19 ≠ -1 := by
  refine ⟨?_, a.chars_lt_iff b, fun heq => ?_, fun herror => ?_⟩
  · rw [BitVec.lt_def, a.toNat_parseDateTime, b.toNat_parseDateTime, a.key_lt_iff b,
      a.chars_lt_iff b]
  · have hkey : a.key = b.key := by
      rw [← a.toNat_parseDateTime, heq, b.toNat_parseDateTime]
    -- Neither of the two texts comes before the other.
    have hbefore : ¬ a.chars < b.chars := by
      rw [a.chars_lt_iff b, ← a.key_lt_iff b, hkey]
      exact Nat.lt_irrefl b.key
    have hafter : ¬ b.chars < a.chars := by
      rw [b.chars_lt_iff a, ← b.key_lt_iff a, hkey]
      exact Nat.lt_irrefl b.key
    exact List.le_antisymm (List.not_lt.mp hafter) (List.not_lt.mp hbefore)
  · have hlt := a.key_lt
    rw [← a.toNat_parseDateTime, herror] at hlt
    exact absurd hlt (by decide)

end DateTime

end XfUtil
