import Mathlib.Algebra.GroupWithZero.Nat
import Mathlib.Data.List.TakeWhile
import XfUtil.Base.Memory

/-!
# Formatted output

`snprintf` into a buffer of a given size: the text is cut to leave room for the
terminator, and the answer is the length it would have had.
-/

namespace Format

open FlatMemory

/-- The characters that `snprintf(buf, size, …)` leaves in front of the terminator. -/
def stored (size : Nat) (text : List Byte) : List Byte := text.take (size - 1)

theorem length_stored (size : Nat) (text : List Byte) :
    (stored size text).length = min (size - 1) text.length :=
  List.length_take ..

theorem stored_of_lt {size : Nat} {text : List Byte} (h : text.length < size) :
    stored size text = text :=
  List.take_of_length_le (by omega)

/-- Text that is cut at the end of `front` comes out as `front`, whatever follows. -/
theorem stored_append_of_eq {size : Nat} {front : List Byte} (h : front.length = size - 1)
    (rest : List Byte) : stored size (front ++ rest) = front := by
  rw [stored, ← h, List.take_left']
  rfl

/-- `snprintf(buf, size, …)`, with what it returns. -/
def snprintf (m : Mem) (buf size : Nat) (text : List Byte) : Mem × Int :=
  (if size = 0 then m else write m buf (stored size text ++ [0#8]), text.length)

/-- At the address stand these characters and then the terminator. -/
def StringAt (m : Mem) (a : Nat) (text : List Byte) : Prop :=
  read m a text.length = text ∧ m (a + text.length) = 0#8 ∧ 0#8 ∉ text

/-- The terminator is the first zero, so there is one such text. -/
theorem StringAt.unique {m : Mem} {a : Nat} {xs ys : List Byte} (hx : StringAt m a xs)
    (hy : StringAt m a ys) : xs = ys := by
  induction xs generalizing a ys with
  | nil =>
      cases ys with
      | nil => rfl
      | cons y ys =>
          have hzero : m a = 0#8 := hx.2.1
          have hfirst : m a = y := (read_eq_cons hy.1).1
          rw [← hfirst, hzero] at hy
          exact absurd List.mem_cons_self hy.2.2
  | cons x xs ih =>
      obtain ⟨hfirst, hrest⟩ := read_eq_cons hx.1
      obtain ⟨hnot, hfree⟩ := List.ne_and_not_mem_of_not_mem_cons hx.2.2
      have hend : m (a + 1 + xs.length) = 0#8 := by
        rw [Nat.add_assoc, Nat.add_comm 1]
        exact hx.2.1
      cases ys with
      | nil => exact absurd (hfirst.symm.trans hy.2.1).symm hnot
      | cons y ys =>
          obtain ⟨hfirst', hrest'⟩ := read_eq_cons hy.1
          have hend' : m (a + 1 + ys.length) = 0#8 := by
            rw [Nat.add_assoc, Nat.add_comm 1]
            exact hy.2.1
          rw [← hfirst, ← hfirst', ih ⟨hrest, hend, hfree⟩
            ⟨hrest', hend', (List.ne_and_not_mem_of_not_mem_cons hy.2.2).2⟩]

/-- What is stored of a text is a string if the text has no zero in it. -/
theorem snprintf_stored (m : Mem) (buf : Nat) {size : Nat} {text : List Byte} (hsize : size ≠ 0)
    (hfree : 0#8 ∉ text) : StringAt (snprintf m buf size text).1 buf (stored size text) := by
  have hall := read_write_same m buf (stored size text ++ [0#8])
  obtain ⟨htext, hzero⟩ := read_eq_append hall
  rw [snprintf, if_neg hsize]
  exact ⟨htext, (List.cons.inj hzero).1, fun hmem => hfree (List.mem_of_mem_take hmem)⟩

/-- With room for the terminator the whole text is there. -/
theorem snprintf_stringAt (m : Mem) (buf : Nat) {size : Nat} {text : List Byte}
    (hsize : text.length < size) (hfree : 0#8 ∉ text) :
    StringAt (snprintf m buf size text).1 buf text := by
  have hroom : size ≠ 0 := Nat.ne_zero_of_lt hsize
  have hstored := snprintf_stored m buf hroom hfree
  rwa [stored_of_lt hsize] at hstored

/-- The string that starts a buffer. -/
def untilZero (bytes : List Byte) : List Byte := bytes.takeWhile fun b => b ≠ 0#8

theorem untilZero_of_free {bytes : List Byte} (h : 0#8 ∉ bytes) : untilZero bytes = bytes := by
  rw [untilZero, List.takeWhile_eq_self_iff]
  intro b hb
  simpa using fun heq : b = 0#8 => h (heq ▸ hb)

theorem untilZero_append {front : List Byte} (h : 0#8 ∉ front) (rest : List Byte) :
    untilZero (front ++ 0#8 :: rest) = front := by
  have hfront : ∀ b ∈ front, decide (b ≠ 0#8) = true := by
    intro b hb
    simpa using fun heq : b = 0#8 => h (heq ▸ hb)
  rw [untilZero, List.takeWhile_append_of_pos hfront, List.takeWhile_cons_of_neg (by decide),
    List.append_nil]

/-- Bytes with no zero in them: what stands in front of a terminator. -/
structure CString where
  bytes : List Byte
  free : 0#8 ∉ bytes
deriving Repr, DecidableEq

/-- `%u`. -/
def decimal (n : Nat) : List Byte := (Nat.toDigits 10 n).map fun c => BitVec.ofNat 8 c.toNat

/-- A digit is recovered from its byte. -/
theorem ofNat_byte_of_isDigit {c : Char} (h : c.isDigit) :
    Char.ofNat (BitVec.ofNat 8 c.toNat).toNat = c := by
  have hle : c.toNat ≤ 57 := (Char.isDigit_iff_toNat.mp h).2
  rw [BitVec.toNat_ofNat, Nat.mod_eq_of_lt (by omega), Char.ofNat_toNat]

theorem length_decimal_le {n k : Nat} (hk : 0 < k) (h : n < 10 ^ k) : (decimal n).length ≤ k := by
  rw [decimal, List.length_map]
  exact (Nat.length_toDigits_le_iff (by decide) hk).mpr h

theorem zero_not_mem_decimal (n : Nat) : 0#8 ∉ decimal n := by
  intro hmem
  obtain ⟨c, hc, hzero⟩ := List.mem_map.mp hmem
  have hdigit : c.isDigit := Nat.isDigit_of_mem_toDigits (by decide) (by decide) hc
  have hback := ofNat_byte_of_isDigit hdigit
  rw [hzero] at hback
  rw [← hback] at hdigit
  exact absurd hdigit (by decide)

/-- Different numbers are printed differently. -/
theorem decimal_injective : Function.Injective decimal := by
  have hchars : ∀ n, (decimal n).map (fun b => Char.ofNat b.toNat) = Nat.toDigits 10 n := by
    intro n
    rw [decimal, List.map_map]
    calc
      (Nat.toDigits 10 n).map _ = (Nat.toDigits 10 n).map id := by
        apply List.map_congr_left
        intro c hc
        exact ofNat_byte_of_isDigit (Nat.isDigit_of_mem_toDigits (by decide) (by decide) hc)
      _ = Nat.toDigits 10 n := List.map_id _
  intro m n h
  have hdigits : Nat.toDigits 10 m = Nat.toDigits 10 n := by
    rw [← hchars m, h, hchars n]
  calc
    m = Nat.ofDigitChars 10 (Nat.toDigits 10 m) 0 := Nat.ofDigitChars_ten_toDigits.symm
    _ = Nat.ofDigitChars 10 (Nat.toDigits 10 n) 0 := by rw [hdigits]
    _ = n := Nat.ofDigitChars_ten_toDigits

end Format
