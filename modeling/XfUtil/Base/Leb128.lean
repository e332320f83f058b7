import Mathlib.Algebra.GroupWithZero.Nat
import Mathlib.Data.Nat.Size
import Mathlib.Tactic.Ring
import XfUtil.Base.Memory

/-!
# Base-128 numbers

Seven payload bits a byte, least significant group first, with the top bit set
on every byte but the last. `bytes` is the shortest such form; `value` reads
the payload of any byte list, terminated or not.
-/

namespace Leb128

open FlatMemory (Byte)

/-- The shortest base-128 form of `n`. -/
def bytes (n : Nat) : List Byte :=
  if n < 128 then [BitVec.ofNat 8 n]
  else BitVec.ofNat 8 (n % 128 + 128) :: bytes (n / 128)
termination_by n
decreasing_by omega

/-- The number whose base-128 digits are the low seven bits of each byte. -/
def value : List Byte → Nat
  | [] => 0
  | b :: bs => b.toNat % 128 + 128 * value bs

theorem value_append (xs ys : List Byte) :
    value (xs ++ ys) = value xs + 128 ^ xs.length * value ys := by
  induction xs with
  | nil => simp [value]
  | cons x xs ih =>
      rw [List.cons_append, value, value, ih, List.length_cons, Nat.pow_succ]
      ring

/-- Digit by digit. -/
theorem value_map_range (f : Nat → Byte) (n : Nat) :
    value ((List.range n).map f) =
      ((List.range n).map fun i => (f i).toNat % 128 * 2 ^ (7 * i)).sum := by
  induction n with
  | zero => rfl
  | succ n ih =>
      have hpow : 128 ^ n = 2 ^ (7 * n) := (Nat.pow_mul 2 7 n).symm
      rw [List.range_succ, List.map_append, List.map_append, value_append, ih, List.sum_append,
        List.length_map, List.length_range, hpow]
      simp [value, Nat.mul_comm]

/-- A continuation byte announces that another byte follows. -/
def Continues (b : Byte) : Prop := 128 ≤ b.toNat

instance (b : Byte) : Decidable (Continues b) := inferInstanceAs (Decidable (_ ≤ _))

theorem bytes_of_lt {n : Nat} (h : n < 128) : bytes n = [BitVec.ofNat 8 n] := by
  rw [bytes, if_pos h]

theorem bytes_of_le {n : Nat} (h : 128 ≤ n) :
    bytes n = BitVec.ofNat 8 (n % 128 + 128) :: bytes (n / 128) := by
  rw [bytes, if_neg (by omega)]

/-- The shape a decoder relies on: continuation bytes, then one final byte. -/
theorem bytes_shape (n : Nat) :
    ∃ front last, bytes n = front ++ [last] ∧ (∀ b ∈ front, Continues b) ∧
      ¬ Continues last := by
  induction n using Nat.strongRecOn with
  | ind n ih =>
      by_cases h : n < 128
      · refine ⟨[], BitVec.ofNat 8 n, by simp [bytes_of_lt h], by simp, ?_⟩
        simp only [Continues, BitVec.toNat_ofNat]
        omega
      · obtain ⟨front, last, heq, hfront, hlast⟩ := ih (n / 128) (by omega)
        refine ⟨BitVec.ofNat 8 (n % 128 + 128) :: front, last, ?_, ?_, hlast⟩
        · rw [bytes_of_le (by omega), heq, List.cons_append]
        · intro b hb
          rcases List.mem_cons.mp hb with rfl | hb
          · simp only [Continues, BitVec.toNat_ofNat]
            omega
          · exact hfront b hb

theorem value_bytes (n : Nat) : value (bytes n) = n := by
  induction n using Nat.strongRecOn with
  | ind n ih =>
      by_cases h : n < 128
      · simp only [bytes_of_lt h, value, BitVec.toNat_ofNat]
        omega
      · rw [bytes_of_le (by omega), value, ih (n / 128) (by omega), BitVec.toNat_ofNat]
        omega

/-- The digits of a number of `k + 1` groups. -/
theorem bytes_eq_digits {n k : Nat} (hk : k = 0 ∨ 128 ^ k ≤ n) (hn : n < 128 ^ (k + 1)) :
    bytes n = (List.range k).map (fun i => BitVec.ofNat 8 (n / 128 ^ i % 128 + 128)) ++
      [BitVec.ofNat 8 (n / 128 ^ k)] := by
  induction k generalizing n with
  | zero =>
      rw [bytes_of_lt (by simpa using hn)]
      simp
  | succ k ih =>
      have hle : 128 ^ (k + 1) ≤ n := hk.resolve_left (Nat.succ_ne_zero k)
      have hpow : 128 ≤ 128 ^ (k + 1) := Nat.le_self_pow (Nat.succ_ne_zero k) 128
      have hdiv : ∀ i, n / 128 / 128 ^ i = n / 128 ^ (i + 1) := by
        intro i
        rw [Nat.div_div_eq_div_mul, Nat.pow_succ']
      have hlow : 128 ^ k ≤ n / 128 := by
        rw [Nat.le_div_iff_mul_le (by decide), ← Nat.pow_succ]
        exact hle
      have hhigh : n / 128 < 128 ^ (k + 1) := by
        rw [Nat.div_lt_iff_lt_mul (by decide), ← Nat.pow_succ]
        exact hn
      rw [bytes_of_le (hpow.trans hle), ih (Or.inr hlow) hhigh, List.range_succ_eq_map,
        List.map_cons, List.map_map, List.cons_append]
      simp [hdiv, Function.comp_def]

theorem bytes_length_pos (n : Nat) : 0 < (bytes n).length := by
  obtain ⟨front, last, heq, _⟩ := bytes_shape n
  simp [heq]

/-- The number of bytes is governed by the number of seven-bit groups. -/
theorem bytes_length_le_iff (n k : Nat) : (bytes n).length ≤ k + 1 ↔ n < 128 ^ (k + 1) := by
  induction k generalizing n with
  | zero =>
      by_cases h : n < 128
      · simp [bytes_of_lt h, h]
      · have := bytes_length_pos (n / 128)
        simp only [bytes_of_le (by omega : 128 ≤ n), List.length_cons]
        omega
  | succ k ih =>
      by_cases h : n < 128
      · have hpow : 128 ≤ 128 ^ (k + 1 + 1) := Nat.le_self_pow (by omega) 128
        simp only [bytes_of_lt h, List.length_singleton]
        omega
      · rw [bytes_of_le (by omega), List.length_cons, Nat.add_le_add_iff_right, ih,
          Nat.div_lt_iff_lt_mul (by decide), ← Nat.pow_succ]

theorem bytes_length_le {n k : Nat} (h : n < 128 ^ (k + 1)) : (bytes n).length ≤ k + 1 :=
  (bytes_length_le_iff n k).mpr h

theorem lt_bytes_length {n k : Nat} (h : 128 ^ (k + 1) ≤ n) : k + 1 < (bytes n).length := by
  have := (bytes_length_le_iff n k).not
  omega

/-- One byte for each seven bits of the number, and one for zero. -/
theorem bytes_length (n : Nat) : (bytes n).length = max 1 ((n.size + 6) / 7) := by
  have hsize : ∀ k, (bytes n).length ≤ k + 1 ↔ n.size ≤ 7 * (k + 1) := by
    intro k
    rw [bytes_length_le_iff, Nat.size_le, Nat.pow_mul]
  have hpos := bytes_length_pos n
  have hupper := hsize ((bytes n).length - 1)
  have hlower := hsize ((bytes n).length - 2)
  omega

end Leb128
