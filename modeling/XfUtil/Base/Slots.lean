import XfUtil.Base.Memory
import Mathlib.Data.List.Nodup
import Mathlib.Data.List.Range

/-!
# Consecutive slots of one size

The addresses that cutting a region of memory into equal pieces yields.
-/

namespace FlatMemory

/-- `count` slots of `size` bytes, one after the other from `base` on. -/
def slots (base size count : Nat) : List Nat := (List.range count).map fun i => base + i * size

variable {base size count : Nat}

@[simp] theorem slots_zero (base size : Nat) : slots base size 0 = [] := rfl

@[simp] theorem length_slots (base size count : Nat) : (slots base size count).length = count := by
  simp [slots]

theorem mem_slots {a : Nat} : a ∈ slots base size count ↔ ∃ i < count, a = base + i * size := by
  simp [slots, eq_comm]

theorem slots_succ (base size count : Nat) :
    slots base size (count + 1) = slots base size count ++ [base + count * size] := by
  simp [slots, List.range_succ]

theorem slots_succ_eq_cons (base size count : Nat) :
    slots base size (count + 1) = base :: slots (base + size) size count := by
  have hshift : ∀ i, base + (i + 1) * size = base + size + i * size := by
    intro i
    rw [Nat.add_mul]
    omega
  simp [slots, List.range_succ_eq_map, hshift, Function.comp_def]

theorem slots_nodup (h : 0 < size) : (slots base size count).Nodup :=
  List.nodup_range.map fun _ _ hij => Nat.eq_of_mul_eq_mul_right h (Nat.add_left_cancel hij)

theorem slots_inside {a : Nat} (h : a ∈ slots base size count) :
    base ≤ a ∧ a + size ≤ base + count * size := by
  obtain ⟨i, hi, rfl⟩ := mem_slots.mp h
  have hle : (i + 1) * size ≤ count * size := Nat.mul_le_mul_right _ hi
  rw [Nat.add_mul] at hle
  omega

theorem slots_subset {count' : Nat} (h : count ≤ count') {a : Nat}
    (ha : a ∈ slots base size count) : a ∈ slots base size count' := by
  obtain ⟨i, hi, rfl⟩ := mem_slots.mp ha
  exact mem_slots.mpr ⟨i, hi.trans_le h, rfl⟩

theorem slots_apart {a b : Nat} (ha : a ∈ slots base size count) (hb : b ∈ slots base size count)
    (hne : a ≠ b) : Apart a size b size := by
  obtain ⟨i, -, rfl⟩ := mem_slots.mp ha
  obtain ⟨j, -, rfl⟩ := mem_slots.mp hb
  rcases Nat.lt_trichotomy i j with hij | rfl | hij
  · have hle : (i + 1) * size ≤ j * size := Nat.mul_le_mul_right _ hij
    rw [Nat.add_mul] at hle
    exact Or.inl (by omega)
  · exact absurd rfl hne
  · have hle : (j + 1) * size ≤ i * size := Nat.mul_le_mul_right _ hij
    rw [Nat.add_mul] at hle
    exact Or.inr (by omega)

theorem slots_dvd {d a : Nat} (hbase : d ∣ base) (hsize : d ∣ size)
    (ha : a ∈ slots base size count) : d ∣ a := by
  obtain ⟨i, -, rfl⟩ := mem_slots.mp ha
  exact Nat.dvd_add hbase (Nat.dvd_mul_left_of_dvd hsize i)

end FlatMemory
