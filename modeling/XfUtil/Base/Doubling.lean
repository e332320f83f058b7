import Mathlib.Algebra.GroupWithZero.Nat

/-!
# Buffers that double

A buffer that is too small for what is appended to it is exchanged for one of more than twice
its capacity. What has been moved then is never more than the capacity, and that is linear in
what was asked for.
-/

namespace Doubling

/-- A buffer with the account of its exchanges. -/
structure Ledger where
  size : Nat
  capacity : Nat
  /-- What the calls have asked to append. -/
  asked : Nat
  /-- What the exchanges have moved at most. -/
  moved : Nat
  growths : Nat

namespace Ledger

def new : Ledger := ⟨0, 0, 0, 0, 0⟩

/-- Append `n` elements; a full buffer is exchanged for one with room for them and for twice
its capacity. -/
def append (b : Ledger) (n : Nat) : Ledger :=
  if b.capacity < b.size + n then
    ⟨b.size + n, n + b.capacity * 2, b.asked + n, b.moved + b.size, b.growths + 1⟩
  else { b with size := b.size + n, asked := b.asked + n }

/-- The exchange is refused, and nothing is appended. -/
def refuse (b : Ledger) (n : Nat) : Ledger := { b with asked := b.asked + n }

def clear (b : Ledger) : Ledger := { b with size := 0 }

/-- What every sequence of calls keeps. -/
structure Amortized (b : Ledger) : Prop where
  size_le : b.size ≤ b.capacity
  size_le_asked : b.size ≤ b.asked
  moved_le : b.moved ≤ b.capacity
  capacity_le : b.capacity ≤ 3 * b.asked
  growths_le : 2 ^ b.growths ≤ b.capacity + 1

theorem new_amortized : new.Amortized :=
  ⟨Nat.le_refl _, Nat.le_refl _, Nat.le_refl _, Nat.le_refl _, Nat.le_refl _⟩

variable {b : Ledger}

/-- The old capacity pays for the move, and what fills the buffer for the new capacity. -/
theorem Amortized.append (h : b.Amortized) (n : Nat) : (b.append n).Amortized := by
  obtain ⟨hsize, hasked, hmoved, hcapacity, hgrowths⟩ := h
  unfold Ledger.append
  split
  · rename_i hfull
    refine ⟨?_, ?_, ?_, ?_, ?_⟩
    · dsimp only
      omega
    · dsimp only
      omega
    · dsimp only
      omega
    · dsimp only
      omega
    · dsimp only
      rw [Nat.pow_succ]
      omega
  · exact ⟨by dsimp only; omega, by dsimp only; omega, hmoved, by dsimp only; omega, hgrowths⟩

theorem Amortized.refuse (h : b.Amortized) (n : Nat) : (b.refuse n).Amortized :=
  ⟨h.size_le, Nat.le_trans h.size_le_asked (Nat.le_add_right _ _), h.moved_le,
    Nat.le_trans h.capacity_le (Nat.mul_le_mul_left 3 (Nat.le_add_right _ _)), h.growths_le⟩

theorem Amortized.clear (h : b.Amortized) : b.clear.Amortized :=
  ⟨Nat.zero_le _, Nat.zero_le _, h.moved_le, h.capacity_le, h.growths_le⟩

end Ledger

end Doubling
