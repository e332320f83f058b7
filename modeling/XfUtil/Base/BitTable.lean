import Mathlib.Data.BitVec
import Mathlib.Data.List.Basic

/-!
# Tables of bits

A list of bytes read as a table of bits, eight to a byte, the lowest bit first.
Setting bits makes the table larger as a set, so nothing that is set is lost.
-/

namespace BitTable

abbrev Table := List (BitVec 8)

/-- The bit at position `p`; behind the end of the table no bit is set. -/
def bit (t : Table) (p : Nat) : Bool := (t[p / 8]?.getD 0).getLsbD (p % 8)

def setBit (t : Table) (p : Nat) : Table := t.modify (p / 8) (· ||| 1#8 <<< (p % 8))

def setAll (t : Table) (ps : List Nat) : Table := ps.foldl setBit t

/-- Every position of the list is set. -/
def hasAll (t : Table) (ps : List Nat) : Bool := ps.all (bit t)

theorem getLsbD_one_shiftLeft {i j : Nat} (hi : i < 8) (hj : j < 8) :
    (1#8 <<< i).getLsbD j = decide (j = i) := by
  rw [BitVec.getLsbD_shiftLeft, BitVec.getLsbD_one]
  by_cases h : j = i
  · simp [h, hi]
  · simp only [h, hj, decide_true, decide_false, Bool.true_and, Bool.and_eq_false_imp,
      Bool.not_eq_true', decide_eq_false_iff_not]
    omega

/-- Masking with a single bit tests it. -/
theorem and_one_shiftLeft_eq_zero (b : BitVec 8) {i : Nat} (hi : i < 8) :
    b &&& (1#8 <<< i) = 0 ↔ b.getLsbD i = false := by
  constructor
  · intro h
    have hbit := congrArg (fun x => BitVec.getLsbD x i) h
    simpa [BitVec.getLsbD_and, getLsbD_one_shiftLeft hi hi] using hbit
  · intro h
    apply BitVec.eq_of_getLsbD_eq
    intro j hj
    rw [BitVec.getLsbD_and, getLsbD_one_shiftLeft hi hj]
    by_cases hji : j = i
    · subst hji
      simp [h]
    · simp [hji]

@[simp] theorem length_setBit (t : Table) (p : Nat) : (setBit t p).length = t.length := by
  simp [setBit]

@[simp] theorem length_setAll (t : Table) (ps : List Nat) : (setAll t ps).length = t.length := by
  induction ps generalizing t with
  | nil => rfl
  | cons p ps ih => exact (ih (setBit t p)).trans (length_setBit t p)

theorem bit_setBit {t : Table} {p : Nat} (hp : p < 8 * t.length) (q : Nat) :
    bit (setBit t p) q = (bit t q || decide (q = p)) := by
  have hq : q % 8 < 8 := Nat.mod_lt q (by decide)
  have hp8 : p % 8 < 8 := Nat.mod_lt p (by decide)
  unfold bit setBit
  rw [List.getElem?_modify]
  by_cases hbyte : p / 8 = q / 8
  · have hlt : q / 8 < t.length := by omega
    have hiff : q % 8 = p % 8 ↔ q = p := by omega
    rw [List.getElem?_eq_getElem hlt]
    simp only [hbyte, if_true, Option.map_eq_map, Option.map_some, Option.getD_some,
      BitVec.getLsbD_or, getLsbD_one_shiftLeft hp8 hq, hiff]
  · have hne : ¬ q = p := by
      intro h
      exact hbyte (by rw [h])
    simp [hbyte, hne]

theorem bit_setAll {t : Table} {ps : List Nat} (hps : ∀ p ∈ ps, p < 8 * t.length) (q : Nat) :
    bit (setAll t ps) q = (bit t q || decide (q ∈ ps)) := by
  induction ps generalizing t with
  | nil => simp [setAll]
  | cons p ps ih =>
      have hp : p < 8 * t.length := hps p (by simp)
      have hrest : ∀ p' ∈ ps, p' < 8 * (setBit t p).length := by
        intro p' hp'
        rw [length_setBit]
        exact hps p' (by simp [hp'])
      calc bit (setAll t (p :: ps)) q = bit (setAll (setBit t p) ps) q := rfl
        _ = (bit (setBit t p) q || decide (q ∈ ps)) := ih hrest
        _ = ((bit t q || decide (q = p)) || decide (q ∈ ps)) := by rw [bit_setBit hp]
        _ = (bit t q || decide (q ∈ p :: ps)) := by simp [Bool.or_assoc]

theorem setAll_append (t : Table) (ps qs : List Nat) :
    setAll t (ps ++ qs) = setAll (setAll t ps) qs :=
  List.foldl_append

/-- The table is its bits. -/
theorem eq_of_bits {t u : Table} (hlen : t.length = u.length)
    (h : ∀ p < 8 * t.length, bit t p = bit u p) : t = u := by
  apply List.ext_getElem hlen
  intro i hi hi'
  apply BitVec.eq_of_getLsbD_eq
  intro j hj
  have hbit := h (8 * i + j) (by omega)
  have hbyte : (8 * i + j) / 8 = i := by omega
  have hoff : (8 * i + j) % 8 = j := by omega
  simpa [bit, hbyte, hoff, hi, hi'] using hbit

/-- What has been set is found. -/
theorem hasAll_setAll_self {t : Table} {ps : List Nat} (hps : ∀ p ∈ ps, p < 8 * t.length) :
    hasAll (setAll t ps) ps = true := by
  apply List.all_eq_true.mpr
  intro p hp
  rw [bit_setAll hps]
  simp [hp]

/-- What was found stays found. -/
theorem hasAll_setAll {t : Table} {ps qs : List Nat} (hps : ∀ p ∈ ps, p < 8 * t.length)
    (h : hasAll t qs = true) : hasAll (setAll t ps) qs = true := by
  apply List.all_eq_true.mpr
  intro q hq
  rw [bit_setAll hps, List.all_eq_true.mp h q hq, Bool.true_or]

end BitTable
