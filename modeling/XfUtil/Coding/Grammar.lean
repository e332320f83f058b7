import XfUtil.Coding.Inverse

/-!
# What `DecodeVarint` accepts

Among the first ten bytes there has to be one below `0x80`. The first such byte ends
the number; what is above 64 bits is lost. Without one the loop goes through the ten
bytes, or to the end of the buffer.
-/

namespace XfUtil

open FlatMemory

/-- The loop over continuation bytes alone. -/
theorem decodeVarintLoop_continued {m : Mem} {fin : Nat} (rounds shift : Nat) (v : BitVec 64)
    (buf : Nat) (hshift : shift + 7 * rounds = 70)
    (h : ∀ i < min rounds (fin - buf), Leb128.Continues (m (buf + i))) :
    ∃ v', decodeVarintLoop m fin rounds shift v buf =
      ⟨false, some v', buf + min rounds (fin - buf)⟩ := by
  induction rounds generalizing shift v buf with
  | zero => exact ⟨v, by rw [decodeVarintLoop, Nat.zero_min, Nat.add_zero]⟩
  | succ rounds ih =>
      by_cases hroom : buf < fin
      · have hcont : 0x80#64 ≤ (m buf).setWidth 64 :=
          (continues_iff (by decide) (m buf)).mpr (h 0 (by omega))
        obtain ⟨v', hrest⟩ := ih (shift + 7) (v ||| (((m buf).setWidth 64 &&& 0x7f#64) <<< shift))
          (buf + 1) (by omega) fun i hi => by
            rw [Nat.add_assoc, Nat.add_comm 1]
            exact h (i + 1) (by omega)
        have hcond : shift < 64 ∧ buf < fin := ⟨by omega, hroom⟩
        refine ⟨v', ?_⟩
        rw [decodeVarintLoop, if_pos hcond]
        dsimp only
        rw [if_pos hcont, hrest]
        congr 1
        omega
      · have hcond : ¬ (shift < 64 ∧ buf < fin) := fun hc => hroom hc.2
        refine ⟨v, ?_⟩
        rw [decodeVarintLoop, if_neg hcond]
        congr 1
        omega

/-- The out parameter is assigned in any case. -/
theorem decodeVarintLoop_value (m : Mem) (fin rounds shift : Nat) (v : BitVec 64) (buf : Nat) :
    ∃ v', (decodeVarintLoop m fin rounds shift v buf).value = some v' := by
  induction rounds generalizing shift v buf with
  | zero => exact ⟨v, rfl⟩
  | succ rounds ih =>
      unfold decodeVarintLoop
      dsimp only
      split
      · split
        · exact ih _ _ _
        · exact ⟨_, rfl⟩
      · exact ⟨v, rfl⟩

theorem decodeVarint64_value (m : Mem) (buf fin : Nat) :
    ∃ v, (decodeVarint64 m buf fin).value = some v :=
  decodeVarintLoop_value m fin 10 0 0 buf

variable {m : Mem} {buf fin : Nat}

theorem decodeVarint64_first {i : Nat} (hi : i < min 10 (fin - buf))
    (hlast : (m (buf + i)).toNat < 0x80) (hfirst : ∀ j < i, 0x80 ≤ (m (buf + j)).toNat) :
    decodeVarint64 m buf fin =
      ⟨true, some (BitVec.ofNat 64 ((List.range (i + 1)).map fun j =>
        (m (buf + j)).toNat % 128 * 2 ^ (7 * j)).sum), buf + i + 1⟩ := by
  have hread : read m buf (i + 1) = read m buf i ++ [m (buf + i)] := by
    rw [read_add]
    rfl
  have hfront : ∀ b ∈ read m buf i, Leb128.Continues b := by
    intro b hb
    rw [read_eq_map] at hb
    obtain ⟨j, hj, rfl⟩ := List.mem_map.mp hb
    exact hfirst j (List.mem_range.mp hj)
  have hdecode : decodeVarint64 m buf fin = _ :=
    decodeVarint64_terminated (read m buf i) (m (buf + i)) hfront (Nat.not_le.mpr hlast)
      (by rw [read_length]; omega) (by rw [read_length]; exact hread)
      (by rw [read_length]; omega)
  rw [read_length, ← hread, read_eq_map, Leb128.value_map_range] at hdecode
  exact hdecode

theorem decodeVarint64_rejected (h : ∀ i < min 10 (fin - buf), 0x80 ≤ (m (buf + i)).toNat) :
    ∃ v, decodeVarint64 m buf fin = ⟨false, some v, buf + min 10 (fin - buf)⟩ :=
  decodeVarintLoop_continued 10 0 0 buf (by decide) h

theorem exists_first (h : ∃ i < min 10 (fin - buf), (m (buf + i)).toNat < 0x80) :
    ∃ i < min 10 (fin - buf), (m (buf + i)).toNat < 0x80 ∧
      ∀ j < i, 0x80 ≤ (m (buf + j)).toNat := by
  obtain ⟨hi, hlast⟩ := Nat.find_spec h
  refine ⟨Nat.find h, hi, hlast, fun j hj => ?_⟩
  by_contra hlow
  exact Nat.find_min h hj ⟨hj.trans hi, Nat.not_le.mp hlow⟩

theorem decodeVarint64_ok_iff :
    (decodeVarint64 m buf fin).ok = true ↔
      ∃ i < min 10 (fin - buf), (m (buf + i)).toNat < 0x80 := by
  constructor
  · intro hok
    by_contra hnone
    push Not at hnone
    obtain ⟨v, hdecode⟩ := decodeVarint64_rejected hnone
    rw [hdecode] at hok
    cases hok
  · intro h
    obtain ⟨i, hi, hlast, hfirst⟩ := exists_first h
    rw [decodeVarint64_first hi hlast hfirst]

/-- A varint that is found ends inside the buffer. -/
theorem decodeVarint64_cursor (hok : (decodeVarint64 m buf fin).ok = true) :
    buf < (decodeVarint64 m buf fin).cursor ∧ (decodeVarint64 m buf fin).cursor ≤ fin := by
  obtain ⟨i, hi, hlast, hfirst⟩ := exists_first (decodeVarint64_ok_iff.mp hok)
  rw [decodeVarint64_first hi hlast hfirst]
  exact ⟨by show buf < buf + i + 1; omega, by show buf + i + 1 ≤ fin; omega⟩

/-- The grammar of `DecodeVarint`, for every content of the buffer, with the value and
the bytes consumed; the narrow overloads keep the low bits of the value. -/
theorem decodeVarint_grammar (m : Mem) (buf fin : Nat) :
    ((decodeVarint64 m buf fin).ok = true ↔
      ∃ i < min 10 (fin - buf), (m (buf + i)).toNat < 0x80) ∧
    (∀ i < min 10 (fin - buf), (m (buf + i)).toNat < 0x80 →
      (∀ j < i, 0x80 ≤ (m (buf + j)).toNat) →
        (decodeVarint64 m buf fin).cursor = buf + i + 1 ∧
          (decodeVarint64 m buf fin).value = some (BitVec.ofNat 64 ((List.range (i + 1)).map
            fun j => (m (buf + j)).toNat % 128 * 2 ^ (7 * j)).sum)) ∧
    ((decodeVarint64 m buf fin).ok = false →
      (decodeVarint64 m buf fin).cursor = buf + min 10 (fin - buf)) ∧
    ∃ v, (decodeVarint64 m buf fin).value = some v ∧
      decodeVarint16 m buf fin = ⟨(decodeVarint64 m buf fin).ok, some (BitVec.ofNat 16 v.toNat),
        (decodeVarint64 m buf fin).cursor⟩ ∧
      decodeVarint32 m buf fin = ⟨(decodeVarint64 m buf fin).ok, some (BitVec.ofNat 32 v.toNat),
        (decodeVarint64 m buf fin).cursor⟩ := by
  refine ⟨decodeVarint64_ok_iff, fun i hi hlast hfirst => ?_, fun hok => ?_, ?_⟩
  · rw [decodeVarint64_first hi hlast hfirst]
    exact ⟨rfl, rfl⟩
  · have hnone : ∀ i < min 10 (fin - buf), 0x80 ≤ (m (buf + i)).toNat := by
      intro i hi
      by_contra hlow
      rw [decodeVarint64_ok_iff.mpr ⟨i, hi, Nat.not_le.mp hlow⟩] at hok
      cases hok
    obtain ⟨v, hdecode⟩ := decodeVarint64_rejected hnone
    rw [hdecode]
  · obtain ⟨v, hv⟩ := decodeVarint64_value m buf fin
    refine ⟨v, hv, ?_, ?_⟩
    · rw [decodeVarint16, Decoded.map, hv]
      rfl
    · rw [decodeVarint32, Decoded.map, hv]
      rfl

end XfUtil
