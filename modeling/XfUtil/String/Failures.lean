import XfUtil.String.Contents

/-!
# Calls of a `String` that fail

A call returns false when `Reserve` has been refused its memory. By then `Reserve`, `Resize`
and `Append` have changed nothing; `Assign` has already set `m_size` to zero.
-/

namespace XfUtil

open FlatMemory

namespace StringBuffer

namespace World

/-- What the call has set `m_size` to when it asks for memory. -/
def Op.sizeFirst (op : Op) (size : BitVec 64) : BitVec 64 :=
  match op with
  | .assign _ _ _ => 0
  | _ => size

/-- The call is `Assign`. -/
def Op.Assigns : Op → Prop
  | .assign _ _ _ => True
  | _ => False

instance (op : Op) : Decidable op.Assigns :=
  match op with
  | .assign _ _ _ => isTrue trivial
  | .append _ _ _ => isFalse id
  | .reserve _ _ => isFalse id
  | .resize _ _ => isFalse id
  | .clear => isFalse id
  | .others _ _ => isFalse id

/-- Size and contents are those before the call. -/
def Unchanged (w w' : World) : Prop :=
  w'.str.size = w.str.size ∧ w'.contents = w.contents

instance (w w' : World) : Decidable (w.Unchanged w') :=
  inferInstanceAs (Decidable (_ ∧ _))

variable {w w' : World} {size : BitVec 64} {fresh : Nat}

theorem reserve_refused (h : w.reserve size fresh = some (w', false)) :
    w' = w ∧ w.str.capacity < size ∧ fresh = 0 := by
  unfold reserve at h
  by_cases hle : size ≤ w.str.capacity
  · rw [if_pos hle] at h
    cases h
  · rw [if_neg hle] at h
    by_cases hfresh : fresh = 0
    · rw [if_pos hfresh] at h
      cases h
      exact ⟨rfl, BitVec.not_le.mp hle, hfresh⟩
    · rw [if_neg hfresh] at h
      -- With an address in hand the call goes through.
      obtain ⟨heap, -, hrest⟩ := Option.bind_eq_some_iff.mp h
      dsimp only at hrest
      split at hrest
      · obtain ⟨freed, -, hend⟩ := Option.map_eq_some_iff.mp hrest
        cases hend
      · cases hrest

/-- A call that goes on where there is room is refused for want of room only. -/
theorem refused_of_map {room : Option (World × Bool)} {go : World × Bool → World}
    (h : (room.map fun r => if r.2 then (go r, true) else (r.1, false)) = some (w', false)) :
    room = some (w', false) := by
  obtain ⟨⟨w₁, ok⟩, hroom, hend⟩ := Option.map_eq_some_iff.mp h
  cases ok with
  | true => cases hend
  | false =>
      cases hend
      exact hroom

theorem append_refused {data : Nat} (h : w.append data size fresh = some (w', false)) :
    w' = w := by
  unfold append at h
  have hroom := refused_of_map h
  split at hroom
  · exact (reserve_refused hroom).1
  · cases hroom

theorem resize_refused (h : w.resize size fresh = some (w', false)) : w' = w := by
  unfold resize at h
  exact (reserve_refused (refused_of_map h)).1

theorem others_true {mem : Mem} {reserved : List Region} {ok : Bool}
    (h : w.others mem reserved = some (w', ok)) : ok = true := by
  unfold others at h
  split at h
  · cases h
    rfl
  · cases h

/-- A call that fails leaves the string with the size it had when memory was asked for. -/
theorem step_refused {op : Op} (h : w.step op = some (w', false)) :
    w' = { w with str := { w.str with size := op.sizeFirst w.str.size }, copies := [] } := by
  cases op with
  | assign data size fresh => exact append_refused h
  | append data size fresh => exact append_refused h
  | reserve size fresh => exact (reserve_refused h).1
  | resize size fresh => exact resize_refused h
  | clear => cases h
  | others mem reserved => cases others_true h

theorem unchanged_iff_size {op : Op} (h : w.step op = some (w', false)) :
    w.Unchanged w' ↔ op.sizeFirst w.str.size = w.str.size := by
  rw [step_refused h]
  constructor
  · exact fun hsame => hsame.1
  · intro hsize
    refine ⟨hsize, ?_⟩
    unfold contents
    rw [hsize]

theorem sizeFirst_eq_iff (op : Op) (size : BitVec 64) :
    op.sizeFirst size = size ↔ ¬ op.Assigns ∨ size = 0 := by
  cases op with
  | assign data n fresh =>
      constructor
      · exact fun hsize => Or.inr hsize.symm
      · intro hor
        exact (hor.resolve_left (not_not_intro trivial)).symm
  | _ => exact ⟨fun _ => Or.inl id, fun _ => rfl⟩

/-! ## Whole runs -/

/-- At every point of every run, some calls of which may have failed, a call that fails
leaves size and contents alone exactly when it is not `Assign` or the string is empty. -/
theorem failed_call_unchanged_iff (mem : Mem) (reserved : List Region) (ops : List Op) :
    Machine.StepsMeet call
      (fun w op => ∀ w', w.step op = some (w', false) →
        (w.Unchanged w' ↔ ¬ op.Assigns ∨ w.str.size = 0)) (new mem reserved) ops := by
  intro before op after _ w _ w' hfail
  exact (unchanged_iff_size hfail).trans (sizeFirst_eq_iff op w.str.size)

/-- A byte was stored, and `Append` is refused the memory for ten more. -/
theorem failed_call_unchanged_iff_sample :
    ∃ w w', Machine.run call (new (fun a => BitVec.ofNat 8 a) [(4096, 64)])
        [.append 4096 1 8192] = some w ∧
      w.step (.append 4096 10 0) = some (w', false) ∧
      (w.Unchanged w' ↔ ¬ (Op.append 4096 10 0).Assigns ∨ w.str.size = 0) :=
  ⟨_, _, rfl, rfl, failed_call_unchanged_iff (fun a => BitVec.ofNat 8 a) [(4096, 64)]
    [.append 4096 1 8192, .append 4096 10 0] [.append 4096 1 8192] _ [] rfl _ rfl _ rfl⟩

/-- The same byte is gone when `Assign` is refused its memory. -/
theorem assign_refused_forgets :
    ¬ ∀ (mem : Mem) (reserved : List Region) (ops : List Op) (op : Op) (w w' : World),
      Machine.run call (new mem reserved) ops = some w → w.step op = some (w', false) →
        w.Unchanged w' := by
  intro hall
  have hsame := hall (fun a => BitVec.ofNat 8 a) [(4096, 64)] [.append 4096 1 8192]
    (.assign 4096 10 0) _ _ rfl rfl
  exact absurd hsame.1 (by decide)

end World

end StringBuffer

end XfUtil
