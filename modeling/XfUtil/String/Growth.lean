import XfUtil.Base.Doubling
import XfUtil.String.Contents

/-!
# What appending costs

`Append` asks `Reserve` for twice the capacity and the new data, so a string that is only
appended to, assigned and cleared copies a number of bytes that is linear in what it was given.
-/

namespace XfUtil

open FlatMemory Doubling

namespace StringBuffer

namespace World

/-! ## Costs -/

/-- Calls that grow the buffer through `Append` only. -/
def Op.Appends : Op → Prop
  | .reserve _ _ | .resize _ _ => False
  | _ => True

/-- The bytes a call is given. -/
def Op.given : Op → Nat
  | .assign _ size _ | .append _ size _ => size.toNat
  | _ => 0

/-- The bytes that the calls copy with `memcpy`. -/
def copied : World → List Op → Nat
  | _, [] => 0
  | w, op :: ops =>
      match w.step op with
      | none => 0
      | some r => Region.total r.1.copies + copied r.1 ops

/-- The calls that exchange the buffer for a longer one. -/
def growths : World → List Op → Nat
  | _, [] => 0
  | w, op :: ops =>
      match w.step op with
      | none => 0
      | some r => (if w.str.capacity < r.1.str.capacity then 1 else 0) + growths r.1 ops

/-! ## One call -/

variable {w w' : World} {ok : Bool} {b : Ledger}

/-- The ledger has the size and the capacity of the string. -/
structure Tracks (w : World) (b : Ledger) : Prop where
  size : w.str.size.toNat = b.size
  capacity : w.str.capacity.toNat = b.capacity

/-- What `Append` does to the size, the capacity and the copies. -/
theorem append_cases (hcopies : w.copies = []) {data : Nat} {size : BitVec 64} {fresh : Nat}
    (hgrow : w.str.capacity < w.str.size + size → w.str.capacity < size + w.str.capacity * 2)
    (h : w.append data size fresh = some (w', ok)) :
    (¬ w.str.capacity < w.str.size + size ∧ w'.str.capacity = w.str.capacity ∧
        w'.str.size = w.str.size + size ∧ Region.total w'.copies = size.toNat) ∨
      (w.str.capacity < w.str.size + size ∧
        (w' = w ∨ (w'.str.capacity = size + w.str.capacity * 2 ∧
          w'.str.size = w.str.size + size ∧
          Region.total w'.copies ≤ w.str.size.toNat + size.toNat))) := by
  obtain ⟨⟨t, made⟩, hroom, hend⟩ := Option.map_eq_some_iff.mp h
  by_cases hfull : w.str.capacity < w.str.size + size
  · refine Or.inr ⟨hfull, ?_⟩
    rw [if_pos hfull, reserve, if_neg (BitVec.not_le.mpr (hgrow hfull))] at hroom
    by_cases hfresh : fresh = 0
    · rw [if_pos hfresh] at hroom
      cases hroom
      cases hend
      exact Or.inl rfl
    · rw [if_neg hfresh] at hroom
      obtain ⟨heap, -, hexchange⟩ := Option.bind_eq_some_iff.mp hroom
      dsimp only at hexchange
      refine Or.inr ?_
      split at hexchange
      · obtain ⟨freed, -, heq⟩ := Option.map_eq_some_iff.mp hexchange
        cases heq
        cases hend
        refine ⟨rfl, rfl, ?_⟩
        simp [World.setSize, World.memcpy, hcopies, Nat.add_comm]
      · cases hexchange
        cases hend
        refine ⟨rfl, rfl, ?_⟩
        simp [World.setSize, World.memcpy, hcopies]
  · rw [if_neg hfull] at hroom
    cases hroom
    cases hend
    refine Or.inl ⟨hfull, rfl, rfl, ?_⟩
    simp [World.setSize, World.memcpy, hcopies]

/-- A call goes from `w` to `w'`; the ledger goes to `b'`, and the call has copied no more than
what it was given and what the ledger has moved. -/
structure Paid (w w' : World) (b b' : Ledger) (given : Nat) : Prop where
  tracks : w'.Tracks b'
  amortized : b'.Amortized
  asked : b'.asked = b.asked + given
  copied : b.moved + Region.total w'.copies ≤ b'.moved + given
  growths : b'.growths = b.growths + if w.str.capacity < w'.str.capacity then 1 else 0

theorem Tracks.append (ht : w.Tracks b) (hb : b.Amortized) (hcopies : w.copies = [])
    {data : Nat} {size : BitVec 64} {fresh : Nat} (hasked : b.asked + size.toNat < 2 ^ 62)
    (h : w.append data size fresh = some (w', ok)) : ∃ b', w.Paid w' b b' size.toNat := by
  obtain ⟨hsize, hcapacity⟩ := ht
  have hbound := hb.capacity_le
  have hle := hb.size_le
  have hle' := hb.size_le_asked
  have hsum : (w.str.size + size).toNat = b.size + size.toNat := by
    rw [BitVec.toNat_add, hsize, Nat.mod_eq_of_lt (by omega)]
  have hfull : w.str.capacity < w.str.size + size ↔ b.capacity < b.size + size.toNat := by
    rw [BitVec.lt_def, hsum, hcapacity]
  -- What `Reserve` is asked for does not overflow.
  have hdouble : w.str.capacity < w.str.size + size →
      (size + w.str.capacity * 2).toNat = size.toNat + b.capacity * 2 := by
    intro hlt
    have hlt := hfull.mp hlt
    have htwo : (2 : BitVec 64).toNat = 2 := rfl
    rw [BitVec.toNat_add, BitVec.toNat_mul, htwo, hcapacity, Nat.mod_eq_of_lt (by omega),
      Nat.mod_eq_of_lt (by omega)]
  have hgrow : w.str.capacity < w.str.size + size →
      w.str.capacity < size + w.str.capacity * 2 := by
    intro hlt
    have hroom := hfull.mp hlt
    rw [BitVec.lt_def, hdouble hlt, hcapacity]
    omega
  rcases append_cases hcopies hgrow h with
    ⟨hnot, hcap, hsize', hcopied⟩ | ⟨hlt, rfl | ⟨hcap, hsize', hcopied⟩⟩
  · have happend : b.append size.toNat =
        { b with size := b.size + size.toNat, asked := b.asked + size.toNat } := by
      rw [Ledger.append, if_neg (mt hfull.mpr hnot)]
    refine ⟨b.append size.toNat, ?_, hb.append _, ?_, ?_, ?_⟩
    · rw [happend]
      exact ⟨by rw [hsize', hsum], by rw [hcap, hcapacity]⟩
    · rw [happend]
    · rw [happend, hcopied]
    · rw [happend, hcap, if_neg (BitVec.lt_irrefl _)]
      rfl
  · refine ⟨b.refuse size.toNat, ⟨hsize, hcapacity⟩, hb.refuse _, rfl, ?_, ?_⟩
    · rw [hcopies]
      exact Nat.le_add_right _ _
    · rw [if_neg (BitVec.lt_irrefl _)]
      rfl
  · have happend : b.append size.toNat = ⟨b.size + size.toNat, size.toNat + b.capacity * 2,
        b.asked + size.toNat, b.moved + b.size, b.growths + 1⟩ := by
      rw [Ledger.append, if_pos (hfull.mp hlt)]
    refine ⟨b.append size.toNat, ?_, hb.append _, ?_, ?_, ?_⟩
    · rw [happend]
      exact ⟨by rw [hsize', hsum], by rw [hcap, hdouble hlt]⟩
    · rw [happend]
    · rw [happend]
      dsimp only
      omega
    · rw [happend, hcap, if_pos (hgrow hlt)]

theorem Tracks.step (ht : w.Tracks b) (hb : b.Amortized) {op : Op} (hop : op.Appends)
    (hasked : b.asked + op.given < 2 ^ 62) (h : w.step op = some (w', ok)) :
    ∃ b', w.Paid w' b b' op.given := by
  obtain ⟨str, mem, heap, copies⟩ := w
  have ht' : Tracks ⟨str, mem, heap, []⟩ b := ⟨ht.size, ht.capacity⟩
  have hclear : Tracks (setSize ⟨str, mem, heap, []⟩ 0) b.clear := ⟨rfl, ht.capacity⟩
  cases op with
  | append data size fresh =>
      obtain ⟨b', htracks, hamortized, hasked', hcopied, hgrowths⟩ := ht'.append hb rfl hasked h
      exact ⟨b', htracks, hamortized, hasked', hcopied, hgrowths⟩
  | assign data size fresh =>
      obtain ⟨b', htracks, hamortized, hasked', hcopied, hgrowths⟩ :=
        hclear.append hb.clear rfl hasked h
      exact ⟨b', htracks, hamortized, hasked', hcopied, hgrowths⟩
  | clear =>
      cases h
      refine ⟨b.clear, hclear, hb.clear, rfl, le_rfl, ?_⟩
      show b.growths = b.growths + if str.capacity < str.capacity then 1 else 0
      rw [if_neg (BitVec.lt_irrefl _), Nat.add_zero]
  | others mem' reserved =>
      simp only [World.step, others] at h
      split at h
      · cases h
        refine ⟨b, ⟨ht.size, ht.capacity⟩, hb, rfl, le_rfl, ?_⟩
        show b.growths = b.growths + if str.capacity < str.capacity then 1 else 0
        rw [if_neg (BitVec.lt_irrefl _), Nat.add_zero]
      · cases h
  | reserve size fresh => exact absurd hop id
  | resize size fresh => exact absurd hop id

/-! ## Whole runs -/

theorem Tracks.run {ops : List Op} (ht : w.Tracks b) (hb : b.Amortized)
    (hops : ∀ op ∈ ops, op.Appends) (hasked : b.asked + (ops.map Op.given).sum < 2 ^ 62)
    (hrun : Machine.run call w ops = some w') :
    ∃ b', w'.Tracks b' ∧ b'.Amortized ∧ b'.asked = b.asked + (ops.map Op.given).sum ∧
      b.moved + w.copied ops ≤ b'.moved + (ops.map Op.given).sum ∧
      b'.growths = b.growths + w.growths ops := by
  induction ops generalizing w b with
  | nil =>
      cases hrun
      exact ⟨b, ht, hb, rfl, le_rfl, rfl⟩
  | cons op ops ih =>
      obtain ⟨v, hv, hrest⟩ := Option.bind_eq_some_iff.mp hrun
      obtain ⟨⟨u, ok⟩, hu, rfl⟩ := Option.map_eq_some_iff.mp hv
      rw [List.map_cons, List.sum_cons] at hasked ⊢
      obtain ⟨b₁, hfirst⟩ := ht.step hb (hops op (by simp)) (by omega) hu
      have hasked₁ := hfirst.asked
      have hcopied₁ := hfirst.copied
      have hgrowths₁ := hfirst.growths
      obtain ⟨b', ht', hb', hasked', hcopied, hgrowths⟩ :=
        ih hfirst.tracks hfirst.amortized (fun op' h => hops op' (by simp [h])) (by omega) hrest
      refine ⟨b', ht', hb', by omega, ?_, ?_⟩
      · rw [World.copied, hu]
        dsimp only
        omega
      · rw [World.growths, hu]
        dsimp only at hgrowths₁ ⊢
        omega

/-- A string that is appended to, assigned and cleared, with allocations that may fail: what the
calls copy is at most four times what they are given, the buffer has at most three times that
many bytes, and it is exchanged a logarithmic number of times. -/
theorem appends_amortized (mem : Mem) (reserved : List Region) {ops : List Op}
    (hops : ∀ op ∈ ops, op.Appends) (hgiven : (ops.map Op.given).sum < 2 ^ 62)
    (hrun : Machine.run call (new mem reserved) ops = some w) :
    (new mem reserved).copied ops ≤ 4 * (ops.map Op.given).sum ∧
      w.str.capacity.toNat ≤ 3 * (ops.map Op.given).sum ∧
      2 ^ (new mem reserved).growths ops ≤ 3 * (ops.map Op.given).sum + 1 := by
  have hnew : (new mem reserved).Tracks Ledger.new := ⟨rfl, rfl⟩
  have hzero : Ledger.new.asked = 0 ∧ Ledger.new.moved = 0 ∧ Ledger.new.growths = 0 :=
    ⟨rfl, rfl, rfl⟩
  obtain ⟨b, ht, hb, hasked, hcopied, hgrowths⟩ :=
    hnew.run Ledger.new_amortized hops (by omega) hrun
  have hmoved := hb.moved_le
  have hcapacity := hb.capacity_le
  have hpow := hb.growths_le
  rw [show (new mem reserved).growths ops = b.growths by omega, ht.capacity]
  refine ⟨?_, ?_, ?_⟩
  · omega
  · omega
  · omega

/-- Buffers of three, sixteen and thirty-six bytes. -/
theorem appends_amortized_sample :
    let w := new (fun a => BitVec.ofNat 8 a) [(4096, 64)]
    let ops : List Op := [.append 4096 3 8192, .append 4099 10 8448, .assign 4096 4 0,
      .append 4096 16 8704]
    w.copied ops ≤ 4 * 33 ∧ 2 ^ w.growths ops ≤ 3 * 33 + 1 := by
  have hrun : (Machine.run call (new (fun a => BitVec.ofNat 8 a) [(4096, 64)])
      [.append 4096 3 8192, .append 4099 10 8448, .assign 4096 4 0,
        .append 4096 16 8704]).isSome := by decide +kernel
  obtain ⟨w, hw⟩ := Option.isSome_iff_exists.mp hrun
  obtain ⟨hcopied, -, hgrowths⟩ := appends_amortized (fun a => BitVec.ofNat 8 a) [(4096, 64)]
    (by simp [Op.Appends]) (by decide) hw
  exact ⟨hcopied, hgrowths⟩

end World

end StringBuffer

end XfUtil
