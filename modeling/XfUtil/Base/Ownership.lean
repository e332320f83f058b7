import Mathlib.Data.List.Perm.Basic
import Mathlib.Logic.Function.Basic

/-!
# Ownership

Resources in use are held by one holder each. A holder may take a new resource,
give one back, or hand one over to another holder.
-/

namespace Ownership

variable {η α : Type*}

/-- Every resource in use has exactly one holder, and holders hold no others. -/
structure Owned (live : List α) (own : η → List α) : Prop where
  nodup : ∀ h, (own h).Nodup
  disjoint : ∀ h k b, b ∈ own h → b ∈ own k → h = k
  live : ∀ b, b ∈ live ↔ ∃ h, b ∈ own h

variable {live live' : List α} {own : η → List α}

theorem Owned.of_forall_nil (hown : ∀ k, own k = []) : Owned [] own where
  nodup := fun k => by simp [hown k]
  disjoint := fun j k b hj => by simp [hown j] at hj
  live := fun b => by simp [hown]

/-- Resources of different holders are different. -/
theorem Owned.ne (h : Owned live own) {j k : η} (hjk : j ≠ k) {a b : α} (ha : a ∈ own j)
    (hb : b ∈ own k) : a ≠ b := by
  rintro rfl
  exact hjk (h.disjoint j k a ha hb)

/-- With no holder left there is nothing in use. -/
theorem Owned.eq_nil (h : Owned live own) (hown : ∀ k, own k = []) : live = [] := by
  apply List.eq_nil_iff_forall_not_mem.mpr
  intro b hb
  obtain ⟨k, hk⟩ := (h.live b).mp hb
  simp [hown k] at hk

/-- It does not matter in which order the resources in use are listed. -/
theorem Owned.of_mem_iff (h : Owned live own) (hlive : ∀ b, b ∈ live' ↔ b ∈ live) :
    Owned live' own :=
  { h with live := fun b => (hlive b).trans (h.live b) }

variable [DecidableEq η]

theorem Owned.take (h : Owned live own) {k : η} {b : α} (hb : b ∉ live) {xs : List α}
    (hxs : xs.Perm (b :: own k)) : Owned (b :: live) (Function.update own k xs) := by
  have hout : ∀ j, b ∉ own j := fun j hj => hb ((h.live b).mpr ⟨j, hj⟩)
  have hmem : ∀ j c, c ∈ Function.update own k xs j ↔ c ∈ own j ∨ j = k ∧ c = b := by
    intro j c
    by_cases hj : j = k
    · subst hj
      rw [Function.update_self, hxs.mem_iff, List.mem_cons]
      simp [or_comm]
    · simp [hj]
  constructor
  · intro j
    by_cases hj : j = k
    · subst hj
      rw [Function.update_self, hxs.nodup_iff]
      exact List.nodup_cons.mpr ⟨hout j, h.nodup j⟩
    · rw [Function.update_of_ne hj]
      exact h.nodup j
  · intro i j c hi hj
    rcases (hmem i c).mp hi with hi | ⟨hik, hcb⟩
    · rcases (hmem j c).mp hj with hj | ⟨-, hcb⟩
      · exact h.disjoint i j c hi hj
      · exact absurd (hcb ▸ hi) (hout i)
    · rcases (hmem j c).mp hj with hj | ⟨hjk, -⟩
      · exact absurd (hcb ▸ hj) (hout j)
      · exact hik.trans hjk.symm
  · intro c
    rw [List.mem_cons, h.live c]
    constructor
    · rintro (rfl | ⟨j, hj⟩)
      · exact ⟨k, (hmem k c).mpr (Or.inr ⟨rfl, rfl⟩)⟩
      · exact ⟨j, (hmem j c).mpr (Or.inl hj)⟩
    · rintro ⟨j, hj⟩
      rcases (hmem j c).mp hj with hj | ⟨-, rfl⟩
      · exact Or.inr ⟨j, hj⟩
      · exact Or.inl rfl

theorem Owned.giveBack (h : Owned live own) {k : η} {b : α} {xs : List α}
    (hxs : (own k).Perm (b :: xs)) (hlive : ∀ c, c ∈ live' ↔ c ∈ live ∧ c ≠ b) :
    Owned live' (Function.update own k xs) := by
  have hnd := List.nodup_cons.mp (hxs.nodup_iff.mp (h.nodup k))
  have hb : b ∈ own k := hxs.mem_iff.mpr List.mem_cons_self
  have hmem : ∀ j c, c ∈ Function.update own k xs j ↔ c ∈ own j ∧ c ≠ b := by
    intro j c
    by_cases hj : j = k
    · subst hj
      rw [Function.update_self, hxs.mem_iff, List.mem_cons]
      constructor
      · intro hc
        exact ⟨Or.inr hc, fun heq => hnd.1 (heq ▸ hc)⟩
      · rintro ⟨hc, hne⟩
        exact hc.resolve_left hne
    · rw [Function.update_of_ne hj]
      exact ⟨fun hc => ⟨hc, fun heq => hj (h.disjoint j k b (heq ▸ hc) hb)⟩, fun hc => hc.1⟩
  constructor
  · intro j
    by_cases hj : j = k
    · subst hj
      rw [Function.update_self]
      exact hnd.2
    · rw [Function.update_of_ne hj]
      exact h.nodup j
  · intro i j c hi hj
    exact h.disjoint i j c ((hmem i c).mp hi).1 ((hmem j c).mp hj).1
  · intro c
    rw [hlive, h.live]
    constructor
    · rintro ⟨⟨j, hj⟩, hne⟩
      exact ⟨j, (hmem j c).mpr ⟨hj, hne⟩⟩
    · rintro ⟨j, hj⟩
      exact ⟨⟨j, ((hmem j c).mp hj).1⟩, ((hmem j c).mp hj).2⟩

/-- Handing over is giving back and taking again. -/
theorem Owned.handOver [DecidableEq α] (h : Owned live own) {j k : η}
    (hjk : j ≠ k) {b : α} {xs ys : List α}
    (hxs : (own j).Perm (b :: xs)) (hys : ys.Perm (b :: own k)) :
    Owned live (Function.update (Function.update own j xs) k ys) := by
  have hb : b ∈ live := (h.live b).mpr ⟨j, hxs.mem_iff.mpr List.mem_cons_self⟩
  have hgiven : Owned (live.filter fun c => c ≠ b) (Function.update own j xs) := by
    apply h.giveBack hxs
    simp
  have hys' : ys.Perm (b :: Function.update own j xs k) := by
    rwa [Function.update_of_ne hjk.symm]
  apply (hgiven.take (by simp) hys').of_mem_iff
  intro c
  by_cases hc : c = b
  · simp [hc, hb]
  · simp [hc]

end Ownership
