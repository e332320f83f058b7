import Mathlib.Data.List.Count

/-!
# Locks for many readers or one writer

A call answers whether the thread has the lock now, or blocks. Only a thread that has
the lock for writing is told that it would wait for itself.
-/

structure SharedLock (τ : Type*) where
  writer : Option τ
  /-- With a thread as often as it has the lock. -/
  readers : List τ
deriving DecidableEq

namespace SharedLock

variable {τ : Type*} [DecidableEq τ] {l l' : SharedLock τ} {t u : τ} {full ok : Bool}

/-- Nobody has the lock. -/
def free : SharedLock τ := ⟨none, []⟩

/-- Take the lock for reading; `full` is whether there are too many readers. -/
def rdlock (l : SharedLock τ) (t : τ) (full : Bool) : Option (Bool × SharedLock τ) :=
  if l.writer = some t then some (false, l)
  else if l.writer.isSome then none
  else if full then some (false, l)
  else some (true, { l with readers := t :: l.readers })

/-- Take the lock for writing. -/
def wrlock (l : SharedLock τ) (t : τ) : Option (Bool × SharedLock τ) :=
  if l.writer = some t then some (false, l)
  else if l.writer.isSome || !l.readers.isEmpty then none
  else some (true, { l with writer := some t })

/-- Give back what the thread has; `none` is what is undefined, since it has nothing. -/
def unlock (l : SharedLock τ) (t : τ) : Option (SharedLock τ) :=
  if l.writer = some t then some { l with writer := none }
  else if t ∈ l.readers then some { l with readers := l.readers.erase t }
  else none

/-- How often a thread has the lock. -/
def held (l : SharedLock τ) (t : τ) : Nat :=
  (if l.writer = some t then 1 else 0) + l.readers.count t

/-- There is no reader beside a writer. -/
def Wf (l : SharedLock τ) : Prop := ∀ t, l.writer = some t → l.readers = []

theorem rdlock_eq_some (h : l.rdlock t full = some (ok, l')) :
    (ok = false ∧ l' = l ∧ (l.writer = some t ∨ full = true)) ∨
      (ok = true ∧ l.writer = none ∧ full = false ∧
        l' = { l with readers := t :: l.readers }) := by
  unfold rdlock at h
  split at h
  · rename_i hself
    obtain ⟨rfl, rfl⟩ := Prod.mk.inj (Option.some.inj h)
    exact Or.inl ⟨rfl, rfl, Or.inl hself⟩
  · split at h
    · cases h
    · rename_i hnone
      split at h
      · rename_i hfull
        obtain ⟨rfl, rfl⟩ := Prod.mk.inj (Option.some.inj h)
        exact Or.inl ⟨rfl, rfl, Or.inr hfull⟩
      · rename_i hfull
        obtain ⟨rfl, rfl⟩ := Prod.mk.inj (Option.some.inj h)
        exact Or.inr ⟨rfl, by simpa using hnone, by simpa using hfull, rfl⟩

theorem wrlock_eq_some (h : l.wrlock t = some (ok, l')) :
    (ok = false ∧ l' = l ∧ l.writer = some t) ∨
      (ok = true ∧ l.writer = none ∧ l.readers = [] ∧ l' = { l with writer := some t }) := by
  unfold wrlock at h
  split at h
  · rename_i hself
    obtain ⟨rfl, rfl⟩ := Prod.mk.inj (Option.some.inj h)
    exact Or.inl ⟨rfl, rfl, hself⟩
  · split at h
    · cases h
    · rename_i hfree
      obtain ⟨rfl, rfl⟩ := Prod.mk.inj (Option.some.inj h)
      have hfree' : l.writer = none ∧ l.readers = [] := by simpa using hfree
      exact Or.inr ⟨rfl, hfree'.1, hfree'.2, rfl⟩

theorem Wf.rdlock (hl : l.Wf) (h : l.rdlock t full = some (ok, l')) : l'.Wf := by
  rcases rdlock_eq_some h with ⟨-, rfl, -⟩ | ⟨-, hnone, -, rfl⟩
  · exact hl
  · intro u hu
    have hu' : l.writer = some u := hu
    rw [hnone] at hu'
    cases hu'

theorem Wf.wrlock (hl : l.Wf) (h : l.wrlock t = some (ok, l')) : l'.Wf := by
  rcases wrlock_eq_some h with ⟨-, rfl, -⟩ | ⟨-, -, hnil, rfl⟩
  · exact hl
  · exact fun _ _ => hnil

theorem Wf.unlock (hl : l.Wf) (h : l.unlock t = some l') : l'.Wf := by
  unfold SharedLock.unlock at h
  split at h
  · obtain rfl := Option.some.inj h
    intro u hu
    cases hu
  · split at h
    · rename_i hmem
      obtain rfl := Option.some.inj h
      intro u hu
      rw [hl u hu] at hmem
      simp at hmem
    · cases h

/-! ## What the calls do to what a thread has -/

theorem held_rdlock (h : l.rdlock t full = some (ok, l')) (u : τ) :
    l'.held u = l.held u + if u = t ∧ ok = true then 1 else 0 := by
  rcases rdlock_eq_some h with ⟨rfl, rfl, -⟩ | ⟨rfl, -, -, rfl⟩
  · simp
  · by_cases hu : u = t
    · subst hu
      simp [held, Nat.add_assoc]
    · simp [held, hu, List.count_cons_of_ne (Ne.symm hu)]

theorem held_wrlock (h : l.wrlock t = some (ok, l')) (u : τ) :
    l'.held u = l.held u + if u = t ∧ ok = true then 1 else 0 := by
  rcases wrlock_eq_some h with ⟨rfl, rfl, -⟩ | ⟨rfl, hnone, hnil, rfl⟩
  · simp
  · by_cases hu : u = t
    · subst hu
      simp [held, hnone, hnil]
    · simp [held, hnone, hnil, hu, Ne.symm hu]

/-- Giving the lock back is defined for those who have it. -/
theorem unlock_eq_none_iff : l.unlock t = none ↔ l.held t = 0 := by
  unfold unlock held
  by_cases hw : l.writer = some t
  · simp [hw]
  · by_cases hr : t ∈ l.readers
    · simp [hw, hr, Nat.pos_iff_ne_zero.mp (List.count_pos_iff.mpr hr)]
    · simp [hw, hr, List.count_eq_zero.mpr hr]

theorem held_unlock (h : l.unlock t = some l') (u : τ) :
    l'.held u + (if u = t then 1 else 0) = l.held u := by
  unfold unlock at h
  split at h
  · rename_i hw
    obtain rfl := Option.some.inj h
    by_cases hu : u = t
    · subst hu
      simp [held, hw, Nat.add_comm]
    · simp [held, hw, hu, Ne.symm hu]
  · rename_i hw
    split at h
    · rename_i hr
      obtain rfl := Option.some.inj h
      by_cases hu : u = t
      · subst hu
        have hpos := List.count_pos_iff.mpr hr
        simp only [held, List.count_erase_self, if_true]
        omega
      · simp [held, hu, List.count_erase_of_ne hu]
    · cases h

end SharedLock
