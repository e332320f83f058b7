import XfUtil.Base.Machine
import XfUtil.Base.ReadWriteLock
import Mathlib.Logic.Function.Basic

/-!
# `ReadLockGuard` and `WriteLockGuard`

The guards of a thread are destroyed in the order opposite to their construction. Their
constructors do not look at what `ReadLock` and `WriteLock` return, so a guard inside the
thread's own write guard is one without a lock, and its destructor gives the lock of the
other one back.
-/

namespace XfUtil.ReadWriteLock

open SharedLock

variable {τ : Type*} [DecidableEq τ]

/-! ## The lock -/

/-- `ReadLock`. -/
def readLock (l : SharedLock τ) (t : τ) (full : Bool) : Option (Bool × SharedLock τ) :=
  l.rdlock t full

/-- `WriteLock`. -/
def writeLock (l : SharedLock τ) (t : τ) : Option (Bool × SharedLock τ) := l.wrlock t

/-- `ReadUnlock`. -/
def readUnlock (l : SharedLock τ) (t : τ) : Option (SharedLock τ) := l.unlock t

/-- `WriteUnlock`. -/
def writeUnlock (l : SharedLock τ) (t : τ) : Option (SharedLock τ) := l.unlock t

/-! ## Guards -/

inductive Guard where
  | read
  | write
deriving Repr, DecidableEq

structure State (τ : Type*) where
  lock : SharedLock τ
  /-- The guards of a thread, the innermost first. -/
  guards : τ → List Guard
  /-- A thread has given back what it did not have. -/
  undefined : Bool

inductive Label (τ : Type*) where
  /-- The constructor of `ReadLockGuard`; `full` is whether there are too many readers. -/
  | read (t : τ) (full : Bool)
  | write (t : τ)
  /-- The destructor of the innermost guard. -/
  | leave (t : τ)
deriving Repr, DecidableEq

def start : State τ := ⟨free, fun _ => [], false⟩

namespace State

/-- A constructor: the guard is there whatever the lock answers. -/
def enter (s : State τ) (t : τ) (g : Guard) (r : Bool × SharedLock τ) : State τ :=
  { s with lock := r.2, guards := Function.update s.guards t (g :: s.guards t) }

/-- A destructor, by the kind of the guard. -/
def destroy (l : SharedLock τ) (t : τ) : Guard → Option (SharedLock τ)
  | .read => readUnlock l t
  | .write => writeUnlock l t

def leave (s : State τ) (t : τ) : Option (State τ) :=
  match s.guards t with
  | [] => none
  | g :: gs =>
      let guards := Function.update s.guards t gs
      match destroy s.lock t g with
      | none => some { s with guards := guards, undefined := true }
      | some l => some { s with lock := l, guards := guards }

end State

/-- A call that blocks has no step, and nothing is known after what is undefined. -/
def step : Machine.Step (State τ) (Label τ)
  | s, .read t full =>
      if s.undefined then none else (readLock s.lock t full).map (s.enter t .read)
  | s, .write t => if s.undefined then none else (writeLock s.lock t).map (s.enter t .write)
  | s, .leave t => if s.undefined then none else s.leave t

/-! ## Guards that have the lock -/

namespace State

variable {s s' : State τ} {l : Label τ} {t : τ} {full : Bool}

/-- The guards are the locks that the threads have. -/
structure Matched (s : State τ) : Prop where
  wf : s.lock.Wf
  writes : ∀ t, (s.guards t).count .write = if s.lock.writer = some t then 1 else 0
  reads : ∀ t, (s.guards t).count .read = s.lock.readers.count t
  defined : s.undefined = false

/-- A thread has more guards than locks. -/
def Short (s : State τ) : Prop := ∃ t, s.lock.held t < (s.guards t).length

/-- No guard is constructed inside a write guard of the same thread, and there is room for
another reader. -/
def Unnested (s : State τ) : Label τ → Prop
  | .read t full => Guard.write ∉ s.guards t ∧ full = false
  | .write t => Guard.write ∉ s.guards t
  | .leave _ => True

instance (s : State τ) (l : Label τ) : Decidable (Unnested s l) :=
  match l with
  | .read t full => inferInstanceAs (Decidable (Guard.write ∉ s.guards t ∧ full = false))
  | .write t => inferInstanceAs (Decidable (Guard.write ∉ s.guards t))
  | .leave _ => inferInstanceAs (Decidable True)

theorem start_matched : (start : State τ).Matched :=
  ⟨fun _ _ => rfl, fun _ => by simp [start, free], fun _ => by simp [start, free], rfl⟩

theorem length_eq_counts (gs : List Guard) : gs.length = gs.count .write + gs.count .read := by
  induction gs with
  | nil => rfl
  | cons g gs ih =>
      cases g with
      | read => simp [ih, Nat.add_assoc]
      | write => simp [ih, Nat.add_right_comm]

theorem Matched.held_eq (hs : s.Matched) (t : τ) : s.lock.held t = (s.guards t).length := by
  rw [length_eq_counts, hs.writes, hs.reads]
  rfl

theorem Matched.writer_iff (hs : s.Matched) (t : τ) :
    s.lock.writer = some t ↔ Guard.write ∈ s.guards t := by
  rw [← List.count_pos_iff, hs.writes]
  split <;> simp_all

/-! ## What a step does -/

theorem read_eq_some (h : step s (.read t full) = some s') :
    s.undefined = false ∧ ∃ ok l, s.lock.rdlock t full = some (ok, l) ∧
      s' = s.enter t .read (ok, l) := by
  rw [step] at h
  split at h
  · cases h
  · rename_i hdef
    obtain ⟨⟨ok, l⟩, hlock, rfl⟩ := Option.map_eq_some_iff.mp h
    exact ⟨by simpa using hdef, ok, l, hlock, rfl⟩

theorem write_eq_some (h : step s (.write t) = some s') :
    s.undefined = false ∧ ∃ ok l, s.lock.wrlock t = some (ok, l) ∧
      s' = s.enter t .write (ok, l) := by
  rw [step] at h
  split at h
  · cases h
  · rename_i hdef
    obtain ⟨⟨ok, l⟩, hlock, rfl⟩ := Option.map_eq_some_iff.mp h
    exact ⟨by simpa using hdef, ok, l, hlock, rfl⟩

theorem leave_eq_some (h : step s (.leave t) = some s') :
    s.undefined = false ∧ ∃ g gs, s.guards t = g :: gs ∧
      ((s.lock.unlock t = none ∧
          s' = { s with guards := Function.update s.guards t gs, undefined := true }) ∨
        ∃ l, s.lock.unlock t = some l ∧
          s' = { s with lock := l, guards := Function.update s.guards t gs }) := by
  rw [step] at h
  split at h
  · cases h
  · rename_i hdef
    refine ⟨by simpa using hdef, ?_⟩
    unfold leave at h
    cases hg : s.guards t with
    | nil => simp [hg] at h
    | cons g gs =>
        have hdestroy : destroy s.lock t g = s.lock.unlock t := by cases g <;> rfl
        simp only [hg, hdestroy] at h
        refine ⟨g, gs, rfl, ?_⟩
        cases hu : s.lock.unlock t with
        | none =>
            rw [hu] at h
            exact Or.inl ⟨rfl, (Option.some.inj h).symm⟩
        | some l =>
            rw [hu] at h
            exact Or.inr ⟨l, rfl, (Option.some.inj h).symm⟩

/-! ## What a step keeps -/

theorem Matched.read (hs : s.Matched) (h : step s (.read t full) = some s')
    (hnest : Unnested s (.read t full)) : s'.Matched := by
  obtain ⟨-, ok, l, hlock, rfl⟩ := read_eq_some h
  rcases rdlock_eq_some hlock with ⟨-, -, hwriter | hfull⟩ | ⟨-, hnone, -, rfl⟩
  · exact absurd ((hs.writer_iff t).mp hwriter) hnest.1
  · rw [hnest.2] at hfull
    cases hfull
  · refine ⟨hs.wf.rdlock hlock, fun u => ?_, fun u => ?_, hs.defined⟩
    · have hu' := hs.writes u
      rw [hnone] at hu'
      by_cases hu : u = t
      · subst hu
        simpa [enter, hnone] using hu'
      · simpa [enter, hnone, hu] using hu'
    · by_cases hu : u = t
      · subst hu
        simpa [enter] using hs.reads u
      · simpa [enter, hu, List.count_cons_of_ne (Ne.symm hu)] using hs.reads u

theorem Matched.write (hs : s.Matched) (h : step s (.write t) = some s')
    (hnest : Unnested s (.write t)) : s'.Matched := by
  obtain ⟨-, ok, l, hlock, rfl⟩ := write_eq_some h
  rcases wrlock_eq_some hlock with ⟨-, -, hwriter⟩ | ⟨-, hnone, hnil, rfl⟩
  · exact absurd ((hs.writer_iff t).mp hwriter) hnest
  · refine ⟨hs.wf.wrlock hlock, fun u => ?_, fun u => ?_, hs.defined⟩
    · have hu' := hs.writes u
      rw [hnone] at hu'
      by_cases hu : u = t
      · subst hu
        simpa [enter] using hu'
      · simpa [enter, hu, Ne.symm hu] using hu'
    · by_cases hu : u = t
      · subst hu
        simpa [enter] using hs.reads u
      · simpa [enter, hu] using hs.reads u

theorem Matched.leave (hs : s.Matched) (h : step s (.leave t) = some s') : s'.Matched := by
  obtain ⟨-, g, gs, hg, hleave⟩ := leave_eq_some h
  have hheld := hs.held_eq t
  have hwrites := hs.writes t
  have hreads := hs.reads t
  rw [hg] at hheld hwrites hreads
  rcases hleave with ⟨hnone, -⟩ | ⟨l, hunlock, rfl⟩
  · rw [unlock_eq_none_iff.mp hnone] at hheld
    cases hheld
  · refine ⟨hs.wf.unlock hunlock, fun u => ?_, fun u => ?_, hs.defined⟩
    · have hu' := hs.writes u
      unfold SharedLock.unlock at hunlock
      split at hunlock
      · rename_i hw
        obtain rfl := Option.some.inj hunlock
        rw [hw] at hwrites hu'
        by_cases hu : u = t
        · subst hu
          rw [hs.wf u hw] at hreads
          cases g with
          | read => simp at hreads
          | write => simpa using hwrites
        · simpa [hu, Ne.symm hu] using hu'
      · rename_i hw
        split at hunlock
        · obtain rfl := Option.some.inj hunlock
          rw [if_neg hw] at hwrites
          by_cases hu : u = t
          · subst hu
            cases g with
            | read => simpa [hw] using hwrites
            | write => simp at hwrites
          · simpa [hu] using hu'
        · cases hunlock
    · have hu' := hs.reads u
      unfold SharedLock.unlock at hunlock
      split at hunlock
      · rename_i hw
        obtain rfl := Option.some.inj hunlock
        by_cases hu : u = t
        · subst hu
          cases g with
          | read =>
              rw [hs.wf u hw] at hreads
              simp at hreads
          | write => simpa using hreads
        · simpa [hu] using hu'
      · rename_i hw
        split at hunlock
        · obtain rfl := Option.some.inj hunlock
          by_cases hu : u = t
          · subst hu
            cases g with
            | read =>
                rw [List.count_cons_self] at hreads
                simp only [Function.update_self, List.count_erase_self]
                omega
            | write => simp [hw] at hwrites
          · simpa [hu, List.count_erase_of_ne hu] using hu'
        · cases hunlock

/-- In order, a step keeps the guards matched; a guard without a lock stays one. -/
theorem Matched.step (hs : s.Matched) (h : ReadWriteLock.step s l = some s')
    (hnest : Unnested s l) : s'.Matched := by
  cases l with
  | read t full => exact hs.read h hnest
  | write t => exact hs.write h hnest
  | leave t => exact hs.leave h

theorem Matched.short (hs : s.Matched) (h : ReadWriteLock.step s l = some s')
    (hnest : ¬ Unnested s l) : s'.Short := by
  cases l with
  | leave t => exact absurd trivial hnest
  | write t =>
      obtain ⟨-, ok, l, hlock, rfl⟩ := write_eq_some h
      have hwriter : s.lock.writer = some t := (hs.writer_iff t).mpr (not_not.mp hnest)
      rcases wrlock_eq_some hlock with ⟨-, rfl, -⟩ | ⟨-, hnone, -⟩
      · exact ⟨t, by simp [enter, hs.held_eq t]⟩
      · rw [hwriter] at hnone
        cases hnone
  | read t full =>
      obtain ⟨-, ok, l, hlock, rfl⟩ := read_eq_some h
      rcases rdlock_eq_some hlock with ⟨-, rfl, -⟩ | ⟨-, hnone, hfull, -⟩
      · exact ⟨t, by simp [enter, hs.held_eq t]⟩
      · refine absurd ⟨fun hmem => ?_, hfull⟩ hnest
        rw [(hs.writer_iff t).mpr hmem] at hnone
        cases hnone

theorem Short.enter (hs : s.Short) {g : Guard} {ok : Bool} {l : SharedLock τ}
    (hheld : ∀ u, l.held u = s.lock.held u + if u = t ∧ ok = true then 1 else 0) :
    (s.enter t g (ok, l)).Short := by
  obtain ⟨u, hu⟩ := hs
  refine ⟨u, ?_⟩
  show l.held u < (Function.update s.guards t (g :: s.guards t) u).length
  rw [hheld u]
  by_cases hut : u = t
  · subst hut
    rw [Function.update_self, List.length_cons]
    split <;> omega
  · simpa [hut] using hu

theorem Short.step (hs : s.Short) (h : ReadWriteLock.step s l = some s') :
    s'.Short ∨ s'.undefined = true := by
  cases l with
  | read t full =>
      obtain ⟨-, ok, l, hlock, rfl⟩ := read_eq_some h
      exact Or.inl (hs.enter (held_rdlock hlock))
  | write t =>
      obtain ⟨-, ok, l, hlock, rfl⟩ := write_eq_some h
      exact Or.inl (hs.enter (held_wrlock hlock))
  | leave t =>
      obtain ⟨-, g, gs, hg, ⟨-, rfl⟩ | ⟨l, hunlock, rfl⟩⟩ := leave_eq_some h
      · exact Or.inr rfl
      · obtain ⟨u, hu⟩ := hs
        refine Or.inl ⟨u, ?_⟩
        have hheld := held_unlock hunlock u
        show l.held u < (Function.update s.guards t gs u).length
        by_cases hut : u = t
        · subst hut
          rw [hg, List.length_cons] at hu
          rw [Function.update_self]
          simp only [if_true] at hheld
          omega
        · rw [Function.update_of_ne hut]
          simp only [hut, if_false] at hheld
          omega

/-! ## Runs -/

variable {ls : List (Label τ)}

/-- A run is in order and its guards are matched, or a guard is without a lock, or something
undefined has been done. -/
theorem run_matched (hrun : Machine.run ReadWriteLock.step start ls = some s) :
    (Machine.StepsMeet ReadWriteLock.step Unnested start ls ∧ s.Matched) ∨
      (¬ Machine.StepsMeet ReadWriteLock.step Unnested start ls ∧
        (s.Short ∨ s.undefined = true)) := by
  induction ls using List.reverseRecOn generalizing s with
  | nil =>
      cases hrun
      exact Or.inl ⟨Machine.StepsMeet.nil _ _ _, start_matched⟩
  | append_singleton ls l ih =>
      obtain ⟨t, ht, hl⟩ := Machine.run_snoc_eq_some hrun
      rw [Machine.stepsMeet_snoc]
      rcases ih ht with ⟨hmeet, hmatched⟩ | ⟨hmeet, hbad⟩
      · by_cases hnest : Unnested t l
        · exact Or.inl ⟨⟨hmeet, fun t' ht' => Option.some.inj (ht.symm.trans ht') ▸ hnest⟩,
            hmatched.step hl hnest⟩
        · exact Or.inr ⟨fun h => hnest (h.2 t ht), Or.inl (hmatched.short hl hnest)⟩
      · refine Or.inr ⟨fun h => hmeet h.1, ?_⟩
        rcases hbad with hshort | hundef
        · exact hshort.step hl
        · cases l <;> simp [ReadWriteLock.step, hundef] at hl

/-- As long as no thread constructs a guard inside its own write guard, a thread with a write
guard is the only one with a guard, whatever the schedule. -/
theorem guards_exclude (hrun : Machine.run ReadWriteLock.step start ls = some s)
    (hmeet : Machine.StepsMeet ReadWriteLock.step Unnested start ls) {t u : τ}
    (ht : Guard.write ∈ s.guards t) (hu : s.guards u ≠ []) : u = t ∧ s.guards t = [.write] := by
  rcases run_matched hrun with ⟨-, hs⟩ | ⟨hnot, -⟩
  · have hwriter := (hs.writer_iff t).mpr ht
    have hread : ∀ v, (s.guards v).count .read = 0 := by
      intro v
      rw [hs.reads v, hs.wf t hwriter, List.count_nil]
    have hut : u = t := by
      by_contra hne
      have hwrite := hs.writes u
      rw [hwriter, if_neg (by simpa using Ne.symm hne)] at hwrite
      have hlen := length_eq_counts (s.guards u)
      rw [hwrite, hread] at hlen
      exact hu (List.length_eq_zero_iff.mp hlen)
    refine ⟨hut, ?_⟩
    have hlen := length_eq_counts (s.guards t)
    rw [hs.writes t, hwriter, hread] at hlen
    obtain ⟨g, hg⟩ := List.length_eq_one_iff.mp (by simpa using hlen)
    rw [hg] at ht ⊢
    rw [List.mem_singleton.mp ht]
  · exact absurd hmeet hnot

/-- Two threads read, one of them in two nested guards; when they have left, a third one
writes. -/
def readersThenWriter : List (Label Nat) :=
  [.read 0 false, .read 1 false, .read 0 false, .leave 1, .leave 0, .leave 0, .write 2]

def afterReaders : State Nat :=
  (Machine.run ReadWriteLock.step start readersThenWriter).get (by decide)

theorem guards_exclude_afterReaders :
    afterReaders.guards 2 = [.write] ∧ ∀ u, afterReaders.guards u ≠ [] → u = 2 := by
  have hrun : Machine.run ReadWriteLock.step start readersThenWriter = some afterReaders :=
    (Option.some_get _).symm
  have hmeet : Machine.StepsMeet ReadWriteLock.step Unnested start readersThenWriter :=
    .of_meets (by decide)
  have hwrite : Guard.write ∈ afterReaders.guards 2 := by decide
  exact ⟨(guards_exclude hrun hmeet hwrite (List.ne_nil_of_mem hwrite)).2,
    fun u hu => (guards_exclude hrun hmeet hwrite hu).1⟩

/-- Once all guards have been destroyed, no thread has given back a lock that it did not have
exactly if no guard was constructed inside a write guard of its thread. -/
theorem guards_defined_iff (hrun : Machine.run ReadWriteLock.step start ls = some s)
    (hend : s.undefined = true ∨ ∀ t, s.guards t = []) :
    s.undefined = false ↔ Machine.StepsMeet ReadWriteLock.step Unnested start ls := by
  rcases run_matched hrun with ⟨hmeet, hs⟩ | ⟨hnot, hbad⟩
  · exact iff_of_true hs.defined hmeet
  · refine iff_of_false (fun hdef => ?_) hnot
    rcases hbad with ⟨t, ht⟩ | hundef
    · rcases hend with hundef | hempty
      · simp [hdef] at hundef
      · simp [hempty t] at ht
    · simp [hdef] at hundef

/-- A thread constructs a read guard inside its write guard, and destroys both. -/
def nested : List (Label Nat) := [.write 0, .read 0 false, .leave 0, .leave 0]

def afterNested : State Nat := (Machine.run ReadWriteLock.step start nested).get (by decide)

theorem guards_defined_nested :
    ¬ Machine.StepsMeet ReadWriteLock.step Unnested start nested := by
  have hiff := guards_defined_iff (s := afterNested) (Option.some_get _).symm (Or.inl (by decide))
  exact fun hmeet => absurd (hiff.mpr hmeet) (by decide)

end State

end XfUtil.ReadWriteLock
