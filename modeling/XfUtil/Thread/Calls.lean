import XfUtil.Thread.Group

/-!
# Calls of a `ThreadGroup` under any schedule

`Join` holds `m_mutex` from its first step on to its last. No other call holds it for
longer than a step.
-/

namespace XfUtil.ThreadGroup

namespace Pc

/-- The call has `m_mutex`. -/
def locks : Pc → Bool
  | .joinAt _ => true
  | _ => false

/-- The threads that the call has to itself. -/
def handles : Pc → List Handle
  | .creating _ made => made
  | .swapping made => made
  | .dropping old => old
  | _ => []

end Pc

namespace State

variable {s t : State} {a b : Nat} {l : Label} {created : Bool}

@[simp] theorem goto_pc (s : State) (a b : Nat) (pc : Pc) :
    (s.goto a pc).pc b = if b = a then pc else s.pc b :=
  Function.update_apply ..

@[simp] theorem goto_threads (s : State) (a : Nat) (pc : Pc) : (s.goto a pc).threads = s.threads :=
  rfl

@[simp] theorem goto_exited (s : State) (a : Nat) (pc : Pc) : (s.goto a pc).exited = s.exited :=
  rfl

/-- What `Detach` leaves in the group: the threads that were there. -/
theorem map_id_detachLoop (hs : List Handle) :
    (detachLoop hs).map Handle.id = hs.map Handle.id := by
  induction hs with
  | nil => rfl
  | cons h hs ih =>
      rw [detachLoop]
      split
      · simp [ih]
      · rfl

theorem id_mem_detachLoop {h : Handle} {hs : List Handle} (hh : h ∈ detachLoop hs) :
    ∃ h' ∈ hs, h'.id = h.id := by
  have hmem : h.id ∈ (detachLoop hs).map Handle.id := List.mem_map_of_mem hh
  rw [map_id_detachLoop] at hmem
  obtain ⟨h', hh', heq⟩ := List.mem_map.mp hmem
  exact ⟨h', hh', heq⟩

structure Inv (s : State) : Prop where
  holder : ∀ a, s.holder = some a ↔ (s.pc a).locks = true
  idle : ∀ a, s.running a = false → s.pc a = .idle
  members : ∀ h ∈ s.threads, h.id < s.next
  made : ∀ a, ∀ h ∈ (s.pc a).handles, h.id < s.next

theorem start_inv (next : Nat) : (start next).Inv :=
  ⟨fun _ => by simp [ThreadGroup.start, Pc.locks], fun _ _ => rfl, by simp [ThreadGroup.start],
    by simp [ThreadGroup.start, Pc.handles]⟩

/-! ## What a step does -/

theorem call_eq_some {m : Method} (h : step s (.call a m) = some t) :
    s.terminated = false ∧ s.running a = true ∧ s.pc a = .idle ∧ t = s.enter a m := by
  rw [step] at h
  split at h
  · cases h
  · rename_i hcond
    obtain ⟨⟨hterm, hrun⟩, hidle⟩ :
        (s.terminated = false ∧ s.running a = true) ∧ s.pc a = .idle := by simpa using hcond
    exact ⟨hterm, hrun, hidle, (Option.some.inj h).symm⟩

theorem go_eq_some (h : step s (.go a created) = some t) :
    s.terminated = false ∧ s.running a = true ∧ s.next? a created = some t := by
  rw [step] at h
  split at h
  · cases h
  · rename_i hcond
    have hcond' : s.terminated = false ∧ s.running a = true := by simpa using hcond
    exact ⟨hcond'.1, hcond'.2, h⟩

theorem exit_eq_some (h : step s (.exit a) = some t) :
    s.terminated = false ∧ s.running a = true ∧ s.pc a = .idle ∧
      t = { s with exited := Function.update s.exited a true } := by
  rw [step] at h
  split at h
  · cases h
  · rename_i hcond
    obtain ⟨⟨hterm, hrun⟩, hidle⟩ :
        (s.terminated = false ∧ s.running a = true) ∧ s.pc a = .idle := by simpa using hcond
    exact ⟨hterm, hrun, hidle, (Option.some.inj h).symm⟩

/-- What the next step of a call comes to, by how far the call is. -/
inductive Go (s : State) (a : Nat) (created : Bool) : State → Prop
  | created {made : List Handle} (hpc : s.pc a = .creating 0 made) :
      Go s a created (s.goto a (.swapping made))
  | create {left : Nat} {made : List Handle} (hpc : s.pc a = .creating (left + 1) made)
      (hok : created = true) :
      Go s a created
        { s.goto a (.creating left (made ++ [⟨s.next, true⟩])) with next := s.next + 1 }
  | createThrows {left : Nat} (hpc : s.pc a = .creating (left + 1) []) (hok : created = false) :
      Go s a created (s.throwing a)
  | createTerminates {left : Nat} {made : List Handle}
      (hpc : s.pc a = .creating (left + 1) made) (hmade : made ≠ []) (hok : created = false) :
      Go s a created { s with terminated := true }
  | swap {made : List Handle} (hpc : s.pc a = .swapping made) (hfree : s.holder = none) :
      Go s a created { s.goto a (.dropping s.threads) with threads := made }
  | drop {old : List Handle} (hpc : s.pc a = .dropping old)
      (hold : ∀ h ∈ old, h.joinable = false) : Go s a created (s.goto a .idle)
  | dropTerminates {old : List Handle} (hpc : s.pc a = .dropping old) {h : Handle} (hh : h ∈ old)
      (hjoin : h.joinable = true) : Go s a created { s with terminated := true }
  | detach (hpc : s.pc a = .detaching) (hfree : s.holder = none) :
      Go s a created { s.goto a .idle with
        threads := detachLoop s.threads
        threw := s.threw || s.threads.any fun h => !h.joinable }
  | join (hpc : s.pc a = .joining) (hfree : s.holder = none) :
      Go s a created { s.goto a (.joinAt 0) with holder := some a }
  | joinEnds {i : Nat} (hpc : s.pc a = .joinAt i) (hi : s.threads[i]? = none) :
      Go s a created { s.goto a .idle with holder := none }
  | joinThrows {i : Nat} (hpc : s.pc a = .joinAt i) {h : Handle} (hi : s.threads[i]? = some h)
      (hbad : h.joinable = false ∨ h.id = a) :
      Go s a created { s.throwing a with holder := none }
  | joinOne {i : Nat} (hpc : s.pc a = .joinAt i) {h : Handle} (hi : s.threads[i]? = some h)
      (hjoin : h.joinable = true) (hother : h.id ≠ a) (hexit : s.exited h.id = true) :
      Go s a created { s.goto a (.joinAt (i + 1)) with
        threads := s.threads.set i { h with joinable := false } }
  | size (hpc : s.pc a = .sizing) (hfree : s.holder = none) :
      Go s a created (s.goto a .idle)

theorem go_of_next? (h : s.next? a created = some t) : Go s a created t := by
  unfold next? at h
  cases hpc : s.pc a with
  | idle => simp [hpc] at h
  | creating left made =>
      cases left with
      | zero =>
          rw [hpc] at h
          obtain rfl := Option.some.inj h
          exact .created hpc
      | succ left =>
          rw [hpc] at h
          dsimp only at h
          split at h
          · rename_i hok
            obtain rfl := Option.some.inj h
            exact .create hpc hok
          · rename_i hok
            split at h
            · rename_i hmade
              obtain rfl := List.isEmpty_iff.mp hmade
              obtain rfl := Option.some.inj h
              exact .createThrows hpc (by simpa using hok)
            · rename_i hmade
              obtain rfl := Option.some.inj h
              exact .createTerminates hpc (by simpa using hmade) (by simpa using hok)
  | swapping made =>
      rw [hpc] at h
      dsimp only at h
      split at h
      · rename_i hfree
        obtain rfl := Option.some.inj h
        exact .swap hpc (Option.isNone_iff_eq_none.mp hfree)
      · cases h
  | dropping old =>
      rw [hpc] at h
      dsimp only at h
      split at h
      · rename_i hjoin
        obtain rfl := Option.some.inj h
        obtain ⟨x, hx, hxj⟩ := List.any_eq_true.mp hjoin
        exact .dropTerminates hpc hx hxj
      · rename_i hjoin
        obtain rfl := Option.some.inj h
        exact .drop hpc (by simpa using hjoin)
  | detaching =>
      rw [hpc] at h
      dsimp only at h
      split at h
      · rename_i hfree
        obtain rfl := Option.some.inj h
        exact .detach hpc (Option.isNone_iff_eq_none.mp hfree)
      · cases h
  | joining =>
      rw [hpc] at h
      dsimp only at h
      split at h
      · rename_i hfree
        obtain rfl := Option.some.inj h
        exact .join hpc (Option.isNone_iff_eq_none.mp hfree)
      · cases h
  | joinAt i =>
      rw [hpc] at h
      dsimp only at h
      unfold joinNext at h
      cases hi : s.threads[i]? with
      | none =>
          rw [hi] at h
          obtain rfl := Option.some.inj h
          exact .joinEnds hpc hi
      | some x =>
          rw [hi] at h
          dsimp only at h
          split at h
          · rename_i hbad
            obtain rfl := Option.some.inj h
            exact .joinThrows hpc hi (by simpa using hbad)
          · rename_i hgood
            have hgood' : x.joinable = true ∧ x.id ≠ a := by simpa using hgood
            split at h
            · rename_i hexit
              obtain rfl := Option.some.inj h
              exact .joinOne hpc hi hgood'.1 hgood'.2 hexit
            · cases h
  | sizing =>
      rw [hpc] at h
      dsimp only at h
      split at h
      · rename_i hfree
        obtain rfl := Option.some.inj h
        exact .size hpc (Option.isNone_iff_eq_none.mp hfree)
      · cases h

/-! ## The invariant -/

/-- A thread goes on to another place of its call. -/
theorem Inv.moves (hs : s.Inv) {pc : Pc} (hpc : ∀ b, t.pc b = if b = a then pc else s.pc b)
    (ha : t.running a = true) (hrun : ∀ b, s.running b = true → t.running b = true)
    (hnext : s.next ≤ t.next)
    (hholder : ∀ b, t.holder = some b ↔ (if b = a then pc else s.pc b).locks = true)
    (hthreads : ∀ h ∈ t.threads, h.id < t.next) (hmade : ∀ h ∈ pc.handles, h.id < t.next) :
    t.Inv := by
  refine ⟨fun b => by rw [hpc b]; exact hholder b, fun b hb => ?_, hthreads, fun b h hh => ?_⟩
  · have hne : b ≠ a := fun heq => by simp [heq, ha] at hb
    have hb' : s.running b = false := by
      cases hsb : s.running b with
      | false => rfl
      | true => simp [hrun b hsb] at hb
    rw [hpc b, if_neg hne, hs.idle b hb']
  · rw [hpc b] at hh
    by_cases hba : b = a
    · rw [if_pos hba] at hh
      exact hmade h hh
    · rw [if_neg hba] at hh
      exact Nat.lt_of_lt_of_le (hs.made b h hh) hnext

theorem Inv.holder_same (hs : s.Inv) {pc : Pc} (hold : (s.pc a).locks = pc.locks) (b : Nat) :
    s.holder = some b ↔ (if b = a then pc else s.pc b).locks = true := by
  rw [hs.holder b]
  by_cases hb : b = a
  · rw [if_pos hb, hb, hold]
  · rw [if_neg hb]

theorem Inv.holder_taken (hs : s.Inv) (hfree : s.holder = none) {pc : Pc}
    (hpc : pc.locks = true) (b : Nat) :
    some a = some b ↔ (if b = a then pc else s.pc b).locks = true := by
  by_cases hb : b = a
  · simp [hb, hpc]
  · have hnot : ¬ (s.pc b).locks = true := by
      rw [← hs.holder b, hfree]
      simp
    simp [hb, Ne.symm hb, hnot]

theorem Inv.holder_given (hs : s.Inv) (hlock : (s.pc a).locks = true) {pc : Pc}
    (hpc : pc.locks = false) (b : Nat) :
    none = some b ↔ (if b = a then pc else s.pc b).locks = true := by
  by_cases hb : b = a
  · simp [hb, hpc]
  · have hnot : ¬ (s.pc b).locks = true := by
      rw [← hs.holder b, (hs.holder a).mpr hlock]
      simpa using Ne.symm hb
    simp [hb, hnot]

theorem running_iff : s.running a = true ↔ a < s.next ∧ s.exited a = false := by
  simp [running]

theorem Inv.go (hs : s.Inv) (ha : s.running a = true) (h : Go s a created t) : t.Inv := by
  cases h with
  | created hpc =>
      exact hs.moves (goto_pc s a · _) ha (fun _ hb => hb) (Nat.le_refl _)
        (hs.holder_same (by rw [hpc]; rfl)) hs.members
        (fun x hx => hs.made a x (by rw [hpc]; exact hx))
  | create hpc =>
      have hrun : ∀ b, s.running b = true → b < s.next + 1 ∧ s.exited b = false :=
        fun b hb => ⟨Nat.lt_succ_of_lt (running_iff.mp hb).1, (running_iff.mp hb).2⟩
      refine hs.moves (goto_pc s a · _) (running_iff.mpr (hrun a ha))
        (fun b hb => running_iff.mpr (hrun b hb)) (Nat.le_succ _)
        (hs.holder_same (by rw [hpc]; rfl)) (fun x hx => Nat.lt_succ_of_lt (hs.members x hx)) ?_
      intro x hx
      rcases List.mem_append.mp hx with hx | hx
      · exact Nat.lt_succ_of_lt (hs.made a x (by rw [hpc]; exact hx))
      · obtain rfl := List.mem_singleton.mp hx
        exact Nat.lt_succ_self _
  | createThrows hpc =>
      exact hs.moves (goto_pc s a · _) ha (fun _ hb => hb) (Nat.le_refl _)
        (hs.holder_same (by rw [hpc]; rfl)) hs.members (by simp [Pc.handles])
  | createTerminates => exact ⟨hs.holder, hs.idle, hs.members, hs.made⟩
  | swap hpc hfree =>
      exact hs.moves (goto_pc s a · _) ha (fun _ hb => hb) (Nat.le_refl _)
        (hs.holder_same (by rw [hpc]; rfl)) (fun x hx => hs.made a x (by rw [hpc]; exact hx))
        hs.members
  | drop hpc =>
      exact hs.moves (goto_pc s a · _) ha (fun _ hb => hb) (Nat.le_refl _)
        (hs.holder_same (by rw [hpc]; rfl)) hs.members (by simp [Pc.handles])
  | dropTerminates => exact ⟨hs.holder, hs.idle, hs.members, hs.made⟩
  | detach hpc =>
      refine hs.moves (goto_pc s a · _) ha (fun _ hb => hb) (Nat.le_refl _)
        (hs.holder_same (by rw [hpc]; rfl)) (fun x hx => ?_) (by simp [Pc.handles])
      obtain ⟨y, hy, heq⟩ := id_mem_detachLoop hx
      exact heq ▸ hs.members y hy
  | join hpc hfree =>
      exact hs.moves (goto_pc s a · _) ha (fun _ hb => hb) (Nat.le_refl _)
        (hs.holder_taken hfree rfl) hs.members (by simp [Pc.handles])
  | joinEnds hpc =>
      exact hs.moves (goto_pc s a · _) ha (fun _ hb => hb) (Nat.le_refl _)
        (hs.holder_given (by rw [hpc]; rfl) rfl) hs.members (by simp [Pc.handles])
  | joinThrows hpc =>
      exact hs.moves (goto_pc s a · _) ha (fun _ hb => hb) (Nat.le_refl _)
        (hs.holder_given (by rw [hpc]; rfl) rfl) hs.members (by simp [Pc.handles])
  | joinOne hpc hi =>
      refine hs.moves (goto_pc s a · _) ha (fun _ hb => hb) (Nat.le_refl _)
        (hs.holder_same (by rw [hpc]; rfl)) (fun x hx => ?_) (by simp [Pc.handles])
      rcases List.mem_or_eq_of_mem_set hx with hx | rfl
      · exact hs.members x hx
      · have hlt := hs.members _ (List.mem_of_getElem? hi)
        exact hlt
  | size hpc =>
      exact hs.moves (goto_pc s a · _) ha (fun _ hb => hb) (Nat.le_refl _)
        (hs.holder_same (by rw [hpc]; rfl)) hs.members (by simp [Pc.handles])

theorem Inv.step (hs : s.Inv) (h : ThreadGroup.step s l = some t) : t.Inv := by
  cases l with
  | go a created =>
      obtain ⟨-, ha, hnext⟩ := go_eq_some h
      exact hs.go ha (go_of_next? hnext)
  | call a m =>
      obtain ⟨-, ha, hpc, rfl⟩ := call_eq_some h
      cases m with
      | start threadCount =>
          rw [enter]
          split
          · exact hs.moves (goto_pc s a · _) ha (fun _ hb => hb) (Nat.le_refl _)
              (hs.holder_same (by rw [hpc])) hs.members (by simp [Pc.handles])
          · exact hs.moves (goto_pc s a · _) ha (fun _ hb => hb) (Nat.le_refl _)
              (hs.holder_same (by rw [hpc]; rfl)) hs.members (by simp [Pc.handles])
      | detach | join | size =>
          exact hs.moves (goto_pc s a · _) ha (fun _ hb => hb) (Nat.le_refl _)
            (hs.holder_same (by rw [hpc]; rfl)) hs.members (by simp [Pc.handles])
  | exit a =>
      obtain ⟨-, ha, hpc, rfl⟩ := exit_eq_some h
      refine ⟨hs.holder, fun b hb => ?_, hs.members, hs.made⟩
      by_cases hba : b = a
      · rw [hba]
        exact hpc
      · apply hs.idle b
        simpa [running, hba] using hb

theorem run_inv {next : Nat} {ls : List Label}
    (hrun : Machine.run ThreadGroup.step (ThreadGroup.start next) ls = some s) : s.Inv :=
  Machine.run_invariant Inv (start_inv next) (fun _ _ _ hs h => hs.step h) hrun

end State

end XfUtil.ThreadGroup
