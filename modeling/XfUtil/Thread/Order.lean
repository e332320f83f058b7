import XfUtil.Thread.Calls

/-!
# The order in which the methods of a `ThreadGroup` may be called

`Join` and `Detach` leave the threads in the vector, no longer joinable. So a second one
throws, and a `Start` without one of them in between ends the process.
-/

namespace XfUtil.ThreadGroup

namespace State

variable {s t : State} {a : Nat} {l : Label} {created : Bool}

/-! ## Calls that go well -/

/-- What a call still has to do will neither throw nor end the process. -/
def PcSound (threads : List Handle) (a : Nat) : Pc → Prop
  | .dropping old => ∀ h ∈ old, h.joinable = false
  | .joinAt i => ∀ h ∈ threads.drop i, h.joinable = true ∧ h.id ≠ a
  | _ => True

def Sound (s : State) : Prop := ∀ a, PcSound s.threads a (s.pc a)

/-- No call has thrown or ended the process, and none is about to. -/
structure Clean (s : State) : Prop where
  threw : s.threw = false
  terminated : s.terminated = false
  sound : s.Sound

/-- Threads are created when they are asked for; a `Start` finds threads that have been joined
or detached, the others find threads that have not, and no member joins itself. -/
def Orderly (s : State) : Label → Prop
  | .call _ (.start threadCount) => threadCount.slt 0#32 = false
  | .go a created =>
      match s.pc a with
      | .creating (_ + 1) _ => created = true
      | .swapping _ => ∀ h ∈ s.threads, h.joinable = false
      | .detaching => ∀ h ∈ s.threads, h.joinable = true
      | .joining => ∀ h ∈ s.threads, h.joinable = true ∧ h.id ≠ a
      | _ => True
  | _ => True

theorem start_clean (next : Nat) : (start next).Clean := ⟨rfl, rfl, fun _ => trivial⟩

/-- One call goes on, and nothing changes for the others. -/
theorem sound_moves {pc : Pc} {Q : Prop} (hpc : ∀ b, t.pc b = if b = a then pc else s.pc b)
    (hothers : ∀ b, b ≠ a → (PcSound t.threads b (s.pc b) ↔ PcSound s.threads b (s.pc b)))
    (hown : PcSound t.threads a pc ↔ PcSound s.threads a (s.pc a) ∧ Q) :
    t.Sound ↔ s.Sound ∧ Q := by
  constructor
  · intro ht
    have ha := ht a
    rw [hpc a, if_pos rfl] at ha
    obtain ⟨hsa, hQ⟩ := hown.mp ha
    refine ⟨fun b => ?_, hQ⟩
    by_cases hb : b = a
    · exact hb ▸ hsa
    · have htb := ht b
      rw [hpc b, if_neg hb] at htb
      exact (hothers b hb).mp htb
  · rintro ⟨hs, hQ⟩ b
    rw [hpc b]
    by_cases hb : b = a
    · rw [if_pos hb, hb]
      exact hown.mpr ⟨hs a, hQ⟩
    · rw [if_neg hb]
      exact (hothers b hb).mpr (hs b)

/-- Only a call that has the mutex depends on the vector. -/
theorem pcSound_congr {pc : Pc} (h : pc.locks = false) (threads threads' : List Handle) (b : Nat) :
    PcSound threads b pc ↔ PcSound threads' b pc := by
  cases pc with
  | joinAt i => cases h
  | _ => rfl

theorem Inv.locks_of_free (hs : s.Inv) (hfree : s.holder = none) (b : Nat) :
    (s.pc b).locks = false := by
  cases hlock : (s.pc b).locks with
  | false => rfl
  | true =>
      rw [(hs.holder b).mpr hlock] at hfree
      cases hfree

theorem Inv.locks_of_other (hs : s.Inv) (ha : (s.pc a).locks = true) {b : Nat} (hb : b ≠ a) :
    (s.pc b).locks = false := by
  cases hlock : (s.pc b).locks with
  | false => rfl
  | true =>
      have heq := ((hs.holder b).mpr hlock).symm.trans ((hs.holder a).mpr ha)
      exact absurd (Option.some.inj heq) hb

theorem Clean.iff_moves {Q : Prop} (hthrew : t.threw = s.threw)
    (hterm : t.terminated = s.terminated) (hsound : t.Sound ↔ s.Sound ∧ Q) :
    t.Clean ↔ s.Clean ∧ Q :=
  ⟨fun h => ⟨⟨hthrew ▸ h.threw, hterm ▸ h.terminated, (hsound.mp h.sound).1⟩,
      (hsound.mp h.sound).2⟩,
    fun h => ⟨hthrew.trans h.1.threw, hterm.trans h.1.terminated, hsound.mpr ⟨h.1.sound, h.2⟩⟩⟩

theorem not_clean_of_threw (h : t.threw = true) : ¬ t.Clean := fun hc => by
  simp [hc.threw] at h

theorem not_clean_of_terminated (h : t.terminated = true) : ¬ t.Clean := fun hc => by
  simp [hc.terminated] at h

theorem drop_eq_cons_of_getElem? {hs : List Handle} {i : Nat} {h : Handle}
    (hi : hs[i]? = some h) : hs.drop i = h :: hs.drop (i + 1) := by
  obtain ⟨hlt, rfl⟩ := List.getElem?_eq_some_iff.mp hi
  exact List.drop_eq_getElem_cons hlt

theorem mem_drop_of_getElem? {hs : List Handle} {i : Nat} {h : Handle} (hi : hs[i]? = some h) :
    h ∈ hs.drop i := by
  rw [drop_eq_cons_of_getElem? hi]
  exact List.mem_cons_self

/-- A step after which all is well is one that is in order, from a state in which all is well. -/
theorem Inv.clean_go (hs : s.Inv) (h : Go s a created t) :
    t.Clean ↔ s.Clean ∧ Orderly s (.go a created) := by
  cases h with
  | created hpc =>
      exact Clean.iff_moves rfl rfl (sound_moves (goto_pc s a · _) (fun _ _ => Iff.rfl)
        (by simp [PcSound, Orderly, hpc]))
  | create hpc hok =>
      exact Clean.iff_moves rfl rfl (sound_moves (goto_pc s a · _) (fun _ _ => Iff.rfl)
        (by simp [PcSound, Orderly, hpc, hok]))
  | createThrows hpc hok =>
      exact iff_of_false (not_clean_of_threw rfl) (by simp [Orderly, hpc, hok])
  | createTerminates hpc _ hok =>
      exact iff_of_false (not_clean_of_terminated rfl) (by simp [Orderly, hpc, hok])
  | swap hpc hfree =>
      exact Clean.iff_moves rfl rfl (sound_moves (goto_pc s a · _)
        (fun b _ => pcSound_congr (hs.locks_of_free hfree b) _ _ b)
        (by simp [PcSound, Orderly, hpc]))
  | drop hpc hold =>
      exact Clean.iff_moves rfl rfl (sound_moves (goto_pc s a · _) (fun _ _ => Iff.rfl)
        (by simpa [PcSound, Orderly, hpc] using hold))
  | dropTerminates hpc hh hjoin =>
      refine iff_of_false (not_clean_of_terminated rfl) fun hc => ?_
      have hsound := hc.1.sound a
      rw [hpc] at hsound
      have hnot := hsound _ hh
      rw [hjoin] at hnot
      cases hnot
  | detach hpc hfree =>
      have hsound : ∀ u : State, u.pc = (s.goto a .idle).pc → (u.Sound ↔ s.Sound ∧ True) :=
        fun u hu => sound_moves (fun b => by rw [hu]; exact goto_pc s a b _)
          (fun b _ => pcSound_congr (hs.locks_of_free hfree b) _ _ b) (by simp [PcSound, hpc])
      have horderly : Orderly s (.go a created) ↔
          (s.threads.any fun h => !h.joinable) = false := by simp [Orderly, hpc]
      rw [horderly]
      constructor
      · intro hc
        have hthrew := Bool.or_eq_false_iff.mp hc.threw
        exact ⟨⟨hthrew.1, hc.terminated, ((hsound _ (by rfl)).mp hc.sound).1⟩, hthrew.2⟩
      · rintro ⟨hc, hall⟩
        exact ⟨Bool.or_eq_false_iff.mpr ⟨hc.threw, hall⟩, hc.terminated,
          (hsound _ (by rfl)).mpr ⟨hc.sound, trivial⟩⟩
  | join hpc hfree =>
      exact Clean.iff_moves rfl rfl (sound_moves (goto_pc s a · _) (fun _ _ => Iff.rfl)
        (by simp [PcSound, Orderly, hpc]))
  | joinEnds hpc hi =>
      have hend := List.drop_eq_nil_of_le (List.getElem?_eq_none_iff.mp hi)
      exact Clean.iff_moves rfl rfl (sound_moves (goto_pc s a · _) (fun _ _ => Iff.rfl)
        (by simp [PcSound, Orderly, hpc, hend]))
  | joinThrows hpc hi hbad =>
      refine iff_of_false (not_clean_of_threw rfl) fun hc => ?_
      have hsound := hc.1.sound a
      rw [hpc] at hsound
      obtain ⟨hjoin, hother⟩ := hsound _ (mem_drop_of_getElem? hi)
      rcases hbad with hbad | hbad
      · simp [hjoin] at hbad
      · exact hother hbad
  | joinOne hpc hi hjoin hother =>
      refine Clean.iff_moves (by rfl) (by rfl) (sound_moves (goto_pc s a · _) ?_ ?_)
      · intro b hb
        have ha : (s.pc a).locks = true := by rw [hpc]; rfl
        exact pcSound_congr (hs.locks_of_other ha hb) _ _ b
      · simp [PcSound, Orderly, hpc, drop_eq_cons_of_getElem? hi, hjoin, hother,
          List.drop_set_of_lt (Nat.lt_succ_self _)]
  | size hpc =>
      exact Clean.iff_moves rfl rfl (sound_moves (goto_pc s a · _) (fun _ _ => Iff.rfl)
        (by simp [PcSound, Orderly, hpc]))

theorem Inv.clean_step (hs : s.Inv) (h : ThreadGroup.step s l = some t) :
    t.Clean ↔ s.Clean ∧ Orderly s l := by
  cases l with
  | go a created =>
      obtain ⟨-, -, hnext⟩ := go_eq_some h
      exact hs.clean_go (go_of_next? hnext)
  | call a m =>
      obtain ⟨-, -, hpc, rfl⟩ := call_eq_some h
      cases m with
      | start threadCount =>
          rw [enter]
          split
          · rename_i hneg
            exact iff_of_false (not_clean_of_threw rfl) (by simp [Orderly, hneg])
          · rename_i hneg
            exact Clean.iff_moves rfl rfl (sound_moves (goto_pc s a · _) (fun _ _ => Iff.rfl)
              (by simpa [PcSound, Orderly, hpc] using hneg))
      | detach | join | size =>
          exact Clean.iff_moves rfl rfl (sound_moves (goto_pc s a · _) (fun _ _ => Iff.rfl)
            (by simp [PcSound, Orderly, hpc]))
  | exit a =>
      obtain ⟨-, -, -, rfl⟩ := exit_eq_some h
      exact ⟨fun hc => ⟨⟨hc.threw, hc.terminated, hc.sound⟩, trivial⟩,
        fun hc => ⟨hc.1.threw, hc.1.terminated, hc.1.sound⟩⟩

/-! ## Runs -/

theorem run_clean {next : Nat} {ls : List Label}
    (hrun : Machine.run ThreadGroup.step (ThreadGroup.start next) ls = some s) :
    s.Clean ↔ Machine.StepsMeet ThreadGroup.step Orderly (ThreadGroup.start next) ls := by
  induction ls using List.reverseRecOn generalizing s with
  | nil =>
      cases hrun
      exact iff_of_true (start_clean next) (Machine.StepsMeet.nil _ _ _)
  | append_singleton ls l ih =>
      obtain ⟨t, ht, hl⟩ := Machine.run_snoc_eq_some hrun
      rw [(run_inv ht).clean_step hl, Machine.stepsMeet_snoc, ih ht]
      refine and_congr_right fun _ => ?_
      exact ⟨fun h t' ht' => Option.some.inj (ht.symm.trans ht') ▸ h, fun h => h t ht⟩

/-- Nothing is under way any more. -/
def Settled (s : State) : Prop := s.terminated = true ∨ ∀ a, s.pc a = .idle

/-- In whatever order any number of threads call the methods: once the calls are over, none
of them has thrown and the process is alive exactly if all of them were in order. -/
theorem run_orderly_iff {next : Nat} {ls : List Label}
    (hrun : Machine.run ThreadGroup.step (ThreadGroup.start next) ls = some s)
    (hsettled : s.Settled) :
    s.threw = false ∧ s.terminated = false ↔
      Machine.StepsMeet ThreadGroup.step Orderly (ThreadGroup.start next) ls := by
  rw [← run_clean hrun]
  refine ⟨fun h => ⟨h.1, h.2, fun a => ?_⟩, fun h => ⟨h.threw, h.terminated⟩⟩
  rcases hsettled with hterm | hidle
  · simp [h.2] at hterm
  · rw [hidle a]
    trivial

/-- One thread is started and ends, and is joined twice. -/
def joinedTwice : List Label :=
  [.call 0 (.start 1#32), .go 0 true, .go 0 true, .go 0 true, .go 0 true, .exit 1,
    .call 0 .join, .go 0 true, .go 0 true, .go 0 true, .call 0 .join, .go 0 true, .go 0 true]

def afterJoinedTwice : State :=
  (Machine.run ThreadGroup.step (ThreadGroup.start 1) joinedTwice).get (by decide)

theorem run_orderly_joinedTwice :
    ¬ Machine.StepsMeet ThreadGroup.step Orderly (ThreadGroup.start 1) joinedTwice := by
  have hidle : ∀ a, afterJoinedTwice.pc a = .idle
    | 0 => rfl
    | 1 => rfl
    | _ + 2 => rfl
  have hiff := run_orderly_iff (s := afterJoinedTwice) (Option.some_get _).symm (Or.inr hidle)
  exact fun hmeet => absurd (hiff.mpr hmeet).1 (by decide)

end State

end XfUtil.ThreadGroup
