import Mathlib.Data.List.TakeWhile
import XfUtil.Thread.Calls

/-!
# `Join` and the calls of the members

`Join` waits for the members with `m_mutex` taken. A member that is in a call of the group as a
rule neither gets the mutex nor ends, and then `Join` never comes back.
-/

namespace XfUtil.ThreadGroup

namespace Pc

/-- The call does not end while another thread has the mutex. -/
def blocked : Pc → Bool
  | .idle => false
  | .creating (_ + 1) [] => false
  | .dropping old => old.any Handle.joinable
  | _ => true

end Pc

namespace State

variable {s t : State} {a b i : Nat} {l : Label} {created : Bool}

/-- The members that a `Join` at `i` still has to wait for. -/
def awaited (s : State) (a i : Nat) : List Handle :=
  (s.threads.drop i).takeWhile fun h => h.joinable && h.id != a

/-- `Join` waits for a member that waits for it. -/
def Deadlocked (s : State) (a : Nat) : Prop :=
  ∃ i, s.pc a = .joinAt i ∧
    ∃ h ∈ s.awaited a i, s.exited h.id = false ∧ (s.pc h.id).blocked = true

theorem awaited_eq_cons {h : Handle} (hi : s.threads[i]? = some h) (hjoin : h.joinable = true)
    (hother : h.id ≠ a) :
    s.awaited a i =
      h :: (s.threads.drop (i + 1)).takeWhile fun h => h.joinable && h.id != a := by
  obtain ⟨hlt, rfl⟩ := List.getElem?_eq_some_iff.mp hi
  rw [awaited, List.drop_eq_getElem_cons hlt, List.takeWhile_cons]
  simp [hjoin, hother]

theorem awaited_of_end (hi : s.threads[i]? = none) : s.awaited a i = [] := by
  rw [awaited, List.drop_eq_nil_of_le (List.getElem?_eq_none_iff.mp hi)]
  rfl

theorem awaited_of_bad {h : Handle} (hi : s.threads[i]? = some h)
    (hbad : h.joinable = false ∨ h.id = a) : s.awaited a i = [] := by
  obtain ⟨hlt, rfl⟩ := List.getElem?_eq_some_iff.mp hi
  rw [awaited, List.drop_eq_getElem_cons hlt, List.takeWhile_cons]
  rcases hbad with hbad | hbad <;> simp [hbad]

/-- Joining a member takes it off the list. -/
theorem awaited_of_set {x : Handle} (ht : t.threads = s.threads.set i x) :
    t.awaited a (i + 1) =
      (s.threads.drop (i + 1)).takeWhile fun h => h.joinable && h.id != a := by
  rw [awaited, ht, List.drop_set_of_lt (Nat.lt_succ_self i)]

theorem of_mem_awaited {h : Handle} (hh : h ∈ s.awaited a i) : h ∈ s.threads ∧ h.id ≠ a := by
  refine ⟨List.mem_of_mem_drop ((List.takeWhile_prefix _).subset hh), ?_⟩
  have hkept := List.mem_takeWhile_imp hh
  simp only [Bool.and_eq_true, bne_iff_ne] at hkept
  exact hkept.2

/-! ## No way out -/

theorem Inv.holder_of_joinAt (hs : s.Inv) (hpc : s.pc a = .joinAt i) : s.holder = some a :=
  (hs.holder a).mpr (by rw [hpc]; rfl)

/-- A thread that is not the one in `Join` stays blocked, and leaves the group as it is. -/
theorem Inv.go_other (hs : s.Inv) (hpc : s.pc a = .joinAt i) (hb : b ≠ a)
    (h : Go s b created t) :
    t.threads = s.threads ∧ t.exited = s.exited ∧
      ∀ c, (s.pc c).blocked = true → (t.pc c).blocked = true ∧ (c ≠ b → t.pc c = s.pc c) := by
  have hholder := hs.holder_of_joinAt hpc
  have hmoves : ∀ pc, ((s.pc b).blocked = true → pc.blocked = true) →
      ∀ c, (s.pc c).blocked = true →
        (((s.goto b pc).pc c).blocked = true ∧ (c ≠ b → (s.goto b pc).pc c = s.pc c)) := by
    intro pc hblocked c hc
    rw [goto_pc]
    by_cases hcb : c = b
    · subst hcb
      simpa using hblocked hc
    · simp [hcb, hc]
  have hlock : (s.pc b).locks = true → False := by
    intro h
    have heq := hholder.symm.trans ((hs.holder b).mpr h)
    exact hb (Option.some.inj heq).symm
  cases h with
  | created hpc' => exact ⟨rfl, rfl, hmoves _ (fun _ => rfl)⟩
  | @create left made hpc' =>
      refine ⟨rfl, rfl, hmoves _ fun h => ?_⟩
      cases left <;> cases made <;> simp_all [Pc.blocked]
  | createThrows hpc' =>
      exact ⟨rfl, rfl, hmoves _ (by rw [hpc']; exact fun h => h)⟩
  | createTerminates => exact ⟨rfl, rfl, fun c hc => ⟨hc, fun _ => rfl⟩⟩
  | swap _ hfree => simp [hholder] at hfree
  | drop hpc' hold =>
      refine ⟨rfl, rfl, hmoves _ ?_⟩
      rw [hpc']
      simpa [Pc.blocked] using hold
  | dropTerminates => exact ⟨rfl, rfl, fun c hc => ⟨hc, fun _ => rfl⟩⟩
  | detach _ hfree => simp [hholder] at hfree
  | join _ hfree => simp [hholder] at hfree
  | joinEnds hpc' => exact (hlock (by rw [hpc']; rfl)).elim
  | joinThrows hpc' => exact (hlock (by rw [hpc']; rfl)).elim
  | joinOne hpc' => exact (hlock (by rw [hpc']; rfl)).elim
  | size _ hfree => simp [hholder] at hfree

theorem Deadlocked.step (hs : s.Inv) (hd : s.Deadlocked a)
    (h : ThreadGroup.step s l = some t) : t.Deadlocked a := by
  obtain ⟨i, hpc, x, hx, hexit, hblocked⟩ := hd
  cases l with
  | call b m =>
      obtain ⟨-, -, hidle, rfl⟩ := call_eq_some h
      have hne : ∀ c, (s.pc c).blocked = true → (s.enter b m).pc c = s.pc c := by
        intro c hc
        have hcb : c ≠ b := by
          rintro rfl
          simp [hidle, Pc.blocked] at hc
        cases m with
        | start threadCount =>
            rw [enter]
            split <;> simp [throwing, hcb]
        | detach | join | size => simp [enter, hcb]
      have hsame : (s.enter b m).threads = s.threads ∧ (s.enter b m).exited = s.exited := by
        cases m with
        | start threadCount =>
            rw [enter]
            split <;> exact ⟨rfl, rfl⟩
        | detach | join | size => exact ⟨rfl, rfl⟩
      refine ⟨i, by rw [hne a (by rw [hpc]; rfl), hpc], x, ?_, ?_, ?_⟩
      · rw [awaited, hsame.1]
        exact hx
      · rw [hsame.2]
        exact hexit
      · rw [hne _ hblocked]
        exact hblocked
  | exit b =>
      obtain ⟨-, -, hidle, rfl⟩ := exit_eq_some h
      have hxb : x.id ≠ b := by
        rintro rfl
        simp [hidle, Pc.blocked] at hblocked
      exact ⟨i, hpc, x, hx, by simp [hxb, hexit], hblocked⟩
  | go b created =>
      obtain ⟨-, -, hnext⟩ := go_eq_some h
      have hgo := go_of_next? hnext
      by_cases hb : b = a
      · subst hb
        cases hgo with
        | joinEnds hpc' hi =>
            obtain rfl := Pc.joinAt.inj (hpc.symm.trans hpc')
            simp [awaited_of_end hi] at hx
        | joinThrows hpc' hi hbad =>
            obtain rfl := Pc.joinAt.inj (hpc.symm.trans hpc')
            simp [awaited_of_bad hi hbad] at hx
        | @joinOne _ hpc' y hi hjoin hother hexit' =>
            obtain rfl := Pc.joinAt.inj (hpc.symm.trans hpc')
            have hxb := (of_mem_awaited hx).2
            rw [awaited_eq_cons hi hjoin hother] at hx
            have hxy : x ≠ y := by
              rintro rfl
              simp [hexit] at hexit'
            have hmem := (List.mem_cons.mp hx).resolve_left hxy
            refine ⟨i + 1, by simp, x, ?_, hexit, by simpa [hxb] using hblocked⟩
            rw [awaited_of_set (by rfl)]
            exact hmem
        | _ => simp_all
      · obtain ⟨hthreads, hexited, hall⟩ := hs.go_other hpc hb hgo
        refine ⟨i, ?_, x, ?_, ?_, (hall x.id hblocked).1⟩
        · rw [(hall a (by rw [hpc]; rfl)).2 (Ne.symm hb), hpc]
        · rw [awaited, hthreads]
          exact hx
        · rw [hexited]
          exact hexit

/-! ## The way out -/

theorem go_enabled (hterm : s.terminated = false) (hb : s.running b = true) :
    step s (.go b created) = s.next? b created := by
  simp [step, hterm, hb]

theorem exit_enabled (hterm : s.terminated = false) (hb : s.running b = true)
    (hidle : s.pc b = .idle) :
    step s (.exit b) = some { s with exited := Function.update s.exited b true } := by
  simp [step, hterm, hb, hidle]

/-- Nothing has happened to the threads but that one has ended. -/
structure Ended (b : Nat) (s t : State) : Prop where
  threads : t.threads = s.threads
  terminated : t.terminated = s.terminated
  exited : t.exited = Function.update s.exited b true
  others : ∀ c, c ≠ b → t.pc c = s.pc c

/-- A call that ends without another thread's help is left, and its thread ends. -/
theorem exists_ended (hterm : s.terminated = false) (hb : s.running b = true)
    (hlock : (s.pc b).blocked = false) :
    ∃ ls t, Machine.run step s ls = some t ∧ Ended b s t := by
  have hleave : ∀ u : State, step s (.go b false) = some u → u.threads = s.threads →
      u.terminated = false → u.exited = s.exited → u.next = s.next →
      u.pc = Function.update s.pc b .idle →
      ∃ ls t, Machine.run step s ls = some t ∧ Ended b s t := by
    intro u hgo hthreads hterm' hexited hnext hpc
    have hrun : u.running b = true := by
      unfold running at hb ⊢
      rwa [hexited, hnext]
    have hidle : u.pc b = .idle := by rw [hpc, Function.update_self]
    refine ⟨[.go b false, .exit b], { u with exited := Function.update u.exited b true }, ?_,
      hthreads, hterm'.trans hterm.symm, congrArg (Function.update · b true) hexited,
      fun c hc => ?_⟩
    · rw [Machine.run_cons, hgo, Option.bind_some, Machine.run_cons,
        exit_enabled hterm' hrun hidle]
      rfl
    · exact (congrFun hpc c).trans (Function.update_of_ne hc ..)
  cases hpc : s.pc b with
  | idle =>
      refine ⟨[.exit b], { s with exited := Function.update s.exited b true }, ?_, rfl, rfl, rfl,
        fun _ _ => rfl⟩
      rw [Machine.run_cons, exit_enabled hterm hb hpc]
      rfl
  | creating left made =>
      cases left with
      | zero => simp [hpc, Pc.blocked] at hlock
      | succ left =>
          cases made with
          | cons h hs => simp [hpc, Pc.blocked] at hlock
          | nil =>
              have hgo : step s (.go b false) = some (s.throwing b) := by
                rw [go_enabled hterm hb, next?, hpc]
                rfl
              exact hleave _ hgo rfl hterm rfl rfl rfl
  | dropping old =>
      have hold : old.any Handle.joinable = false := by
        rw [hpc] at hlock
        exact hlock
      have hgo : step s (.go b false) = some (s.goto b .idle) := by
        rw [go_enabled hterm hb, next?, hpc]
        simp [hold]
      exact hleave _ hgo rfl hterm rfl rfl rfl
  | swapping | detaching | joining | joinAt | sizing => simp [hpc, Pc.blocked] at hlock

/-- If none of the members that `Join` waits for is blocked, it comes back. -/
theorem exists_join_returns (hs : s.Inv) (hterm : s.terminated = false)
    (hpc : s.pc a = .joinAt i)
    (hfree : ∀ h ∈ s.awaited a i, s.exited h.id = true ∨ (s.pc h.id).blocked = false) :
    ∃ ls t, Machine.run step s ls = some t ∧ t.pc a = .idle := by
  have ha : s.running a = true := by
    cases hrun : s.running a with
    | true => rfl
    | false =>
        rw [hs.idle a hrun] at hpc
        cases hpc
  -- By induction on the number of threads that are left in the loop.
  generalize hn : s.threads.length - i = n
  induction n generalizing s i with
  | zero =>
      have hi : s.threads[i]? = none := List.getElem?_eq_none_iff.mpr (by omega)
      refine ⟨[.go a true], { s.goto a .idle with holder := none }, ?_, by simp⟩
      rw [Machine.run_cons, go_enabled hterm ha, next?, hpc]
      simp [joinNext, hi]
  | succ n ih =>
      have hlt : i < s.threads.length := by omega
      obtain ⟨h, hi⟩ : ∃ h, s.threads[i]? = some h := ⟨_, List.getElem?_eq_getElem hlt⟩
      by_cases hbad : h.joinable = false ∨ h.id = a
      · refine ⟨[.go a true], { s.throwing a with holder := none }, ?_, by simp [throwing]⟩
        rw [Machine.run_cons, go_enabled hterm ha, next?, hpc]
        rcases hbad with hbad | hbad <;> simp [joinNext, hi, hbad]
      · obtain ⟨hjoin, hother⟩ : h.joinable = true ∧ h.id ≠ a := by simpa using hbad
        have hcons := awaited_eq_cons hi hjoin hother
        -- First the member ends, if it has not ended yet.
        obtain ⟨ls, u, hrun, hthreads, hterm', hexit, hpc', hfree'⟩ :
            ∃ ls u, Machine.run step s ls = some u ∧ u.threads = s.threads ∧
              u.terminated = false ∧ u.exited h.id = true ∧ u.pc a = .joinAt i ∧
              ∀ x ∈ u.awaited a i, u.exited x.id = true ∨ (u.pc x.id).blocked = false := by
          by_cases hexit : s.exited h.id = true
          · exact ⟨[], s, rfl, rfl, hterm, hexit, hpc, hfree⟩
          · have hmem : h ∈ s.awaited a i := by rw [hcons]; exact List.mem_cons_self
            have hrunning : s.running h.id = true :=
              running_iff.mpr ⟨hs.members h (of_mem_awaited hmem).1, by simpa using hexit⟩
            obtain ⟨ls, u, hrun, hended⟩ :=
              exists_ended hterm hrunning ((hfree h hmem).resolve_left hexit)
            refine ⟨ls, u, hrun, hended.threads, hended.terminated.trans hterm, ?_, ?_, ?_⟩
            · rw [hended.exited, Function.update_self]
            · rw [hended.others a (Ne.symm hother), hpc]
            · intro x hx
              rw [awaited, hended.threads] at hx
              by_cases hxh : x.id = h.id
              · exact Or.inl (by rw [hended.exited, hxh, Function.update_self])
              · rw [hended.others _ hxh, hended.exited, Function.update_of_ne hxh]
                exact hfree x hx
        have hu : u.Inv := Machine.run_invariant Inv hs (fun _ _ _ hv hl => hv.step hl) hrun
        have hi' : u.threads[i]? = some h := by rw [hthreads, hi]
        -- Then it is joined.
        let v : State := { u.goto a (.joinAt (i + 1)) with
          threads := u.threads.set i { h with joinable := false } }
        have hau : u.running a = true := by
          cases hrun' : u.running a with
          | true => rfl
          | false =>
              rw [hu.idle a hrun'] at hpc'
              cases hpc'
        have hjoined : step u (.go a true) = some v := by
          rw [go_enabled hterm' hau, next?, hpc']
          simp [joinNext, hi', hjoin, hother, hexit, v]
        have hawaited : ∀ x ∈ v.awaited a (i + 1), x ∈ u.awaited a i := by
          intro x hx
          rw [awaited_of_set (s := u) (t := v) rfl] at hx
          rw [awaited_eq_cons hi' hjoin hother]
          exact List.mem_cons_of_mem _ hx
        obtain ⟨ls', w, hrun', hw⟩ := ih (s := v) (i := i + 1) (hu.step hjoined) hterm'
          (by simp [v]) (fun x hx => by
            have hxu := hawaited x hx
            have hxa := (of_mem_awaited hxu).2
            have hxfree := hfree' x hxu
            simpa [v, hxa] using hxfree) hau (by simp [v, hthreads]; omega)
        refine ⟨ls ++ .go a true :: ls', w, ?_, hw⟩
        rw [Machine.run_append, hrun, Option.bind_some, Machine.run_cons, hjoined,
          Option.bind_some, hrun']

/-- A `Join` that is under way can end exactly if no member that it still waits for is in a call
that cannot end before it. -/
theorem join_returns_iff {next : Nat} {ls : List Label}
    (hrun : Machine.run ThreadGroup.step (ThreadGroup.start next) ls = some s)
    (hterm : s.terminated = false) (hpc : s.pc a = .joinAt i) :
    (∃ ls' t, Machine.run ThreadGroup.step s ls' = some t ∧ t.pc a = .idle) ↔
      ∀ h ∈ s.awaited a i, s.exited h.id = true ∨ (s.pc h.id).blocked = false := by
  have hs := run_inv hrun
  refine ⟨fun ⟨ls', t, hrun', hidle⟩ h hh => ?_, exists_join_returns hs hterm hpc⟩
  by_contra hnot
  obtain ⟨hexit, hblocked⟩ : s.exited h.id = false ∧ (s.pc h.id).blocked = true := by
    simpa using hnot
  have hinv : t.Inv ∧ t.Deadlocked a :=
    Machine.run_invariant (fun u => u.Inv ∧ u.Deadlocked a)
      ⟨hs, i, hpc, h, hh, hexit, hblocked⟩
      (fun _ _ _ hu hl => ⟨hu.1.step hl, hu.2.step hu.1 hl⟩) hrun'
  obtain ⟨j, hj, -⟩ := hinv.2
  rw [hidle] at hj
  cases hj

/-- The only member asks for the size of the group while it is joined. -/
def sizeInJoin : List Label :=
  [.call 0 (.start 1#32), .go 0 true, .go 0 true, .go 0 true, .go 0 true, .call 0 .join,
    .go 0 true, .call 1 .size]

def inSizeInJoin : State :=
  (Machine.run ThreadGroup.step (ThreadGroup.start 1) sizeInJoin).get (by decide)

theorem join_returns_sizeInJoin :
    ¬ ∃ ls t, Machine.run ThreadGroup.step inSizeInJoin ls = some t ∧ t.pc 0 = .idle := by
  have hiff := join_returns_iff (s := inSizeInJoin) (a := 0) (i := 0)
    (Option.some_get _).symm (by decide) (by decide)
  intro hreturns
  exact absurd (hiff.mp hreturns ⟨1, true⟩ (by decide)) (by decide)

end State

end XfUtil.ThreadGroup
