import XfUtil.Base.Machine
import XfUtil.Base.Ownership
import XfUtil.File.Copy

/-!
# Programs with several `File` objects

A step is a call of a member function, and the objects come and go. Each descriptor in
use was in use before, belongs to one object, or has been lost: `Open` does not close
the file that its object has open, and its descriptor is never closed after that.
-/

namespace XfUtil.File

open FlatMemory OpenFiles Ownership

structure Program (ι : Type*) where
  kernel : Kernel ι Byte
  /-- The objects that have been constructed and not destroyed. -/
  objects : Nat → Option File
  /-- Ghost: descriptors that `Open` has replaced. -/
  lost : List Nat

inductive Call where
  | construct (x : Nat)
  | «open» (x : Nat) (path : FilePath) (flags : BitVec 32) (a : Answer)
  | read (x size : Nat) (valid : Bool) (as : List Answer)
  | write (x : Nat) (data : List Byte) (as : List Answer)
  | close (x : Nat)
  /-- `File dst(std::move(src))`. -/
  | move (src dst : Nat)
  | destroy (x : Nat)
deriving DecidableEq

namespace Program

variable {ι : Type*}

def start (k : Kernel ι Byte) : Program ι := ⟨k, fun _ => none, []⟩

/-- The descriptor that an object holds. -/
def held (p : Program ι) (x : Nat) : Option Nat := (p.objects x).bind File.fid

def setObject (p : Program ι) (x : Nat) (f : Option File) : Program ι :=
  { p with objects := Function.update p.objects x f }

variable [DecidableEq ι]

/-- The call on an object that is there; constructors need one that is not. -/
def step (resolve : FilePath → ι) : Machine.Step (Program ι) Call
  | p, .construct x =>
      match p.objects x with
      | none => some (p.setObject x (some File.new))
      | some _ => none
  | p, .open x path flags a =>
      (p.objects x).map fun f =>
        let r := File.open resolve path flags p.kernel a
        { p.setObject x (some r.1) with kernel := r.2, lost := f.fid.toList ++ p.lost }
  | p, .read x size valid as =>
      (p.objects x).bind fun f =>
        (f.read size valid p.kernel as).map fun r => { p with kernel := r.2.1 }
  | p, .write x data as =>
      (p.objects x).bind fun f =>
        (f.write data p.kernel as).map fun r => { p with kernel := r.2.1 }
  | p, .close x =>
      (p.objects x).map fun f =>
        { p.setObject x (some f.closed) with kernel := f.close p.kernel }
  | p, .move src dst =>
      match p.objects src, p.objects dst with
      | some f, none => some ((p.setObject src (some f.closed)).setObject dst (some f))
      | _, _ => none
  | p, .destroy x =>
      (p.objects x).map fun f => { p.setObject x none with kernel := f.close p.kernel }

end Program

/-! ## Who holds what -/

inductive Holder where
  /-- What was in use before the program. -/
  | before
  | lost
  | object (x : Nat)
deriving DecidableEq

namespace Program

variable {ι : Type*} {k₀ : Kernel ι Byte} {p q : Program ι}

def holdings (k₀ : Kernel ι Byte) (p : Program ι) : Holder → List Nat
  | .before => k₀.inUse
  | .lost => p.lost
  | .object x => (p.held x).toList

/-- Every descriptor in use has one holder. -/
def Accounted (k₀ : Kernel ι Byte) (p : Program ι) : Prop :=
  Owned p.kernel.inUse (p.holdings k₀)

theorem held_setObject (p : Program ι) (x y : Nat) (f : Option File) :
    (p.setObject x f).held y = if y = x then f.bind File.fid else p.held y := by
  unfold held setObject
  by_cases h : y = x
  · simp [h]
  · simp [h]

/-- The holdings of a program, with those of one object replaced. -/
theorem holdings_setObject (k₀ : Kernel ι Byte) (p : Program ι) (x : Nat) (f : Option File) :
    (p.setObject x f).holdings k₀ =
      Function.update (p.holdings k₀) (.object x) (f.bind File.fid).toList := by
  funext h
  cases h with
  | before => rfl
  | lost => rfl
  | object y =>
      rw [holdings, held_setObject]
      by_cases hy : y = x
      · subst hy
        simp
      · have hne : Holder.object y ≠ Holder.object x := by simpa using hy
        rw [if_neg hy, Function.update_of_ne hne]
        rfl

theorem holdings_of_object (k₀ : Kernel ι Byte) {x : Nat} {f : File} (hx : p.objects x = some f) :
    p.holdings k₀ (.object x) = f.fid.toList := by
  simp [holdings, held, hx]

theorem mem_holdings_object {x fd : Nat} :
    fd ∈ p.holdings k₀ (.object x) ↔ p.held x = some fd := by
  simp [holdings]

theorem holdings_lose (k₀ k : Kernel ι Byte) (p : Program ι) (x : Nat) (f : Option File)
    (lost : List Nat) :
    ({ p.setObject x f with kernel := k, lost := lost } : Program ι).holdings k₀ =
      Function.update (Function.update (p.holdings k₀) .lost lost) (.object x)
        (f.bind File.fid).toList := by
  have hne : Holder.lost ≠ Holder.object x := by simp
  rw [Function.update_comm hne, ← holdings_setObject]
  funext h
  cases h with
  | before => rfl
  | lost => rfl
  | object y => rfl

theorem start_accounted (k₀ : Kernel ι Byte) : (start k₀).Accounted k₀ := by
  refine ⟨fun h => ?_, fun h h' b hb hb' => ?_, fun b => ?_⟩
  · cases h with
    | before => exact (List.nodup_range).filter _
    | lost => exact List.nodup_nil
    | object x => exact List.nodup_nil
  · cases h with
    | before =>
        cases h' with
        | before => rfl
        | lost => simp [holdings, start] at hb'
        | object y => simp [holdings, start, held] at hb'
    | lost => simp [holdings, start] at hb
    | object y => simp [holdings, start, held] at hb
  · constructor
    · exact fun hb => ⟨.before, hb⟩
    · rintro ⟨h, hb⟩
      cases h with
      | before => exact hb
      | lost => simp [holdings, start] at hb
      | object y => simp [holdings, start, held] at hb

/-- A descriptor that an object loses goes over to the lost ones. -/
theorem Accounted.lose (hp : p.Accounted k₀) {x : Nat} {f : File} (hx : p.objects x = some f) :
    Owned p.kernel.inUse (Function.update (Function.update (p.holdings k₀) .lost
      (f.fid.toList ++ p.lost)) (.object x) []) := by
  have hne : Holder.object x ≠ Holder.lost := by simp
  have hx' := holdings_of_object k₀ hx
  rw [Function.update_comm hne.symm]
  cases hfid : f.fid with
  | none =>
      rw [hfid] at hx'
      have hsame : Function.update (p.holdings k₀) (.object x) [] = p.holdings k₀ := by
        rw [show ([] : List Nat) = p.holdings k₀ (.object x) from hx'.symm,
          Function.update_eq_self]
      have hlost : Function.update (p.holdings k₀) .lost p.lost = p.holdings k₀ :=
        Function.update_eq_self (f := p.holdings k₀) (a := Holder.lost)
      rw [hsame, Option.toList_none, List.nil_append, hlost]
      exact hp
  | some fd =>
      rw [hfid] at hx'
      exact Owned.handOver hp hne (by rw [hx']; rfl) (List.Perm.refl _)

/-- The object gives back what it holds. -/
theorem Accounted.release (hp : p.Accounted k₀) {x : Nat} {f : File} (hx : p.objects x = some f)
    {g : Option File} (hg : g.bind File.fid = none) :
    ({ p.setObject x g with kernel := f.close p.kernel } : Program ι).Accounted k₀ := by
  show Owned (f.close p.kernel).inUse ((p.setObject x g).holdings k₀)
  rw [holdings_setObject, hg, Option.toList_none]
  have hx' := holdings_of_object k₀ hx
  cases hfid : f.fid with
  | none =>
      rw [hfid] at hx'
      have hsame : Function.update (p.holdings k₀) (.object x) [] = p.holdings k₀ := by
        rw [show ([] : List Nat) = p.holdings k₀ (.object x) from hx'.symm,
          Function.update_eq_self]
      rw [hsame, File.close, hfid]
      exact hp
  | some fd =>
      rw [hfid] at hx'
      apply Owned.giveBack (b := fd) hp (by rw [hx']; rfl)
      intro c
      rw [File.close, hfid]
      exact Kernel.mem_inUse_close

theorem Accounted.of_inUse {k : Kernel ι Byte} (hp : p.Accounted k₀)
    (hk : ∀ n, n ∈ k.inUse ↔ n ∈ p.kernel.inUse) :
    ({ p with kernel := k } : Program ι).Accounted k₀ :=
  Owned.of_mem_iff hp hk

theorem Accounted.inUse_iff (hp : p.Accounted k₀) (fd : Nat) :
    fd ∈ p.kernel.inUse ↔ fd ∈ k₀.inUse ∨ fd ∈ p.lost ∨ ∃ x, p.held x = some fd := by
  rw [hp.live]
  constructor
  · rintro ⟨h, hfd⟩
    cases h with
    | before => exact Or.inl hfd
    | lost => exact Or.inr (Or.inl hfd)
    | object x => exact Or.inr (Or.inr ⟨x, mem_holdings_object.mp hfd⟩)
  · rintro (hfd | hfd | ⟨x, hx⟩)
    · exact ⟨.before, hfd⟩
    · exact ⟨.lost, hfd⟩
    · exact ⟨.object x, mem_holdings_object.mpr hx⟩

theorem Accounted.not_before (hp : p.Accounted k₀) {x fd : Nat} (hx : p.held x = some fd) :
    fd ∉ k₀.inUse := by
  intro hfd
  have heq := hp.disjoint (.object x) .before fd (mem_holdings_object.mpr hx) hfd
  cases heq

theorem Accounted.not_lost (hp : p.Accounted k₀) {x fd : Nat} (hx : p.held x = some fd) :
    fd ∉ p.lost := by
  intro hfd
  have heq := hp.disjoint (.object x) .lost fd (mem_holdings_object.mpr hx) hfd
  cases heq

theorem Accounted.lost_not_before (hp : p.Accounted k₀) {fd : Nat} (hfd : fd ∈ p.lost) :
    fd ∉ k₀.inUse := by
  intro hfd'
  have heq := hp.disjoint .lost .before fd hfd hfd'
  cases heq

variable [DecidableEq ι] {resolve : FilePath → ι} {l : Call}

theorem mem_inUse_opened {i : ι} {flags : BitVec 32} {fd : Nat} {k k' : Kernel ι Byte}
    (ho : Opened i flags fd k k') {n : Nat} : n ∈ k'.inUse ↔ n ∈ fd :: k.inUse := by
  rw [Kernel.mem_inUse, List.mem_cons, Kernel.mem_inUse]
  by_cases hn : n = fd
  · subst hn
    simp [ho.own]
  · rw [ho.others (some n) (by simpa using hn)]
    simp [hn]

theorem Accounted.opens (hp : p.Accounted k₀) {x : Nat} {f : File} (hx : p.objects x = some f)
    (path : FilePath) (flags : BitVec 32) (a : Answer) :
    ({ p.setObject x (some (File.open resolve path flags p.kernel a).1) with
      kernel := (File.open resolve path flags p.kernel a).2
      lost := f.fid.toList ++ p.lost } : Program ι).Accounted k₀ := by
  have hlose := hp.lose hx
  cases hopen : File.open resolve path flags p.kernel a with
  | mk g k =>
      rw [Accounted, holdings_lose]
      rcases open_eq hopen with ⟨hfid, rfl⟩ | ⟨fd, hfid, ho⟩
      · simpa [hfid] using hlose
      · have hfresh : fd ∉ p.kernel.inUse := fun h => Kernel.mem_inUse.mp h ho.fresh
        have htake : Owned (fd :: p.kernel.inUse) (Function.update (Function.update
            (Function.update (p.holdings k₀) .lost (f.fid.toList ++ p.lost)) (.object x) [])
            (.object x) [fd]) :=
          hlose.take hfresh (by rw [Function.update_self])
        rw [Function.update_idem] at htake
        have htaken := htake.of_mem_iff fun _ => mem_inUse_opened ho
        simpa [hfid] using htaken

/-- Every call keeps the account. -/
theorem Accounted.step (hp : p.Accounted k₀) (h : step resolve p l = some q) :
    q.Accounted k₀ := by
  cases l with
  | construct x =>
      rw [Program.step] at h
      cases hx : p.objects x with
      | some f => simp [hx] at h
      | none =>
          rw [hx] at h
          obtain rfl := Option.some.inj h
          have hx' : p.holdings k₀ (.object x) = [] := by simp [holdings, held, hx]
          rw [Accounted, holdings_setObject]
          have hsame : Function.update (p.holdings k₀) (.object x)
              ((some File.new).bind File.fid).toList = p.holdings k₀ :=
            Function.update_eq_iff.mpr ⟨hx'.symm, fun _ _ => rfl⟩
          rw [hsame]
          exact hp
  | «open» x path flags a =>
      obtain ⟨f, hx, rfl⟩ := Option.map_eq_some_iff.mp h
      exact hp.opens hx path flags a
  | read x size valid as =>
      obtain ⟨f, -, h⟩ := Option.bind_eq_some_iff.mp h
      obtain ⟨⟨r, k, rest⟩, hread, rfl⟩ := Option.map_eq_some_iff.mp h
      obtain ⟨-, a, -, -, hcall⟩ := (Kernel.read_restartable f.fid size valid).retry_eq_some hread
      exact hp.of_inUse fun _ => Kernel.read_inUse hcall
  | write x data as =>
      obtain ⟨f, -, h⟩ := Option.bind_eq_some_iff.mp h
      obtain ⟨⟨r, k, rest⟩, hwrite, rfl⟩ := Option.map_eq_some_iff.mp h
      obtain ⟨-, a, -, -, hcall⟩ := (Kernel.write_restartable f.fid data).retry_eq_some hwrite
      exact hp.of_inUse fun _ => Kernel.write_inUse hcall
  | close x =>
      obtain ⟨f, hx, rfl⟩ := Option.map_eq_some_iff.mp h
      exact hp.release hx rfl
  | move src dst =>
      rw [Program.step] at h
      cases hsrc : p.objects src with
      | none => simp [hsrc] at h
      | some f =>
          cases hdst : p.objects dst with
          | some g => simp [hsrc, hdst] at h
          | none =>
              rw [hsrc, hdst] at h
              obtain rfl := Option.some.inj h
              have hne : Holder.object src ≠ Holder.object dst := by
                intro heq
                cases heq
                rw [hsrc] at hdst
                cases hdst
              have hsrc' := holdings_of_object k₀ hsrc
              have hdst' : p.holdings k₀ (.object dst) = [] := by simp [holdings, held, hdst]
              show Owned p.kernel.inUse
                (((p.setObject src (some f.closed)).setObject dst (some f)).holdings k₀)
              rw [holdings_setObject, holdings_setObject]
              cases hfid : f.fid with
              | none =>
                  rw [hfid] at hsrc'
                  have hsame : Function.update (Function.update (p.holdings k₀) (.object src) [])
                      (.object dst) [] = p.holdings k₀ := by
                    apply Function.update_eq_iff.mpr
                    refine ⟨hdst'.symm, fun h _ => ?_⟩
                    exact congrFun (Function.update_eq_iff.mpr ⟨hsrc'.symm, fun _ _ => rfl⟩) h
                  have hp' : Owned p.kernel.inUse (p.holdings k₀) := hp
                  simpa [hfid, File.closed, hsame] using hp'
              | some fd =>
                  rw [hfid] at hsrc'
                  have hover : Owned p.kernel.inUse (Function.update (Function.update
                      (p.holdings k₀) (.object src) []) (.object dst) [fd]) :=
                    Owned.handOver hp hne (by rw [hsrc']; rfl) (by rw [hdst'])
                  simpa [hfid, File.closed] using hover
  | destroy x =>
      obtain ⟨f, hx, rfl⟩ := Option.map_eq_some_iff.mp h
      exact hp.release hx rfl

/-! ## Runs -/

theorem run_accounted {ls : List Call}
    (hrun : Machine.run (Program.step resolve) (start k₀) ls = some p) : p.Accounted k₀ :=
  Machine.run_invariant (Accounted k₀) (start_accounted k₀) (fun _ _ _ hp h => hp.step h) hrun

/-- `Open` is called on an object that has no file open. -/
def OpensClosed (p : Program ι) : Call → Prop
  | .open x _ _ _ => p.held x = none
  | _ => True

theorem step_lost (h : step resolve p l = some q) :
    ∃ fds, q.lost = fds ++ p.lost ∧ (fds = [] ↔ OpensClosed p l) := by
  cases l with
  | «open» x path flags a =>
      obtain ⟨f, hx, rfl⟩ := Option.map_eq_some_iff.mp h
      refine ⟨f.fid.toList, rfl, ?_⟩
      simp [OpensClosed, held, hx]
  | construct x =>
      rw [step] at h
      split at h
      · obtain rfl := Option.some.inj h
        exact ⟨[], rfl, by simp [OpensClosed]⟩
      · cases h
  | move src dst =>
      rw [step] at h
      split at h
      · obtain rfl := Option.some.inj h
        exact ⟨[], rfl, by simp [OpensClosed]⟩
      · cases h
  | read x size valid as =>
      obtain ⟨f, -, h⟩ := Option.bind_eq_some_iff.mp h
      obtain ⟨r, -, rfl⟩ := Option.map_eq_some_iff.mp h
      exact ⟨[], rfl, by simp [OpensClosed]⟩
  | write x data as =>
      obtain ⟨f, -, h⟩ := Option.bind_eq_some_iff.mp h
      obtain ⟨r, -, rfl⟩ := Option.map_eq_some_iff.mp h
      exact ⟨[], rfl, by simp [OpensClosed]⟩
  | close x =>
      obtain ⟨f, -, rfl⟩ := Option.map_eq_some_iff.mp h
      exact ⟨[], rfl, by simp [OpensClosed]⟩
  | destroy x =>
      obtain ⟨f, -, rfl⟩ := Option.map_eq_some_iff.mp h
      exact ⟨[], rfl, by simp [OpensClosed]⟩

theorem run_lost {ls : List Call}
    (hrun : Machine.run (Program.step resolve) (start k₀) ls = some p) :
    p.lost = [] ↔ Machine.StepsMeet (step resolve) OpensClosed (start k₀) ls := by
  induction ls using List.reverseRecOn generalizing p with
  | nil =>
      cases hrun
      exact ⟨fun _ => Machine.StepsMeet.nil _ _ _, fun _ => rfl⟩
  | append_singleton ls l ih =>
      obtain ⟨q, hq, hl⟩ := Machine.run_snoc_eq_some hrun
      obtain ⟨fds, hlost, hfds⟩ := step_lost hl
      rw [Machine.stepsMeet_snoc, ← ih hq, hlost, List.append_eq_nil_iff, hfds]
      constructor
      · rintro ⟨hmeet, hq'⟩
        exact ⟨hq', fun t ht => Option.some.inj (hq.symm.trans ht) ▸ hmeet⟩
      · rintro ⟨hq', hmeet⟩
        exact ⟨hmeet q hq, hq'⟩

/-- Whatever has been called, a descriptor in use was in use before, or has been lost, or
belongs to an object; it belongs to one object only and is none of the others. -/
theorem run_inUse {ls : List Call}
    (hrun : Machine.run (Program.step resolve) (start k₀) ls = some p) :
    (∀ fd, fd ∈ p.kernel.inUse ↔ fd ∈ k₀.inUse ∨ fd ∈ p.lost ∨ ∃ x, p.held x = some fd) ∧
      (∀ x y fd, p.held x = some fd → p.held y = some fd → x = y) ∧
      (∀ x fd, p.held x = some fd → fd ∉ k₀.inUse ∧ fd ∉ p.lost) ∧
      ∀ fd ∈ p.lost, fd ∉ k₀.inUse := by
  have hp := run_accounted hrun
  refine ⟨hp.inUse_iff, fun x y fd hx hy => ?_, fun x fd hx => ⟨hp.not_before hx, hp.not_lost hx⟩,
    fun fd hfd => hp.lost_not_before hfd⟩
  have heq := hp.disjoint _ _ fd (mem_holdings_object.mpr hx) (mem_holdings_object.mpr hy)
  simpa using heq

/-- An object opens the file twice, and hands what it has over to another object. -/
def openedTwice : Program Nat :=
  ((Machine.run (Program.step List.length) (start threeBytes)
    [.construct 0, .open 0 [0x61#8] ofReadonly (.count 0), .open 0 [0x61#8] ofReadonly (.count 0),
      .move 0 1, .destroy 0]).get (by decide))

theorem run_inUse_openedTwice : openedTwice.held 1 = some 1 ∧ 1 ∉ openedTwice.lost :=
  ⟨by decide, ((run_inUse (Option.some_get _).symm).2.2.1 1 1 (by decide)).2⟩

/-- Exactly the runs in which `Open` is never called on an object with a file open leave no
descriptor behind that no object closes. -/
theorem run_leaves_nothing_iff {ls : List Call}
    (hrun : Machine.run (Program.step resolve) (start k₀) ls = some p) :
    (∀ fd ∈ p.kernel.inUse, fd ∈ k₀.inUse ∨ ∃ x, p.held x = some fd) ↔
      Machine.StepsMeet (step resolve) OpensClosed (start k₀) ls := by
  have hp := run_accounted hrun
  rw [← run_lost hrun]
  constructor
  · intro h
    apply List.eq_nil_iff_forall_not_mem.mpr
    intro fd hfd
    rcases h fd ((hp.inUse_iff fd).mpr (Or.inr (Or.inl hfd))) with hbefore | ⟨x, hx⟩
    · exact hp.lost_not_before hfd hbefore
    · exact hp.not_lost hx hfd
  · intro hnil fd hfd
    rcases (hp.inUse_iff fd).mp hfd with hbefore | hmem | hx
    · exact Or.inl hbefore
    · simp [hnil] at hmem
    · exact Or.inr hx

theorem run_leaves_nothing_openedTwice :
    (∀ fd ∈ openedTwice.kernel.inUse, fd ∈ threeBytes.inUse ∨ ∃ x, openedTwice.held x = some fd) ↔
      Machine.StepsMeet (step List.length) OpensClosed (start threeBytes)
        [.construct 0, .open 0 [0x61#8] ofReadonly (.count 0),
          .open 0 [0x61#8] ofReadonly (.count 0), .move 0 1, .destroy 0] :=
  run_leaves_nothing_iff (Option.some_get _).symm

end Program

end XfUtil.File
