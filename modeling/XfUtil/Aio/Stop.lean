import XfUtil.Aio.Drain
import Mathlib.Data.Fintype.Basic

/-!
# Stopping the AIO

Two conditions on the steps of a run. `Timely`: nothing is pushed to a queue
after its last end marker. `Orderly`: `Stop` is called while no call of `Submit`
is in progress, which makes a run timely. Under either, nothing is lost.
-/

namespace XfUtil.Aio

/-- The queue a thread inside `Submit` is about to push to. -/
def Submitter.queue : Submitter → Option QueueId
  | .chosen _ _ queue => some queue
  | .idle | .loop _ _ => none

/-- The thread number `Start` is about to use. -/
def Control.threadnum : Control → Option (BitVec 32)
  | .startIo ioThreadnum _ => some ioThreadnum
  | .startPio pioThreadnum => some pioThreadnum
  | _ => none

namespace State

variable {Tid : Type*} {s s' : State Tid}

/-! ## Timely pushes -/

/-- What holds along a run in which every push finds its queue open. -/
structure Kept (s : State Tid) : Prop where
  drains : s.Drains
  dropped : s.log.dropped = []
  noFault : s.fault ≠ some .deletedQueue
  returned : ∀ id r, (id, r) ∈ s.log.returned → ∃ req, s.requests[r]? = some req

theorem start_kept : (start Tid).Kept :=
  ⟨start_drains, rfl, by simp [start], by simp [start, Log.empty]⟩

theorem markers_of_deleted (hd : s.IoDeleted) (idx : Nat) : s.markers (.io idx) = 1 := by
  unfold IoDeleted at hd
  cases hc : s.control <;> simp_all [markers]

theorem access_open (hp : s.Phases) {queue : QueueId} (hopen : s.Open queue) :
    ∃ q, s.access queue = .ok q := by
  cases queue with
  | pio => exact ⟨_, rfl⟩
  | io idx =>
      have hlt : s.markers (.io idx) < (s.crew (.io idx)).length := hopen
      have hi : idx < s.ioThreadGroup.length := by
        by_contra hge
        simp [crew, hge] at hlt
      refine hp.access_stopIo hi fun hqs => ?_
      rw [markers_of_deleted (hp.ioDeleted.mpr hqs)] at hlt
      simp [crew, hi] at hlt

/-- After the join of the io threads, their queues are empty. -/
theorem Drains.ioQueues_empty (h : s.Drains) (hp : s.Phases) (hj : s.IoJoined)
    {queues : List (BlockingQueue (Option RequestEx))} (hqs : s.ioRequestQueues = some queues) :
    ∀ q ∈ queues, q.queue = [] := by
  intro q hq
  obtain ⟨idx, hidx⟩ := List.mem_iff_getElem?.mp hq
  have haccess : s.access (.io idx) = .ok q := by simp [access, hqs, hidx]
  apply (h (.io idx) q haccess).drained
  apply List.countP_eq_length.mpr
  intro wk hwk
  have hmem : wk ∈ s.ioThreadGroup := by
    simp only [crew, Option.mem_toList] at hwk
    exact List.mem_of_getElem? hwk
  simpa using hp.ioJoined hj wk hmem

theorem Drains.pioQueue_empty (h : s.Drains) (hp : s.Phases) (hj : s.PioJoined) :
    s.pioRequestQueue.queue = [] := by
  apply (h .pio s.pioRequestQueue rfl).drained
  apply List.countP_eq_length.mpr
  intro wk hwk
  simpa using hp.pioJoined hj wk hwk

variable [DecidableEq Tid]

theorem Kept.move (h : s.Kept) (hinv : s.Inv) {l : Label Tid} (hm : s.Move l s')
    (hopen : ∀ t cmds e queue, l = .advance t → s.submitters t = .chosen cmds e queue →
      s.Open queue) : s'.Kept := by
  have hp := hinv.phases
  have hdrains := h.drains.move hp hm hopen
  have hgrow := hm.grows
  have hreturned : ∀ id r, (id, r) ∈ s.log.returned → ∃ req, s'.requests[r]? = some req := by
    intro id r hr
    obtain ⟨req, hreq⟩ := h.returned id r hr
    obtain ⟨req', hreq', -⟩ := hgrow r req hreq
    exact ⟨req', hreq'⟩
  cases hm with
  | divide => exact ⟨hdrains, h.dropped, by simp [fail], hreturned⟩
  | @strayPush t cmds e queue f hpc hf =>
      obtain ⟨q, hq⟩ := access_open hp (hopen t cmds e queue rfl hpc)
      rw [hq] at hf
      cases hf
  | @strayEmpty i f cpuNum hpc hi hf =>
      have hqs : s.ioRequestQueues ≠ none := fun hqs => by
        have hd := hp.ioDeleted.mpr hqs
        simp [IoDeleted, hpc] at hd
      obtain ⟨q, hq⟩ := hp.access_stopIo hi hqs
      rw [hq] at hf
      cases hf
  | @strayPop w wk f answer hw hpc hf =>
      obtain ⟨q, hq⟩ := hp.access_worker hw (by simp [hpc])
      rw [hq] at hf
      cases hf
  | deleteIo hpc =>
      refine ⟨hdrains, ?_, h.noFault, hreturned⟩
      show s.log.dropped ++ _ = []
      rw [h.dropped, List.nil_append, List.flatMap_eq_nil_iff]
      intro q hq
      cases hqs : s.ioRequestQueues with
      | none => simp [hqs] at hq
      | some queues =>
          rw [hqs] at hq
          exact h.drains.ioQueues_empty hp (by simp [IoJoined, hpc]) hqs q hq
  | @submitted t cmds e hpc hend =>
      refine ⟨hdrains, h.dropped, h.noFault, fun id r hr => ?_⟩
      rcases List.mem_append.mp hr with hr | hr
      · exact hreturned id r hr
      · cases List.mem_singleton.mp hr
        obtain ⟨req, hreq, -⟩ := hinv.copies.copied t cmds e (by rw [hpc]; rfl)
        exact ⟨req, hreq⟩
  | _ => exact ⟨hdrains, h.dropped, h.noFault, hreturned⟩

/-! ## When everything has come to rest -/

omit [DecidableEq Tid] in
/-- `Stop` and all calls of `Submit` have returned: every command has been processed. -/
theorem Kept.done (h : s.Kept) (hinv : s.Inv) (hstop : s.state = .stopped)
    (hidle : ∀ t, s.submitters t = .idle) {r : Nat} {req : Request}
    (hreq : s.requests[r]? = some req) {i : Nat} (hi : i < req.cmds.length) :
    s.log.life ⟨r, i⟩ = .done := by
  have hp := hinv.phases
  have hcontrol := hp.idle (Or.inl hstop)
  have hagree := hinv.sound.placed.agree ⟨r, i⟩
  cases hlife : s.log.life ⟨r, i⟩ with
  | done => rfl
  | unsent =>
      have hsize : s.board.sizes[r]? = some req.cmds.length := by simp [State.board, hreq]
      obtain ⟨t, e, he, -⟩ := hinv.sound.sent.complete r _ i hsize hi hlife
      simp [State.board, hidle t, Submitter.call] at he
  | queued queue =>
      have hat : (⟨r, i⟩ : RequestEx) ∈ s.jobs queue := (hagree _).mp hlife
      cases queue with
      | io idx =>
          have hnone := hp.ioDeleted.mp (by simp [IoDeleted, hcontrol, hstop])
          simp [jobs, access, hnone] at hat
      | pio =>
          have hempty := h.drains.pioQueue_empty hp (by simp [PioJoined, hcontrol, hstop])
          rw [jobs_of_access (q := s.pioRequestQueue) rfl, hempty] at hat
          cases hat
  | held w stage =>
      have hat : s.job w = some (⟨r, i⟩, stage) := (hagree _).mp hlife
      have hjob : s.job w = none := job_exited fun wk hw => by
        cases w with
        | io index =>
            exact hp.ioJoined (by simp [IoJoined, hcontrol, hstop]) wk (Phases.mem_io hw)
        | pio index =>
            exact hp.pioJoined (by simp [PioJoined, hcontrol, hstop]) wk (Phases.mem_pio hw)
      rw [hjob] at hat
      cases hat
  | lost =>
      have hat : (⟨r, i⟩ : RequestEx) ∈ s.log.dropped.reduceOption := (hagree _).mp hlife
      rw [h.dropped] at hat
      cases hat

omit [DecidableEq Tid] in
theorem Inv.count_finished (h : s.Inv) {e : RequestEx} (hdone : s.log.life e = .done) :
    s.log.finished.count e = 1 :=
  List.count_eq_one_of_mem h.sound.placed.doneOnce ((h.sound.placed.agree e .done).mp hdone)

/-! ## Submitting while `Stop` runs -/

/-- What a caller of `Submit` may hope for, whoever calls `Stop`. -/
def Lossless (s : State Tid) : Prop :=
  s.fault ≠ some .deletedQueue ∧
    (s.state = .stopped → (∀ t, s.submitters t = .idle) →
      ∀ id r, (id, r) ∈ s.log.returned → id ≠ 0 →
        ∃ req, s.requests[r]? = some req ∧ (req.cmds ≠ [] →
          (∀ i < req.cmds.length, s.log.finished.count ⟨r, i⟩ = 1) ∧
            (s.callbacksOf r).length = 1))

/-- A push finds its queue open, and a request has no more commands than its
32-bit counter can tell apart. -/
def Timely (s : State Tid) : Label Tid → Prop
  | .submit _ cmds _ _ _ => cmds.length ≤ 2 ^ 32
  | .advance t => ∀ queue ∈ (s.submitters t).queue, s.Open queue
  | _ => True

instance (s : State Tid) (l : Label Tid) : Decidable (s.Timely l) :=
  match l with
  | .submit _ cmds _ _ _ => inferInstanceAs (Decidable (cmds.length ≤ 2 ^ 32))
  | .advance t =>
      decidable_of_iff ((s.submitters t).queue.all fun queue => decide (s.Open queue))
        (by cases hq : (s.submitters t).queue <;> simp [Timely, hq])
  | .start _ _ | .stop | .control _ | .worker _ _ => inferInstanceAs (Decidable True)

/-- No request is too large for its counters. -/
def Small (s : State Tid) : Prop := ∀ req ∈ s.requests, req.cmds.length ≤ 2 ^ 32

theorem Small.move (h : s.Small) {l : Label Tid} (hm : s.Move l s') (htimely : s.Timely l) :
    s'.Small := by
  have hset : ∀ {r : Nat} {old new : Request}, s.requests[r]? = some old →
      new.targets = old.targets → ∀ req ∈ s.requests.set r new, req.cmds.length ≤ 2 ^ 32 := by
    intro r old new hold htargets req hmem
    rcases List.mem_or_eq_of_mem_set hmem with hmem | rfl
    · exact h req hmem
    · rw [Request.length_of_targets htargets]
      exact h old (List.mem_of_getElem? hold)
  cases hm with
  | accept hpc hs =>
      intro req hmem
      rcases List.mem_append.mp hmem with hmem | hmem
      · exact h req hmem
      · obtain rfl := List.mem_singleton.mp hmem
        exact htimely
  | execute hw hpc hreq hcmd => exact hset hreq (Request.targets_storeRet ..)
  | countFail hw hpc hreq => exact hset hreq (Request.targets_storeError ..)
  | countDone hw hpc hreq => exact hset hreq rfl
  | _ => exact h

/-- In a run whose pushes are all timely nothing is lost, whatever races with what. -/
theorem lossless_of_timely {ls : List (Label Tid)}
    (hrun : Machine.run step (start Tid) ls = some s)
    (htimely : Machine.StepsMeet step Timely (start Tid) ls) : s.Lossless := by
  obtain ⟨hinv, hcompleting, hkept, hsmall⟩ : s.Inv ∧ s.Completing ∧ s.Kept ∧ s.Small := by
    refine Machine.run_invariant_of_stepsMeet
      (fun s => s.Inv ∧ s.Completing ∧ s.Kept ∧ s.Small)
      ⟨start_inv, start_completing, start_kept, by simp [Small, start]⟩ ?_ htimely hrun
    rintro t l u ⟨hinv, hcompleting, hkept, hsmall⟩ hl hstep
    have hm := step_move hstep
    refine ⟨hinv.move hm, hcompleting.move hinv hm, hkept.move hinv hm ?_, hsmall.move hm hl⟩
    rintro t' cmds e queue rfl hpc
    exact hl queue (by rw [hpc]; rfl)
  refine ⟨hkept.noFault, fun hstop hidle id r hr _ => ?_⟩
  obtain ⟨req, hreq⟩ := hkept.returned id r hr
  refine ⟨req, hreq, fun hne => ?_⟩
  have hdone : ∀ i < req.cmds.length, s.log.life ⟨r, i⟩ = .done := fun i hi =>
    hkept.done hinv hstop hidle hreq hi
  refine ⟨fun i hi => hinv.count_finished (hdone i hi), ?_⟩
  apply (hcompleting.counted r req hreq).tallied.report_of_done (List.length_pos_iff.mpr hne)
    (hsmall req (List.mem_of_getElem? hreq))
  intro i hi
  rw [view, hdone i hi]
  rfl

/-- `Stop` is called before the workers have got to everything. -/
def startToStop : List (Label Unit) :=
  let io := Label.worker (.io 0) (8, 0)
  let pio := Label.worker (.pio 1) (-1, 5)
  let pio' := Label.worker (.pio 0) (0, 0)
  [.start 1 2, .control 4, .control 4, .control 4, .submit () writeThenRead 1 2 100,
    .advance (), .advance (), io, io, .advance (), .advance (), .advance (), pio, .stop, pio,
    .control 4, io, io, io, pio, pio, .control 4, .control 4, .control 4, pio', .control 4,
    pio, pio, .control 4, .control 4]

theorem lossless_of_timely_example : ∃ s : State Unit,
    Machine.run step (start Unit) startToStop = some s ∧ s.state = .stopped ∧
      s.log.returned = [(1, 0)] ∧ s.Lossless := by
  obtain ⟨s, hs, hstop, hreturned⟩ : ∃ s : State Unit,
      Machine.run step (start Unit) startToStop = some s ∧ s.state = .stopped ∧
        s.log.returned = [(1, 0)] :=
    ⟨_, rfl, rfl, rfl⟩
  have htimely : Machine.StepsMeet step Timely (start Unit) startToStop :=
    .of_meets (by decide +kernel)
  exact ⟨s, hs, hstop, hreturned, lossless_of_timely hs htimely⟩

/-- `Submit` has chosen its queue when `Stop` deletes it. -/
def pushAfterDelete : List (Label Unit) :=
  let io := Label.worker (.io 0) (8, 0)
  [.start 1 1, .control 4, .control 4, .control 4, .submit () writeThenRead 1 2 100,
    .advance (), .stop, .control 4, io, .control 4, .control 4, .advance ()]

/-- `Submit` pushes behind the end marker and returns an id, and the command is
deleted with its queue. -/
def pushAfterMarker : List (Label Unit) :=
  let io := Label.worker (.io 0) (8, 0)
  let pio := Label.worker (.pio 0) (-1, 5)
  [.start 1 1, .control 4, .control 4, .control 4,
    .submit () (writeThenRead.take 1) 1 2 100, .advance (), .stop, .control 4, .advance (),
    .advance (), io, .control 4, .control 4, .control 4, pio, .control 4, .control 4]

theorem submit_races_stop :
    (∃ s : State Unit, Machine.run step (start Unit) pushAfterDelete = some s ∧
      s.fault = some .deletedQueue ∧ ¬ s.Lossless) ∧
    ∃ s : State Unit, Machine.run step (start Unit) pushAfterMarker = some s ∧
      s.state = .stopped ∧ s.submitters () = .idle ∧ s.log.returned = [(1, 0)] ∧
      s.log.finished = [] ∧ ¬ s.Lossless := by
  constructor
  · obtain ⟨s, hs, hfault⟩ : ∃ s : State Unit,
        Machine.run step (start Unit) pushAfterDelete = some s ∧ s.fault = some .deletedQueue :=
      ⟨_, rfl, rfl⟩
    exact ⟨s, hs, hfault, fun hl => hl.1 hfault⟩
  · obtain ⟨s, hs, hstop, hidle, hreturned, hfinished, hlen⟩ : ∃ s : State Unit,
        Machine.run step (start Unit) pushAfterMarker = some s ∧ s.state = .stopped ∧
          s.submitters () = .idle ∧ s.log.returned = [(1, 0)] ∧ s.log.finished = [] ∧
          s.requests[0]?.map (fun req => req.cmds.length) = some 1 :=
      ⟨_, rfl, rfl, rfl, rfl, rfl, rfl⟩
    refine ⟨s, hs, hstop, hidle, hreturned, hfinished, fun hl => ?_⟩
    obtain ⟨req, hreq, hdone⟩ := hl.2 hstop (fun _ => hidle) 1 0 (by simp [hreturned]) (by decide)
    have hone : req.cmds.length = 1 := by simpa [hreq] using hlen
    have hcount := (hdone (List.ne_nil_of_length_eq_add_one hone)).1 0 (by omega)
    simp [hfinished] at hcount

/-! ## Stopping when nobody submits -/

/-- `Stop` takes effect while no call of `Submit` is in progress, and `Start`
gets at least one thread of each kind. -/
def Orderly (s : State Tid) : Label Tid → Prop
  | .stop => s.state = .started → ∀ t, s.submitters t = .idle
  | .control cpuNum => ∀ n ∈ s.control.threadnum, 0 < (threadCount n cpuNum).toInt
  | _ => True

instance [Fintype Tid] (s : State Tid) (l : Label Tid) : Decidable (s.Orderly l) :=
  match l with
  | .stop => inferInstanceAs (Decidable (s.state = .started → ∀ t, s.submitters t = .idle))
  | .control cpuNum =>
      decidable_of_iff (s.control.threadnum.all fun n => 0 < (threadCount n cpuNum).toInt)
        (by cases hn : s.control.threadnum <;> simp [Orderly, hn])
  | .start _ _ | .submit _ _ _ _ _ | .advance _ | .worker _ _ => inferInstanceAs (Decidable True)

/-- What holds along an orderly run. -/
structure Attended (s : State Tid) : Prop where
  quiet : s.state ≠ .started → ∀ t, s.submitters t = .idle
  staffed : s.state = .started ∨ s.control = .startDone → 0 < s.pioThreadGroup.length
  ranged : ∀ t cmds e idx, s.submitters t = .chosen cmds e (.io idx) →
    idx < s.ioThreadGroup.length

omit [DecidableEq Tid] in
theorem start_attended : (start Tid).Attended := by
  constructor <;> simp [start]

omit [DecidableEq Tid] in
/-- Along an orderly run every push finds its queue open. -/
theorem Attended.open (h : s.Attended) (hp : s.Phases) {t : Tid} {cmds : List Command}
    {e : RequestEx} {queue : QueueId} (hpc : s.submitters t = .chosen cmds e queue) :
    s.Open queue := by
  have hs : s.state = .started := by
    by_contra hne
    rw [h.quiet hne t] at hpc
    cases hpc
  have hcontrol := hp.idle (Or.inr hs)
  cases queue with
  | io idx =>
      have hlt := h.ranged t cmds e idx hpc
      simp [Open, markers, crew, hcontrol, hs, hlt]
  | pio =>
      have hpos := h.staffed (Or.inl hs)
      simpa [Open, markers, crew, hcontrol, hs] using hpos

omit [DecidableEq Tid] in
theorem Attended.congr (h : s.Attended) (hstate : s'.state = s.state)
    (hcontrol : s'.control = .startDone → s.control = .startDone)
    (hio : s'.ioThreadGroup.length = s.ioThreadGroup.length)
    (hpio : s'.pioThreadGroup.length = s.pioThreadGroup.length)
    (hsub : s'.submitters = s.submitters) : s'.Attended := by
  refine ⟨?_, fun hs => ?_, fun t cmds e idx hpc => ?_⟩
  · rw [hstate, hsub]
    exact h.quiet
  · rw [hpio]
    exact h.staffed (hs.imp (fun hs => hstate ▸ hs) hcontrol)
  · rw [hio]
    exact h.ranged t cmds e idx (hsub ▸ hpc)

omit [DecidableEq Tid] in
/-- The AIO is not running: nobody is inside `Submit`, and no queue is chosen. -/
theorem Attended.rest (hidle : ∀ t, s.submitters t = .idle) (hstate : s.state ≠ .started)
    (hstaffed : s.control = .startDone → 0 < s.pioThreadGroup.length) : s.Attended := by
  refine ⟨fun _ => hidle, fun hs => hs.elim (fun hs => absurd hs hstate) hstaffed,
    fun t cmds e idx hpc => ?_⟩
  rw [hidle t] at hpc
  cases hpc

theorem Attended.update (h : s.Attended) {t : Tid} {pc : Submitter} (hs : s.state = .started)
    (hstate : s'.state = s.state) (hcontrol : s'.control = s.control)
    (hio : s'.ioThreadGroup = s.ioThreadGroup) (hpio : s'.pioThreadGroup = s.pioThreadGroup)
    (hsub : s'.submitters = Function.update s.submitters t pc)
    (hpc : ∀ cmds e idx, pc = .chosen cmds e (.io idx) → idx < s.ioThreadGroup.length) :
    s'.Attended := by
  refine ⟨fun hne => absurd (hstate.trans hs) hne, fun hs' => ?_, fun u cmds e idx hu => ?_⟩
  · rw [hpio]
    rw [hstate, hcontrol] at hs'
    exact h.staffed hs'
  · rw [hio]
    rw [hsub] at hu
    by_cases hut : u = t
    · subst hut
      rw [Function.update_self] at hu
      exact hpc cmds e idx hu
    · rw [Function.update_of_ne hut] at hu
      exact h.ranged u cmds e idx hu

theorem Attended.move (h : s.Attended) (hp : s.Phases) {l : Label Tid} (hm : s.Move l s')
    (horderly : s.Orderly l) : s'.Attended := by
  have hrunning : ∀ {t : Tid}, s.submitters t ≠ .idle → s.state = .started := by
    intro t ht
    by_contra hne
    exact ht (h.quiet hne t)
  have hresting : ∀ {control : Control}, s.control = control → control ≠ .idle →
      s.state ≠ .started ∧ ∀ t, s.submitters t = .idle := by
    intro control hc hne
    have hstate : s.state ≠ .started := fun hs => hne (hc.symm.trans (hp.idle (Or.inr hs)))
    exact ⟨hstate, h.quiet hstate⟩
  have hpos : ∀ {n : BitVec 32}, 0 < n.toInt → 0 < n.toNat := by
    intro n hn
    rw [BitVec.toInt_eq_toNat_cond] at hn
    omega
  cases hm with
  | start hs => exact .rest (h.quiet (by simp [hs])) (by simp) (by simp)
  | throwIo hpc =>
      obtain ⟨hstate, hidle⟩ := hresting hpc (by simp)
      exact .rest hidle hstate (by simp)
  | throwPio hpc =>
      obtain ⟨hstate, hidle⟩ := hresting hpc (by simp)
      exact .rest hidle hstate (by simp)
  | startIo hpc =>
      obtain ⟨hstate, hidle⟩ := hresting hpc (by simp)
      exact .rest hidle hstate (by simp [State.startIo])
  | startPio hpc =>
      obtain ⟨hstate, hidle⟩ := hresting hpc (by simp)
      have hthreads := hpos (horderly _ (by rw [hpc]; rfl))
      exact .rest hidle hstate fun _ => by simpa using hthreads
  | startDone hpc =>
      obtain ⟨-, hidle⟩ := hresting hpc (by simp)
      refine ⟨fun _ => hidle, fun _ => h.staffed (Or.inr hpc), fun t cmds e idx ht => ?_⟩
      have hidle' := hidle t
      rw [show s.submitters t = _ from ht] at hidle'
      cases hidle'
  | stop hs => exact .rest (horderly hs) (by simp) (by simp)
  | emptyIo hpc hi hq hpush => exact h.congr rfl (by simp) rfl rfl rfl
  | joinIo hpc hi hj => exact h.congr rfl (by simp) rfl rfl rfl
  | deleteIo hpc => exact h.congr rfl (by simp [State.deleteIo]) rfl rfl rfl
  | emptyPio hpc hi hpush => exact h.congr rfl (by simp) rfl rfl rfl
  | joinPio hpc hi hj => exact h.congr rfl (by simp) rfl rfl rfl
  | stopDone hpc =>
      obtain ⟨-, hidle⟩ := hresting hpc (by simp)
      exact .rest hidle (by simp) (by simp)
  | accept hpc hs => exact h.update hs rfl rfl rfl rfl rfl (by simp)
  | @choose t cmds e cmd hpc hcmd hn =>
      refine h.update (hrunning (t := t) (by simp [hpc])) rfl rfl rfl rfl rfl
        fun cmds' e' idx he => ?_
      simp only [Submitter.chosen.injEq, chooses] at he
      obtain ⟨-, -, hq⟩ := he
      split at hq
      · rename_i hstream
        cases hq
        exact Nat.mod_lt _ (Nat.pos_of_ne_zero (hn hstream))
      · cases hq
  | @send t cmds e queue q q' hpc hq hpush =>
      exact h.update (hrunning (t := t) (by simp [hpc])) rfl rfl rfl rfl rfl (by simp)
  | @submitted t cmds e hpc hend =>
      exact h.update (hrunning (t := t) (by simp [hpc])) rfl rfl rfl rfl rfl (by simp)
  | @leave w wk q q' answer hw hpc hq hpop =>
      obtain ⟨hio, hpio⟩ := length_setWorker s w ⟨.exited, wk.emptied + 1⟩
      exact h.congr rfl id hio hpio rfl
  | @take w wk e q q' answer hw hpc hq hpop =>
      obtain ⟨hio, hpio⟩ := length_setWorker s w { wk with pc := .serving e .popped }
      exact h.congr rfl id hio hpio rfl
  | execute hw hpc hreq hcmd =>
      obtain ⟨hio, hpio⟩ := length_setWorker s _ _
      exact h.congr rfl id hio hpio rfl
  | countFail hw hpc hreq =>
      obtain ⟨hio, hpio⟩ := length_setWorker s _ _
      exact h.congr rfl id hio hpio rfl
  | countDone hw hpc hreq =>
      obtain ⟨hio, hpio⟩ := length_setWorker s _ _
      exact h.congr rfl id hio hpio rfl
  | finish hw hpc hreq =>
      obtain ⟨hio, hpio⟩ := length_setWorker s _ _
      exact h.congr rfl id hio hpio rfl
  | _ => exact h.congr rfl id rfl rfl rfl

/-- `Stop` drains everything: when it has returned, every command of every accepted
request has been processed once, every worker has left its loop on one empty
request, and there is nothing left in any queue, neither in the pio queue nor in
the io queues that have been deleted. -/
theorem stop_drains {ls : List (Label Tid)} (hrun : Machine.run step (start Tid) ls = some s)
    (horderly : Machine.StepsMeet step Orderly (start Tid) ls) (hstop : s.state = .stopped) :
    (∀ (r : Nat) (req : Request), s.requests[r]? = some req → ∀ i < req.cmds.length,
      s.log.finished.count ⟨r, i⟩ = 1 ∧
        (s.log.executed.map Execution.reqEx).count ⟨r, i⟩ = 1) ∧
      (∀ w wk, s.workerAt w = some wk → wk.pc = .exited ∧ wk.emptied = 1) ∧
      s.pioRequestQueue.queue = [] ∧ s.log.dropped = [] ∧ s.ioRequestQueues = none ∧
      s.control = .idle ∧ ∀ t, s.submitters t = .idle := by
  obtain ⟨hinv, hcompleting, hkept, hattended⟩ :
      s.Inv ∧ s.Completing ∧ s.Kept ∧ s.Attended := by
    refine Machine.run_invariant_of_stepsMeet
      (fun s => s.Inv ∧ s.Completing ∧ s.Kept ∧ s.Attended)
      ⟨start_inv, start_completing, start_kept, start_attended⟩ ?_ horderly hrun
    rintro t l u ⟨hinv, hcompleting, hkept, hattended⟩ hl hstep
    have hm := step_move hstep
    refine ⟨hinv.move hm, hcompleting.move hinv hm, hkept.move hinv hm ?_,
      hattended.move hinv.phases hm hl⟩
    exact fun t' cmds e queue _ hpc => hattended.open hinv.phases hpc
  have hp := hinv.phases
  have hcontrol := hp.idle (Or.inl hstop)
  have hidle := hattended.quiet (by simp [hstop])
  refine ⟨fun r req hreq i hi => ?_, fun w wk hw => ?_,
    hkept.drains.pioQueue_empty hp (by simp [PioJoined, hcontrol, hstop]), hkept.dropped,
    hp.ioDeleted.mp (by simp [IoDeleted, hcontrol, hstop]), hcontrol, hidle⟩
  · have hdone := hkept.done hinv hstop hidle hreq hi
    refine ⟨hinv.count_finished hdone, ?_⟩
    apply List.count_eq_one_of_mem hcompleting.executed.once
    rw [hcompleting.executed.mem_iff, hdone]
    simp [Life.progress]
  · have hexited : wk.pc = .exited := by
      cases w with
      | io index => exact hp.ioJoined (by simp [IoJoined, hcontrol, hstop]) wk (Phases.mem_io hw)
      | pio index =>
          exact hp.pioJoined (by simp [PioJoined, hcontrol, hstop]) wk (Phases.mem_pio hw)
    exact ⟨hexited, by rw [hp.emptied w wk hw, if_pos hexited]⟩

theorem stop_drains_example : ∃ s : State Unit,
    Machine.run step (start Unit) startToStop = some s ∧ s.requests.length = 1 ∧
      s.state = .stopped ∧
      (∀ (r : Nat) (req : Request), s.requests[r]? = some req → ∀ i < req.cmds.length,
        s.log.finished.count ⟨r, i⟩ = 1 ∧
          (s.log.executed.map Execution.reqEx).count ⟨r, i⟩ = 1) ∧
      (∀ w wk, s.workerAt w = some wk → wk.pc = .exited ∧ wk.emptied = 1) ∧
      s.pioRequestQueue.queue = [] ∧ s.log.dropped = [] ∧ s.ioRequestQueues = none ∧
      s.control = .idle ∧ ∀ t, s.submitters t = .idle := by
  obtain ⟨s, hs, hlen, hstop⟩ : ∃ s : State Unit,
      Machine.run step (start Unit) startToStop = some s ∧ s.requests.length = 1 ∧
        s.state = .stopped :=
    ⟨_, rfl, rfl, rfl⟩
  have horderly : Machine.StepsMeet step Orderly (start Unit) startToStop :=
    .of_meets (by decide +kernel)
  exact ⟨s, hs, hlen, hstop, stop_drains hs horderly hstop⟩

end State

end XfUtil.Aio
