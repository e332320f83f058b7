import XfUtil.Aio.Phases

/-!
# The queue that `Submit` selects

`Submit` divides a descriptor by the number of io threads. While the AIO runs there is
one queue for each, all of them at work, so the remainder is the index of a queue, unless
`Start` has been content with no thread at all.
-/

namespace XfUtil.Aio.State

variable {Tid : Type*} {s s' : State Tid}

/-- How many io threads are in their loops. -/
def ioRunning (s : State Tid) : Nat := s.ioThreadGroup.countP fun wk => wk.pc != .exited

/-- For any descriptor `Submit` divides by something and gets the index of one of the
queues of the latest `Start`, of which there are as many as io threads at work. -/
def SelectsInRange (s : State Tid) : Prop :=
  ∃ queues, s.ioRequestQueues = some queues ∧ queues.length = s.ioRunning ∧
    ∀ cmd : Command, cmd.streamed → s.ioThreadGroup.length ≠ 0 ∧
      cmd.queueIdx s.ioThreadGroup.length < queues.length

/-- The io thread number that a step of `Start` arrives at. -/
def startsIo (s : State Tid) : Label Tid → Option (BitVec 32)
  | .control cpuNum =>
      match s.control with
      | .startIo ioThreadnum _ => some (threadCount ioThreadnum cpuNum)
      | _ => none
  | _ => none

/-! ## Between the creation of the io threads and `Stop` -/

def Serving (s : State Tid) : Prop :=
  match s.control with
  | .startPio _ | .startDone | .threwPio => True
  | .idle => s.state = .started
  | .startIo _ _ | .threwIo | .stopIo _ | .deleteIo | .stopPio _ | .stopDone => False

/-- The io threads are those of the latest `Start`, and nothing makes them leave their loops. -/
structure Manned (n : Option (BitVec 32)) (s : State Tid) : Prop where
  count : s.Serving → ∃ m : BitVec 32, n = some m ∧ s.ioThreadGroup.length = m.toNat
  working : s.Serving → ∀ wk ∈ s.ioThreadGroup, wk.pc ≠ .exited
  unmarked : s.Serving → ∀ queues, s.ioRequestQueues = some queues → ∀ q ∈ queues, none ∉ q.queue

theorem start_manned : (start Tid).Manned none := by
  constructor <;> simp [start, Serving]

namespace Manned

variable {n : Option (BitVec 32)}

theorem of_not_serving (hnot : ¬ s.Serving) : s.Manned n :=
  ⟨fun hs => absurd hs hnot, fun hs => absurd hs hnot, fun hs => absurd hs hnot⟩

/-- A step of `Start` that arrives at an io thread number is taken while nothing is served. -/
theorem record (h : s.Manned n) (l : Label Tid) : s.Manned ((s.startsIo l).or n) := by
  cases hstarts : s.startsIo l with
  | none => exact h
  | some m =>
      apply of_not_serving
      unfold startsIo at hstarts
      split at hstarts
      · split at hstarts
        · rename_i hpc
          simp [Serving, hpc]
        · cases hstarts
      · cases hstarts

theorem congr (h : s.Manned n) (hserving : s'.Serving → s.Serving)
    (hgroup : s'.ioThreadGroup = s.ioThreadGroup)
    (hqueues : s'.ioRequestQueues = s.ioRequestQueues) : s'.Manned n := by
  refine ⟨fun hs => ?_, fun hs => ?_, fun hs => ?_⟩
  · rw [hgroup]
    exact h.count (hserving hs)
  · rw [hgroup]
    exact h.working (hserving hs)
  · rw [hqueues]
    exact h.unmarked (hserving hs)

theorem setQueue (h : s.Manned n) {queue : QueueId} {q q' : BlockingQueue (Option RequestEx)}
    (hq : s.access queue = .ok q) (hsub : none ∈ q'.queue → none ∈ q.queue) :
    (s.setQueue queue q').Manned n := by
  cases queue with
  | pio => exact h.congr id rfl rfl
  | io idx =>
      refine ⟨h.count, h.working, fun hs queues hqs q₁ hq₁ => ?_⟩
      obtain ⟨old, hold, rfl⟩ := Option.map_eq_some_iff.mp hqs
      have hunmarked := h.unmarked hs old hold
      rcases List.mem_or_eq_of_mem_set hq₁ with hmem | rfl
      · exact hunmarked q₁ hmem
      · obtain ⟨queues, hqueues, hget⟩ := access_io hq
        obtain rfl : old = queues := Option.some.inj (hold.symm.trans hqueues)
        exact fun hnone => hunmarked q (List.mem_of_getElem? hget) (hsub hnone)

theorem setWorker (h : s.Manned n) (w : WorkerId) {wk : Worker} (hlive : wk.pc ≠ .exited) :
    (s.setWorker w wk).Manned n := by
  cases w with
  | pio index => exact h.congr id rfl rfl
  | io index =>
      refine ⟨fun hs => ?_, fun hs wk' hwk' => ?_, h.unmarked⟩
      · rw [(length_setWorker s (.io index) wk).1]
        exact h.count hs
      · rcases List.mem_or_eq_of_mem_set hwk' with hmem | rfl
        · exact h.working hs wk' hmem
        · exact hlive

theorem startIo (m : BitVec 32) (pioThreadnum : BitVec 32) :
    (s.startIo m.toNat pioThreadnum).Manned (some m) := by
  refine ⟨fun _ => ⟨m, rfl, List.length_replicate⟩, fun _ wk hwk => ?_, fun _ queues hqs q hq => ?_⟩
  · rw [List.eq_of_mem_replicate hwk]
    simp [Worker.new]
  · obtain rfl := Option.some.inj hqs
    rw [List.eq_of_mem_replicate hq]
    simp [BlockingQueue.new]

/-- Only an empty request makes a worker leave its loop. -/
theorem leave (h : s.Manned n) {w : WorkerId} {wk : Worker}
    {q q' : BlockingQueue (Option RequestEx)} (hq : s.access w.queue = .ok q)
    (hpop : q.queue = none :: q'.queue) : (s.leave w wk q').Manned n := by
  cases w with
  | pio index => exact h.congr id rfl rfl
  | io index =>
      apply of_not_serving
      intro hs
      obtain ⟨queues, hqs, hget⟩ := access_io hq
      exact h.unmarked hs queues hqs q (List.mem_of_getElem? hget) (by simp [hpop])

variable [DecidableEq Tid]

theorem move (h : s.Manned n) {l : Label Tid} (hm : s.Move l s') :
    s'.Manned ((s.startsIo l).or n) := by
  have hrec := h.record l
  cases hm with
  | start hs => exact of_not_serving (by simp [Serving])
  | throwIo hpc => exact of_not_serving (by simp [Serving])
  | throwPio hpc => exact hrec.congr (by simp [Serving, hpc]) rfl rfl
  | @startIo io pio cpuNum hpc =>
      have hstarts : s.startsIo (.control cpuNum) = some (threadCount io cpuNum) := by
        simp [startsIo, hpc]
      rw [hstarts]
      exact .startIo _ _
  | startPio hpc => exact hrec.congr (by simp [Serving, hpc]) rfl rfl
  | startDone hpc => exact hrec.congr (by simp [Serving, hpc]) rfl rfl
  | stop hs => exact of_not_serving (by simp [Serving])
  | emptyIo hpc hi hq hpush => exact of_not_serving (by simp [Serving])
  | joinIo hpc hi hj => exact of_not_serving (by simp [Serving])
  | deleteIo hpc => exact of_not_serving (by simp [Serving, State.deleteIo])
  | emptyPio hpc hi hpush => exact of_not_serving (by simp [Serving])
  | joinPio hpc hi hj => exact of_not_serving (by simp [Serving])
  | stopDone hpc => exact of_not_serving (by simp [Serving])
  | send hpc hq hpush => exact (hrec.setQueue hq (by simp [hpush])).congr id rfl rfl
  | leave hw hpc hq hpop => exact hrec.leave hq hpop
  | take hw hpc hq hpop =>
      have hset := hrec.setQueue hq (fun hnone => hpop ▸ List.mem_cons_of_mem _ hnone)
      exact (hset.setWorker _ (by simp)).congr id rfl rfl
  | execute hw hpc hreq hcmd => exact (hrec.setWorker _ (by simp)).congr id rfl rfl
  | countFail hw hpc hreq => exact (hrec.setWorker _ (by simp)).congr id rfl rfl
  | countDone hw hpc hreq => exact (hrec.setWorker _ (by simp)).congr id rfl rfl
  | finish hw hpc hreq => exact (hrec.setWorker _ (by simp)).congr id rfl rfl
  | _ => exact hrec.congr id rfl rfl

end Manned

/-! ## The index of a queue -/

theorem SelectsInRange.select [DecidableEq Tid] (h : s.SelectsInRange) (hfault : s.fault = none)
    {t : Tid} {cmds : List Command} {e : RequestEx} {cmd : Command}
    (hpc : s.submitters t = .loop cmds e) (hcmd : cmds[e.cmdIdx]? = some cmd)
    (hstream : cmd.streamed) :
    step s (.advance t) = some (s.route t cmds e (.io (cmd.queueIdx s.ioThreadGroup.length))) ∧
      ∃ q, s.access (.io (cmd.queueIdx s.ioThreadGroup.length)) = .ok q := by
  obtain ⟨queues, hqs, -, hidx⟩ := h
  obtain ⟨hpos, hlt⟩ := hidx cmd hstream
  constructor
  · simp [step, hfault, stepAdvance, hpc, hcmd, hstream, hpos]
  · exact ⟨queues[cmd.queueIdx s.ioThreadGroup.length], by simp [access, hqs, hlt]⟩

/-- Whenever the AIO runs, in a run of any calls of `Start` and `Stop` and whatever else
happens meanwhile, the index is in range exactly if the latest `Start` has arrived at some
io threads. -/
theorem selectsInRange_iff [DecidableEq Tid] {ls : List (Label Tid)}
    (hrun : Machine.run step (start Tid) ls = some s) (hs : s.state = .started) :
    s.SelectsInRange ↔ Machine.latest step startsIo (start Tid) ls ≠ some 0 := by
  obtain ⟨hp, hm⟩ := Machine.run_latest_invariant (f := startsIo)
    (fun n (s : State Tid) => s.Phases ∧ s.Manned n) ⟨start_phases, start_manned⟩
    (fun n t l u ht hstep => ⟨ht.1.move (step_move hstep), ht.2.move (step_move hstep)⟩) hrun
  have hidle := hp.idle (Or.inr hs)
  have hserving : s.Serving := by simp [Serving, hidle, hs]
  obtain ⟨m, hlatest, hlen⟩ := hm.count hserving
  rw [hlatest]
  constructor
  · rintro ⟨queues, -, -, hidx⟩ hzero
    obtain ⟨hpos, -⟩ := hidx ⟨cmdRead, 0, 0, 0, 0, 0, 0⟩ rfl
    rw [Option.some.inj hzero] at hlen
    exact hpos hlen
  · intro hne
    have hpos : s.ioThreadGroup.length ≠ 0 := by
      rw [hlen]
      intro hzero
      exact hne (congrArg some (BitVec.eq_of_toNat_eq hzero))
    cases hqs : s.ioRequestQueues with
    | none =>
        have hdeleted := hp.ioDeleted.mpr hqs
        simp [IoDeleted, hidle, hs] at hdeleted
    | some queues =>
        have hqueues := hp.ioQueues queues hqs
        refine ⟨queues, hqs, ?_, fun cmd _ => ⟨hpos, ?_⟩⟩
        · rw [hqueues, ioRunning, eq_comm, List.countP_eq_length]
          intro wk hwk
          simpa using hm.working hserving wk hwk
        · rw [hqueues]
          exact Nat.mod_lt _ (Nat.pos_of_ne_zero hpos)

/-- Twice as many io threads as processors, after a `Start` and a `Stop` with one of each. -/
theorem selectsInRange_iff_restarted : ∃ s : State Unit,
    Machine.run step (start Unit) [.start 1 1, .control 4, .control 4, .control 4, .stop,
        .control 4, .worker (.io 0) (0, 0), .control 4, .control 4, .control 4,
        .worker (.pio 0) (0, 0), .control 4, .control 4,
        .start (-2) 1, .control 4, .control 4, .control 4] = some s ∧
      s.state = .started ∧ s.ioRunning = 8 ∧ s.SelectsInRange := by
  obtain ⟨s, hrun, hs, hrunning⟩ : ∃ s : State Unit,
      Machine.run step (start Unit) [.start 1 1, .control 4, .control 4, .control 4, .stop,
          .control 4, .worker (.io 0) (0, 0), .control 4, .control 4, .control 4,
          .worker (.pio 0) (0, 0), .control 4, .control 4,
          .start (-2) 1, .control 4, .control 4, .control 4] = some s ∧
        s.state = .started ∧ s.ioRunning = 8 :=
    ⟨_, rfl, rfl, rfl⟩
  exact ⟨s, hrun, hs, hrunning, (selectsInRange_iff hrun hs).mpr (by decide)⟩

/-- `Start` accepts the number 0, and arrives at it from the default if the number of
processors is unknown. Then `Submit` divides by 0. -/
theorem start_without_io_threads :
    (∃ s : State Unit, Machine.run step (start Unit) [.start 0 1, .control 4, .control 4,
        .control 4, .submit () [⟨cmdRead, 3, 0, 4096, 8, -1, 0⟩] 1 2 100, .advance ()] = some s ∧
      s.state = .started ∧ s.fault = some .divisionByZero) ∧
    ¬ ∀ (ls : List (Label Unit)) (s : State Unit), Machine.run step (start Unit) ls = some s →
      s.state = .started → s.SelectsInRange := by
  refine ⟨⟨_, rfl, rfl, rfl⟩, fun hall => ?_⟩
  obtain ⟨queues, -, -, hidx⟩ := hall [.start (-1) (-2), .control 0, .control 0, .control 0] _
    rfl rfl
  exact (hidx ⟨cmdRead, 3, 0, 4096, 8, -1, 0⟩ rfl).1 rfl

end XfUtil.Aio.State
