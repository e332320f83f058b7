import XfUtil.Aio.Threads

/-!
# What a step of the AIO can do

`Move` lists the outcomes of a step with their guards, and `step_move` says that
there are no others. Everything proved about runs goes through it, so the step
function is taken apart only here.
-/

namespace XfUtil.Aio.State

variable {Tid : Type*} {s : State Tid}

/-! ## Queues and workers -/

/-- An io queue that is there is an element of the array. -/
theorem access_io {idx : Nat} {q : BlockingQueue (Option RequestEx)}
    (h : s.access (.io idx) = .ok q) :
    ∃ queues, s.ioRequestQueues = some queues ∧ queues[idx]? = some q := by
  cases hqs : s.ioRequestQueues with
  | none => simp [access, hqs] at h
  | some queues =>
      cases hidx : queues[idx]? with
      | none => simp [access, hqs, hidx] at h
      | some q₀ =>
          simp only [access, hqs, hidx] at h
          cases h
          exact ⟨queues, rfl, hidx⟩

theorem access_setQueue_self {queue : QueueId} {q : BlockingQueue (Option RequestEx)}
    (h : s.access queue = .ok q) (q' : BlockingQueue (Option RequestEx)) :
    (s.setQueue queue q').access queue = .ok q' := by
  cases queue with
  | pio => rfl
  | io idx =>
      obtain ⟨queues, hqs, hidx⟩ := access_io h
      have hlt : idx < queues.length := (List.getElem?_eq_some_iff.mp hidx).1
      simp [access, setQueue, hqs, hlt]

theorem access_setQueue_ne {queue queue' : QueueId} (hne : queue' ≠ queue)
    (q' : BlockingQueue (Option RequestEx)) :
    (s.setQueue queue q').access queue' = s.access queue' := by
  cases queue' with
  | pio =>
      cases queue with
      | pio => exact absurd rfl hne
      | io idx => rfl
  | io idx' =>
      cases queue with
      | pio => rfl
      | io idx =>
          have hidx : idx ≠ idx' := fun heq => hne (by rw [heq])
          cases hqs : s.ioRequestQueues with
          | none => simp [access, setQueue, hqs]
          | some queues => simp [access, setQueue, hqs, List.getElem?_set_ne hidx]

theorem workerAt_setWorker_self {w : WorkerId} {wk : Worker} (h : s.workerAt w = some wk)
    (wk' : Worker) : (s.setWorker w wk').workerAt w = some wk' := by
  cases w with
  | io index =>
      have hlt : index < s.ioThreadGroup.length := (List.getElem?_eq_some_iff.mp h).1
      simp [workerAt, setWorker, hlt]
  | pio index =>
      have hlt : index < s.pioThreadGroup.length := (List.getElem?_eq_some_iff.mp h).1
      simp [workerAt, setWorker, hlt]

theorem workerAt_setWorker_ne {w w' : WorkerId} (hne : w' ≠ w) (wk' : Worker) :
    (s.setWorker w wk').workerAt w' = s.workerAt w' := by
  cases w' with
  | io index' =>
      cases w with
      | pio index => rfl
      | io index =>
          have hidx : index ≠ index' := fun heq => hne (by rw [heq])
          simp [workerAt, setWorker, List.getElem?_set_ne hidx]
  | pio index' =>
      cases w with
      | io index => rfl
      | pio index =>
          have hidx : index ≠ index' := fun heq => hne (by rw [heq])
          simp [workerAt, setWorker, List.getElem?_set_ne hidx]

theorem length_setWorker (s : State Tid) (w : WorkerId) (wk : Worker) :
    (s.setWorker w wk).ioThreadGroup.length = s.ioThreadGroup.length ∧
      (s.setWorker w wk).pioThreadGroup.length = s.pioThreadGroup.length := by
  cases w <;> simp [setWorker]

theorem joined_iff {group : List Worker} : joined group = true ↔ ∀ wk ∈ group, wk.pc = .exited := by
  simp [joined]

/-! ## Moves -/

variable [DecidableEq Tid]

/-- The queue that `Submit` chooses for a command. -/
def chooses (s : State Tid) (cmd : Command) : QueueId :=
  if cmd.streamed then .io (cmd.queueIdx s.ioThreadGroup.length) else .pio

inductive Move (s : State Tid) : Label Tid → State Tid → Prop where
  | refused {l} : Move s l s
  | divide {t} : Move s (.advance t) (s.fail .divisionByZero)
  | strayPush {t cmds e queue f} (hpc : s.submitters t = .chosen cmds e queue)
      (hf : s.access queue = .error f) : Move s (.advance t) (s.fail f)
  | strayEmpty {i f cpuNum} (hpc : s.control = .stopIo i) (hi : i < s.ioThreadGroup.length)
      (hf : s.access (.io i) = .error f) : Move s (.control cpuNum) (s.fail f)
  | strayPop {w wk f answer} (hw : s.workerAt w = some wk) (hpc : wk.pc = .waiting)
      (hf : s.access w.queue = .error f) : Move s (.worker w answer) (s.fail f)
  | start {io pio} (h : s.state = .stopped) :
      Move s (.start io pio) { s with state := .starting, control := .startIo io pio }
  | throwIo {io pio cpuNum} (hpc : s.control = .startIo io pio) :
      Move s (.control cpuNum) { s with control := .threwIo }
  | throwPio {pio cpuNum} (hpc : s.control = .startPio pio) :
      Move s (.control cpuNum) { s with control := .threwPio }
  | startIo {io pio cpuNum} (hpc : s.control = .startIo io pio) :
      Move s (.control cpuNum) (s.startIo (threadCount io cpuNum).toNat pio)
  | startPio {pio cpuNum} (hpc : s.control = .startPio pio) :
      Move s (.control cpuNum)
        { s with
          pioThreadGroup := List.replicate (threadCount pio cpuNum).toNat .new
          control := .startDone }
  | startDone {cpuNum} (hpc : s.control = .startDone) :
      Move s (.control cpuNum) { s with state := .started, control := .idle }
  | stop (h : s.state = .started) :
      Move s .stop { s with state := .stopping, control := .stopIo 0 }
  | emptyIo {i q q' cpuNum} (hpc : s.control = .stopIo i) (hi : i < s.ioThreadGroup.length)
      (hq : s.access (.io i) = .ok q) (hpush : q'.queue = q.queue ++ [none]) :
      Move s (.control cpuNum) { s.setQueue (.io i) q' with control := .stopIo (i + 1) }
  | joinIo {i cpuNum} (hpc : s.control = .stopIo i) (hi : ¬ i < s.ioThreadGroup.length)
      (hj : ∀ wk ∈ s.ioThreadGroup, wk.pc = .exited) :
      Move s (.control cpuNum) { s with control := .deleteIo }
  | deleteIo {cpuNum} (hpc : s.control = .deleteIo) : Move s (.control cpuNum) s.deleteIo
  | emptyPio {i q' cpuNum} (hpc : s.control = .stopPio i) (hi : i < s.pioThreadGroup.length)
      (hpush : q'.queue = s.pioRequestQueue.queue ++ [none]) :
      Move s (.control cpuNum) { s.setQueue .pio q' with control := .stopPio (i + 1) }
  | joinPio {i cpuNum} (hpc : s.control = .stopPio i) (hi : ¬ i < s.pioThreadGroup.length)
      (hj : ∀ wk ∈ s.pioThreadGroup, wk.pc = .exited) :
      Move s (.control cpuNum) { s with control := .stopDone }
  | stopDone {cpuNum} (hpc : s.control = .stopDone) :
      Move s (.control cpuNum) { s with state := .stopped, control := .idle }
  | accept {t cmds cb arg now} (hpc : s.submitters t = .idle) (hs : s.state = .started) :
      Move s (.submit t cmds cb arg now) (s.accept t cmds cb arg now)
  | choose {t cmds e cmd} (hpc : s.submitters t = .loop cmds e)
      (hcmd : cmds[e.cmdIdx]? = some cmd) (hn : cmd.streamed → s.ioThreadGroup.length ≠ 0) :
      Move s (.advance t) (s.route t cmds e (s.chooses cmd))
  | send {t cmds e queue q q'} (hpc : s.submitters t = .chosen cmds e queue)
      (hq : s.access queue = .ok q) (hpush : q'.queue = q.queue ++ [some e]) :
      Move s (.advance t) (s.sent t cmds e queue q')
  | submitted {t cmds e} (hpc : s.submitters t = .loop cmds e) (hend : cmds[e.cmdIdx]? = none) :
      Move s (.advance t) (s.submitted t e.request)
  | leave {w wk q q' answer} (hw : s.workerAt w = some wk) (hpc : wk.pc = .waiting)
      (hq : s.access w.queue = .ok q) (hpop : q.queue = none :: q'.queue) :
      Move s (.worker w answer) (s.leave w wk q')
  | take {w wk e q q' answer} (hw : s.workerAt w = some wk) (hpc : wk.pc = .waiting)
      (hq : s.access w.queue = .ok q) (hpop : q.queue = some e :: q'.queue) :
      Move s (.worker w answer) (s.take w wk e q')
  | execute {w wk e req cmd answer} (hw : s.workerAt w = some wk)
      (hpc : wk.pc = .serving e .popped) (hreq : s.requests[e.request]? = some req)
      (hcmd : req.cmds[e.cmdIdx]? = some cmd) :
      Move s (.worker w answer) (s.execute w wk e req cmd answer)
  | countFail {w wk e req lastError answer} (hw : s.workerAt w = some wk)
      (hpc : wk.pc = .serving e (.failed lastError)) (hreq : s.requests[e.request]? = some req) :
      Move s (.worker w answer)
        (s.reach w wk e (req.storeError e.cmdIdx lastError).countFail .settled)
  | countDone {w wk e req answer} (hw : s.workerAt w = some wk)
      (hpc : wk.pc = .serving e .settled) (hreq : s.requests[e.request]? = some req) :
      Move s (.worker w answer)
        (s.reach w wk e req.countCompleted (.counted req.completedCnt))
  | finish {w wk e req prevCnt answer} (hw : s.workerAt w = some wk)
      (hpc : wk.pc = .serving e (.counted prevCnt)) (hreq : s.requests[e.request]? = some req) :
      Move s (.worker w answer) (s.finish w wk e req prevCnt)

theorem stepControl_move {cpuNum : BitVec 32} {s' : State Tid}
    (h : s.stepControl cpuNum = some s') : s.Move (.control cpuNum) s' := by
  unfold stepControl at h
  split at h
  · cases h
  · cases h
  · cases h
  · rename_i io pio hpc
    dsimp only at h
    split at h
    · cases h
      exact .throwIo hpc
    · cases h
      exact .startIo hpc
  · rename_i pio hpc
    dsimp only at h
    split at h
    · cases h
      exact .throwPio hpc
    · cases h
      exact .startPio hpc
  · rename_i hpc
    cases h
    exact .startDone hpc
  · rename_i i hpc
    split at h
    · rename_i hi
      unfold pushEmpty at h
      split at h
      · rename_i f hf
        cases h
        exact .strayEmpty hpc hi hf
      · rename_i q hq
        obtain ⟨q', hpush, rfl⟩ := Option.map_eq_some_iff.mp h
        exact .emptyIo hpc hi hq (BlockingQueue.push_eq_some hpush)
    · rename_i hi
      split at h
      · rename_i hj
        cases h
        exact .joinIo hpc hi (joined_iff.mp hj)
      · cases h
  · rename_i hpc
    cases h
    exact .deleteIo hpc
  · rename_i i hpc
    split at h
    · rename_i hi
      obtain ⟨q', hpush, rfl⟩ := Option.map_eq_some_iff.mp h
      exact .emptyPio hpc hi (BlockingQueue.push_eq_some hpush)
    · rename_i hi
      split at h
      · rename_i hj
        cases h
        exact .joinPio hpc hi (joined_iff.mp hj)
      · cases h
  · rename_i hpc
    cases h
    exact .stopDone hpc

theorem stepAdvance_move {t : Tid} {s' : State Tid} (h : s.stepAdvance t = some s') :
    s.Move (.advance t) s' := by
  unfold stepAdvance at h
  split at h
  · cases h
  · rename_i cmds e hpc
    cases hcmd : cmds[e.cmdIdx]? with
    | none =>
        simp only [hcmd, Option.some.injEq] at h
        subst h
        exact .submitted hpc hcmd
    | some cmd =>
        simp only [hcmd] at h
        by_cases hstream : cmd.streamed = true
        · by_cases hn : s.ioThreadGroup.length = 0
          · simp only [hstream, hn, if_true, Option.some.injEq] at h
            subst h
            exact .divide
          · simp only [hstream, hn, if_true, if_false, Option.some.injEq] at h
            subst h
            have hmove := Move.choose hpc hcmd fun _ => hn
            rwa [chooses, if_pos hstream] at hmove
        · rw [if_neg hstream, Option.some.injEq] at h
          subst h
          have hmove := Move.choose hpc hcmd fun hs => absurd hs hstream
          rwa [chooses, if_neg hstream] at hmove
  · rename_i cmds e queue hpc
    split at h
    · rename_i f hf
      cases h
      exact .strayPush hpc hf
    · rename_i q hq
      obtain ⟨q', hpush, rfl⟩ := Option.map_eq_some_iff.mp h
      exact .send hpc hq (BlockingQueue.push_eq_some hpush)

theorem stepWorker_move {w : WorkerId} {answer : BitVec 64 × BitVec 32} {s' : State Tid}
    (h : s.stepWorker w answer = some s') : s.Move (.worker w answer) s' := by
  unfold stepWorker at h
  split at h
  · cases h
  · rename_i wk hw
    split at h
    · rename_i hpc
      unfold stepPop at h
      split at h
      · rename_i f hf
        cases h
        exact .strayPop hw hpc hf
      · rename_i q hq
        split at h
        · cases h
        · rename_i q' hpop
          cases h
          exact .leave hw hpc hq (BlockingQueue.pop_eq_some hpop)
        · rename_i e q' hpop
          cases h
          exact .take hw hpc hq (BlockingQueue.pop_eq_some hpop)
    · rename_i e stage hpc
      unfold stepProcess at h
      split at h
      · cases h
      · rename_i req hreq
        split at h
        · obtain ⟨cmd, hcmd, rfl⟩ := Option.map_eq_some_iff.mp h
          exact .execute hw hpc hreq hcmd
        · cases h
          exact .countFail hw hpc hreq
        · cases h
          exact .countDone hw hpc hreq
        · cases h
          exact .finish hw hpc hreq
    · cases h

/-- A step is one of the moves. -/
theorem step_move {l : Label Tid} {s' : State Tid} (h : s.step l = some s') : s.Move l s' := by
  unfold step at h
  split at h
  · cases h
  · cases l with
    | start io pio =>
        simp only [stepStart, Option.some.injEq] at h
        subst h
        split
        · rename_i hs
          exact .start hs
        · exact .refused
    | stop =>
        simp only [stepStop, Option.some.injEq] at h
        subst h
        split
        · rename_i hs
          exact .stop hs
        · exact .refused
    | control cpuNum => exact stepControl_move h
    | submit t cmds cb arg now =>
        simp only [stepSubmit] at h
        split at h
        · cases h
        · rename_i hpc
          split at h
          · cases h
            exact .refused
          · rename_i hs
            cases h
            exact .accept (not_not.mp hpc) (not_not.mp hs)
    | advance t => exact stepAdvance_move h
    | worker w answer => exact stepWorker_move h

end XfUtil.Aio.State
