import XfUtil.Aio.Board
import XfUtil.Aio.Phases
import Mathlib.Data.List.ReduceOption

/-!
# The AIO refines its board

A state shows a board: what is in its queues but for end markers, what its
workers serve, how far its submitters have got. Each move is a step of the board
or invisible on it, so every reachable state shows a sound board.
-/

namespace XfUtil.Aio

/-- What does not change in a command: what it is for, and on which descriptor. -/
def Command.target (c : Command) : BitVec 32 × BitVec 32 := (c.cmd, c.fd)

def Request.targets (req : Request) : List (BitVec 32 × BitVec 32) := req.cmds.map Command.target

def WorkerPc.job : WorkerPc → Option (RequestEx × Stage)
  | .serving e stage => some (e, stage)
  | _ => none

/-- The vector and the `req_ex` of a call of `Submit`. -/
def Submitter.call : Submitter → Option (List Command × RequestEx)
  | .idle => none
  | .loop cmds e | .chosen cmds e _ => some (cmds, e)

namespace Request

@[simp] theorem targets_storeRet (req : Request) (idx : Nat) (ret : BitVec 64) :
    (req.storeRet idx ret).targets = req.targets := by
  apply List.ext_getElem?
  intro i
  simp only [targets, storeRet, List.getElem?_map, List.getElem?_modify]
  cases req.cmds[i]? with
  | none => rfl
  | some c => by_cases hi : idx = i <;> simp [hi, Command.target]

@[simp] theorem targets_storeError (req : Request) (idx : Nat) (error : BitVec 32) :
    (req.storeError idx error).targets = req.targets := by
  apply List.ext_getElem?
  intro i
  simp only [targets, storeError, List.getElem?_map, List.getElem?_modify]
  cases req.cmds[i]? with
  | none => rfl
  | some c => by_cases hi : idx = i <;> simp [hi, Command.target]

theorem length_of_targets {req req' : Request} (h : req'.targets = req.targets) :
    req'.cmds.length = req.cmds.length := by
  simpa [targets] using congrArg List.length h

end Request

namespace State

variable {Tid : Type*} {s s' : State Tid}

/-! ## Requests only grow -/

/-- Every request is still there, for the same commands. -/
def Grows (s s' : State Tid) : Prop :=
  ∀ (r : Nat) (req : Request), s.requests[r]? = some req →
    ∃ req' : Request, s'.requests[r]? = some req' ∧ req'.targets = req.targets

theorem Grows.of_eq (h : s'.requests = s.requests) : s.Grows s' :=
  fun _ req hreq => ⟨req, by rwa [h], rfl⟩

theorem Grows.of_set {e : Nat} {old new : Request} (hold : s.requests[e]? = some old)
    (htargets : new.targets = old.targets) (h : s'.requests = s.requests.set e new) :
    s.Grows s' := by
  intro r req hreq
  rw [h]
  by_cases hr : e = r
  · subst hr
    rw [hold] at hreq
    cases hreq
    exact ⟨new, List.getElem?_set_self (List.getElem?_eq_some_iff.mp hold).1, htargets⟩
  · exact ⟨req, by rwa [List.getElem?_set_ne hr], rfl⟩

theorem Move.grows [DecidableEq Tid] {l : Label Tid} (hm : s.Move l s') : s.Grows s' := by
  cases hm with
  | accept hpc hs =>
      intro r req hreq
      have hlt : r < s.requests.length := (List.getElem?_eq_some_iff.mp hreq).1
      exact ⟨req, (List.getElem?_append_left hlt).trans hreq, rfl⟩
  | execute hw hpc hreq hcmd => exact .of_set hreq (Request.targets_storeRet ..) rfl
  | @countFail w wk e req lastError answer hw hpc hreq =>
      have htargets : (req.storeError e.cmdIdx lastError).countFail.targets = req.targets :=
        Request.targets_storeError ..
      exact .of_set hreq htargets rfl
  | @countDone w wk e req answer hw hpc hreq =>
      have htargets : req.countCompleted.targets = req.targets := rfl
      exact .of_set hreq htargets rfl
  | _ => exact .of_eq rfl

/-! ## Calls of `Submit` -/

/-- The request of a call of `Submit` is for the commands of the caller's vector. -/
structure Copies (s : State Tid) : Prop where
  copied : ∀ t cmds e, (s.submitters t).call = some (cmds, e) →
    ∃ req, s.requests[e.request]? = some req ∧ req.targets = cmds.map Command.target
  chosen : ∀ t cmds e queue, s.submitters t = .chosen cmds e queue → e.cmdIdx < cmds.length

theorem start_copies : (start Tid).Copies := by
  constructor <;> simp [start, Submitter.call]

theorem Copies.grow (h : s.Copies) (hgrow : s.Grows s') (hsub : s'.submitters = s.submitters) :
    s'.Copies := by
  refine ⟨fun t cmds e he => ?_, fun t cmds e queue he => ?_⟩
  · rw [hsub] at he
    obtain ⟨req, hreq, hcopy⟩ := h.copied t cmds e he
    obtain ⟨req', hreq', htargets⟩ := hgrow _ req hreq
    exact ⟨req', hreq', htargets.trans hcopy⟩
  · rw [hsub] at he
    exact h.chosen t cmds e queue he

variable [DecidableEq Tid]

/-- One thread inside `Submit` moves, with the same vector and request or to the end. -/
theorem Copies.update (h : s.Copies) {t : Tid} {pc : Submitter}
    (hsub : s'.submitters = Function.update s.submitters t pc) (hgrow : s.Grows s')
    (hcall : ∀ cmds e, pc.call = some (cmds, e) →
      ∃ req, s'.requests[e.request]? = some req ∧ req.targets = cmds.map Command.target)
    (hchosen : ∀ cmds e queue, pc = .chosen cmds e queue → e.cmdIdx < cmds.length) :
    s'.Copies := by
  refine ⟨fun u cmds e he => ?_, fun u cmds e queue he => ?_⟩
  · rw [hsub] at he
    by_cases hu : u = t
    · subst hu
      rw [Function.update_self] at he
      exact hcall cmds e he
    · rw [Function.update_of_ne hu] at he
      obtain ⟨req, hreq, hcopy⟩ := h.copied u cmds e he
      obtain ⟨req', hreq', htargets⟩ := hgrow _ req hreq
      exact ⟨req', hreq', htargets.trans hcopy⟩
  · rw [hsub] at he
    by_cases hu : u = t
    · subst hu
      rw [Function.update_self] at he
      exact hchosen cmds e queue he
    · rw [Function.update_of_ne hu] at he
      exact h.chosen u cmds e queue he

theorem Copies.move (h : s.Copies) {l : Label Tid} (hm : s.Move l s') : s'.Copies := by
  have hgrow := hm.grows
  cases hm with
  | @accept t cmds cb arg now hpc hs =>
      refine h.update rfl hgrow (fun cmds' e he => ?_) (by simp)
      cases he
      exact ⟨Request.new cmds cb arg now, List.getElem?_concat_length, rfl⟩
  | @choose t cmds e cmd hpc hcmd hn =>
      refine h.update rfl hgrow (fun cmds' e' he => ?_) fun cmds' e' queue he => ?_
      · cases he
        exact h.copied t cmds e (by rw [hpc]; rfl)
      · cases he
        exact (List.getElem?_eq_some_iff.mp hcmd).1
  | @send t cmds e queue q q' hpc hq hpush =>
      refine h.update rfl hgrow (fun cmds' e' he => ?_) (by simp)
      cases he
      exact h.copied t cmds e (by rw [hpc]; rfl)
  | submitted hpc hend => exact h.update rfl hgrow (by simp [Submitter.call]) (by simp)
  | _ => exact h.grow hgrow rfl

/-! ## The board of a state -/

omit [DecidableEq Tid]

def jobs (s : State Tid) (queue : QueueId) : List RequestEx :=
  match s.access queue with
  | .ok q => q.queue.reduceOption
  | .error _ => []

def job (s : State Tid) (w : WorkerId) : Option (RequestEx × Stage) :=
  (s.workerAt w).bind fun wk => wk.pc.job

def board (s : State Tid) : Board Tid where
  sizes := s.requests.map fun req => req.cmds.length
  sending t := (s.submitters t).call.map Prod.snd
  jobs := s.jobs
  job := s.job
  life := s.log.life
  finished := s.log.finished
  dropped := s.log.dropped.reduceOption

theorem jobs_of_access {queue : QueueId} {q : BlockingQueue (Option RequestEx)}
    (h : s.access queue = .ok q) : s.jobs queue = q.queue.reduceOption := by
  simp [jobs, h]

theorem jobs_setQueue {queue : QueueId} {q : BlockingQueue (Option RequestEx)}
    (h : s.access queue = .ok q) (q' : BlockingQueue (Option RequestEx)) :
    (s.setQueue queue q').jobs = Function.update s.jobs queue q'.queue.reduceOption := by
  funext queue'
  by_cases hne : queue' = queue
  · subst hne
    rw [Function.update_self, jobs_of_access (access_setQueue_self h q')]
  · rw [Function.update_of_ne hne, jobs, access_setQueue_ne hne]
    rfl

theorem job_of_pc {w : WorkerId} {wk : Worker} (h : s.workerAt w = some wk) :
    s.job w = wk.pc.job := by
  simp [job, h]

theorem job_setWorker {w : WorkerId} {wk : Worker} (h : s.workerAt w = some wk) (wk' : Worker) :
    (s.setWorker w wk').job = Function.update s.job w wk'.pc.job := by
  funext w'
  by_cases hne : w' = w
  · subst hne
    rw [Function.update_self, job_of_pc (workerAt_setWorker_self h wk')]
  · rw [Function.update_of_ne hne, job, workerAt_setWorker_ne hne]
    rfl

theorem sizes_set {r : Nat} {old new : Request} (hold : s.requests[r]? = some old)
    (htargets : new.targets = old.targets) :
    (s.requests.set r new).map (fun req => req.cmds.length) =
      s.requests.map fun req => req.cmds.length := by
  obtain ⟨hlt, hget⟩ := List.getElem?_eq_some_iff.mp hold
  rw [List.map_set, Request.length_of_targets htargets, ← hget]
  apply List.ext_getElem?
  intro i
  by_cases hi : r = i
  · subst hi
    simp [hlt]
  · simp [hi]

theorem job_idle {w : WorkerId} (h : ∀ wk, s.workerAt w = some wk → wk.pc.job = none) :
    s.job w = none := by
  cases hw : s.workerAt w with
  | none => simp [job, hw]
  | some wk => rw [job_of_pc hw, h wk hw]

theorem job_exited {w : WorkerId} (h : ∀ wk, s.workerAt w = some wk → wk.pc = .exited) :
    s.job w = none :=
  job_idle fun wk hw => by rw [h wk hw]; rfl

/-- New queues are as empty as the missing ones, new io workers as idle as the old. -/
theorem board_startIo (hp : s.Phases) {io pio : BitVec 32} (hpc : s.control = .startIo io pio)
    (n : Nat) : (s.startIo n pio).board = s.board := by
  have hnone := hp.ioDeleted.mp (by simp [IoDeleted, hpc])
  have hexited := hp.ioJoined (by simp [IoJoined, hpc])
  refine Board.ext rfl rfl (funext fun queue => ?_) (funext fun w => ?_) rfl rfl rfl
  · cases queue with
    | pio => rfl
    | io idx =>
        have hold : s.jobs (.io idx) = [] := by simp [jobs, access, hnone]
        show (s.startIo n pio).jobs (.io idx) = s.jobs (.io idx)
        rw [hold]
        by_cases hlt : idx < n
        · simp [jobs, access, startIo, hlt, BlockingQueue.new]
        · simp [jobs, access, startIo, hlt]
  · cases w with
    | pio index => rfl
    | io index =>
        have hold : s.job (.io index) = none :=
          job_exited fun wk hw => hexited wk (Phases.mem_io hw)
        show (s.startIo n pio).job (.io index) = s.job (.io index)
        rw [hold]
        apply job_idle
        intro wk hw
        rw [List.eq_of_mem_replicate (Phases.mem_io hw)]
        rfl

theorem board_startPio (hp : s.Phases) {pio : BitVec 32} (hpc : s.control = .startPio pio)
    (n : Nat) :
    { s with pioThreadGroup := List.replicate n .new, control := .startDone }.board = s.board := by
  have hexited := hp.pioJoined (by simp [PioJoined, hpc])
  refine Board.ext rfl rfl rfl (funext fun w => ?_) rfl rfl rfl
  cases w with
  | io index => rfl
  | pio index =>
      have hold : s.job (.pio index) = none :=
        job_exited fun wk hw => hexited wk (Phases.mem_pio hw)
      refine Eq.trans (job_idle fun wk hw => ?_) hold.symm
      rw [List.eq_of_mem_replicate (Phases.mem_pio hw)]
      rfl

/-- An end marker does not show. -/
theorem jobs_pushEmpty {queue : QueueId} {q q' : BlockingQueue (Option RequestEx)}
    (hq : s.access queue = .ok q) (hpush : q'.queue = q.queue ++ [none]) :
    (s.setQueue queue q').jobs = s.jobs := by
  rw [jobs_setQueue hq, hpush, List.reduceOption_append]
  simp [← jobs_of_access hq]

/-- What `Stop` deletes is what the io queues show, and end markers. -/
theorem mem_dropped (e : RequestEx) :
    e ∈ ((s.ioRequestQueues.getD []).flatMap fun q => q.queue).reduceOption ↔
      ∃ idx, e ∈ s.jobs (.io idx) := by
  cases hqs : s.ioRequestQueues with
  | none => simp [jobs, access, hqs]
  | some queues =>
      have hjobs : ∀ idx q, queues[idx]? = some q → s.jobs (.io idx) = q.queue.reduceOption :=
        fun idx q hidx => jobs_of_access (by simp [access, hqs, hidx])
      simp only [Option.getD_some, List.reduceOption_mem_iff, List.mem_flatMap]
      constructor
      · rintro ⟨q, hq, he⟩
        obtain ⟨idx, hidx⟩ := List.mem_iff_getElem?.mp hq
        refine ⟨idx, ?_⟩
        rw [hjobs idx q hidx]
        exact List.reduceOption_mem_iff.mpr he
      · rintro ⟨idx, he⟩
        cases hidx : queues[idx]? with
        | none => simp [jobs, access, hqs, hidx] at he
        | some q =>
            rw [hjobs idx q hidx] at he
            exact ⟨q, List.mem_of_getElem? hidx, List.reduceOption_mem_iff.mp he⟩

variable [DecidableEq Tid]

theorem step_deleteIo : s.board.Step s.deleteIo.board := by
  have hboard : s.deleteIo.board = { s.board with
      jobs := Board.dropJobs s.board.jobs
      life := fun e => (s.board.life e).dropIo
      dropped := s.board.dropped ++
        ((s.ioRequestQueues.getD []).flatMap fun q => q.queue).reduceOption } := by
    refine Board.ext rfl rfl (funext fun queue => ?_) rfl rfl rfl ?_
    · cases queue with
      | io idx => simp [board, jobs, access, deleteIo, Board.dropJobs]
      | pio => rfl
    · exact List.reduceOption_append ..
  rw [hboard]
  exact .drop mem_dropped

theorem sending_update (submitters : Tid → Submitter) (t : Tid) (pc : Submitter) :
    (fun u => (Function.update submitters t pc u).call.map Prod.snd) =
      Function.update (fun u => (submitters u).call.map Prod.snd) t (pc.call.map Prod.snd) := by
  funext u
  by_cases hu : u = t
  · subst hu
    simp
  · simp [hu]

/-- A worker goes on to another stage of its command. -/
theorem step_reach {w : WorkerId} {wk : Worker} {e : RequestEx} {old req : Request}
    {stage stage' : Stage} (hw : s.workerAt w = some wk) (hpc : wk.pc = .serving e stage)
    (hold : s.requests[e.request]? = some old) (htargets : req.targets = old.targets)
    (hnext : stage.Next stage') : s.board.Step (s.reach w wk e req stage').board := by
  have hjob : s.board.job w = some (e, stage) := by
    show s.job w = _
    rw [job_of_pc hw, hpc]
    rfl
  have hboard : (s.reach w wk e req stage').board = { s.board with
      job := Function.update s.board.job w (some (e, stage'))
      life := Function.update s.board.life e (.held w stage') } :=
    Board.ext (sizes_set hold htargets) rfl rfl (job_setWorker hw _) rfl rfl rfl
  rw [hboard]
  exact .reach hjob hnext

omit [DecidableEq Tid] in
/-- The board has the number of commands in the call. -/
theorem Copies.size (hc : s.Copies) {t : Tid} {cmds : List Command} {e : RequestEx}
    (hcall : (s.submitters t).call = some (cmds, e)) :
    s.board.sizes[e.request]? = some cmds.length := by
  obtain ⟨req, hreq, htargets⟩ := hc.copied t cmds e hcall
  have hlen : req.cmds.length = cmds.length := by
    simpa [Request.targets] using congrArg List.length htargets
  simp [State.board, hreq, hlen]

/-- Every move is a step of the board or leaves it as it is. -/
theorem Move.board {l : Label Tid} (hm : s.Move l s') (hp : s.Phases) (hc : s.Copies) :
    s'.board = s.board ∨ s.board.Step s'.board := by
  cases hm with
  | refused => exact Or.inl rfl
  | startIo hpc => exact Or.inl (board_startIo hp hpc _)
  | startPio hpc => exact Or.inl (board_startPio hp hpc _)
  | emptyIo hpc hi hq hpush =>
      exact Or.inl (Board.ext rfl rfl (jobs_pushEmpty hq hpush) rfl rfl rfl rfl)
  | @emptyPio i q' cpuNum hpc hi hpush =>
      have hq : s.access .pio = .ok s.pioRequestQueue := rfl
      exact Or.inl (Board.ext rfl rfl (jobs_pushEmpty hq hpush) rfl rfl rfl rfl)
  | deleteIo hpc => exact Or.inr step_deleteIo
  | @accept t cmds cb arg now hpc hs =>
      have hidle : s.board.sending t = none := by simp [State.board, hpc, Submitter.call]
      have hboard : (s.accept t cmds cb arg now).board = { s.board with
          sizes := s.board.sizes ++ [cmds.length]
          sending := Function.update s.board.sending t (some ⟨s.board.sizes.length, 0⟩) } := by
        refine Board.ext ?_ ?_ rfl rfl rfl rfl rfl
        · simp [State.board, State.accept, Request.new]
        · have hlen : s.board.sizes.length = s.requests.length := by simp [State.board]
          rw [hlen]
          exact sending_update ..
      rw [hboard]
      exact Or.inr (.accept cmds.length hidle)
  | @choose t cmds e cmd hpc hcmd hn =>
      refine Or.inl (Board.ext rfl ?_ rfl rfl rfl rfl rfl)
      refine (sending_update ..).trans (Function.update_eq_self_iff.mpr ?_)
      simp [hpc, Submitter.call]
  | @send t cmds e queue q q' hpc hq hpush =>
      have hsending : s.board.sending t = some e := by simp [State.board, hpc, Submitter.call]
      have hsize := hc.size (by rw [hpc]; rfl : (s.submitters t).call = some (cmds, e))
      have hboard : (s.sent t cmds e queue q').board = { s.board with
          sending := Function.update s.board.sending t (some ⟨e.request, e.cmdIdx + 1⟩)
          jobs := Function.update s.board.jobs queue (s.board.jobs queue ++ [e])
          life := Function.update s.board.life e (.queued queue) } := by
        refine Board.ext rfl (sending_update ..) ?_ rfl rfl rfl rfl
        have hjobs : s.board.jobs queue ++ [e] = q'.queue.reduceOption := by
          show s.jobs queue ++ [e] = _
          rw [jobs_of_access hq, hpush, List.reduceOption_append]
          rfl
        rw [hjobs]
        exact jobs_setQueue hq q'
      rw [hboard]
      exact Or.inr (.send queue hsending hsize (hc.chosen t cmds e queue hpc))
  | @submitted t cmds e hpc hend =>
      have hsending : s.board.sending t = some e := by simp [State.board, hpc, Submitter.call]
      have hsize := hc.size (by rw [hpc]; rfl : (s.submitters t).call = some (cmds, e))
      have hboard : (s.submitted t e.request).board = { s.board with
          sending := Function.update s.board.sending t none } :=
        Board.ext rfl (sending_update ..) rfl rfl rfl rfl rfl
      rw [hboard]
      exact Or.inr (.retire hsending hsize (List.getElem?_eq_none_iff.mp hend))
  | @leave w wk q q' answer hw hpc hq hpop =>
      refine Or.inl (Board.ext rfl rfl ?_ ?_ rfl rfl rfl)
      · refine (jobs_setQueue hq q').trans (Function.update_eq_self_iff.mpr ?_)
        rw [jobs_of_access hq, hpop]
        rfl
      · refine (job_setWorker hw _).trans (Function.update_eq_self_iff.mpr ?_)
        rw [job_of_pc hw, hpc]
        rfl
  | @take w wk e q q' answer hw hpc hq hpop =>
      have hjob : s.board.job w = none := by
        show s.job w = none
        rw [job_of_pc hw, hpc]
        rfl
      have hjobs : s.board.jobs w.queue = e :: q'.queue.reduceOption := by
        show s.jobs w.queue = _
        rw [jobs_of_access hq, hpop]
        rfl
      have hboard : (s.take w wk e q').board = { s.board with
          jobs := Function.update s.board.jobs w.queue q'.queue.reduceOption
          job := Function.update s.board.job w (some (e, .popped))
          life := Function.update s.board.life e (.held w .popped) } :=
        Board.ext rfl rfl (jobs_setQueue hq q') (job_setWorker hw _) rfl rfl rfl
      rw [hboard]
      exact Or.inr (.take hjob hjobs)
  | @execute w wk e req cmd answer hw hpc hreq hcmd =>
      refine Or.inr (step_reach hw hpc hreq (Request.targets_storeRet ..) ?_)
      split
      · exact .fail _
      · exact .succeed
  | countFail hw hpc hreq =>
      exact Or.inr (step_reach hw hpc hreq (Request.targets_storeError ..) (.countFail _))
  | countDone hw hpc hreq => exact Or.inr (step_reach hw hpc hreq rfl (.count _))
  | @finish w wk e req prevCnt answer hw hpc hreq =>
      have hjob : s.board.job w = some (e, .counted prevCnt) := by
        show s.job w = _
        rw [job_of_pc hw, hpc]
        rfl
      have hboard : (s.finish w wk e req prevCnt).board = { s.board with
          job := Function.update s.board.job w none
          life := Function.update s.board.life e .done
          finished := s.board.finished ++ [e] } :=
        Board.ext rfl rfl rfl (job_setWorker hw _) rfl rfl rfl
      rw [hboard]
      exact Or.inr (.finish hjob)
  | _ => exact Or.inl rfl

/-! ## Reachable states -/

omit [DecidableEq Tid] in
theorem start_board : (start Tid).board = Board.start Tid := by
  refine Board.ext rfl rfl (funext fun queue => ?_) (funext fun w => ?_) rfl rfl rfl
  · cases queue <;> rfl
  · cases w <;> rfl

/-- What holds in every reachable state, whoever calls what and when. -/
structure Inv (s : State Tid) : Prop where
  phases : s.Phases
  copies : s.Copies
  sound : s.board.Sound

omit [DecidableEq Tid] in
theorem start_inv : (start Tid).Inv :=
  ⟨start_phases, start_copies, start_board ▸ Board.start_sound⟩

theorem Inv.move (h : s.Inv) {l : Label Tid} (hm : s.Move l s') : s'.Inv := by
  refine ⟨h.phases.move hm, h.copies.move hm, ?_⟩
  rcases hm.board h.phases h.copies with heq | hstep
  · rw [heq]
    exact h.sound
  · exact h.sound.step hstep

theorem Inv.of_reachable (h : Machine.Reachable step (start Tid) s) : s.Inv :=
  h.invariant Inv start_inv fun _ _ _ hs hstep => hs.move (step_move hstep)

end State

end XfUtil.Aio
