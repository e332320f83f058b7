import XfUtil.Aio.Refinement
import XfUtil.Base.Countdown

/-!
# Completion of requests

`m_cmd_fail_cnt` and `m_completed_cnt` are the two counters of a countdown whose
jobs are the request's commands, wherever the board has them. The callback is
its report.
-/

namespace XfUtil.Aio

/-- How far a command has got with the counters of its request. -/
def Life.progress : Life → Countdown.Progress 32
  | .held _ (.failed _) => .failed
  | .held _ .settled => .settled
  | .held _ (.counted prevCnt) => .counted prevCnt
  | .done => .done
  | .unsent | .queued _ | .held _ .popped | .lost => .before

theorem Life.progress_dropIo (l : Life) : l.dropIo.progress = l.progress := by
  cases l with
  | queued queue => cases queue <;> rfl
  | unsent | held | done | lost => rfl

/-- The command's `ret` is -1. -/
def Request.failedAt (req : Request) (i : Nat) : Bool := req.cmds[i]?.any fun cmd => cmd.ret == -1

namespace Request

theorem failedAt_storeRet {req : Request} {idx : Nat} {cmd : Command}
    (hcmd : req.cmds[idx]? = some cmd) (ret : BitVec 64) :
    (req.storeRet idx ret).failedAt idx = (ret == -1) := by
  simp [failedAt, storeRet, List.getElem?_modify_eq, hcmd]

theorem failedAt_storeRet_ne {req : Request} {idx i : Nat} (hne : i ≠ idx) (ret : BitVec 64) :
    (req.storeRet idx ret).failedAt i = req.failedAt i := by
  simp [failedAt, storeRet, List.getElem?_modify_ne _ _ hne.symm]

theorem failedAt_storeError (req : Request) (idx : Nat) (error : BitVec 32) :
    (req.storeError idx error).failedAt = req.failedAt := by
  funext i
  simp only [failedAt, storeError, List.getElem?_modify]
  cases req.cmds[i]? with
  | none => rfl
  | some c => by_cases hi : idx = i <;> simp [hi]

theorem cmds_storeError {req : Request} (idx : Nat) (error : BitVec 32) {i : Nat} {cmd : Command}
    (hcmd : req.cmds[i]? = some cmd) : ∃ cmd' : Command,
      (req.storeError idx error).cmds[i]? = some cmd' ∧ cmd'.ret = cmd.ret ∧
        cmd'.sysCall = cmd.sysCall := by
  simp only [storeError, List.getElem?_modify, hcmd]
  by_cases hi : idx = i
  · exact ⟨{ cmd with error := error }, by simp [hi], rfl, rfl⟩
  · exact ⟨cmd, by simp [hi], rfl, rfl⟩

/-- On sizes that the 32-bit counter can reach, the test finds the last command. -/
theorem isLast_iff {req : Request} (hpos : 0 < req.cmds.length) (hle : req.cmds.length ≤ 2 ^ 32)
    (prevCnt : BitVec 32) : req.isLast prevCnt = true ↔ prevCnt.toNat + 1 = req.cmds.length := by
  have hone : (1 : BitVec 64).toNat = 1 := rfl
  have hsize : (BitVec.ofNat 64 req.cmds.length - 1).toNat = req.cmds.length - 1 := by
    have hlt : req.cmds.length < 2 ^ 64 := by omega
    rw [BitVec.toNat_sub, BitVec.toNat_ofNat, hone, Nat.mod_eq_of_lt hlt]
    omega
  have hprev : prevCnt.toNat < 2 ^ 64 := by
    have hlt := prevCnt.isLt
    omega
  rw [isLast, beq_iff_eq, ← BitVec.toNat_inj, BitVec.toNat_setWidth, hsize, Nat.mod_eq_of_lt hprev]
  omega

end Request

namespace State

variable {Tid : Type*} {s s' : State Tid}

/-- The commands of a request, as jobs of a countdown. -/
def view (s : State Tid) (r i : Nat) : Countdown.Progress 32 := (s.log.life ⟨r, i⟩).progress

/-- The invocations of a request's callback. -/
def callbacksOf (s : State Tid) (r : Nat) : List Callback :=
  (s.log.callbacks.filter fun call => call.1 = r).map Prod.snd

/-! ## The invariant -/

/-- Counters and callbacks of a request. -/
structure Counted (s : State Tid) (r : Nat) (req : Request) : Prop where
  tallied : Countdown.Tallied req.cmds.length (s.view r) req.failedAt req.cmdFailCnt
    req.completedCnt (s.callbacksOf r).length
  /-- A callback has been given what is in the request now, and for good. -/
  final : 0 < req.cmds.length → req.cmds.length ≤ 2 ^ 32 → ∀ cb ∈ s.callbacksOf r, cb = req.complete

/-- A result is stored exactly for the commands that have been executed. -/
structure Executed (s : State Tid) : Prop where
  once : (s.log.executed.map Execution.reqEx).Nodup
  mem_iff : ∀ e, e ∈ s.log.executed.map Execution.reqEx ↔ (s.log.life e).progress ≠ .before
  stored : ∀ x ∈ s.log.executed, ∃ (req : Request) (cmd : Command),
    s.requests[x.reqEx.request]? = some req ∧ req.cmds[x.reqEx.cmdIdx]? = some cmd ∧
      cmd.ret = x.ret ∧ cmd.sysCall = x.call

structure Completing (s : State Tid) : Prop where
  counted : ∀ (r : Nat) (req : Request), s.requests[r]? = some req → s.Counted r req
  quiet : ∀ r, s.requests.length ≤ r → s.callbacksOf r = []
  executed : s.Executed

theorem start_completing : (start Tid).Completing := by
  refine ⟨?_, ?_, ?_, ?_, ?_⟩ <;> simp [start, Log.empty, callbacksOf, Life.progress]

/-! ## Steps that do not touch a command in progress -/

theorem Counted.congr {r : Nat} {req : Request} (h : s.Counted r req)
    (hview : s'.view r = s.view r) (hcalls : s'.callbacksOf r = s.callbacksOf r) :
    s'.Counted r req := by
  refine ⟨?_, ?_⟩
  · rw [hview, hcalls]
    exact h.tallied
  · rw [hcalls]
    exact h.final

theorem Completing.congr (h : s.Completing)
    (hlife : ∀ e, (s'.log.life e).progress = (s.log.life e).progress)
    (hreqs : s'.requests = s.requests) (hcalls : s'.log.callbacks = s.log.callbacks)
    (hexec : s'.log.executed = s.log.executed) : s'.Completing := by
  have hof : ∀ r, s'.callbacksOf r = s.callbacksOf r := fun r => by simp [callbacksOf, hcalls]
  refine ⟨fun r req hreq => ?_, fun r hr => ?_, ?_, fun e => ?_, ?_⟩
  · rw [hreqs] at hreq
    exact (h.counted r req hreq).congr (funext fun i => hlife ⟨r, i⟩) (hof r)
  · rw [hof]
    exact h.quiet r (hreqs ▸ hr)
  · rw [hexec]
    exact h.executed.once
  · rw [hexec, hlife]
    exact h.executed.mem_iff e
  · rw [hexec, hreqs]
    exact h.executed.stored

/-- A command moves on, but not as far as its execution. -/
theorem Completing.congr_move (h : s.Completing) {e : RequestEx} {l : Life}
    (hold : (s.log.life e).progress = .before) (hnew : l.progress = .before)
    (hlife : s'.log.life = Function.update s.log.life e l)
    (hreqs : s'.requests = s.requests) (hcalls : s'.log.callbacks = s.log.callbacks)
    (hexec : s'.log.executed = s.log.executed) : s'.Completing := by
  refine h.congr (fun x => ?_) hreqs hcalls hexec
  rw [hlife]
  by_cases hx : x = e
  · subst hx
    rw [Function.update_self, hnew, hold]
  · rw [Function.update_of_ne hx]

theorem Completing.accept [DecidableEq Tid] (h : s.Completing) (hsound : s.board.Sound) (t : Tid)
    (cmds : List Command) (cb arg : Nat) (now : BitVec 64) :
    (s.accept t cmds cb arg now).Completing := by
  have hsize : s.board.sizes[s.requests.length]? = none := by simp [State.board]
  have hunsent : ∀ i, s.log.life ⟨s.requests.length, i⟩ = .unsent := by
    intro i
    by_contra hne
    obtain ⟨n, hn, -⟩ := hsound.sent.known ⟨s.requests.length, i⟩ hne
    rw [hsize] at hn
    cases hn
  refine ⟨fun r req hreq => ?_, fun r hr => h.quiet r ?_, h.executed.once, h.executed.mem_iff,
    fun x hx => ?_⟩
  · by_cases hr : r < s.requests.length
    · have hreq' : s.requests[r]? = some req := (List.getElem?_append_left hr).symm.trans hreq
      exact (h.counted r req hreq').congr rfl rfl
    · obtain ⟨hlt, -⟩ := List.getElem?_eq_some_iff.mp hreq
      simp only [State.accept, List.length_append, List.length_singleton] at hlt
      obtain rfl : r = s.requests.length := by omega
      obtain rfl : Request.new cmds cb arg now = req :=
        Option.some.inj (List.getElem?_concat_length.symm.trans hreq)
      have hview : (s.accept t cmds cb arg now).view s.requests.length = fun _ => .before := by
        funext i
        show (s.log.life _).progress = _
        rw [hunsent]
        rfl
      have hcalls : (s.accept t cmds cb arg now).callbacksOf s.requests.length = [] :=
        h.quiet _ le_rfl
      refine ⟨?_, ?_⟩
      · rw [hview, hcalls]
        exact Countdown.Tallied.new ..
      · rw [hcalls]
        simp
  · simp only [State.accept, List.length_append, List.length_singleton] at hr
    omega
  · obtain ⟨req, cmd, hreq, hrest⟩ := h.executed.stored x hx
    have hlt := (List.getElem?_eq_some_iff.mp hreq).1
    exact ⟨req, cmd, (List.getElem?_append_left hlt).trans hreq, hrest⟩

/-! ## Steps of `ProcessRequest` -/

theorem view_update {e : RequestEx} {l : Life}
    (hlife : s'.log.life = Function.update s.log.life e l) :
    s'.view e.request = Function.update (s.view e.request) e.cmdIdx l.progress := by
  funext i
  simp only [view, hlife]
  by_cases hi : i = e.cmdIdx
  · subst hi
    simp
  · have hne : (⟨e.request, i⟩ : RequestEx) ≠ e := fun heq => hi (congrArg RequestEx.cmdIdx heq)
    rw [Function.update_of_ne hne, Function.update_of_ne hi]
    rfl

/-- Work on one command changes its request, and nothing about the others. -/
theorem Completing.work (h : s.Completing) {e : RequestEx} {l : Life} {req req' : Request}
    (hold : s.requests[e.request]? = some req)
    (hlife : s'.log.life = Function.update s.log.life e l)
    (hreqs : s'.requests = s.requests.set e.request req')
    (hcalls : ∀ r, r ≠ e.request → s'.callbacksOf r = s.callbacksOf r)
    (hcounted : s'.Counted e.request req') (hexec : s'.Executed) : s'.Completing := by
  refine ⟨fun r req hreq => ?_, fun r hr => ?_, hexec⟩
  · rw [hreqs] at hreq
    by_cases hr : r = e.request
    · subst hr
      have hlt : e.request < s.requests.length := by
        simpa using (List.getElem?_eq_some_iff.mp hreq).1
      rw [List.getElem?_set_self hlt] at hreq
      cases hreq
      exact hcounted
    · rw [List.getElem?_set_ne fun heq => hr heq.symm] at hreq
      refine (h.counted r req hreq).congr (funext fun i => ?_) (hcalls r hr)
      have hne : (⟨r, i⟩ : RequestEx) ≠ e := fun heq => hr (congrArg RequestEx.request heq)
      simp only [view, hlife, Function.update_of_ne hne]
  · rw [hreqs, List.length_set] at hr
    have hlt := (List.getElem?_eq_some_iff.mp hold).1
    rw [hcalls r (by omega)]
    exact h.quiet r hr

/-- While one of its commands has not been counted, a request has not called back. -/
theorem Counted.no_callback {r : Nat} {req : Request} (h : s.Counted r req)
    (hpos : 0 < req.cmds.length) (hle : req.cmds.length ≤ 2 ^ 32) {i : Nat}
    (hi : i < req.cmds.length) (hcounts : (s.view r i).counts = false) : s.callbacksOf r = [] := by
  by_contra hne
  have hall := h.tallied.counts_of_report hpos hle (List.length_pos_iff.mpr hne) i hi
  rw [hcounts] at hall
  cases hall

/-- Work after the execution keeps the results. -/
theorem Executed.keep (h : s.Executed) {e : RequestEx} {l : Life} {req req' : Request}
    (hlife : s'.log.life = Function.update s.log.life e l)
    (hold : (s.log.life e).progress ≠ .before) (hnew : l.progress ≠ .before)
    (hreq : s.requests[e.request]? = some req)
    (hreqs : s'.requests = s.requests.set e.request req')
    (hcmds : ∀ (i : Nat) (cmd : Command), req.cmds[i]? = some cmd → ∃ cmd' : Command,
      req'.cmds[i]? = some cmd' ∧ cmd'.ret = cmd.ret ∧ cmd'.sysCall = cmd.sysCall)
    (hexec : s'.log.executed = s.log.executed) : s'.Executed := by
  refine ⟨hexec ▸ h.once, fun x => ?_, fun x hx => ?_⟩
  · rw [hexec, h.mem_iff, hlife]
    by_cases hx : x = e
    · subst hx
      rw [Function.update_self]
      exact iff_of_true hold hnew
    · rw [Function.update_of_ne hx]
  · rw [hexec] at hx
    obtain ⟨req₁, cmd, hreq₁, hcmd, hret, hcall⟩ := h.stored x hx
    rw [hreqs]
    by_cases hr : x.reqEx.request = e.request
    · rw [hr] at hreq₁ ⊢
      rw [hreq] at hreq₁
      cases hreq₁
      obtain ⟨cmd', hcmd', hret', hcall'⟩ := hcmds _ cmd hcmd
      exact ⟨req', cmd', List.getElem?_set_self (List.getElem?_eq_some_iff.mp hreq).1, hcmd',
        hret'.trans hret, hcall'.trans hcall⟩
    · exact ⟨req₁, cmd, by rwa [List.getElem?_set_ne fun heq => hr heq.symm], hcmd, hret, hcall⟩

/-- The life of a served command. -/
theorem Inv.life_serving (h : s.Inv) {w : WorkerId} {wk : Worker} {e : RequestEx} {stage : Stage}
    (hw : s.workerAt w = some wk) (hpc : wk.pc = .serving e stage) :
    s.log.life e = .held w stage := by
  refine (h.sound.placed.agree e (.held w stage)).mpr ?_
  show s.job w = _
  rw [job_of_pc hw, hpc]
  rfl

theorem Completing.execute (h : s.Completing) {w : WorkerId} {wk : Worker} {e : RequestEx}
    {req : Request} {cmd : Command} (hlife : s.log.life e = .held w .popped)
    (hreq : s.requests[e.request]? = some req) (hcmd : req.cmds[e.cmdIdx]? = some cmd)
    (answer : BitVec 64 × BitVec 32) : (s.execute w wk e req cmd answer).Completing := by
  have hidx : e.cmdIdx < req.cmds.length := (List.getElem?_eq_some_iff.mp hcmd).1
  have hview : s.view e.request e.cmdIdx = .before := by
    show (s.log.life e).progress = _
    rw [hlife]
    rfl
  have hcounted := h.counted _ req hreq
  have hlen : (req.storeRet e.cmdIdx (cmd.outcome answer).1).cmds.length = req.cmds.length :=
    List.length_modify ..
  have hnew : e ∉ s.log.executed.map Execution.reqEx := fun hmem =>
    (h.executed.mem_iff e).mp hmem hview
  have hprogress : (Life.held w (if (cmd.outcome answer).1 = -1 then .failed (cmd.outcome answer).2
      else .settled)).progress = if ((cmd.outcome answer).1 == -1) = true then .failed
        else .settled := by
    simp only [beq_iff_eq]
    split <;> rfl
  refine h.work hreq rfl rfl (fun _ _ => rfl) ⟨?_, fun hpos hle cb hcb => ?_⟩ ⟨?_, fun x => ?_, ?_⟩
  · have htallied := hcounted.tallied.execute hidx hview
      (fun j hj => Request.failedAt_storeRet_ne hj (cmd.outcome answer).1)
    rw [Request.failedAt_storeRet hcmd, ← hprogress] at htallied
    rw [view_update rfl, hlen]
    exact htallied
  · rw [hlen] at hpos hle
    have hnone := hcounted.no_callback hpos hle hidx (by rw [hview]; rfl)
    have hmem : cb ∈ s.callbacksOf e.request := hcb
    rw [hnone] at hmem
    cases hmem
  · show ((s.log.executed ++ [_]).map Execution.reqEx).Nodup
    rw [List.map_append]
    exact h.executed.once.append (List.nodup_singleton _) (by simpa using hnew)
  · show x ∈ (s.log.executed ++ [_]).map Execution.reqEx ↔
      (Function.update s.log.life e _ x).progress ≠ _
    rw [List.map_append, List.mem_append, h.executed.mem_iff]
    by_cases hx : x = e
    · subst hx
      rw [Function.update_self, hprogress]
      refine iff_of_true (Or.inr (by simp)) ?_
      split <;> simp
    · rw [Function.update_of_ne hx]
      simp [hx]
  · intro x hx
    rcases List.mem_append.mp hx with hx | hx
    · obtain ⟨req₁, cmd₁, hreq₁, hcmd₁, hret, hcall⟩ := h.executed.stored x hx
      have hne : x.reqEx ≠ e := fun heq => hnew (heq ▸ List.mem_map_of_mem hx)
      by_cases hr : x.reqEx.request = e.request
      · rw [hr, hreq] at hreq₁
        cases hreq₁
        have hidx' : e.cmdIdx ≠ x.reqEx.cmdIdx := fun heq => hne (by
          cases hxe : x.reqEx with
          | mk r i =>
              rw [hxe] at hr heq
              simp only at hr heq
              rw [hr, ← heq])
        refine ⟨req.storeRet e.cmdIdx (cmd.outcome answer).1, cmd₁, ?_, ?_, hret, hcall⟩
        · rw [hr]
          exact List.getElem?_set_self (List.getElem?_eq_some_iff.mp hreq).1
        · exact (List.getElem?_modify_ne _ _ hidx').trans hcmd₁
      · refine ⟨req₁, cmd₁, ?_, hcmd₁, hret, hcall⟩
        exact (List.getElem?_set_ne fun heq => hr heq.symm).trans hreq₁
    · obtain rfl := List.mem_singleton.mp hx
      refine ⟨req.storeRet e.cmdIdx (cmd.outcome answer).1,
        { cmd with ret := (cmd.outcome answer).1 }, ?_, ?_, rfl, rfl⟩
      · exact List.getElem?_set_self (List.getElem?_eq_some_iff.mp hreq).1
      · simp [Request.storeRet, List.getElem?_modify_eq, hcmd]

/-- Between the execution of a command and its counting. -/
theorem Completing.reach (h : s.Completing) {w : WorkerId} {wk : Worker} {e : RequestEx}
    {req req' : Request} {stage stage' : Stage} (hlife : s.log.life e = .held w stage)
    (hreq : s.requests[e.request]? = some req)
    (hold : (Life.held w stage).progress ≠ .before)
    (hcounts : (Life.held w stage).progress.counts = false)
    (hnew : (Life.held w stage').progress ≠ .before)
    (hcmds : ∀ (i : Nat) (cmd : Command), req.cmds[i]? = some cmd → ∃ cmd' : Command,
      req'.cmds[i]? = some cmd' ∧ cmd'.ret = cmd.ret ∧ cmd'.sysCall = cmd.sysCall)
    (hlen : req'.cmds.length = req.cmds.length)
    (htallied : Countdown.Tallied req.cmds.length
      (Function.update (s.view e.request) e.cmdIdx (Life.held w stage').progress) req'.failedAt
      req'.cmdFailCnt req'.completedCnt (s.callbacksOf e.request).length) :
    (s.reach w wk e req' stage').Completing := by
  have hview : s.view e.request e.cmdIdx = (Life.held w stage).progress := by
    show (s.log.life e).progress = _
    rw [hlife]
  have hcounted := h.counted _ req hreq
  have hidx : e.cmdIdx < req.cmds.length := hcounted.tallied.inside _ (by rw [hview]; exact hold)
  refine h.work hreq rfl rfl (fun _ _ => rfl) ⟨?_, fun hpos hle cb hcb => ?_⟩
    (h.executed.keep rfl (by rw [hlife]; exact hold) hnew hreq rfl hcmds rfl)
  · rw [view_update rfl, hlen]
    exact htallied
  · rw [hlen] at hpos hle
    have hnone := hcounted.no_callback hpos hle hidx (by rw [hview]; exact hcounts)
    have hmem : cb ∈ s.callbacksOf e.request := hcb
    rw [hnone] at hmem
    cases hmem

theorem callbacksOf_finish {w : WorkerId} {wk : Worker} {e : RequestEx} {req : Request}
    {prevCnt : BitVec 32} (r : Nat) :
    (s.finish w wk e req prevCnt).callbacksOf r =
      s.callbacksOf r ++
        if r = e.request ∧ req.isLast prevCnt = true then [req.complete] else [] := by
  by_cases hlast : req.isLast prevCnt = true
  · by_cases hr : r = e.request
    · subst hr
      simp [callbacksOf, State.finish, setWorker, hlast]
    · have hr' : ¬ e.request = r := fun heq => hr heq.symm
      simp [callbacksOf, State.finish, setWorker, hlast, hr, hr']
  · simp [callbacksOf, State.finish, setWorker, hlast]

theorem Completing.finish (h : s.Completing) {w : WorkerId} {wk : Worker} {e : RequestEx}
    {req : Request} {prevCnt : BitVec 32} (hlife : s.log.life e = .held w (.counted prevCnt))
    (hreq : s.requests[e.request]? = some req) :
    (s.finish w wk e req prevCnt).Completing := by
  have hview : s.view e.request e.cmdIdx = .counted prevCnt := by
    show (s.log.life e).progress = _
    rw [hlife]
    rfl
  have hset : s.requests = s.requests.set e.request req := by
    obtain ⟨hlt, hget⟩ := List.getElem?_eq_some_iff.mp hreq
    rw [← hget, List.set_getElem_self]
  have hcounted := h.counted _ req hreq
  refine h.work hreq rfl hset (fun r hr => ?_) ⟨?_, fun hpos hle cb hcb => ?_⟩
    (h.executed.keep rfl (by rw [hlife]; simp [Life.progress]) (by simp [Life.progress]) hreq hset
      (fun i cmd hcmd => ⟨cmd, hcmd, rfl, rfl⟩) rfl)
  · rw [callbacksOf_finish]
    simp [hr]
  · rw [view_update rfl]
    refine hcounted.tallied.finish hview fun hpos hle => ?_
    rw [callbacksOf_finish, List.length_append]
    by_cases hlast : req.isLast prevCnt = true
    · rw [if_pos ⟨rfl, hlast⟩, if_pos ((Request.isLast_iff hpos hle _).mp hlast)]
      rfl
    · rw [if_neg fun hr => hlast hr.2,
        if_neg fun heq => hlast ((Request.isLast_iff hpos hle _).mpr heq)]
      rfl
  · rw [callbacksOf_finish] at hcb
    rcases List.mem_append.mp hcb with hcb | hcb
    · exact hcounted.final hpos hle cb hcb
    · split at hcb
      · exact List.mem_singleton.mp hcb
      · cases hcb

variable [DecidableEq Tid]

theorem Completing.move (h : s.Completing) (hinv : s.Inv) {l : Label Tid} (hm : s.Move l s') :
    s'.Completing := by
  cases hm with
  | refused => exact h
  | accept hpc hs => exact h.accept hinv.sound _ _ _ _ _
  | @send t cmds e queue q q' hpc hq hpush =>
      have hlife : s.log.life e = .unsent := hinv.sound.sent.unsent (t := t) (by
        simp [State.board, hpc, Submitter.call])
      exact h.congr_move (e := e) (by rw [hlife]; rfl) rfl rfl rfl rfl rfl
  | @take w wk e q q' answer hw hpc hq hpop =>
      have hlife : s.log.life e = .queued w.queue := (hinv.sound.placed.agree e _).mpr (by
        show e ∈ s.jobs w.queue
        rw [jobs_of_access hq, hpop]
        simp)
      exact h.congr_move (e := e) (by rw [hlife]; rfl) rfl rfl rfl rfl rfl
  | deleteIo hpc =>
      exact h.congr (fun e => (s.log.life e).progress_dropIo) rfl rfl rfl
  | @execute w wk e req cmd answer hw hpc hreq hcmd =>
      exact h.execute (hinv.life_serving hw hpc) hreq hcmd answer
  | @countFail w wk e req lastError answer hw hpc hreq =>
      have hlife := hinv.life_serving hw hpc
      have hview : s.view e.request e.cmdIdx = .failed := by
        show (s.log.life e).progress = _
        rw [hlife]
        rfl
      refine h.reach hlife hreq (by simp [Life.progress]) rfl (by simp [Life.progress])
        (fun i cmd hcmd => Request.cmds_storeError e.cmdIdx lastError hcmd)
        (List.length_modify ..) ?_
      have hbad : (req.storeError e.cmdIdx lastError).countFail.failedAt = req.failedAt :=
        Request.failedAt_storeError ..
      rw [hbad]
      exact (h.counted _ req hreq).tallied.countFail hview
  | @countDone w wk e req answer hw hpc hreq =>
      have hlife := hinv.life_serving hw hpc
      have hview : s.view e.request e.cmdIdx = .settled := by
        show (s.log.life e).progress = _
        rw [hlife]
        rfl
      exact h.reach hlife hreq (by simp [Life.progress]) rfl (by simp [Life.progress])
        (fun i cmd hcmd => ⟨cmd, hcmd, rfl, rfl⟩) rfl
        ((h.counted _ req hreq).tallied.countSelf hview)
  | finish hw hpc hreq => exact h.finish (hinv.life_serving hw hpc) hreq
  | _ => exact h.congr (fun _ => rfl) rfl rfl rfl

theorem Completing.of_reachable (h : Machine.Reachable step (start Tid) s) : s.Completing := by
  have hboth : s.Inv ∧ s.Completing :=
    h.invariant (fun s => s.Inv ∧ s.Completing) ⟨start_inv, start_completing⟩
      fun _ _ _ hs hstep => ⟨hs.1.move (step_move hstep), hs.2.move hs.1 (step_move hstep)⟩
  exact hboth.2

/-! ## The completion protocol -/

omit [DecidableEq Tid] in
/-- When a request calls back, the results of all its commands are there. -/
theorem Completing.results (h : s.Completing) {r : Nat} {req : Request}
    (hreq : s.requests[r]? = some req) (hpos : 0 < req.cmds.length)
    (hle : req.cmds.length ≤ 2 ^ 32) {cb : Callback} (hcb : cb ∈ s.callbacksOf r) :
    cb.cmds = req.cmds ∧
      (∀ i < req.cmds.length, ∃ x ∈ s.log.executed, x.reqEx = ⟨r, i⟩ ∧
        cb.cmds[i]?.map Command.ret = some x.ret) ∧
      cb.cmdFailCnt = BitVec.ofNat 32 (cb.cmds.countP fun cmd => cmd.ret == -1) := by
  have hcounted := h.counted r req hreq
  obtain rfl := hcounted.final hpos hle cb hcb
  have hall := hcounted.tallied.counts_of_report hpos hle (List.length_pos_of_mem hcb)
  refine ⟨rfl, fun i hi => ?_, ?_⟩
  · have hprogress : (s.log.life ⟨r, i⟩).progress ≠ .before := by
      intro hbefore
      have hcounts : (s.view r i).counts = true := hall i hi
      rw [view, hbefore] at hcounts
      cases hcounts
    obtain ⟨x, hx, hxe⟩ := List.mem_map.mp ((h.executed.mem_iff _).mpr hprogress)
    obtain ⟨req', cmd, hreq', hcmd, hret, -⟩ := h.executed.stored x hx
    rw [hxe, hreq] at hreq'
    cases hreq'
    rw [hxe] at hcmd
    exact ⟨x, hx, hxe, by simp [Request.complete, hcmd, hret]⟩
  · show req.cmdFailCnt = _
    rw [hcounted.tallied.failures_of_counts hall]
    congr 1
    exact Countdown.count_any req.cmds _

/-- However the commands of a request are spread over queues and workers, and
whatever else goes on: the callback is invoked at most once; when it is, every
command has its result, and the failure count is the number of failures; and
once every command has been processed, it has been invoked. -/
theorem completion_protocol (h : Machine.Reachable step (start Tid) s) {r : Nat} {req : Request}
    (hreq : s.requests[r]? = some req) (hpos : 0 < req.cmds.length)
    (hlt : req.cmds.length < 2 ^ 32) :
    (s.callbacksOf r).length ≤ 1 ∧
      (∀ cb ∈ s.callbacksOf r, cb.cmds = req.cmds ∧
        (∀ i < req.cmds.length, ∃ x ∈ s.log.executed, x.reqEx = ⟨r, i⟩ ∧
          cb.cmds[i]?.map Command.ret = some x.ret) ∧
        cb.cmdFailCnt.toNat = cb.cmds.countP fun cmd => cmd.ret == -1) ∧
      ((∀ i < req.cmds.length, ⟨r, i⟩ ∈ s.log.finished) → (s.callbacksOf r).length = 1) := by
  have hinv := Inv.of_reachable h
  have hcompleting := Completing.of_reachable h
  have htallied := (hcompleting.counted r req hreq).tallied
  refine ⟨htallied.reports_le hpos hlt.le, fun cb hcb => ?_, fun hfinished => ?_⟩
  · obtain ⟨hcmds, hresults, hfail⟩ := hcompleting.results hreq hpos hlt.le hcb
    refine ⟨hcmds, hresults, ?_⟩
    have hcount : (cb.cmds.countP fun cmd => cmd.ret == -1) ≤ cb.cmds.length :=
      List.countP_le_length
    rw [hcmds] at hcount
    rw [hfail, BitVec.toNat_ofNat, Nat.mod_eq_of_lt]
    rw [hcmds]
    omega
  · apply htallied.report_of_done hpos hlt.le
    intro i hi
    have hdone : s.log.life ⟨r, i⟩ = .done := (hinv.sound.placed.agree _ .done).mpr (hfinished i hi)
    rw [view, hdone]
    rfl

/-- A stream write and a positional read in one request; the read fails. -/
def writeThenRead : List Command :=
  let c : Command := ⟨0, 0, 0, 0, 0, 0, 0⟩
  [c.set cmdWrite 3 4096 8, c.setAt cmdPread 3 0 8192 8]

/-- One thread of each kind; both commands are in progress at once. -/
def twoQueues : List (Label Unit) :=
  let io := Label.worker (.io 0) (8, 0)
  let pio := Label.worker (.pio 0) (-1, 5)
  [.start 1 1, .control 4, .control 4, .control 4, .submit () writeThenRead 1 2 100,
    .advance (), .advance (), io, io, .advance (), .advance (), pio, pio, io, pio, pio, pio, io,
    .advance ()]

theorem completion_protocol_two_queues : ∃ (s : State Unit) (req : Request),
    Machine.run step (start Unit) twoQueues = some s ∧ s.requests[0]? = some req ∧
      (s.callbacksOf 0).map Callback.cmdFailCnt = [1] ∧ (s.callbacksOf 0).length ≤ 1 ∧
      (∀ cb ∈ s.callbacksOf 0, cb.cmds = req.cmds ∧
        (∀ i < req.cmds.length, ∃ x ∈ s.log.executed, x.reqEx = ⟨0, i⟩ ∧
          cb.cmds[i]?.map Command.ret = some x.ret) ∧
        cb.cmdFailCnt.toNat = cb.cmds.countP fun cmd => cmd.ret == -1) ∧
      ((∀ i < req.cmds.length, ⟨0, i⟩ ∈ s.log.finished) → (s.callbacksOf 0).length = 1) := by
  obtain ⟨s, req, hs, hreq, hlen, hcalls⟩ : ∃ (s : State Unit) (req : Request),
      Machine.run step (start Unit) twoQueues = some s ∧ s.requests[0]? = some req ∧
        req.cmds.length = 2 ∧ (s.callbacksOf 0).map Callback.cmdFailCnt = [1] :=
    ⟨_, _, rfl, rfl, rfl, rfl⟩
  exact ⟨s, req, hs, hreq, hcalls,
    completion_protocol ⟨_, hs⟩ hreq (by rw [hlen]; decide) (by rw [hlen]; decide)⟩

end State

end XfUtil.Aio
