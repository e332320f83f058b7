import XfUtil.Aio.Completion
import XfUtil.Base.Fifo

/-!
# The order of stream commands

Commands without a position go to the io queue that their descriptor picks, and
an io queue has one worker. The log of pushes, which starts anew with the queues,
is what the order is about.
-/

namespace XfUtil.Aio

/-- Commands pushed since the queues were created, in order. -/
def Log.sent (log : Log) : List RequestEx := log.pushes.map Prod.snd

/-- Those of them that were pushed to one queue. -/
def Log.sentTo (log : Log) (queue : QueueId) : List RequestEx :=
  (log.pushes.filter fun p => p.1 = queue).map Prod.snd

theorem Log.sentTo_sublist (log : Log) (queue : QueueId) :
    (log.sentTo queue).Sublist log.sent :=
  List.filter_sublist.map Prod.snd

/-- Two commands pushed one after the other have a queue each; if it is the same,
they are one after the other in it. -/
theorem Log.pair_sent {log : Log} {a b : RequestEx} (h : [a, b].Sublist log.sent) :
    ∃ queueA queueB, (queueA, a) ∈ log.pushes ∧ (queueB, b) ∈ log.pushes ∧
      (queueA = queueB → [a, b].Sublist (log.sentTo queueA)) := by
  obtain ⟨ps, hps, heq⟩ := List.sublist_map_iff.mp h
  obtain ⟨⟨queueA, a⟩, ps, rfl, rfl, hrest⟩ := List.map_eq_cons_iff.mp heq.symm
  obtain ⟨⟨queueB, b⟩, ps, rfl, rfl, hnil⟩ := List.map_eq_cons_iff.mp hrest
  obtain rfl := List.map_eq_nil_iff.mp hnil
  refine ⟨queueA, queueB, hps.mem (by simp), hps.mem (by simp), fun hsame => ?_⟩
  subst hsame
  have hfiltered := (hps.filter fun p => p.1 = queueA).map Prod.snd
  simpa [Log.sentTo] using hfiltered

namespace State

variable {Tid : Type*} {s s' : State Tid}

/-- The command that a worker finds in a `RequestEx`. -/
def command (s : State Tid) (e : RequestEx) : Option Command :=
  s.requests[e.request]?.bind fun req => req.cmds[e.cmdIdx]?

theorem command_target (e : RequestEx) : (s.command e).map Command.target =
    s.requests[e.request]?.bind fun req => req.targets[e.cmdIdx]? := by
  cases hreq : s.requests[e.request]? with
  | none => simp [command, hreq]
  | some req => simp [command, hreq, Request.targets]

/-- The commands of a request that is there do not change their purpose. -/
theorem Grows.command (h : s.Grows s') {e : RequestEx} (hknown : e.request < s.requests.length) :
    (s'.command e).map Command.target = (s.command e).map Command.target := by
  obtain ⟨req', hreq', htargets⟩ := h e.request _ (List.getElem?_eq_getElem hknown)
  rw [command_target, command_target, hreq', List.getElem?_eq_getElem hknown]
  simp [htargets]

/-! ## What has been pushed -/

/-- The log of pushes has the commands of a request in their order, and none whose
queue was chosen since it was begun is missing. -/
structure Logged (s : State Tid) : Prop where
  sent : ∀ e ∈ s.log.sent, s.log.life e ≠ .unsent
  ordered : s.log.sent.Pairwise fun a b => a.request = b.request → a.cmdIdx < b.cmdIdx
  complete : ∀ e ∈ s.log.routed, s.log.life e ≠ .unsent → e ∈ s.log.sent

theorem start_logged : (start Tid).Logged := by
  constructor <;> simp [start, Log.empty, Log.sent]

theorem Logged.nodup (h : s.Logged) : s.log.sent.Nodup :=
  h.ordered.imp fun hlt heq => by
    subst heq
    exact absurd (hlt rfl) (Nat.lt_irrefl _)

theorem Inv.lt_of_sent (h : s.Inv) {e : RequestEx} (he : s.log.life e ≠ .unsent) :
    e.request < s.requests.length := by
  obtain ⟨n, hn, -⟩ := h.sound.sent.known e he
  simpa [State.board] using (List.getElem?_eq_some_iff.mp hn).1

theorem Inv.unsent_loop (h : s.Inv) {t : Tid} {cmds : List Command} {e : RequestEx}
    (hpc : s.submitters t = .loop cmds e) : s.log.life e = .unsent :=
  h.sound.sent.unsent (t := t) (by simp [State.board, hpc, Submitter.call])

/-- Commands of a request are pushed in the order of their indices. -/
theorem Inv.sent_of_lt (h : s.Inv) {a b : RequestEx} (hrequest : a.request = b.request)
    (hlt : a.cmdIdx < b.cmdIdx) (hb : s.log.life b ≠ .unsent) : s.log.life a ≠ .unsent := by
  intro ha
  obtain ⟨n, hn, hbn⟩ := h.sound.sent.known b hb
  rw [← hrequest] at hn
  obtain ⟨t, e, he, her⟩ := h.sound.sent.complete a.request n a.cmdIdx hn (by omega) ha
  have hnext := h.sound.sent.next t e he
  rw [her] at hnext
  have hle := (hnext a.cmdIdx).mp ha
  apply hb
  have hunsent := (hnext b.cmdIdx).mpr (by omega)
  rwa [hrequest] at hunsent

theorem Logged.of_life (h : s.Logged) (hpushes : s'.log.pushes = s.log.pushes)
    (hrouted : ∀ e, s.log.life e ≠ .unsent → e ∈ s'.log.routed → e ∈ s.log.routed)
    (hlife : ∀ e, s'.log.life e = .unsent ↔ s.log.life e = .unsent) : s'.Logged := by
  have hsent : s'.log.sent = s.log.sent := by rw [Log.sent, hpushes, Log.sent]
  refine ⟨fun e he => ?_, hsent ▸ h.ordered, fun e he hl => ?_⟩
  · rw [hsent] at he
    rw [ne_eq, hlife]
    exact h.sent e he
  · rw [ne_eq, hlife] at hl
    rw [hsent]
    exact h.complete e (hrouted e hl he) hl

/-- A command that has been pushed goes on, and stays pushed. -/
theorem Logged.onward (h : s.Logged) {e : RequestEx} {l : Life}
    (hpushes : s'.log.pushes = s.log.pushes) (hrouted : s'.log.routed = s.log.routed)
    (hlife : s'.log.life = Function.update s.log.life e l) (hold : s.log.life e ≠ .unsent)
    (hnew : l ≠ .unsent) : s'.Logged := by
  apply h.of_life hpushes (fun _ _ he => hrouted ▸ he)
  intro x
  rw [hlife]
  exact Board.unsent_update_iff hold hnew x

variable [DecidableEq Tid]

theorem Logged.send (h : s.Logged) (hinv : s.Inv) {t : Tid} {cmds : List Command} {e : RequestEx}
    {queue : QueueId} (hpc : s.submitters t = .chosen cmds e queue)
    (q : BlockingQueue (Option RequestEx)) : (s.sent t cmds e queue q).Logged := by
  have hsending : s.board.sending t = some e := by simp [State.board, hpc, Submitter.call]
  have hsent : (s.sent t cmds e queue q).log.sent = s.log.sent ++ [e] := by
    simp [Log.sent, State.sent]
  have hlife : (s.sent t cmds e queue q).log.life =
      Function.update s.log.life e (.queued queue) := rfl
  refine ⟨fun x hx => ?_, ?_, fun x hx hl => ?_⟩
  · rw [hlife]
    by_cases hxe : x = e
    · simp [hxe]
    · rw [Function.update_of_ne hxe]
      rw [hsent] at hx
      exact h.sent x (by simpa [hxe] using hx)
  · rw [hsent]
    refine List.pairwise_append.mpr ⟨h.ordered, List.pairwise_singleton _ _, fun x hx y hy hr => ?_⟩
    obtain rfl := List.mem_singleton.mp hy
    have hne := h.sent x hx
    have hnext := hinv.sound.sent.next t y hsending x.cmdIdx
    rw [← hr] at hnext
    by_contra hge
    exact hne (hnext.mpr (by omega))
  · rw [hsent]
    by_cases hxe : x = e
    · simp [hxe]
    · rw [hlife, Function.update_of_ne hxe] at hl
      exact List.mem_append_left _ (h.complete x hx hl)

theorem Logged.move (h : s.Logged) (hinv : s.Inv) {l : Label Tid} (hm : s.Move l s') :
    s'.Logged := by
  have hserving : ∀ {w : WorkerId} {wk : Worker} {e : RequestEx} {stage : Stage},
      s.workerAt w = some wk → wk.pc = .serving e stage → s.log.life e ≠ .unsent := by
    intro w wk e stage hw hpc
    rw [hinv.life_serving hw hpc]
    simp
  cases hm with
  | startIo hpc =>
      constructor <;> simp [State.startIo, Log.sent]
  | @choose t cmds e cmd hpc hcmd hn =>
      refine h.of_life rfl (fun x hx hmem => ?_) (fun _ => Iff.rfl)
      rcases List.mem_append.mp hmem with hmem | hmem
      · exact hmem
      · rw [List.mem_singleton.mp hmem] at hx
        exact absurd (hinv.unsent_loop hpc) hx
  | send hpc hq hpush => exact h.send hinv hpc _
  | deleteIo hpc =>
      exact h.of_life rfl (fun _ _ he => he) fun e => (s.log.life e).dropIo_eq_unsent
  | @take w wk e q q' answer hw hpc hq hpop =>
      have hjob : e ∈ s.jobs w.queue := by
        rw [jobs_of_access hq, hpop]
        simp
      have hlife : s.log.life e = .queued w.queue := (hinv.sound.placed.agree e _).mpr hjob
      exact h.onward rfl rfl rfl (by simp [hlife]) (by simp)
  | execute hw hpc hreq hcmd => exact h.onward rfl rfl rfl (hserving hw hpc) (by simp)
  | countFail hw hpc hreq => exact h.onward rfl rfl rfl (hserving hw hpc) (by simp)
  | countDone hw hpc hreq => exact h.onward rfl rfl rfl (hserving hw hpc) (by simp)
  | finish hw hpc hreq => exact h.onward rfl rfl rfl (hserving hw hpc) (by simp)
  | _ => exact h.of_life rfl (fun _ _ he => he) (fun _ => Iff.rfl)

/-! ## Where it has been pushed -/

omit [DecidableEq Tid] in
/-- The queue depends on what a command is for, its descriptor, and the number of
io threads. -/
theorem chooses_congr {cmd cmd' : Command} (htarget : cmd'.target = cmd.target)
    (hlen : s'.ioThreadGroup.length = s.ioThreadGroup.length) :
    s'.chooses cmd' = s.chooses cmd := by
  obtain ⟨hcmd, hfd⟩ : cmd'.cmd = cmd.cmd ∧ cmd'.fd = cmd.fd := by
    simpa [Command.target] using htarget
  rw [chooses, chooses, Command.streamed, Command.streamed, Command.queueIdx, Command.queueIdx,
    hcmd, hfd, hlen]

/-- The queue is the one `Submit` chooses for the command, if it has chosen since the
queues were created. -/
def Fits (s : State Tid) (queue : QueueId) (e : RequestEx) : Prop :=
  e ∈ s.log.routed → ∀ cmd, s.command e = some cmd → queue = s.chooses cmd

structure Routed (s : State Tid) : Prop where
  pushed : ∀ p ∈ s.log.pushes, s.Fits p.1 p.2
  chosen : ∀ t cmds e queue, s.submitters t = .chosen cmds e queue → s.Fits queue e

omit [DecidableEq Tid] in
theorem start_routed : (start Tid).Routed := by
  constructor <;> simp [start, Log.empty]

omit [DecidableEq Tid] in
theorem Fits.grow {queue : QueueId} {e : RequestEx} (h : s.Fits queue e) (hgrow : s.Grows s')
    (hknown : e.request < s.requests.length) (hrouted : e ∈ s'.log.routed → e ∈ s.log.routed)
    (hlen : s'.ioThreadGroup.length = s.ioThreadGroup.length) : s'.Fits queue e := by
  intro he cmd' hcmd'
  have hmap := hgrow.command hknown
  rw [hcmd', Option.map_some] at hmap
  obtain ⟨cmd, hcmd, htarget⟩ := Option.map_eq_some_iff.mp hmap.symm
  rw [chooses_congr htarget.symm hlen]
  exact h (hrouted he) cmd hcmd

/-- The threads that `Stop` will join are those that `Start` started, so a choice stays
right until new queues are created. -/
theorem Fits.move {queue : QueueId} {e : RequestEx} (h : s.Fits queue e)
    (hknown : e.request < s.requests.length)
    (hpast : ∀ t cmds, s.submitters t ≠ .loop cmds e) {l : Label Tid} (hm : s.Move l s') :
    s'.Fits queue e := by
  have hgrow := hm.grows
  cases hm with
  | startIo hpc =>
      intro he
      simp [State.startIo] at he
  | @choose t cmds e' cmd hpc hcmd hn =>
      refine h.grow hgrow hknown (fun he => ?_) rfl
      rcases List.mem_append.mp he with he | he
      · exact he
      · rw [← List.mem_singleton.mp he] at hpc
        exact absurd hpc (hpast t cmds)
  | @leave w wk q q' answer hw hpc hq hpop =>
      exact h.grow hgrow hknown id (length_setWorker s w _).1
  | @take w wk e' q q' answer hw hpc hq hpop =>
      exact h.grow hgrow hknown id (length_setWorker s w _).1
  | execute hw hpc hreq hcmd => exact h.grow hgrow hknown id (length_setWorker s _ _).1
  | countFail hw hpc hreq => exact h.grow hgrow hknown id (length_setWorker s _ _).1
  | countDone hw hpc hreq => exact h.grow hgrow hknown id (length_setWorker s _ _).1
  | finish hw hpc hreq => exact h.grow hgrow hknown id (length_setWorker s _ _).1
  | _ => exact h.grow hgrow hknown id rfl

/-- A choice is right when it is made. -/
theorem Inv.fits_chosen (h : s.Inv) {t : Tid} {cmds : List Command} {e : RequestEx} {cmd : Command}
    (hpc : s.submitters t = .loop cmds e) (hcmd : cmds[e.cmdIdx]? = some cmd) :
    (s.route t cmds e (s.chooses cmd)).Fits (s.chooses cmd) e := by
  intro _ cmd' hcmd'
  obtain ⟨req, hreq, htargets⟩ := h.copies.copied t cmds e (by rw [hpc]; rfl)
  have hmap : (s.command e).map Command.target = cmds[e.cmdIdx]?.map Command.target := by
    rw [command_target, hreq]
    simp [htargets]
  rw [show s.command e = some cmd' from hcmd', hcmd] at hmap
  exact (chooses_congr (Option.some.inj hmap) rfl).symm

theorem Routed.move (h : s.Routed) (hlogged : s.Logged) (hinv : s.Inv) {l : Label Tid}
    (hm : s.Move l s') : s'.Routed := by
  have hpushed : ∀ p ∈ s.log.pushes, s'.Fits p.1 p.2 := by
    intro p hp
    have hsent := hlogged.sent p.2 (List.mem_map_of_mem hp)
    exact (h.pushed p hp).move (hinv.lt_of_sent hsent)
      (fun t cmds hpc => hsent (hinv.unsent_loop hpc)) hm
  have hchosen : ∀ t cmds e queue, s.submitters t = .chosen cmds e queue → s'.Fits queue e := by
    intro t cmds e queue hpc
    obtain ⟨req, hreq, -⟩ := hinv.copies.copied t cmds e (by rw [hpc]; rfl)
    refine (h.chosen t cmds e queue hpc).move (List.getElem?_eq_some_iff.mp hreq).1
      (fun u cmds' hu => ?_) hm
    have hsame : u = t := hinv.sound.sent.alone u t e e
      (by simp [State.board, hu, Submitter.call]) (by simp [State.board, hpc, Submitter.call]) rfl
    rw [hsame, hpc] at hu
    cases hu
  -- One thread inside `Submit` goes somewhere else.
  have hupdate : ∀ {t : Tid} {pc : Submitter},
      (∀ cmds e queue, pc = .chosen cmds e queue → s'.Fits queue e) →
      s'.submitters = Function.update s.submitters t pc →
      ∀ u cmds e queue, s'.submitters u = .chosen cmds e queue → s'.Fits queue e := by
    intro t pc hpc hsub u cmds e queue hu
    rw [hsub] at hu
    by_cases hut : u = t
    · subst hut
      rw [Function.update_self] at hu
      exact hpc cmds e queue hu
    · rw [Function.update_of_ne hut] at hu
      exact hchosen u cmds e queue hu
  cases hm with
  | startIo hpc => exact ⟨by simp [State.startIo], hchosen⟩
  | accept hpc hs => exact ⟨hpushed, hupdate (by simp) rfl⟩
  | submitted hpc hend => exact ⟨hpushed, hupdate (by simp) rfl⟩
  | @choose t cmds e cmd hpc hcmd hn =>
      refine ⟨hpushed, hupdate (fun cmds' e' queue heq => ?_) rfl⟩
      cases heq
      exact hinv.fits_chosen hpc hcmd
  | @send t cmds e queue q q' hpc hq hpush =>
      refine ⟨fun p hp => ?_, hupdate (by simp) rfl⟩
      rcases List.mem_append.mp hp with hp | hp
      · exact hpushed p hp
      · rw [List.mem_singleton.mp hp]
        exact hchosen t cmds e queue hpc
  | _ => exact ⟨hpushed, hchosen⟩

/-! ## One worker for each io queue -/

/-- What an io queue and its worker have done with the pushes to the queue. -/
structure Consumed (s : State Tid) (idx : Nat) (past lost : List RequestEx) : Prop where
  serial : Fifo.Serial (s.log.sentTo (.io idx)) past ((s.job (.io idx)).map Prod.fst)
    (s.jobs (.io idx)) lost
  finished : ∀ e ∈ past, e ∈ s.log.finished
  dropped : ∀ e ∈ lost, e ∈ s.log.dropped.reduceOption
  kept : s.ioRequestQueues ≠ none → lost = []

def Consuming (s : State Tid) : Prop := ∀ idx, ∃ past lost, s.Consumed idx past lost

omit [DecidableEq Tid] in
theorem start_consuming : (start Tid).Consuming := fun _ =>
  ⟨[], [], .new, by simp, by simp, fun _ => rfl⟩

section Congr

omit [DecidableEq Tid]

theorem Consumed.congr {idx : Nat} {past lost : List RequestEx} (h : s.Consumed idx past lost)
    (hsent : s'.log.sentTo (.io idx) = s.log.sentTo (.io idx))
    (hjob : (s'.job (.io idx)).map Prod.fst = (s.job (.io idx)).map Prod.fst)
    (hjobs : s'.jobs (.io idx) = s.jobs (.io idx))
    (hfinished : s.log.finished ⊆ s'.log.finished) (hdropped : s'.log.dropped = s.log.dropped)
    (hqueues : s.ioRequestQueues = none → s'.ioRequestQueues = none) :
    s'.Consumed idx past lost := by
  refine ⟨?_, fun e he => hfinished (h.finished e he), ?_, fun hqs => h.kept fun hnone => ?_⟩
  · rw [hsent, hjob, hjobs]
    exact h.serial
  · rw [hdropped]
    exact h.dropped
  · exact hqs (hqueues hnone)

theorem Consuming.congr (h : s.Consuming) (hpushes : s'.log.pushes = s.log.pushes)
    (hjob : ∀ idx, (s'.job (.io idx)).map Prod.fst = (s.job (.io idx)).map Prod.fst)
    (hjobs : s'.jobs = s.jobs) (hfinished : s'.log.finished = s.log.finished)
    (hdropped : s'.log.dropped = s.log.dropped)
    (hqueues : s.ioRequestQueues = none → s'.ioRequestQueues = none) : s'.Consuming := by
  intro idx
  obtain ⟨past, lost, hc⟩ := h idx
  refine ⟨past, lost, hc.congr ?_ (hjob idx) (congrFun hjobs _) ?_ hdropped hqueues⟩
  · rw [Log.sentTo, hpushes, Log.sentTo]
  · rw [hfinished]
    exact List.Subset.refl _

theorem queues_ne_none {idx : Nat} {q : BlockingQueue (Option RequestEx)}
    (hq : s.access (.io idx) = .ok q) : s.ioRequestQueues ≠ none := by
  intro hnone
  simp [access, hnone] at hq

theorem setQueue_queues_none (queue : QueueId) (q : BlockingQueue (Option RequestEx))
    (hnone : s.ioRequestQueues = none) : (s.setQueue queue q).ioRequestQueues = none := by
  cases queue <;> simp [setQueue, hnone]

theorem job_reach {w : WorkerId} {wk : Worker} {e : RequestEx} {stage stage' : Stage}
    (hw : s.workerAt w = some wk) (hpc : wk.pc = .serving e stage) (w' : WorkerId) :
    ((s.setWorker w { wk with pc := .serving e stage' }).job w').map Prod.fst =
      (s.job w').map Prod.fst := by
  rw [job_setWorker hw]
  by_cases hne : w' = w
  · subst hne
    rw [Function.update_self, job_of_pc hw, hpc]
    rfl
  · rw [Function.update_of_ne hne]

theorem Consuming.reach (h : s.Consuming) {w : WorkerId} {wk : Worker} {e : RequestEx}
    {stage stage' : Stage} (hw : s.workerAt w = some wk) (hpc : wk.pc = .serving e stage)
    (hpushes : s'.log.pushes = s.log.pushes)
    (hjob : s'.job = (s.setWorker w { wk with pc := .serving e stage' }).job)
    (hjobs : s'.jobs = s.jobs) (hfinished : s'.log.finished = s.log.finished)
    (hdropped : s'.log.dropped = s.log.dropped)
    (hqueues : s'.ioRequestQueues = s.ioRequestQueues) : s'.Consuming := by
  refine h.congr hpushes (fun idx => ?_) hjobs hfinished hdropped (fun hnone => hqueues ▸ hnone)
  rw [hjob]
  exact job_reach hw hpc _

theorem Consuming.startIo (hp : s.Phases) {io pio : BitVec 32}
    (hpc : s.control = .startIo io pio) (n : Nat) : (s.startIo n pio).Consuming := by
  intro idx
  have hboard := board_startIo hp hpc n
  have hjob : (s.startIo n pio).job (.io idx) = none := by
    refine (congrFun (congrArg Board.job hboard) (.io idx)).trans (job_exited fun wk hw => ?_)
    exact hp.ioJoined (by simp [IoJoined, hpc]) wk (Phases.mem_io hw)
  have hjobs : (s.startIo n pio).jobs (.io idx) = [] := by
    refine (congrFun (congrArg Board.jobs hboard) (.io idx)).trans ?_
    simp [State.board, jobs, access, hp.ioDeleted.mp (by simp [IoDeleted, hpc])]
  refine ⟨[], [], ?_, by simp, by simp, fun _ => rfl⟩
  rw [hjob, hjobs]
  exact .new

/-- What is in the queues when they are deleted is lost. -/
theorem Consuming.deleteIo (h : s.Consuming) : s.deleteIo.Consuming := by
  intro idx
  obtain ⟨past, lost, hc⟩ := h idx
  cases hqs : s.ioRequestQueues with
  | none =>
      refine ⟨past, lost, hc.congr rfl rfl ?_ (List.Subset.refl _) ?_ (fun _ => rfl)⟩
      · simp [jobs, access, State.deleteIo, hqs]
      · simp [State.deleteIo, hqs]
  | some queues =>
      have hlost := hc.kept (by simp [hqs])
      subst hlost
      refine ⟨past, s.jobs (.io idx), ?_, hc.finished, fun e he => ?_, fun hne => absurd rfl hne⟩
      · have hjobs : s.deleteIo.jobs (.io idx) = [] := by simp [jobs, access, State.deleteIo]
        rw [hjobs]
        exact hc.serial.giveUp
      · show e ∈ (s.log.dropped ++ _).reduceOption
        rw [List.reduceOption_append]
        exact List.mem_append_right _ ((mem_dropped e).mpr ⟨idx, he⟩)

theorem Consuming.take (h : s.Consuming) {w : WorkerId} {wk : Worker} {e : RequestEx}
    {q q' : BlockingQueue (Option RequestEx)} (hw : s.workerAt w = some wk)
    (hpc : wk.pc = .waiting) (hq : s.access w.queue = .ok q)
    (hpop : q.queue = some e :: q'.queue) : (s.take w wk e q').Consuming := by
  intro idx
  obtain ⟨past, lost, hc⟩ := h idx
  have hjobs : (s.take w wk e q').jobs =
      Function.update s.jobs w.queue q'.queue.reduceOption := jobs_setQueue hq q'
  have hjob : (s.take w wk e q').job =
      Function.update s.job w (some (e, .popped)) := job_setWorker hw _
  by_cases hidx : w = .io idx
  · subst hidx
    have hold : s.job (.io idx) = none := by
      rw [job_of_pc hw, hpc]
      rfl
    have hhead : s.jobs (.io idx) = e :: q'.queue.reduceOption := by
      have hqueue : s.access (.io idx) = .ok q := hq
      rw [jobs_of_access hqueue, hpop]
      rfl
    have hserial := hc.serial
    rw [hold, hhead] at hserial
    refine ⟨past, lost, ?_, hc.finished, hc.dropped, fun hqs => hc.kept fun hnone => ?_⟩
    · have hrest : (s.take (.io idx) wk e q').jobs (.io idx) = q'.queue.reduceOption := by
        rw [hjobs]
        exact Function.update_self ..
      rw [hjob, hrest, Function.update_self]
      exact hserial.take
    · exact hqs (setQueue_queues_none (.io idx) q' hnone)
  · have hne : (.io idx : QueueId) ≠ w.queue := by
      cases w with
      | pio index => simp [WorkerId.queue]
      | io index =>
          simp only [WorkerId.queue, ne_eq, QueueId.io.injEq]
          exact fun heq => hidx (by rw [heq])
    refine ⟨past, lost, hc.congr rfl ?_ ?_ (List.Subset.refl _) rfl
      (setQueue_queues_none w.queue q')⟩
    · rw [hjob, Function.update_of_ne (Ne.symm hidx)]
    · rw [hjobs, Function.update_of_ne hne]

theorem Consuming.finish (h : s.Consuming) {w : WorkerId} {wk : Worker} {e : RequestEx}
    {stage : Stage} (hw : s.workerAt w = some wk) (hpc : wk.pc = .serving e stage) (req : Request)
    (prevCnt : BitVec 32) : (s.finish w wk e req prevCnt).Consuming := by
  intro idx
  obtain ⟨past, lost, hc⟩ := h idx
  have hjob : (s.finish w wk e req prevCnt).job = Function.update s.job w none :=
    job_setWorker hw _
  have hfinished : (s.finish w wk e req prevCnt).log.finished = s.log.finished ++ [e] := rfl
  by_cases hidx : w = .io idx
  · subst hidx
    have hold : s.job (.io idx) = some (e, stage) := by
      rw [job_of_pc hw, hpc]
      rfl
    have hserial := hc.serial
    rw [hold] at hserial
    refine ⟨past ++ [e], lost, ?_, fun x hx => ?_, hc.dropped, hc.kept⟩
    · rw [hjob, Function.update_self]
      exact hserial.finish
    · rw [hfinished]
      rcases List.mem_append.mp hx with hx | hx
      · exact List.mem_append_left _ (hc.finished x hx)
      · exact List.mem_append_right _ hx
  · refine ⟨past, lost, hc.congr rfl ?_ rfl ?_ rfl id⟩
    · rw [hjob, Function.update_of_ne (Ne.symm hidx)]
    · rw [hfinished]
      exact List.subset_append_left _ _

end Congr

theorem Consuming.send (h : s.Consuming) {t : Tid} {cmds : List Command} {e : RequestEx}
    {queue : QueueId} {q q' : BlockingQueue (Option RequestEx)} (hq : s.access queue = .ok q)
    (hpush : q'.queue = q.queue ++ [some e]) : (s.sent t cmds e queue q').Consuming := by
  intro idx
  obtain ⟨past, lost, hc⟩ := h idx
  have hjobs : (s.sent t cmds e queue q').jobs = Function.update s.jobs queue
      (s.jobs queue ++ [e]) := by
    refine (jobs_setQueue hq q').trans ?_
    rw [hpush, List.reduceOption_append, jobs_of_access hq]
    rfl
  by_cases hidx : queue = .io idx
  · subst hidx
    have hlost := hc.kept (queues_ne_none hq)
    subst hlost
    refine ⟨past, [], ?_, hc.finished, by simp, fun _ => rfl⟩
    have hsent : (s.sent t cmds e (.io idx) q').log.sentTo (.io idx) =
        s.log.sentTo (.io idx) ++ [e] := by
      simp [Log.sentTo, State.sent]
    rw [hsent, hjobs, Function.update_self]
    exact hc.serial.push e
  · refine ⟨past, lost, hc.congr ?_ rfl ?_ (List.Subset.refl _) rfl
      (setQueue_queues_none queue q')⟩
    · simp [Log.sentTo, State.sent, hidx]
    · rw [hjobs, Function.update_of_ne (Ne.symm hidx)]

theorem Consuming.move (h : s.Consuming) (hp : s.Phases) {l : Label Tid} (hm : s.Move l s') :
    s'.Consuming := by
  cases hm with
  | startIo hpc => exact .startIo hp hpc _
  | @emptyIo i q q' cpuNum hpc hi hq hpush =>
      exact h.congr rfl (fun _ => rfl) (jobs_pushEmpty hq hpush) rfl rfl
        (setQueue_queues_none (.io i) q')
  | @emptyPio i q' cpuNum hpc hi hpush =>
      have hq : s.access .pio = .ok s.pioRequestQueue := rfl
      exact h.congr rfl (fun _ => rfl) (jobs_pushEmpty hq hpush) rfl rfl
        (setQueue_queues_none .pio q')
  | deleteIo hpc => exact h.deleteIo
  | send hpc hq hpush => exact h.send hq hpush
  | @leave w wk q q' answer hw hpc hq hpop =>
      have hjobs : (s.setQueue w.queue q').jobs = s.jobs := by
        refine (jobs_setQueue hq q').trans (Function.update_eq_self_iff.mpr ?_)
        rw [jobs_of_access hq, hpop]
        rfl
      have hjob : (s.leave w wk q').job = s.job := by
        refine (job_setWorker hw _).trans (Function.update_eq_self_iff.mpr ?_)
        rw [job_of_pc hw, hpc]
        rfl
      exact h.congr rfl (fun _ => by rw [hjob]) hjobs rfl rfl
        (setQueue_queues_none w.queue q')
  | take hw hpc hq hpop => exact h.take hw hpc hq hpop
  | execute hw hpc hreq hcmd => exact h.reach hw hpc rfl rfl rfl rfl rfl rfl
  | countFail hw hpc hreq => exact h.reach hw hpc rfl rfl rfl rfl rfl rfl
  | countDone hw hpc hreq => exact h.reach hw hpc rfl rfl rfl rfl rfl rfl
  | finish hw hpc hreq => exact h.finish hw hpc _ _
  | _ => exact h.congr rfl (fun _ => rfl) rfl rfl rfl id

/-! ## Stream commands on one descriptor -/

structure Ordered (s : State Tid) : Prop where
  logged : s.Logged
  routed : s.Routed
  consuming : s.Consuming

theorem Ordered.of_reachable (h : Machine.Reachable step (start Tid) s) : s.Ordered := by
  have hboth : s.Inv ∧ s.Ordered := by
    refine h.invariant (fun s => s.Inv ∧ s.Ordered)
      ⟨start_inv, start_logged, start_routed, start_consuming⟩ ?_
    rintro t l u ⟨hinv, ho⟩ hstep
    have hm := step_move hstep
    exact ⟨hinv.move hm, ho.logged.move hinv hm, ho.routed.move ho.logged hinv hm,
      ho.consuming.move hinv.phases hm⟩
  exact hboth.2

/-- A worker has begun on the command: it is serving it, or there is a result. -/
def Begun (s : State Tid) (e : RequestEx) : Prop :=
  (∃ w stage, s.job w = some (e, stage)) ∨ e ∈ s.log.executed.map Execution.reqEx

omit [DecidableEq Tid] in
theorem Begun.life {e : RequestEx} (h : s.Begun e) (hinv : s.Inv) (hc : s.Completing) :
    s.log.life e = .done ∨ ∃ w stage, s.log.life e = .held w stage := by
  rcases h with ⟨w, stage, hjob⟩ | hexec
  · exact Or.inr ⟨w, stage, (hinv.sound.placed.agree e _).mpr hjob⟩
  · have hprogress := (hc.executed.mem_iff e).mp hexec
    cases hlife : s.log.life e with
    | done => exact Or.inl rfl
    | held w stage => exact Or.inr ⟨w, stage, rfl⟩
    | unsent | queued | lost => simp [hlife, Life.progress] at hprogress

omit [DecidableEq Tid] in
/-- Of two commands in one queue, the first is finished when the second is begun. -/
theorem Ordered.finished_of_begun (h : s.Ordered) (hinv : s.Inv) (hc : s.Completing) {idx : Nat}
    {a b : RequestEx} (hbefore : [a, b].Sublist (s.log.sentTo (.io idx))) (hb : s.Begun b) :
    a ∈ s.log.finished := by
  obtain ⟨past, lost, hconsumed⟩ := h.consuming idx
  have hnd : (s.log.sentTo (.io idx)).Nodup := h.logged.nodup.sublist (s.log.sentTo_sublist _)
  have hlife := hb.life hinv hc
  have hqueued : b ∉ s.jobs (.io idx) := by
    intro hmem
    have hat : s.log.life b = .queued (.io idx) := (hinv.sound.placed.agree b _).mpr hmem
    simp [hat] at hlife
  have hlost : b ∉ lost := by
    intro hmem
    have hat : s.log.life b = .lost :=
      (hinv.sound.placed.agree b _).mpr (hconsumed.dropped b hmem)
    simp [hat] at hlife
  have hbegun := hconsumed.serial.begun (hbefore.mem (by simp)) hqueued hlost
  exact hconsumed.finished a (hconsumed.serial.done_of_begun hnd hbefore hbegun)

omit [DecidableEq Tid] in
theorem Ordered.before_of_lt (h : s.Ordered) (hinv : s.Inv) {a b : RequestEx}
    (hrequest : a.request = b.request) (hlt : a.cmdIdx < b.cmdIdx) (hrouteA : a ∈ s.log.routed)
    (hrouteB : b ∈ s.log.routed) (hb : s.log.life b ≠ .unsent) : [a, b].Sublist s.log.sent := by
  have hsentA := h.logged.complete a hrouteA (hinv.sent_of_lt hrequest hlt hb)
  have hsentB := h.logged.complete b hrouteB hb
  have hne : a ≠ b := by
    rintro rfl
    exact absurd hlt (Nat.lt_irrefl _)
  rcases Fifo.pair_sublist_or hsentA hsentB hne with hab | hba
  · exact hab
  · have hge := List.pairwise_iff_forall_sublist.mp h.logged.ordered hba hrequest.symm
    omega

/-- Stream commands on one descriptor are executed one after the other, in the order in
which they are pushed to the queues of one `Start`: however the workers interleave and
whatever else is submitted, when a worker has begun on the second, the first is finished. -/
theorem stream_order (h : Machine.Reachable step (start Tid) s) {a b : RequestEx}
    {cmdA cmdB : Command} (hrouteA : a ∈ s.log.routed) (hrouteB : b ∈ s.log.routed)
    (hcmdA : s.command a = some cmdA) (hcmdB : s.command b = some cmdB)
    (hstreamA : cmdA.streamed) (hstreamB : cmdB.streamed) (hfd : cmdA.fd = cmdB.fd)
    (hbefore : [a, b].Sublist s.log.sent ∨ a.request = b.request ∧ a.cmdIdx < b.cmdIdx)
    (hbegun : s.Begun b) : a ∈ s.log.finished := by
  have hinv := Inv.of_reachable h
  have hc := Completing.of_reachable h
  have ho := Ordered.of_reachable h
  have hsublist : [a, b].Sublist s.log.sent := by
    rcases hbefore with hbefore | ⟨hrequest, hlt⟩
    · exact hbefore
    · refine ho.before_of_lt hinv hrequest hlt hrouteA hrouteB ?_
      rcases hbegun.life hinv hc with hlife | ⟨w, stage, hlife⟩ <;> simp [hlife]
  -- Both have been pushed to the queue of their descriptor.
  have hroute : ∀ {e : RequestEx} {cmd : Command} {queue : QueueId}, (queue, e) ∈ s.log.pushes →
      e ∈ s.log.routed → s.command e = some cmd → cmd.streamed → cmd.fd = cmdA.fd →
      queue = .io (cmdA.queueIdx s.ioThreadGroup.length) := by
    intro e cmd queue hmem he hcmd hstream hsame
    have hfits := ho.routed.pushed _ hmem he cmd hcmd
    rwa [chooses, if_pos hstream, Command.queueIdx, hsame] at hfits
  obtain ⟨queueA, queueB, hmemA, hmemB, hsame⟩ := Log.pair_sent hsublist
  have hqueueA := hroute hmemA hrouteA hcmdA hstreamA rfl
  have hqueueB := hroute hmemB hrouteB hcmdB hstreamB hfd.symm
  have hsentTo := hsame (hqueueA.trans hqueueB.symm)
  rw [hqueueA] at hsentTo
  exact ho.finished_of_begun hinv hc hsentTo hbegun

/-- A write and a read on the descriptor -3, by two calls of `Submit`; the second of
two io threads gets both, and is at the read. -/
def writeBeforeRead : List (Label Unit) :=
  let c : Command := ⟨0, 0, 0, 0, 0, 0, 0⟩
  let io := Label.worker (.io 1) (8, 0)
  [.start 2 1, .control 4, .control 4, .control 4, .submit () [c.set cmdWrite (-3) 4096 8] 1 2 100,
    .advance (), .advance (), .advance (), .submit () [c.set cmdRead (-3) 8192 8] 1 2 100,
    .advance (), .advance (), io, io, io, io, io]

theorem stream_order_two_requests : ∃ s : State Unit,
    Machine.run step (start Unit) writeBeforeRead = some s ∧
      s.job (.io 1) = some (⟨1, 0⟩, .popped) ∧ ⟨0, 0⟩ ∈ s.log.finished := by
  obtain ⟨s, cmdA, cmdB, hs, hroute, hsent, hcmdA, hcmdB, hstreamA, hstreamB, hfd, hjob⟩ :
      ∃ (s : State Unit) (cmdA cmdB : Command),
        Machine.run step (start Unit) writeBeforeRead = some s ∧
          s.log.routed = [⟨0, 0⟩, ⟨1, 0⟩] ∧ s.log.sent = [⟨0, 0⟩, ⟨1, 0⟩] ∧
          s.command ⟨0, 0⟩ = some cmdA ∧ s.command ⟨1, 0⟩ = some cmdB ∧
          cmdA.streamed = true ∧ cmdB.streamed = true ∧ cmdA.fd = cmdB.fd ∧
          s.job (.io 1) = some (⟨1, 0⟩, .popped) :=
    ⟨_, _, _, rfl, rfl, rfl, rfl, rfl, rfl, rfl, rfl, rfl⟩
  refine ⟨s, hs, hjob, ?_⟩
  exact stream_order ⟨_, hs⟩ (by simp [hroute]) (by simp [hroute]) hcmdA hcmdB hstreamA hstreamB
    hfd (Or.inl (by rw [hsent])) (Or.inl ⟨_, _, hjob⟩)

end State

end XfUtil.Aio
