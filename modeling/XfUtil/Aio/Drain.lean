import XfUtil.Aio.Completion
import XfUtil.Base.EndMarkers

/-!
# How `Stop` drains the queues

An io queue has one worker and gets one end marker; the pio queue is shared by
its workers and gets one marker for each. As long as commands are pushed before
the last marker of their queue, nothing is left behind when the threads have
been joined.
-/

namespace XfUtil.Aio.State

variable {Tid : Type*} {s s' : State Tid}

/-! ## Markers and workers of a queue -/

/-- The workers that pop from a queue. -/
def crew (s : State Tid) : QueueId → List Worker
  | .io idx => s.ioThreadGroup[idx]?.toList
  | .pio => s.pioThreadGroup

/-- How many workers of the queue have left their loop. -/
def gone (s : State Tid) (queue : QueueId) : Nat := (s.crew queue).countP fun wk => wk.pc == .exited

/-- How many end markers `Stop` has pushed to the queue since its threads were started. -/
def markers (s : State Tid) : QueueId → Nat
  | .io idx =>
      match s.control with
      | .stopIo i => if idx < i then 1 else 0
      | .deleteIo | .stopPio _ | .stopDone | .startIo _ _ | .threwIo => 1
      | .idle => if s.state = .stopped then 1 else 0
      | .startPio _ | .startDone | .threwPio => 0
  | .pio =>
      match s.control with
      | .stopPio i => i
      | .stopDone | .startIo _ _ | .startPio _ | .threwIo | .threwPio => s.pioThreadGroup.length
      | .idle => if s.state = .stopped then s.pioThreadGroup.length else 0
      | .startDone | .stopIo _ | .deleteIo => 0

/-- `Stop` has not pushed the last end marker of the queue yet. -/
def Open (s : State Tid) (queue : QueueId) : Prop := s.markers queue < (s.crew queue).length

instance (s : State Tid) (queue : QueueId) : Decidable (s.Open queue) :=
  inferInstanceAs (Decidable (_ < _))

/-- Every queue that is there is on its way to be drained. -/
def Drains (s : State Tid) : Prop :=
  ∀ queue q, s.access queue = .ok q →
    EndMarkers.Draining (s.crew queue).length (s.markers queue) q.queue (s.gone queue)

theorem start_drains : (start Tid).Drains := by
  intro queue q hq
  cases queue with
  | io idx => cases hq
  | pio =>
      cases hq
      exact .new 0

/-! ## Workers -/

theorem crew_setWorker_ne {w : WorkerId} {queue : QueueId} (hne : queue ≠ w.queue) (wk' : Worker) :
    (s.setWorker w wk').crew queue = s.crew queue := by
  cases queue with
  | pio =>
      cases w with
      | io index => rfl
      | pio index => exact absurd rfl hne
  | io idx =>
      cases w with
      | pio index => rfl
      | io index =>
          have hidx : index ≠ idx := fun heq => hne (by rw [heq]; rfl)
          simp [crew, setWorker, List.getElem?_set_ne hidx]

theorem crew_setWorker_length {w : WorkerId} {wk : Worker} (hw : s.workerAt w = some wk)
    (wk' : Worker) (queue : QueueId) :
    ((s.setWorker w wk').crew queue).length = (s.crew queue).length := by
  by_cases hq : queue = w.queue
  · subst hq
    cases w with
    | pio index => exact List.length_set
    | io index =>
        have hget : s.ioThreadGroup[index]? = some wk := hw
        have hlt := (List.getElem?_eq_some_iff.mp hget).1
        simp [crew, setWorker, WorkerId.queue, hlt]
  · rw [crew_setWorker_ne hq]

theorem gone_setWorker {w : WorkerId} {wk : Worker} (hw : s.workerAt w = some wk)
    (hlive : wk.pc ≠ .exited) (wk' : Worker) :
    (s.setWorker w wk').gone w.queue = s.gone w.queue + if wk'.pc = .exited then 1 else 0 := by
  cases w with
  | pio index =>
      obtain ⟨hlt, hget⟩ := List.getElem?_eq_some_iff.mp hw
      simp [gone, crew, setWorker, WorkerId.queue, List.countP_set hlt, hget, hlive]
  | io index =>
      obtain ⟨hlt, hget⟩ := List.getElem?_eq_some_iff.mp hw
      simp [gone, crew, setWorker, WorkerId.queue, hlt, hget, hlive, List.countP_singleton]

theorem markers_setWorker (w : WorkerId) (wk' : Worker) (queue : QueueId) :
    (s.setWorker w wk').markers queue = s.markers queue := by
  cases queue with
  | io idx => rfl
  | pio =>
      cases w with
      | io index => rfl
      | pio index => simp [markers, setWorker]

/-! ## Steps -/

theorem Drains.congr (h : s.Drains) (haccess : s'.access = s.access) (hcrew : s'.crew = s.crew)
    (hmarkers : ∀ queue q, s.access queue = .ok q → s'.markers queue = s.markers queue) :
    s'.Drains := by
  intro queue q hq
  rw [haccess] at hq
  rw [gone, hcrew, hmarkers queue q hq]
  exact h queue q hq

/-- One queue changes. -/
theorem Drains.setQueue (h : s.Drains) {queue : QueueId} {q q' : BlockingQueue (Option RequestEx)}
    (hq : s.access queue = .ok q) (haccess : s'.access = (s.setQueue queue q').access)
    (hother : ∀ queue', queue' ≠ queue → (s'.crew queue').length = (s.crew queue').length ∧
      s'.markers queue' = s.markers queue' ∧ s'.gone queue' = s.gone queue')
    (hself : EndMarkers.Draining (s'.crew queue).length (s'.markers queue) q'.queue
      (s'.gone queue)) : s'.Drains := by
  intro queue' q'' hq''
  rw [haccess] at hq''
  by_cases hne : queue' = queue
  · subst hne
    rw [access_setQueue_self hq] at hq''
    cases hq''
    exact hself
  · rw [access_setQueue_ne hne] at hq''
    obtain ⟨hcrew, hmarkers, hgone⟩ := hother queue' hne
    rw [hcrew, hmarkers, hgone]
    exact h queue' q'' hq''

theorem Drains.setWorker (h : s.Drains) {w : WorkerId} {wk wk' : Worker}
    (hw : s.workerAt w = some wk) (hlive : wk.pc ≠ .exited) (hlive' : wk'.pc ≠ .exited) :
    (s.setWorker w wk').Drains := by
  intro queue q hq
  have hcrew := crew_setWorker_length hw wk' queue
  have hgone : (s.setWorker w wk').gone queue = s.gone queue := by
    by_cases hne : queue = w.queue
    · subst hne
      rw [gone_setWorker hw hlive, if_neg hlive']
      rfl
    · rw [gone, crew_setWorker_ne hne, gone]
  rw [hcrew, hgone, markers_setWorker]
  exact h queue q hq

/-- A worker pops: the rest is in the queue, and the worker is gone if it was a marker. -/
theorem Drains.pop (h : s.Drains) {w : WorkerId} {wk wk' : Worker} {o : Option RequestEx}
    {q q' : BlockingQueue (Option RequestEx)} (hw : s.workerAt w = some wk)
    (hlive : wk.pc ≠ .exited) (hq : s.access w.queue = .ok q) (hpop : q.queue = o :: q'.queue)
    (hpc : wk'.pc = .exited ↔ o.isNone = true) :
    ((s.setQueue w.queue q').setWorker w wk').Drains := by
  have hw' : (s.setQueue w.queue q').workerAt w = some wk := hw
  refine h.setQueue hq rfl (fun queue hne => ⟨?_, ?_, ?_⟩) ?_
  · exact crew_setWorker_length hw' wk' queue
  · exact markers_setWorker w wk' queue
  · show ((s.setQueue w.queue q').setWorker w wk').gone queue = (s.setQueue w.queue q').gone queue
    rw [gone, crew_setWorker_ne hne, gone]
  · rw [crew_setWorker_length hw', markers_setWorker, gone_setWorker hw' hlive]
    have hpopped := (h w.queue q hq).pop hpop
    simp only [hpc]
    exact hpopped

/-- New io queues are empty, and their workers are in their loops. -/
theorem Drains.startIo (h : s.Drains) {io pio : BitVec 32} (hpc : s.control = .startIo io pio)
    (n : Nat) : (s.startIo n pio).Drains := by
  intro queue q hq
  cases queue with
  | pio =>
      have hold := h .pio q hq
      simp only [markers, hpc] at hold
      exact hold
  | io idx =>
      by_cases hlt : idx < n
      · have hcrew : (s.startIo n pio).crew (.io idx) = [.new] := by
          simp [crew, State.startIo, hlt]
        have hnew : q = .new := by
          simpa [access, State.startIo, hlt, eq_comm] using hq
        rw [gone, hcrew, hnew]
        exact .new 1
      · simp [access, State.startIo, hlt] at hq

/-- The old pio threads have left the pio queue empty for the new ones. -/
theorem Drains.startPio (h : s.Drains) (hp : s.Phases) {pio : BitVec 32}
    (hpc : s.control = .startPio pio) (n : Nat) :
    { s with pioThreadGroup := List.replicate n .new, control := .startDone }.Drains := by
  intro queue q hq
  cases queue with
  | io idx =>
      have hold := h (.io idx) q hq
      simp only [markers, hpc] at hold
      exact hold
  | pio =>
      have hexited := hp.pioJoined (by simp [PioJoined, hpc])
      have hgone : s.gone .pio = (s.crew .pio).length :=
        List.countP_eq_length.mpr fun wk hwk => by simpa using hexited wk hwk
      have hempty := (h .pio q hq).drained hgone
      have hnone : (List.replicate n Worker.new).countP (fun wk => wk.pc == .exited) = 0 := by
        rw [List.countP_replicate]
        rfl
      show EndMarkers.Draining (List.replicate n Worker.new).length 0 q.queue
        ((List.replicate n Worker.new).countP fun wk => wk.pc == .exited)
      rw [hempty, hnone]
      exact .new _

variable [DecidableEq Tid]

theorem Drains.move (h : s.Drains) (hp : s.Phases) {l : Label Tid} (hm : s.Move l s')
    (hopen : ∀ t cmds e queue, l = .advance t → s.submitters t = .chosen cmds e queue →
      s.Open queue) : s'.Drains := by
  -- While there is no array, there is no io queue to speak of.
  have hnone : ∀ idx q, s.IoDeleted → s.access (.io idx) ≠ .ok q := by
    intro idx q hd hq
    simp [access, hp.ioDeleted.mp hd] at hq
  cases hm with
  | refused => exact h
  | start hs =>
      have hidle := hp.idle (Or.inl hs)
      refine h.congr rfl rfl fun queue q hq => ?_
      cases queue with
      | io idx => exact absurd hq (hnone idx q (by simp [IoDeleted, hidle, hs]))
      | pio => simp [markers, hidle, hs]
  | throwIo hpc =>
      refine h.congr rfl rfl fun queue q hq => ?_
      cases queue with
      | io idx => exact absurd hq (hnone idx q (by simp [IoDeleted, hpc]))
      | pio => simp [markers, hpc]
  | throwPio hpc =>
      refine h.congr rfl rfl fun queue q hq => ?_
      cases queue <;> simp [markers, hpc]
  | startIo hpc => exact h.startIo hpc _
  | startPio hpc => exact h.startPio hp hpc _
  | startDone hpc =>
      refine h.congr rfl rfl fun queue q hq => ?_
      cases queue <;> simp [markers, hpc]
  | stop hs =>
      have hidle := hp.idle (Or.inr hs)
      refine h.congr rfl rfl fun queue q hq => ?_
      cases queue <;> simp [markers, hidle, hs]
  | @emptyIo i q q' cpuNum hpc hi hq hpush =>
      have hcrew : (s.crew (.io i)).length = 1 := by simp [crew, hi]
      have hmarkers : s.markers (.io i) = 0 := by simp [markers, hpc]
      refine h.setQueue hq rfl (fun queue hne => ⟨rfl, ?_, rfl⟩) ?_
      · cases queue with
        | pio => simp [markers, hpc]
        | io idx =>
            have hidx : idx ≠ i := fun heq => hne (by rw [heq])
            have hiff : idx < i + 1 ↔ idx < i := by omega
            simp [markers, hpc, hiff]
      · have hdrain := (h (.io i) q hq).push_marker (by omega)
        rw [hpush]
        rw [hmarkers] at hdrain
        have hone :
            { s.setQueue (.io i) q' with control := .stopIo (i + 1) }.markers (.io i) = 1 := by
          simp [markers]
        rw [hone]
        exact hdrain
  | @joinIo i cpuNum hpc hi hj =>
      refine h.congr rfl rfl fun queue q hq => ?_
      cases queue with
      | pio => simp [markers, hpc]
      | io idx =>
          have hlt := hp.lt_of_access hq
          have hidx : idx < i := by omega
          simp [markers, hpc, hidx]
  | deleteIo hpc =>
      intro queue q hq
      cases queue with
      | io idx => cases hq
      | pio =>
          have hold := h .pio q hq
          simp only [markers, hpc] at hold
          exact hold
  | @emptyPio i q' cpuNum hpc hi hpush =>
      have hq : s.access .pio = .ok s.pioRequestQueue := rfl
      refine h.setQueue hq rfl (fun queue hne => ⟨rfl, ?_, rfl⟩) ?_
      · cases queue with
        | pio => exact absurd rfl hne
        | io idx => simp [markers, hpc]
      · have hmarkers : s.markers .pio = i := by simp [markers, hpc]
        have hdrain := (h .pio _ hq).push_marker (by rw [hmarkers]; exact hi)
        rw [hmarkers, ← hpush] at hdrain
        exact hdrain
  | @joinPio i cpuNum hpc hi hj =>
      have hle := hp.stopPio i hpc
      refine h.congr rfl rfl fun queue q hq => ?_
      cases queue with
      | io idx => exact absurd hq (hnone idx q (by simp [IoDeleted, hpc]))
      | pio =>
          simp only [markers, hpc]
          omega
  | stopDone hpc =>
      refine h.congr rfl rfl fun queue q hq => ?_
      cases queue with
      | io idx => exact absurd hq (hnone idx q (by simp [IoDeleted, hpc]))
      | pio => simp [markers, hpc]
  | @send t cmds e queue q q' hpc hq hpush =>
      refine h.setQueue hq rfl (fun _ _ => ⟨rfl, rfl, rfl⟩) ?_
      rw [hpush]
      exact (h queue q hq).push_job (hopen t cmds e queue rfl hpc) e
  | leave hw hpc hq hpop => exact h.pop hw (by simp [hpc]) hq hpop (by simp)
  | take hw hpc hq hpop =>
      exact Drains.congr (h.pop hw (by simp [hpc]) hq hpop (by simp)) rfl rfl fun _ _ _ => rfl
  | execute hw hpc hreq hcmd =>
      exact (h.setWorker hw (by simp [hpc]) (by simp)).congr rfl rfl fun _ _ _ => rfl
  | countFail hw hpc hreq =>
      exact (h.setWorker hw (by simp [hpc]) (by simp)).congr rfl rfl fun _ _ _ => rfl
  | countDone hw hpc hreq =>
      exact (h.setWorker hw (by simp [hpc]) (by simp)).congr rfl rfl fun _ _ _ => rfl
  | finish hw hpc hreq =>
      exact (h.setWorker hw (by simp [hpc]) (by simp)).congr rfl rfl fun _ _ _ => rfl
  | _ => exact h.congr rfl rfl fun _ _ _ => rfl

end XfUtil.Aio.State
