import XfUtil.Aio.Moves

/-!
# The phases of `Start` and `Stop`

Which threads and queues exist is decided by `s_state` and by how far `Start` or
`Stop` has got. No worker and no end marker of `Stop` ever meets a queue that is
not there.
-/

namespace XfUtil.Aio.State

variable {Tid : Type*}

/-- The io threads of the last period have been joined, no others started. -/
def IoJoined (s : State Tid) : Prop :=
  match s.control with
  | .startIo _ _ | .threwIo | .deleteIo | .stopPio _ | .stopDone => True
  | .idle => s.state = .stopped
  | .startPio _ | .startDone | .threwPio | .stopIo _ => False

/-- The io queues of the last period have been deleted, no others created. -/
def IoDeleted (s : State Tid) : Prop :=
  match s.control with
  | .startIo _ _ | .threwIo | .stopPio _ | .stopDone => True
  | .idle => s.state = .stopped
  | .startPio _ | .startDone | .threwPio | .stopIo _ | .deleteIo => False

/-- The pio threads of the last period have been joined, no others started. -/
def PioJoined (s : State Tid) : Prop :=
  match s.control with
  | .startIo _ _ | .startPio _ | .threwIo | .threwPio | .stopDone => True
  | .idle => s.state = .stopped
  | .startDone | .stopIo _ | .deleteIo | .stopPio _ => False

/-- `s_state` while a call of `Start` or `Stop` is at a place, or none is. -/
def Agrees (state : AioState) : Control → Prop
  | .idle => state = .stopped ∨ state = .started
  | .startIo _ _ | .startPio _ | .startDone | .threwIo | .threwPio => state = .starting
  | .stopIo _ | .deleteIo | .stopPio _ | .stopDone => state = .stopping

structure Phases (s : State Tid) : Prop where
  agrees : Agrees s.state s.control
  ioJoined : s.IoJoined → ∀ wk ∈ s.ioThreadGroup, wk.pc = .exited
  ioDeleted : s.IoDeleted ↔ s.ioRequestQueues = none
  ioQueues : ∀ queues, s.ioRequestQueues = some queues → queues.length = s.ioThreadGroup.length
  pioJoined : s.PioJoined → ∀ wk ∈ s.pioThreadGroup, wk.pc = .exited
  stopIo : ∀ i, s.control = .stopIo i → i ≤ s.ioThreadGroup.length
  stopPio : ∀ i, s.control = .stopPio i → i ≤ s.pioThreadGroup.length
  /-- A worker that has left its loop has popped one empty request, any other none. -/
  emptied : ∀ w wk, s.workerAt w = some wk → wk.emptied = if wk.pc = .exited then 1 else 0

theorem start_phases : (start Tid).Phases := by
  constructor <;> simp [start, Agrees, IoDeleted]
  intro w wk hw
  cases w <;> simp [workerAt] at hw

variable {s : State Tid}

namespace Phases

theorem agrees_at (h : s.Phases) {control : Control} (hpc : s.control = control) :
    Agrees s.state control :=
  hpc ▸ h.agrees

/-- Between a `Stop` and a `Start`, and while the AIO runs, nobody is inside them. -/
theorem idle (h : s.Phases) (hs : s.state = .stopped ∨ s.state = .started) : s.control = .idle := by
  have hagrees := h.agrees
  cases hc : s.control with
  | idle => rfl
  | startIo | startPio | startDone | threwIo | threwPio | stopIo | deleteIo | stopPio | stopDone =>
      rw [hc] at hagrees
      rcases hs with hs | hs <;> exact absurd (hs.symm.trans hagrees) (by decide)

theorem mem_io {index : Nat} {wk : Worker} (hw : s.workerAt (.io index) = some wk) :
    wk ∈ s.ioThreadGroup :=
  List.mem_of_getElem? hw

theorem mem_pio {index : Nat} {wk : Worker} (hw : s.workerAt (.pio index) = some wk) :
    wk ∈ s.pioThreadGroup :=
  List.mem_of_getElem? hw

theorem joined_of_deleted (hd : s.IoDeleted) : s.IoJoined := by
  unfold IoDeleted at hd
  unfold IoJoined
  split at hd <;> simp_all

theorem exited_of_none (h : s.Phases) (hqs : s.ioRequestQueues = none) :
    ∀ wk ∈ s.ioThreadGroup, wk.pc = .exited :=
  h.ioJoined (joined_of_deleted (h.ioDeleted.mpr hqs))

/-- The queue of a worker in its loop exists. -/
theorem access_worker (h : s.Phases) {w : WorkerId} {wk : Worker} (hw : s.workerAt w = some wk)
    (hlive : wk.pc ≠ .exited) : ∃ q, s.access w.queue = .ok q := by
  cases w with
  | pio index => exact ⟨_, rfl⟩
  | io index =>
      cases hqs : s.ioRequestQueues with
      | none => exact absurd (h.exited_of_none hqs wk (mem_io hw)) hlive
      | some queues =>
          have hlt : index < queues.length := by
            rw [h.ioQueues queues hqs]
            exact (List.getElem?_eq_some_iff.mp hw).1
          exact ⟨queues[index], by simp [access, WorkerId.queue, hqs, hlt]⟩

/-- The queues that `Stop` pushes its end markers to exist. -/
theorem access_stopIo (h : s.Phases) {i : Nat} (hi : i < s.ioThreadGroup.length)
    (hqs : s.ioRequestQueues ≠ none) : ∃ q, s.access (.io i) = .ok q := by
  cases hq : s.ioRequestQueues with
  | none => exact absurd hq hqs
  | some queues =>
      have hlt : i < queues.length := by rwa [h.ioQueues queues hq]
      exact ⟨queues[i], by simp [access, hq, hlt]⟩

theorem lt_of_access (h : s.Phases) {idx : Nat} {q : BlockingQueue (Option RequestEx)}
    (hq : s.access (.io idx) = .ok q) : idx < s.ioThreadGroup.length := by
  obtain ⟨queues, hqs, hidx⟩ := access_io hq
  rw [← h.ioQueues queues hqs]
  exact (List.getElem?_eq_some_iff.mp hidx).1

/-! ## Steps -/

theorem setQueue (h : s.Phases) (queue : QueueId) (q : BlockingQueue (Option RequestEx)) :
    (s.setQueue queue q).Phases := by
  cases queue with
  | pio => exact { h with }
  | io idx =>
      refine { h with
        ioDeleted := h.ioDeleted.trans (by simp [State.setQueue])
        ioQueues := fun queues hqs => ?_ }
      obtain ⟨old, hold, rfl⟩ := Option.map_eq_some_iff.mp hqs
      rw [List.length_set]
      exact h.ioQueues old hold

/-- A worker in its loop does something; its group has not been joined. -/
theorem setWorker (h : s.Phases) {w : WorkerId} {wk wk' : Worker} (hw : s.workerAt w = some wk)
    (hlive : wk.pc ≠ .exited) (hem : wk'.emptied = if wk'.pc = .exited then 1 else 0) :
    (s.setWorker w wk').Phases := by
  have hemptied : ∀ w₁ wk₁, (s.setWorker w wk').workerAt w₁ = some wk₁ →
      wk₁.emptied = if wk₁.pc = .exited then 1 else 0 := by
    intro w₁ wk₁ hw₁
    by_cases hne : w₁ = w
    · subst hne
      rw [workerAt_setWorker_self hw] at hw₁
      cases hw₁
      exact hem
    · rw [workerAt_setWorker_ne hne] at hw₁
      exact h.emptied w₁ wk₁ hw₁
  cases w with
  | io index =>
      have hnot : ¬ ∀ wk ∈ s.ioThreadGroup, wk.pc = .exited := fun hall =>
        hlive (hall wk (mem_io hw))
      exact { h with
        ioJoined := fun hj => absurd (h.ioJoined hj) hnot
        ioQueues := fun queues hqs => (h.ioQueues queues hqs).trans List.length_set.symm
        stopIo := fun i hi => (h.stopIo i hi).trans_eq List.length_set.symm
        emptied := hemptied }
  | pio index =>
      have hnot : ¬ ∀ wk ∈ s.pioThreadGroup, wk.pc = .exited := fun hall =>
        hlive (hall wk (mem_pio hw))
      exact { h with
        pioJoined := fun hj => absurd (h.pioJoined hj) hnot
        stopPio := fun i hi => (h.stopPio i hi).trans_eq List.length_set.symm
        emptied := hemptied }

/-- A worker goes on without leaving its loop. -/
theorem setPc (h : s.Phases) {w : WorkerId} {wk : Worker} (hw : s.workerAt w = some wk)
    (hlive : wk.pc ≠ .exited) {pc : WorkerPc} (hpc : pc ≠ .exited) :
    (s.setWorker w { wk with pc := pc }).Phases := by
  apply h.setWorker hw hlive
  have hem := h.emptied w wk hw
  rw [if_neg hlive] at hem
  simp [hem, hpc]

theorem startIo (h : s.Phases) {io pio : BitVec 32} (hpc : s.control = .startIo io pio) (n : Nat) :
    (s.startIo n pio).Phases := by
  have hs : s.state = .starting := h.agrees_at hpc
  refine ⟨hs, fun hj => hj.elim, by simp [IoDeleted, State.startIo], fun queues hqs => ?_,
    fun _ => h.pioJoined (by simp [PioJoined, hpc]), fun i hi => ?_, fun i hi => ?_,
    fun w wk hw => ?_⟩
  · cases hqs
    simp [State.startIo]
  · cases hi
  · cases hi
  · cases w with
    | io index =>
        rw [List.eq_of_mem_replicate (mem_io hw)]
        rfl
    | pio index => exact h.emptied (.pio index) wk hw

theorem startPio (h : s.Phases) {pio : BitVec 32} (hpc : s.control = .startPio pio) (n : Nat) :
    { s with pioThreadGroup := List.replicate n .new, control := .startDone }.Phases := by
  have hs : s.state = .starting := h.agrees_at hpc
  have hd := h.ioDeleted
  simp only [IoDeleted, hpc] at hd
  refine ⟨hs, fun hj => hj.elim, hd, h.ioQueues,
    fun hj => hj.elim, fun i hi => ?_, fun i hi => ?_, fun w wk hw => ?_⟩
  · cases hi
  · cases hi
  · cases w with
    | io index => exact h.emptied (.io index) wk hw
    | pio index =>
        rw [List.eq_of_mem_replicate (mem_pio hw)]
        rfl

/-- A step of `Start` or `Stop` that only moves on. -/
theorem goOn (h : s.Phases) {state : AioState} {control : Control} (hagrees : Agrees state control)
    (hj : { s with state := state, control := control }.IoJoined →
      ∀ wk ∈ s.ioThreadGroup, wk.pc = .exited)
    (hd : { s with state := state, control := control }.IoDeleted ↔ s.IoDeleted)
    (hp : { s with state := state, control := control }.PioJoined →
      ∀ wk ∈ s.pioThreadGroup, wk.pc = .exited)
    (hi : ∀ i, control = .stopIo i → i ≤ s.ioThreadGroup.length)
    (hk : ∀ i, control = .stopPio i → i ≤ s.pioThreadGroup.length) :
    { s with state := state, control := control }.Phases :=
  ⟨hagrees, hj, hd.trans h.ioDeleted, h.ioQueues, hp, hi, hk, h.emptied⟩

variable [DecidableEq Tid]

theorem move (h : s.Phases) {l : Label Tid} {s' : State Tid} (hm : s.Move l s') : s'.Phases := by
  cases hm with
  | refused => exact h
  | divide => exact { h with }
  | strayPush => exact { h with }
  | strayEmpty => exact { h with }
  | strayPop => exact { h with }
  | start hs =>
      have hidle := h.idle (Or.inl hs)
      exact h.goOn rfl (fun _ => h.ioJoined (by simp [IoJoined, hidle, hs]))
        (by simp [IoDeleted, hidle, hs])
        (fun _ => h.pioJoined (by simp [PioJoined, hidle, hs])) (by simp) (by simp)
  | throwIo hpc =>
      have hs : s.state = .starting := h.agrees_at hpc
      exact h.goOn hs (fun _ => h.ioJoined (by simp [IoJoined, hpc])) (by simp [IoDeleted, hpc])
        (fun _ => h.pioJoined (by simp [PioJoined, hpc])) (by simp) (by simp)
  | throwPio hpc =>
      have hs : s.state = .starting := h.agrees_at hpc
      exact h.goOn hs (fun hj => hj.elim) (by simp [IoDeleted, hpc])
        (fun _ => h.pioJoined (by simp [PioJoined, hpc])) (by simp) (by simp)
  | startIo hpc => exact h.startIo hpc _
  | startPio hpc => exact h.startPio hpc _
  | startDone hpc =>
      exact h.goOn (Or.inr rfl) (by simp [IoJoined]) (by simp [IoDeleted, hpc])
        (by simp [PioJoined]) (by simp) (by simp)
  | stop hs =>
      have hidle := h.idle (Or.inr hs)
      exact h.goOn rfl (fun hj => hj.elim) (by simp [IoDeleted, hidle, hs]) (fun hp => hp.elim)
        (by simp) (by simp)
  | emptyIo hpc hi hq hpush =>
      have hs : s.state = .stopping := h.agrees_at hpc
      exact (h.setQueue _ _).goOn hs (fun hj => hj.elim) (by simp [IoDeleted, State.setQueue, hpc])
        (fun hp => hp.elim) (fun i hi' => by cases hi'; exact hi) (by simp)
  | joinIo hpc hi hj =>
      have hs : s.state = .stopping := h.agrees_at hpc
      exact h.goOn hs (fun _ => hj) (by simp [IoDeleted, hpc]) (fun hp => hp.elim)
        (by simp) (by simp)
  | deleteIo hpc =>
      have hs : s.state = .stopping := h.agrees_at hpc
      have hj := h.ioJoined (by simp [IoJoined, hpc])
      exact ⟨hs, fun _ => hj, by simp [IoDeleted, State.deleteIo], by simp [State.deleteIo],
        fun hp => hp.elim, by simp [State.deleteIo], by simp [State.deleteIo], h.emptied⟩
  | emptyPio hpc hi hpush =>
      have hs : s.state = .stopping := h.agrees_at hpc
      exact (h.setQueue _ _).goOn hs (fun _ => h.ioJoined (by simp [IoJoined, hpc]))
        (by simp [IoDeleted, State.setQueue, hpc]) (fun hp => hp.elim) (by simp)
        (fun i hi' => by cases hi'; exact hi)
  | joinPio hpc hi hj =>
      have hs : s.state = .stopping := h.agrees_at hpc
      exact h.goOn hs (fun _ => h.ioJoined (by simp [IoJoined, hpc])) (by simp [IoDeleted, hpc])
        (fun _ => hj) (by simp) (by simp)
  | stopDone hpc =>
      exact h.goOn (Or.inl rfl) (fun _ => h.ioJoined (by simp [IoJoined, hpc]))
        (by simp [IoDeleted, hpc]) (fun _ => h.pioJoined (by simp [PioJoined, hpc])) (by simp)
        (by simp)
  | accept hpc hs => exact { h with }
  | choose hpc hcmd hn => exact { h with }
  | send hpc hq hpush => exact { h.setQueue _ _ with }
  | submitted hpc hend => exact { h with }
  | leave hw hpc hq hpop =>
      have hem := h.emptied _ _ hw
      rw [hpc] at hem
      exact (h.setQueue _ _).setWorker hw (by simp [hpc]) (by simpa using hem)
  | take hw hpc hq hpop =>
      exact { (h.setQueue _ _).setPc hw (by simp [hpc]) (by simp) with }
  | execute hw hpc hreq hcmd => exact { h.setPc hw (by simp [hpc]) (by simp) with }
  | countFail hw hpc hreq => exact { h.setPc hw (by simp [hpc]) (by simp) with }
  | countDone hw hpc hreq => exact { h.setPc hw (by simp [hpc]) (by simp) with }
  | finish hw hpc hreq => exact { h.setPc hw (by simp [hpc]) (by simp) with }

end Phases

end XfUtil.Aio.State
