import XfUtil.Aio.Stop
import XfUtil.Base.WorkLeft

/-!
# Accepted requests are completed

`Submit` may wait for room in a queue, `Stop` for the workers, and the workers for commands. In
an orderly run no two of them wait for each other, and every step takes something off what is
left to do; so all calls come back, and the callbacks of requests with commands are made.
-/

namespace XfUtil.Aio

/-- Steps with which a call begins. -/
def Label.begins {Tid : Type*} : Label Tid → Bool
  | .start _ _ | .stop | .submit _ _ _ _ _ => true
  | .control _ | .advance _ | .worker _ _ => false

/-! ## What is left to do -/

def Stage.left : Stage → Nat
  | .popped => 4
  | .failed _ => 3
  | .settled => 2
  | .counted _ => 1

def WorkerPc.left : WorkerPc → Nat
  | .waiting | .exited => 0
  | .serving _ stage => stage.left

/-- With what the commands still to be sent will cost the workers. -/
def Submitter.left : Submitter → Nat
  | .idle => 0
  | .loop cmds e => 7 * (cmds.length - e.cmdIdx) + 1
  | .chosen cmds e _ => 7 * (cmds.length - e.cmdIdx)

/-- The rest of `Stop`, for so many io and pio threads. -/
def Control.left (io pio : Nat) : Control → Nat
  | .stopIo i => 6 * (io - i) + 6 * pio + 5
  | .deleteIo => 6 * pio + 4
  | .stopPio i => 6 * (pio - i) + 3
  | .stopDone => 1
  | .idle | .startIo _ _ | .startPio _ | .startDone | .threwIo | .threwPio => 0

namespace State

variable {Tid : Type*} {s s' : State Tid}

def queued (s : State Tid) : Nat :=
  ((s.ioRequestQueues.getD []).map fun q => q.queue.length).sum + s.pioRequestQueue.queue.length

def served (s : State Tid) : Nat :=
  (s.ioThreadGroup.map fun wk => wk.pc.left).sum + (s.pioThreadGroup.map fun wk => wk.pc.left).sum

def left [Fintype Tid] (s : State Tid) : Nat :=
  (∑ t, (s.submitters t).left) + 5 * s.queued + s.served +
    s.control.left s.ioThreadGroup.length s.pioThreadGroup.length

theorem queued_setQueue {queue : QueueId} {q : BlockingQueue (Option RequestEx)}
    (hq : s.access queue = .ok q) (q' : BlockingQueue (Option RequestEx)) :
    (s.setQueue queue q').queued + q.queue.length = s.queued + q'.queue.length := by
  cases queue with
  | pio =>
      cases hq
      simp only [queued, setQueue]
      omega
  | io idx =>
      obtain ⟨queues, hqs, hidx⟩ := access_io hq
      have hsum := WorkLeft.sum_map_set (fun q => q.queue.length) hidx q'
      simp only [queued, setQueue, hqs, Option.map_some, Option.getD_some]
      omega

theorem served_setWorker {w : WorkerId} {wk : Worker} (hw : s.workerAt w = some wk)
    (wk' : Worker) : (s.setWorker w wk').served + wk.pc.left = s.served + wk'.pc.left := by
  cases w with
  | io index =>
      have hget : s.ioThreadGroup[index]? = some wk := hw
      have hsum := WorkLeft.sum_map_set (fun wk => wk.pc.left) hget wk'
      simp only [served, setWorker]
      omega
  | pio index =>
      have hget : s.pioThreadGroup[index]? = some wk := hw
      have hsum := WorkLeft.sum_map_set (fun wk => wk.pc.left) hget wk'
      simp only [served, setWorker]
      omega

variable [DecidableEq Tid]

theorem left_lt_of_submitter [Fintype Tid] {t : Tid} {pc : Submitter}
    (hsub : s'.submitters = Function.update s.submitters t pc)
    (hio : s'.ioThreadGroup = s.ioThreadGroup) (hpio : s'.pioThreadGroup = s.pioThreadGroup)
    (hcontrol : s'.control = s.control)
    (hlt : pc.left + 5 * s'.queued < (s.submitters t).left + 5 * s.queued) :
    s'.left < s.left := by
  have hsum := WorkLeft.sum_except (f := fun u => (s.submitters u).left)
    (g := fun u => (s'.submitters u).left) t fun u hu => by
      simp only [hsub, Function.update_of_ne hu]
  have hself : (s'.submitters t).left = pc.left := by rw [hsub, Function.update_self]
  have hserved : s'.served = s.served := by rw [served, served, hio, hpio]
  unfold left
  rw [hio, hpio, hcontrol, hserved]
  omega

omit [DecidableEq Tid] in
theorem left_lt_of_worker [Fintype Tid] (hsub : s'.submitters = s.submitters)
    (hcontrol : s'.control = s.control)
    (hio : s'.ioThreadGroup.length = s.ioThreadGroup.length)
    (hpio : s'.pioThreadGroup.length = s.pioThreadGroup.length)
    (hlt : 5 * s'.queued + s'.served < 5 * s.queued + s.served) : s'.left < s.left := by
  unfold left
  rw [hsub, hcontrol, hio, hpio]
  omega

omit [DecidableEq Tid] in
theorem left_lt_of_control [Fintype Tid] (hsub : s'.submitters = s.submitters)
    (hio : s'.ioThreadGroup = s.ioThreadGroup) (hpio : s'.pioThreadGroup = s.pioThreadGroup)
    (hlt : 5 * s'.queued + s'.control.left s.ioThreadGroup.length s.pioThreadGroup.length <
      5 * s.queued + s.control.left s.ioThreadGroup.length s.pioThreadGroup.length) :
    s'.left < s.left := by
  have hserved : s'.served = s.served := by rw [served, served, hio, hpio]
  unfold left
  rw [hsub, hio, hpio, hserved]
  omega

/-! ## What holds along an orderly run -/

/-- Nothing has gone wrong, there are io threads while the AIO runs, and the queues take as much
as there can be. -/
structure Ready (s : State Tid) : Prop where
  noFault : s.fault = none
  staffed : s.state = .started ∨ s.control = .startDone ∨ (∃ n, s.control = .startPio n) →
    0 < s.ioThreadGroup.length
  roomy : ∀ queue q, s.access queue = .ok q → q.capacity = -1#64

omit [DecidableEq Tid] in
theorem start_ready : (start Tid).Ready := by
  refine ⟨rfl, by simp [start], fun queue q hq => ?_⟩
  cases queue with
  | io idx => cases hq
  | pio =>
      cases hq
      rfl

omit [DecidableEq Tid] in
theorem Ready.setQueue (h : s.Ready) {queue : QueueId} {q q' : BlockingQueue (Option RequestEx)}
    (hq : s.access queue = .ok q) (hcapacity : q'.capacity = q.capacity) :
    (s.setQueue queue q').Ready := by
  refine ⟨h.noFault, h.staffed, fun queue' q'' hq'' => ?_⟩
  by_cases hne : queue' = queue
  · subst hne
    rw [access_setQueue_self hq] at hq''
    cases hq''
    rw [hcapacity]
    exact h.roomy queue' q hq
  · rw [access_setQueue_ne hne] at hq''
    exact h.roomy queue' q'' hq''

omit [DecidableEq Tid] in
theorem Ready.setWorker (h : s.Ready) (w : WorkerId) (wk : Worker) : (s.setWorker w wk).Ready := by
  refine ⟨h.noFault, fun hs => ?_, h.roomy⟩
  rw [(length_setWorker s w wk).1]
  exact h.staffed hs

structure Lively (s : State Tid) : Prop where
  inv : s.Inv
  completing : s.Completing
  kept : s.Kept
  attended : s.Attended
  ready : s.Ready

omit [DecidableEq Tid] in
theorem start_lively : (start Tid).Lively :=
  ⟨start_inv, start_completing, start_kept, start_attended, start_ready⟩

omit [DecidableEq Tid] in
/-- A call of `Submit` is under way only while the AIO runs. -/
theorem Lively.running (h : s.Lively) {t : Tid} (hpc : s.submitters t ≠ .idle) :
    s.state = .started := by
  by_contra hne
  exact hpc (h.attended.quiet hne t)

theorem Lively.advance [Fintype Tid] (h : s.Lively) {t : Tid} (hstep : s.stepAdvance t = some s') :
    s'.Ready ∧ s'.left < s.left := by
  have hready := h.ready
  unfold stepAdvance at hstep
  split at hstep
  · cases hstep
  · rename_i cmds e hpc
    split at hstep
    · cases hstep
      refine ⟨{ hready with }, left_lt_of_submitter rfl rfl rfl rfl ?_⟩
      rw [hpc]
      exact Nat.add_lt_add_right (Nat.succ_pos _) _
    · rename_i cmd hcmd
      have hlt := (List.getElem?_eq_some_iff.mp hcmd).1
      have hpos : 0 < s.ioThreadGroup.length :=
        hready.staffed (Or.inl (h.running (t := t) (by simp [hpc])))
      have hroute : ∀ queue, (s.route t cmds e queue).Ready ∧
          (s.route t cmds e queue).left < s.left := by
        intro queue
        refine ⟨{ hready with }, left_lt_of_submitter rfl rfl rfl rfl ?_⟩
        rw [hpc]
        exact Nat.add_lt_add_right (Nat.lt_succ_self _) _
      split at hstep
      · split at hstep
        · omega
        · cases hstep
          exact hroute _
      · cases hstep
        exact hroute _
  · rename_i cmds e queue hpc
    have hlt := h.inv.copies.chosen t cmds e queue hpc
    obtain ⟨q, hq⟩ := access_open h.inv.phases (h.attended.open h.inv.phases hpc)
    rw [hq] at hstep
    obtain ⟨q', hpush, rfl⟩ := Option.map_eq_some_iff.mp hstep
    refine ⟨{ hready.setQueue hq (BlockingQueue.push_capacity hpush) with },
      left_lt_of_submitter rfl rfl rfl rfl ?_⟩
    have hqueued := queued_setQueue hq q'
    rw [BlockingQueue.push_eq_some hpush, List.length_append, List.length_singleton] at hqueued
    have hsent : (s.sent t cmds e queue q').queued = (s.setQueue queue q').queued := rfl
    rw [hpc, hsent]
    simp only [Submitter.left]
    omega

omit [DecidableEq Tid] in
theorem Ready.serve [Fintype Tid] (h : s.Ready) {w : WorkerId} {wk : Worker}
    {requests : List Request} {log : Log} {pc : WorkerPc} (hw : s.workerAt w = some wk)
    (hlt : pc.left < wk.pc.left) :
    { s.setWorker w { wk with pc := pc } with requests := requests, log := log }.Ready ∧
      { s.setWorker w { wk with pc := pc } with
        requests := requests, log := log }.left < s.left := by
  have hready : (s.setWorker w { wk with pc := pc }).Ready := h.setWorker w _
  obtain ⟨hio, hpio⟩ := length_setWorker s w { wk with pc := pc }
  have hserved := served_setWorker hw { wk with pc := pc }
  refine ⟨⟨hready.noFault, hready.staffed, hready.roomy⟩,
    left_lt_of_worker rfl rfl hio hpio ?_⟩
  show 5 * s.queued + (s.setWorker w { wk with pc := pc }).served < _
  dsimp only at hserved
  omega

omit [DecidableEq Tid] in
theorem Lively.worker [Fintype Tid] (h : s.Lively) {w : WorkerId} {answer : BitVec 64 × BitVec 32}
    (hstep : s.stepWorker w answer = some s') : s'.Ready ∧ s'.left < s.left := by
  have hready := h.ready
  unfold stepWorker at hstep
  split at hstep
  · cases hstep
  · rename_i wk hw
    split at hstep
    · rename_i hpc
      obtain ⟨q, hq⟩ := h.inv.phases.access_worker hw (by simp [hpc])
      -- The worker pops something, and takes less time for it than a queued command may cost.
      have hpop : ∀ {o q'}, q.pop = some (o, q') → ∀ wk' : Worker, wk'.pc.left ≤ 4 →
          ((s.setQueue w.queue q').setWorker w wk').Ready ∧
            ((s.setQueue w.queue q').setWorker w wk').left < s.left := by
        intro o q' hpop wk' hle
        have hw' : (s.setQueue w.queue q').workerAt w = some wk := hw
        obtain ⟨hio, hpio⟩ := length_setWorker (s.setQueue w.queue q') w wk'
        have hserved := served_setWorker hw' wk'
        have hqueued := queued_setQueue hq q'
        rw [BlockingQueue.pop_eq_some hpop, List.length_cons] at hqueued
        refine ⟨(hready.setQueue hq (BlockingQueue.pop_capacity hpop)).setWorker w wk',
          left_lt_of_worker rfl rfl hio hpio ?_⟩
        have hsame : (s.setQueue w.queue q').served = s.served := rfl
        have hother : ((s.setQueue w.queue q').setWorker w wk').queued =
            (s.setQueue w.queue q').queued := rfl
        rw [hother]
        omega
      unfold stepPop at hstep
      rw [hq] at hstep
      dsimp only at hstep
      split at hstep
      · cases hstep
      · rename_i q' hq'
        cases hstep
        exact hpop hq' _ (Nat.zero_le _)
      · rename_i e q' hq'
        cases hstep
        obtain ⟨hready', hlt⟩ := hpop hq' { wk with pc := .serving e .popped } (Nat.le_refl _)
        exact ⟨⟨hready'.noFault, hready'.staffed, hready'.roomy⟩, hlt⟩
    · rename_i e stage hpc
      unfold stepProcess at hstep
      split at hstep
      · cases hstep
      · split at hstep
        · obtain ⟨cmd, -, rfl⟩ := Option.map_eq_some_iff.mp hstep
          apply hready.serve hw
          rw [hpc]
          split <;> simp [WorkerPc.left, Stage.left]
        · cases hstep
          apply hready.serve hw
          rw [hpc]
          exact Nat.lt_succ_self 2
        · cases hstep
          apply hready.serve hw
          rw [hpc]
          exact Nat.lt_succ_self 1
        · cases hstep
          apply hready.serve hw
          rw [hpc]
          exact Nat.lt_succ_self 0
    · cases hstep

omit [DecidableEq Tid] in
/-- Once `Stop` has begun, no io threads are asked for at a step that is not one of `Start`. -/
theorem not_staffing (hs : s.state ≠ .started) {c : Control}
    (hnext : c ≠ .startDone ∧ ∀ n, c ≠ .startPio n) :
    ¬ (s.state = .started ∨ c = .startDone ∨ ∃ n, c = .startPio n) := by
  rintro (hs' | hc | ⟨n, hc⟩)
  · exact hs hs'
  · exact hnext.1 hc
  · exact hnext.2 n hc

omit [DecidableEq Tid] in
theorem Ready.proceed [Fintype Tid] (h : s.Ready) (hs : s.state ≠ .started) {c : Control}
    (hnext : c ≠ .startDone ∧ ∀ n, c ≠ .startPio n)
    (hlt : c.left s.ioThreadGroup.length s.pioThreadGroup.length <
      s.control.left s.ioThreadGroup.length s.pioThreadGroup.length) :
    ({ s with control := c } : State Tid).Ready ∧
      ({ s with control := c } : State Tid).left < s.left := by
  exact ⟨⟨h.noFault, fun hstaffing => absurd hstaffing (not_staffing hs hnext), h.roomy⟩,
    left_lt_of_control rfl rfl rfl (Nat.add_lt_add_left hlt _)⟩

omit [DecidableEq Tid] in
/-- `Stop` sends a worker its empty request, which stays to be taken off. -/
theorem Ready.pushEmpty [Fintype Tid] (h : s.Ready) (hs : s.state ≠ .started) {queue : QueueId}
    {q : BlockingQueue (Option RequestEx)} {next : Control} (hq : s.access queue = .ok q)
    (hstep : s.pushEmpty queue next = some s')
    (hnext : next ≠ .startDone ∧ ∀ n, next ≠ .startPio n)
    (hlt : 5 + next.left s.ioThreadGroup.length s.pioThreadGroup.length <
      s.control.left s.ioThreadGroup.length s.pioThreadGroup.length) :
    s'.Ready ∧ s'.left < s.left := by
  unfold State.pushEmpty at hstep
  rw [hq] at hstep
  obtain ⟨q', hpush, rfl⟩ := Option.map_eq_some_iff.mp hstep
  have hready := h.setQueue hq (BlockingQueue.push_capacity hpush)
  have hqueued := queued_setQueue hq q'
  rw [BlockingQueue.push_eq_some hpush, List.length_append, List.length_singleton] at hqueued
  refine ⟨⟨hready.noFault, fun hstaffing => absurd hstaffing (not_staffing hs hnext),
    hready.roomy⟩, left_lt_of_control rfl rfl rfl ?_⟩
  show 5 * (s.setQueue queue q').queued + next.left _ _ < _
  omega

omit [DecidableEq Tid] in
theorem Ready.deleteIo [Fintype Tid] (h : s.Ready) (hs : s.state ≠ .started)
    (hpc : s.control = .deleteIo) : s.deleteIo.Ready ∧ s.deleteIo.left < s.left := by
  have hnext : s.deleteIo.control ≠ .startDone ∧ ∀ n, s.deleteIo.control ≠ .startPio n := by
    simp [State.deleteIo]
  refine ⟨⟨h.noFault, fun hstaffing => absurd hstaffing (not_staffing hs hnext),
    fun queue q hq => ?_⟩, left_lt_of_control rfl rfl rfl ?_⟩
  · cases queue with
    | pio => exact h.roomy .pio q hq
    | io idx => cases hq
  · rw [hpc]
    simp only [queued, State.deleteIo, Control.left, Option.getD_none, List.map_nil, List.sum_nil]
    omega

omit [DecidableEq Tid] in
theorem Ready.startIo (h : s.Ready) {n pio : BitVec 32} (hn : 0 < n.toNat) :
    (s.startIo n.toNat pio).Ready := by
  refine ⟨h.noFault, fun _ => by simpa [State.startIo] using hn, fun queue q hq => ?_⟩
  cases queue with
  | pio => exact h.roomy .pio q hq
  | io idx =>
      obtain ⟨queues, hqs, hidx⟩ := access_io hq
      cases hqs
      rw [List.eq_of_mem_replicate (List.mem_of_getElem? hidx)]
      rfl

omit [DecidableEq Tid] in
/-- In `Stop` every step takes something off; in `Start` none does. -/
theorem Lively.control [Fintype Tid] (h : s.Lively) {cpuNum : BitVec 32}
    (horderly : s.Orderly (.control cpuNum)) (hstep : s.stepControl cpuNum = some s') :
    s'.Ready ∧ (s.state ≠ .starting → s'.left < s.left) := by
  have hready := h.ready
  have hp := h.inv.phases
  have hpos : ∀ {n : BitVec 32}, n ∈ s.control.threadnum → ¬ (threadCount n cpuNum).slt 0 ∧
      0 < (threadCount n cpuNum).toNat := by
    intro n hn
    have hlt := horderly n hn
    refine ⟨?_, ?_⟩
    · simp [BitVec.slt]
      omega
    · rw [BitVec.toInt_eq_toNat_cond] at hlt
      omega
  have hstop : s.state = .stopping → s.state ≠ .started := fun hs => by simp [hs]
  unfold stepControl at hstep
  split at hstep
  · cases hstep
  · cases hstep
  · cases hstep
  · rename_i io pio hpc
    have hs : s.state = .starting := hp.agrees_at hpc
    obtain ⟨hslt, hn⟩ := hpos (n := io) (by rw [hpc]; rfl)
    dsimp only at hstep
    rw [if_neg hslt] at hstep
    cases hstep
    exact ⟨hready.startIo hn, fun hne => absurd hs hne⟩
  · rename_i pio hpc
    have hs : s.state = .starting := hp.agrees_at hpc
    obtain ⟨hslt, -⟩ := hpos (n := pio) (by rw [hpc]; rfl)
    dsimp only at hstep
    rw [if_neg hslt] at hstep
    cases hstep
    exact ⟨⟨hready.noFault, fun _ => hready.staffed (Or.inr (Or.inr ⟨_, hpc⟩)), hready.roomy⟩,
      fun hne => absurd hs hne⟩
  · rename_i hpc
    have hs : s.state = .starting := hp.agrees_at hpc
    cases hstep
    exact ⟨⟨hready.noFault, fun _ => hready.staffed (Or.inr (Or.inl hpc)), hready.roomy⟩,
      fun hne => absurd hs hne⟩
  · rename_i i hpc
    have hs : s.state = .stopping := hp.agrees_at hpc
    split at hstep
    · rename_i hi
      have hqs : s.ioRequestQueues ≠ none := fun hqs => by
        have hd := hp.ioDeleted.mpr hqs
        simp [IoDeleted, hpc] at hd
      obtain ⟨q, hq⟩ := hp.access_stopIo hi hqs
      have hmoved := hready.pushEmpty (hstop hs) hq hstep (by simp) (by
        rw [hpc]
        simp only [Control.left]
        omega)
      exact ⟨hmoved.1, fun _ => hmoved.2⟩
    · split at hstep
      · cases hstep
        have hmoved := hready.proceed (hstop hs) (c := .deleteIo) (by simp) (by
          rw [hpc]
          simp only [Control.left]
          omega)
        exact ⟨hmoved.1, fun _ => hmoved.2⟩
      · cases hstep
  · rename_i hpc
    have hs : s.state = .stopping := hp.agrees_at hpc
    cases hstep
    have hmoved := hready.deleteIo (hstop hs) hpc
    exact ⟨hmoved.1, fun _ => hmoved.2⟩
  · rename_i i hpc
    have hs : s.state = .stopping := hp.agrees_at hpc
    split at hstep
    · have hq : s.access .pio = .ok s.pioRequestQueue := rfl
      have hmoved := hready.pushEmpty (hstop hs) hq hstep (by simp) (by
        rw [hpc]
        simp only [Control.left]
        omega)
      exact ⟨hmoved.1, fun _ => hmoved.2⟩
    · split at hstep
      · cases hstep
        have hmoved := hready.proceed (hstop hs) (c := .stopDone) (by simp) (by
          rw [hpc]
          simp only [Control.left]
          omega)
        exact ⟨hmoved.1, fun _ => hmoved.2⟩
      · cases hstep
  · rename_i hpc
    cases hstep
    refine ⟨⟨hready.noFault, by simp, hready.roomy⟩,
      fun _ => left_lt_of_control rfl rfl rfl ?_⟩
    show 5 * s.queued + _ < _
    rw [hpc]
    simp only [Control.left]
    omega

/-- A step of an orderly run. One that goes on with a call other than `Start` takes something
off. -/
theorem Lively.step [Fintype Tid] (h : s.Lively) {l : Label Tid} (horderly : s.Orderly l)
    (hstep : s.step l = some s') :
    s'.Lively ∧ (l.begins = false → s.state ≠ .starting → s'.left < s.left) := by
  have hm := step_move hstep
  have hp := h.inv.phases
  suffices hready : s'.Ready ∧ (l.begins = false → s.state ≠ .starting → s'.left < s.left) by
    refine ⟨⟨h.inv.move hm, h.completing.move h.inv hm, ?_, h.attended.move hp hm horderly,
      hready.1⟩, hready.2⟩
    exact h.kept.move h.inv hm fun t cmds e queue _ hpc => h.attended.open hp hpc
  have hready := h.ready
  have hnone : ¬ s.fault.isSome = true := by simp [hready.noFault]
  unfold State.step at hstep
  rw [if_neg hnone] at hstep
  cases l with
  | start io pio =>
      refine ⟨?_, fun hl => by cases hl⟩
      cases hstep
      unfold stepStart
      split
      · exact ⟨hready.noFault, by simp, hready.roomy⟩
      · exact hready
  | stop =>
      refine ⟨?_, fun hl => by cases hl⟩
      cases hstep
      unfold stepStop
      split
      · exact ⟨hready.noFault, by simp, hready.roomy⟩
      · exact hready
  | submit t cmds cb arg now =>
      refine ⟨?_, fun hl => by cases hl⟩
      have hsubmit : s.stepSubmit t cmds cb arg now = some s' := hstep
      unfold stepSubmit at hsubmit
      split at hsubmit
      · cases hsubmit
      · split at hsubmit <;> cases hsubmit
        · exact hready
        · exact { hready with }
  | control cpuNum =>
      obtain ⟨hready', hlt⟩ := h.control horderly hstep
      exact ⟨hready', fun _ => hlt⟩
  | advance t =>
      obtain ⟨hready', hlt⟩ := h.advance hstep
      exact ⟨hready', fun _ _ => hlt⟩
  | worker w answer =>
      obtain ⟨hready', hlt⟩ := h.worker hstep
      exact ⟨hready', fun _ _ => hlt⟩

/-! ## Somebody can go on -/

def CanGo (s : State Tid) : Prop :=
  ∃ l u, Machine.only State.step (fun l => !l.begins) s l = some u

theorem Ready.control_goes (h : s.Ready) {n : BitVec 32}
    (hstep : s.stepControl n = some s') : s.CanGo := by
  refine ⟨.control n, s', Machine.only_eq_some.mpr ⟨rfl, ?_⟩⟩
  rw [State.step, if_neg (by simp [h.noFault])]
  exact hstep

theorem Ready.advance_goes (h : s.Ready) {t : Tid} (hstep : s.stepAdvance t = some s') :
    s.CanGo := by
  refine ⟨.advance t, s', Machine.only_eq_some.mpr ⟨rfl, ?_⟩⟩
  rw [State.step, if_neg (by simp [h.noFault])]
  exact hstep

theorem Lively.worker_goes (h : s.Lively) {w : WorkerId} {wk : Worker}
    (hw : s.workerAt w = some wk) (hlive : wk.pc ≠ .exited)
    (hbusy : wk.pc = .waiting → ∀ q, s.access w.queue = .ok q → q.queue ≠ []) : s.CanGo := by
  obtain ⟨u, hu⟩ : ∃ u, s.stepWorker w (0, 0) = some u := by
    cases hpc : wk.pc with
    | exited => exact absurd hpc hlive
    | waiting =>
        obtain ⟨q, hq⟩ := h.inv.phases.access_worker hw hlive
        obtain ⟨o, q', hpop⟩ := BlockingQueue.pop_isSome (hbusy hpc q hq)
        cases o <;> simp [stepWorker, hw, hpc, stepPop, hq, hpop]
    | serving e stage =>
        have hjob : s.board.job w = some (e, stage) := by
          show s.job w = _
          rw [job_of_pc hw, hpc]
          rfl
        have hlife := (h.inv.sound.placed.agree e (.held w stage)).mpr hjob
        obtain ⟨n, hn, hlt⟩ := h.inv.sound.sent.known e (by rw [hlife]; simp)
        obtain ⟨req, hreq, rfl⟩ : ∃ req, s.requests[e.request]? = some req ∧
            req.cmds.length = n := by
          simpa [State.board] using hn
        cases stage <;>
          simp [stepWorker, hw, hpc, stepProcess, hreq, List.getElem?_eq_getElem hlt]
  refine ⟨.worker w (0, 0), u, Machine.only_eq_some.mpr ⟨rfl, ?_⟩⟩
  rw [State.step, if_neg (by simp [h.ready.noFault])]
  exact hu

/-- Somebody is there for a queue with something in it, unless all its end markers are taken. -/
theorem Lively.queue_goes (h : s.Lively) {queue : QueueId} {q : BlockingQueue (Option RequestEx)}
    (hq : s.access queue = .ok q) (hne : q.queue ≠ [])
    (hgone : s.gone queue < (s.crew queue).length) : s.CanGo := by
  obtain ⟨wk, hmem, hlive⟩ : ∃ wk ∈ s.crew queue, wk.pc ≠ .exited := by
    by_contra hall
    push Not at hall
    have heq : s.gone queue = (s.crew queue).length :=
      List.countP_eq_length.mpr fun wk hwk => by simpa using hall wk hwk
    omega
  obtain ⟨w, hw, hqueue⟩ : ∃ w, s.workerAt w = some wk ∧ w.queue = queue := by
    cases queue with
    | io idx => exact ⟨.io idx, by simpa [crew, workerAt] using hmem, rfl⟩
    | pio =>
        obtain ⟨index, hindex⟩ := List.mem_iff_getElem?.mp hmem
        exact ⟨.pio index, hindex, rfl⟩
  refine h.worker_goes hw hlive fun _ q' hq' => ?_
  rw [hqueue, hq] at hq'
  cases hq'
  exact hne

omit [DecidableEq Tid] in
theorem Lively.gone_lt (h : s.Lively) {queue : QueueId} {q : BlockingQueue (Option RequestEx)}
    (hq : s.access queue = .ok q) (hopen : s.Open queue) :
    s.gone queue < (s.crew queue).length := by
  have hbalance := (h.kept.drains queue q hq).balance
  unfold Open at hopen
  omega

omit [DecidableEq Tid] in
/-- As long as not all workers of a queue have left, its end markers are there for the others. -/
theorem Lively.queue_ne_nil (h : s.Lively) {queue : QueueId}
    {q : BlockingQueue (Option RequestEx)} (hq : s.access queue = .ok q)
    (hgone : s.gone queue < s.markers queue) : q.queue ≠ [] := by
  have hbalance := (h.kept.drains queue q hq).balance
  intro hnil
  rw [hnil, List.countP_nil] at hbalance
  omega

theorem Lively.push_goes (h : s.Lively) {queue : QueueId} {q : BlockingQueue (Option RequestEx)}
    (hq : s.access queue = .ok q) (hopen : s.Open queue) (o : Option RequestEx)
    (hgo : ∀ q', q.push o = some q' → s.CanGo) : s.CanGo := by
  have hcapacity := h.ready.roomy queue q hq
  by_cases hlen : q.queue.length < q.capacity.toNat
  · obtain ⟨q', hq'⟩ := BlockingQueue.push_isSome hlen o
    exact hgo q' hq'
  · -- The queue is full, and one of its workers will make room.
    refine h.queue_goes hq (fun hnil => hlen ?_) (h.gone_lt hq hopen)
    rw [hnil, hcapacity]
    decide

theorem Lively.submitter_goes (h : s.Lively) {t : Tid} (hpc : s.submitters t ≠ .idle) :
    s.CanGo := by
  have hp := h.inv.phases
  cases hsub : s.submitters t with
  | idle => exact absurd hsub hpc
  | loop cmds e =>
      have hpos : s.ioThreadGroup.length ≠ 0 :=
        Nat.ne_of_gt (h.ready.staffed (Or.inl (h.running hpc)))
      obtain ⟨u, hu⟩ : ∃ u, s.stepAdvance t = some u := by
        unfold stepAdvance
        rw [hsub]
        cases hcmd : cmds[e.cmdIdx]? with
        | none => simp [hcmd]
        | some cmd => cases hstream : cmd.streamed <;> simp [hcmd, hstream, hpos]
      exact h.ready.advance_goes hu
  | chosen cmds e queue =>
      have hopen := h.attended.open hp hsub
      obtain ⟨q, hq⟩ := access_open hp hopen
      refine h.push_goes hq hopen (some e) fun q' hq' => ?_
      have hstep : s.stepAdvance t = some (s.sent t cmds e queue q') := by
        simp only [stepAdvance, hsub, hq, hq', Option.map_some]
      exact h.ready.advance_goes hstep

/-- `Stop` goes on, or a worker that it waits for. -/
theorem Lively.stop_goes (h : s.Lively) (hstate : s.state ≠ .starting) (hpc : s.control ≠ .idle) :
    s.CanGo := by
  have hp := h.inv.phases
  have hready := h.ready
  -- A worker that is not gone yet, with its end marker in the queue.
  have hwait : ∀ {queue q}, s.access queue = .ok q → s.gone queue < (s.crew queue).length →
      s.markers queue = (s.crew queue).length → s.CanGo := by
    intro queue q hq hgone hmarkers
    exact h.queue_goes hq (h.queue_ne_nil hq (by omega)) hgone
  cases hc : s.control with
  | idle => exact absurd hc hpc
  | startIo | startPio | startDone | threwIo | threwPio => exact absurd (hp.agrees_at hc) hstate
  | stopIo i =>
      have hqs : s.ioRequestQueues ≠ none := fun hqs => by
        have hd := hp.ioDeleted.mpr hqs
        simp [IoDeleted, hc] at hd
      by_cases hi : i < s.ioThreadGroup.length
      · obtain ⟨q, hq⟩ := hp.access_stopIo hi hqs
        have hopen : s.Open (.io i) := by simp [Open, markers, crew, hc, hi]
        refine h.push_goes hq hopen none fun q' hq' => ?_
        have hstep : s.stepControl 0 =
            some { s.setQueue (.io i) q' with control := .stopIo (i + 1) } := by
          simp only [stepControl, hc, if_pos hi, pushEmpty, hq, hq', Option.map_some]
        exact hready.control_goes hstep
      · by_cases hj : joined s.ioThreadGroup = true
        · exact hready.control_goes (n := 0) (by simp [stepControl, hc, hi, hj]; rfl)
        · obtain ⟨wk, hmem, hlive⟩ : ∃ wk ∈ s.ioThreadGroup, wk.pc ≠ .exited := by
            simpa [joined] using hj
          obtain ⟨idx, hidx⟩ := List.mem_iff_getElem?.mp hmem
          have hlt := (List.getElem?_eq_some_iff.mp hidx).1
          obtain ⟨q, hq⟩ := hp.access_stopIo hlt hqs
          have hcrew : s.crew (.io idx) = [wk] := by simp [crew, hidx]
          refine hwait hq ?_ ?_
          · simp [gone, hcrew, hlive]
          · have hlt' : idx < i := by omega
            simp [markers, hc, hcrew, hlt']
  | deleteIo => exact hready.control_goes (n := 0) (by simp [stepControl, hc]; rfl)
  | stopPio i =>
      have hq : s.access .pio = .ok s.pioRequestQueue := rfl
      by_cases hi : i < s.pioThreadGroup.length
      · have hopen : s.Open .pio := by simpa [Open, markers, crew, hc] using hi
        refine h.push_goes hq hopen none fun q' hq' => ?_
        have hstep : s.stepControl 0 =
            some { s.setQueue .pio q' with control := .stopPio (i + 1) } := by
          simp only [stepControl, hc, if_pos hi, pushEmpty, hq, hq', Option.map_some]
        exact hready.control_goes hstep
      · by_cases hj : joined s.pioThreadGroup = true
        · exact hready.control_goes (n := 0) (by simp [stepControl, hc, hi, hj]; rfl)
        · obtain ⟨wk, hmem, hlive⟩ : ∃ wk ∈ s.pioThreadGroup, wk.pc ≠ .exited := by
            simpa [joined] using hj
          have hle := hp.stopPio i hc
          refine hwait hq ?_ ?_
          · have hcount : s.gone .pio ≤ (s.crew .pio).length := List.countP_le_length
            refine Nat.lt_of_le_of_ne hcount fun heq => hlive ?_
            simpa using List.countP_eq_length.mp heq wk hmem
          · simp only [markers, hc, crew]
            omega
  | stopDone => exact hready.control_goes (n := 0) (by simp [stepControl, hc]; rfl)

/-! ## All calls come back -/

/-- No call is under way, and every command of every request has been processed. -/
structure Answered (s : State Tid) : Prop where
  submitters : ∀ t, s.submitters t = .idle
  control : s.control = .idle
  finished : ∀ (r : Nat) (req : Request), s.requests[r]? = some req → ∀ i < req.cmds.length,
    s.log.finished.count ⟨r, i⟩ = 1
  /-- The callback of a request with commands has been called, once. -/
  called : ∀ (r : Nat) (req : Request), s.requests[r]? = some req → req.cmds ≠ [] →
    req.cmds.length ≤ 2 ^ 32 → (s.callbacksOf r).length = 1

omit [DecidableEq Tid] in
/-- Between calls a queue has somebody who pops from it. -/
theorem Lively.attended_queue (h : s.Lively) (hcontrol : s.control = .idle) {queue : QueueId}
    {q : BlockingQueue (Option RequestEx)} (hq : s.access queue = .ok q) (hne : q.queue ≠ []) :
    s.gone queue < (s.crew queue).length := by
  have hp := h.inv.phases
  have hagrees : s.state = .stopped ∨ s.state = .started := hp.agrees_at hcontrol
  apply h.gone_lt hq
  cases queue with
  | io idx =>
      have hlt := hp.lt_of_access hq
      rcases hagrees with hs | hs
      · have hnone := hp.ioDeleted.mp (by simp [IoDeleted, hcontrol, hs])
        simp [access, hnone] at hq
      · simp [Open, markers, crew, hcontrol, hs, hlt]
  | pio =>
      cases hq
      rcases hagrees with hs | hs
      · exact absurd (h.kept.drains.pioQueue_empty hp (by simp [PioJoined, hcontrol, hs])) hne
      · have hpos := h.attended.staffed (Or.inl hs)
        simpa [Open, markers, crew, hcontrol, hs] using hpos

omit [DecidableEq Tid] in
theorem Lively.answered (h : s.Lively) (hsubmitters : ∀ t, s.submitters t = .idle)
    (hcontrol : s.control = .idle) (hjob : ∀ w, s.job w = none)
    (hqueue : ∀ queue q, s.access queue = .ok q → q.queue = []) : s.Answered := by
  have hdone : ∀ (r : Nat) (req : Request), s.requests[r]? = some req →
      ∀ i < req.cmds.length, s.log.life ⟨r, i⟩ = .done := by
    intro r req hreq i hi
    have hagree := h.inv.sound.placed.agree ⟨r, i⟩
    cases hlife : s.log.life ⟨r, i⟩ with
    | done => rfl
    | unsent =>
        have hsize : s.board.sizes[r]? = some req.cmds.length := by simp [State.board, hreq]
        obtain ⟨t, e, he, -⟩ := h.inv.sound.sent.complete r _ i hsize hi hlife
        simp [State.board, hsubmitters t, Submitter.call] at he
    | queued queue =>
        have hat : (⟨r, i⟩ : RequestEx) ∈ s.jobs queue := (hagree _).mp hlife
        cases hq : s.access queue with
        | error f => simp [jobs, hq] at hat
        | ok q =>
            rw [jobs_of_access hq, hqueue queue q hq] at hat
            cases hat
    | held w stage =>
        have hat : s.job w = some (⟨r, i⟩, stage) := (hagree _).mp hlife
        rw [hjob w] at hat
        cases hat
    | lost =>
        have hat : (⟨r, i⟩ : RequestEx) ∈ s.log.dropped.reduceOption := (hagree _).mp hlife
        rw [h.kept.dropped] at hat
        cases hat
  refine ⟨hsubmitters, hcontrol,
    fun r req hreq i hi => h.inv.count_finished (hdone r req hreq i hi),
    fun r req hreq hne hle => ?_⟩
  apply (h.completing.counted r req hreq).tallied.report_of_done (List.length_pos_iff.mpr hne) hle
  intro i hi
  rw [view, hdone r req hreq i hi]
  rfl

/-- As long as a call is under way, or a request is not answered, somebody can go on. -/
theorem Lively.goes (h : s.Lively) (hstate : s.state ≠ .starting) : s.Answered ∨ s.CanGo := by
  by_cases hsubmitters : ∀ t, s.submitters t = .idle
  · by_cases hcontrol : s.control = .idle
    · by_cases hqueue : ∀ queue q, s.access queue = .ok q → q.queue = []
      · by_cases hjob : ∀ w, s.job w = none
        · exact Or.inl (h.answered hsubmitters hcontrol hjob hqueue)
        · obtain ⟨w, hw⟩ := not_forall.mp hjob
          obtain ⟨wk, hwk, hserving⟩ : ∃ wk, s.workerAt w = some wk ∧ wk.pc.job ≠ none := by
            cases hwk : s.workerAt w with
            | none => simp [job, hwk] at hw
            | some wk => exact ⟨wk, rfl, by rwa [job_of_pc hwk] at hw⟩
          refine Or.inr (h.worker_goes hwk (fun hpc => ?_) fun hpc => ?_)
          · simp [hpc, WorkerPc.job] at hserving
          · simp [hpc, WorkerPc.job] at hserving
      · push Not at hqueue
        obtain ⟨queue, q, hq, hne⟩ := hqueue
        exact Or.inr (h.queue_goes hq hne (h.attended_queue hcontrol hq hne))
    · exact Or.inr (h.stop_goes hstate hcontrol)
  · obtain ⟨t, ht⟩ := not_forall.mp hsubmitters
    exact Or.inr (h.submitter_goes ht)

theorem Move.not_starting {l : Label Tid} (hm : s.Move l s') (hl : l.begins = false)
    (hne : s.state ≠ .starting) : s'.state ≠ .starting := by
  cases hm with
  | start hs => cases hl
  | stop hs => cases hl
  | startDone hpc => simp
  | stopDone hpc => simp
  | _ => exact hne

/-- Wherever an orderly run is, but in `Start`: if no more calls begin, it comes to rest after a
bounded number of steps, whatever their order. Then `Stop` and all calls of `Submit` have come
back, every command has been processed once, and the callback of every request with commands has
been called once. -/
theorem calls_answered [Fintype Tid] {ls : List (Label Tid)}
    (hrun : Machine.run step (start Tid) ls = some s)
    (horderly : Machine.StepsMeet step Orderly (start Tid) ls) (hstate : s.state ≠ .starting) :
    Machine.Ends (Machine.only step fun l => !l.begins) s Answered := by
  have hs : s.Lively := Machine.run_invariant_of_stepsMeet Lively start_lively
    (fun _ _ _ ht hl hstep => (ht.step hl hstep).1) horderly hrun
  refine Machine.Ends.of_measure (fun s => s.Lively ∧ s.state ≠ .starting) left ⟨hs, hstate⟩ ?_
    fun t ht => ht.1.goes ht.2
  intro t l u ⟨ht, hne⟩ hstep
  obtain ⟨hl, hstep⟩ := Machine.only_eq_some.mp hstep
  have hl : l.begins = false := by simpa using hl
  have hp := ht.inv.phases
  have horderly : t.Orderly l := by
    cases l with
    | control cpuNum =>
        intro n hn
        cases hc : t.control <;> simp [hc, Control.threadnum] at hn
        all_goals exact absurd (hp.agrees_at hc) hne
    | advance | worker => trivial
    | start | stop | submit => cases hl
  obtain ⟨hu, hlt⟩ := ht.step horderly hstep
  exact ⟨⟨hu, (step_move hstep).not_starting hl hne⟩, hlt hl hne⟩

/-- A request is being served and another one is about to be pushed. -/
def startToPush : List (Label Unit) :=
  let io := Label.worker (.io 0) (8, 0)
  [.start 1 2, .control 4, .control 4, .control 4, .submit () writeThenRead 1 2 100,
    .advance (), .advance (), io, .advance ()]

theorem calls_answered_startToPush : ∃ s : State Unit,
    Machine.run step (start Unit) startToPush = some s ∧ s.requests.length = 1 ∧
      s.log.finished = [] ∧ Machine.Ends (Machine.only step fun l => !l.begins) s Answered := by
  obtain ⟨s, hs, hlen, hfinished, hstate⟩ : ∃ s : State Unit,
      Machine.run step (start Unit) startToPush = some s ∧ s.requests.length = 1 ∧
        s.log.finished = [] ∧ s.state = .started :=
    ⟨_, rfl, rfl, rfl, rfl⟩
  have horderly : Machine.StepsMeet step Orderly (start Unit) startToPush :=
    .of_meets (by decide +kernel)
  exact ⟨s, hs, hlen, hfinished, calls_answered hs horderly (by simp [hstate])⟩

end State

end XfUtil.Aio
