import XfUtil.Aio.Model
import XfUtil.Base.Machine
import Mathlib.Logic.Function.Basic

/-!
# The threads of the AIO

The static variables of `aio.cpp`, the worker threads, the thread inside `Start`
or `Stop` (the compare-and-exchange on `s_state` admits one), and any number of
threads inside `Submit`. A step is what one thread does to shared data: an
atomic operation, a critical section of a queue, the creation or the join of a
thread group. Undefined behaviour ends a run with a fault. The log is ghost
state.
-/

namespace XfUtil.Aio

/-! ## Threads and their places in the code -/

inductive AioState where
  | stopped
  | starting
  | started
  | stopping
deriving Repr, DecidableEq

inductive QueueId where
  | io (idx : Nat)
  | pio
deriving Repr, DecidableEq

inductive WorkerId where
  | io (index : Nat)
  | pio (index : Nat)
deriving Repr, DecidableEq

/-- The queue a worker pops from: `s_io_request_queues[index]` in
`IOProcThreadFunc`, `s_pio_request_queue` in `PIOProcThreadFunc`. -/
def WorkerId.queue : WorkerId → QueueId
  | .io index => .io index
  | .pio _ => .pio

/-- How far `ProcessRequest` has got. -/
inductive Stage where
  | popped
  /-- `ret` is stored and is -1, `m_cmd_fail_cnt` does not count it yet. -/
  | failed (lastError : BitVec 32)
  /-- The next step increments `m_completed_cnt`. -/
  | settled
  | counted (prevCnt : BitVec 32)
deriving Repr, DecidableEq

inductive WorkerPc where
  | waiting
  | serving (reqEx : RequestEx) (stage : Stage)
  | exited
deriving Repr, DecidableEq

structure Worker where
  pc : WorkerPc
  /-- How many empty requests the worker has popped; ghost. -/
  emptied : Nat
deriving Repr, DecidableEq

/-- A thread at the top of its loop. -/
def Worker.new : Worker := ⟨.waiting, 0⟩

/-- The thread inside `Start` or `Stop`, by its next step. -/
inductive Control where
  | idle
  | startIo (ioThreadnum pioThreadnum : BitVec 32)
  | startPio (pioThreadnum : BitVec 32)
  | startDone
  /-- An exception has left `Start`, and `s_state` stays as it is. -/
  | threwIo
  | threwPio
  | stopIo (i : Nat)
  | deleteIo
  | stopPio (i : Nat)
  | stopDone
deriving Repr, DecidableEq

/-- A thread inside `Submit`: at the head of the loop with `req_ex`, or about to
push it to the queue it has chosen. `cmds` is the caller's vector. -/
inductive Submitter where
  | idle
  | loop (cmds : List Command) (reqEx : RequestEx)
  | chosen (cmds : List Command) (reqEx : RequestEx) (queue : QueueId)
deriving Repr, DecidableEq

inductive Fault where
  | divisionByZero
  | deletedQueue
  | outOfRange
deriving Repr, DecidableEq

/-! ## The log -/

/-- Where a command is on its way. -/
inductive Life where
  | unsent
  | queued (queue : QueueId)
  | held (worker : WorkerId) (stage : Stage)
  | done
  /-- It was in a queue that has been deleted. -/
  | lost
deriving Repr, DecidableEq

/-- Queued io commands are lost with their queues, the others stay where they are. -/
def Life.dropIo : Life → Life
  | .queued (.io _) => .lost
  | l => l

theorem Life.dropIo_eq_unsent (l : Life) : l.dropIo = .unsent ↔ l = .unsent := by
  cases l with
  | queued queue => cases queue <;> simp [dropIo]
  | unsent | held | done | lost => simp [dropIo]

/-- A result stored in a command, with the system call it came from. -/
structure Execution where
  reqEx : RequestEx
  call : Option Command.SysCall
  ret : BitVec 64
deriving Repr, DecidableEq

structure Log where
  life : RequestEx → Life
  /-- Commands for which `Submit` has chosen a queue since the queues were created. -/
  routed : List RequestEx
  /-- Commands pushed since the queues were created. -/
  pushes : List (QueueId × RequestEx)
  executed : List Execution
  /-- Commands whose `ProcessRequest` has returned. -/
  finished : List RequestEx
  /-- Callbacks, with their requests. -/
  callbacks : List (Nat × Callback)
  /-- What `Submit` has returned, for which request. -/
  returned : List (BitVec 64 × Nat)
  /-- What the io queues held when they were deleted. -/
  dropped : List (Option RequestEx)

def Log.empty : Log := ⟨fun _ => .unsent, [], [], [], [], [], [], []⟩

def Log.move (log : Log) (e : RequestEx) (l : Life) : Log :=
  { log with life := Function.update log.life e l }

/-! ## The state -/

structure State (Tid : Type*) where
  /-- `s_state`. -/
  state : AioState
  reqid : BitVec 64
  /-- The array behind `s_io_request_queues`, if there is one. -/
  ioRequestQueues : Option (List (BlockingQueue (Option RequestEx)))
  ioThreadGroup : List Worker
  pioRequestQueue : BlockingQueue (Option RequestEx)
  pioThreadGroup : List Worker
  requests : List Request
  control : Control
  submitters : Tid → Submitter
  fault : Option Fault
  log : Log

inductive Label (Tid : Type*) where
  /-- Call `Start`, up to its compare-and-exchange. -/
  | start (ioThreadnum pioThreadnum : BitVec 32)
  /-- Call `Stop`, up to its compare-and-exchange. -/
  | stop
  /-- The next step of the thread inside `Start` or `Stop`. -/
  | control (cpuNum : BitVec 32)
  /-- Call `Submit`, up to the creation of the request. -/
  | submit (t : Tid) (cmds : List Command) (cb arg : Nat) (now : BitVec 64)
  /-- The next step of a thread inside `Submit`. -/
  | advance (t : Tid)
  /-- The next step of a worker, with the kernel's answer if it makes a system call. -/
  | worker (w : WorkerId) (answer : BitVec 64 × BitVec 32)

namespace State

variable {Tid : Type*}

/-- Before the first `Start`. -/
def start (Tid : Type*) : State Tid :=
  ⟨.stopped, 1, none, [], .new, [], [], .idle, fun _ => .idle, none, .empty⟩

/-- The queue behind an expression of the source, or what is wrong with it. -/
def access (s : State Tid) : QueueId → Except Fault (BlockingQueue (Option RequestEx))
  | .pio => .ok s.pioRequestQueue
  | .io idx =>
      match s.ioRequestQueues with
      | none => .error .deletedQueue
      | some queues =>
          match queues[idx]? with
          | none => .error .outOfRange
          | some q => .ok q

def setQueue (s : State Tid) (queue : QueueId) (q : BlockingQueue (Option RequestEx)) :
    State Tid :=
  { s with
    ioRequestQueues :=
      match queue with
      | .io idx => s.ioRequestQueues.map fun queues => queues.set idx q
      | .pio => s.ioRequestQueues
    pioRequestQueue :=
      match queue with
      | .io _ => s.pioRequestQueue
      | .pio => q }

def workerAt (s : State Tid) : WorkerId → Option Worker
  | .io index => s.ioThreadGroup[index]?
  | .pio index => s.pioThreadGroup[index]?

def setWorker (s : State Tid) (w : WorkerId) (wk : Worker) : State Tid :=
  { s with
    ioThreadGroup :=
      match w with
      | .io index => s.ioThreadGroup.set index wk
      | .pio _ => s.ioThreadGroup
    pioThreadGroup :=
      match w with
      | .io _ => s.pioThreadGroup
      | .pio index => s.pioThreadGroup.set index wk }

def setRequest (s : State Tid) (r : Nat) (req : Request) : State Tid :=
  { s with requests := s.requests.set r req }

def fail (s : State Tid) (f : Fault) : State Tid := { s with fault := some f }

end State

/-! ## `Start` and `Stop` -/

/-- A negative thread number is a multiple of the number of processors. The
product is computed in `uint32_t` and stored in an `int`. -/
def threadCount (threadnum cpuNum : BitVec 32) : BitVec 32 :=
  if threadnum.slt 0 then -threadnum * cpuNum else threadnum

/-- What `ThreadGroup::Join` waits for. -/
def joined (group : List Worker) : Bool := group.all fun wk => wk.pc == .exited

namespace State

variable {Tid : Type*}

/-- `Start` up to the compare-and-exchange. -/
def stepStart (s : State Tid) (ioThreadnum pioThreadnum : BitVec 32) : State Tid :=
  if s.state = .stopped then
    { s with state := .starting, control := .startIo ioThreadnum pioThreadnum }
  else s

/-- `Stop` up to the compare-and-exchange. -/
def stepStop (s : State Tid) : State Tid :=
  if s.state = .started then { s with state := .stopping, control := .stopIo 0 } else s

/-- The io queues and their threads. -/
def startIo (s : State Tid) (n : Nat) (pioThreadnum : BitVec 32) : State Tid :=
  { s with
    ioRequestQueues := some (List.replicate n .new)
    ioThreadGroup := List.replicate n .new
    control := .startPio pioThreadnum
    log := { s.log with routed := [], pushes := [] } }

/-- Push the empty `RequestEx` of `Stop`. -/
def pushEmpty (s : State Tid) (queue : QueueId) (next : Control) : Option (State Tid) :=
  match s.access queue with
  | .error f => some (s.fail f)
  | .ok q => (q.push none).map fun q' => { s.setQueue queue q' with control := next }

/-- `delete[] s_io_request_queues`. -/
def deleteIo (s : State Tid) : State Tid :=
  { s with
    ioRequestQueues := none
    control := .stopPio 0
    log := { s.log with
      life := fun e => (s.log.life e).dropIo
      dropped := s.log.dropped ++ (s.ioRequestQueues.getD []).flatMap fun q => q.queue } }

/-- The rest of `Start` and `Stop`. On a negative size, `new[]` and
`vector::reserve` throw. -/
def stepControl (s : State Tid) (cpuNum : BitVec 32) : Option (State Tid) :=
  match s.control with
  | .idle | .threwIo | .threwPio => none
  | .startIo ioThreadnum pioThreadnum =>
      let n := threadCount ioThreadnum cpuNum
      if n.slt 0 then some { s with control := .threwIo }
      else some (s.startIo n.toNat pioThreadnum)
  | .startPio pioThreadnum =>
      let n := threadCount pioThreadnum cpuNum
      if n.slt 0 then some { s with control := .threwPio }
      else some { s with pioThreadGroup := List.replicate n.toNat .new, control := .startDone }
  | .startDone => some { s with state := .started, control := .idle }
  | .stopIo i =>
      if i < s.ioThreadGroup.length then s.pushEmpty (.io i) (.stopIo (i + 1))
      else if joined s.ioThreadGroup then some { s with control := .deleteIo }
      else none
  | .deleteIo => some s.deleteIo
  | .stopPio i =>
      if i < s.pioThreadGroup.length then s.pushEmpty .pio (.stopPio (i + 1))
      else if joined s.pioThreadGroup then some { s with control := .stopDone }
      else none
  | .stopDone => some { s with state := .stopped, control := .idle }

end State

/-! ## `Submit` -/

namespace State

variable {Tid : Type*} [DecidableEq Tid]

/-- A new request, and its thread at the head of the loop. -/
def accept (s : State Tid) (t : Tid) (cmds : List Command) (cb arg : Nat) (now : BitVec 64) :
    State Tid :=
  { s with
    requests := s.requests ++ [Request.new cmds cb arg now]
    submitters := Function.update s.submitters t (.loop cmds ⟨s.requests.length, 0⟩) }

/-- `Submit` up to the creation of the request, which no other thread knows yet. -/
def stepSubmit (s : State Tid) (t : Tid) (cmds : List Command) (cb arg : Nat) (now : BitVec 64) :
    Option (State Tid) :=
  if s.submitters t ≠ .idle then none
  else if s.state ≠ .started then some s
  else some (s.accept t cmds cb arg now)

/-- The last step of `Submit`. -/
def submitted (s : State Tid) (t : Tid) (r : Nat) : State Tid :=
  { s with
    reqid := s.reqid + 1
    submitters := Function.update s.submitters t .idle
    log := { s.log with returned := s.log.returned ++ [(s.reqid, r)] } }

/-- The queue of `req_ex` is chosen. -/
def route (s : State Tid) (t : Tid) (cmds : List Command) (e : RequestEx) (queue : QueueId) :
    State Tid :=
  { s with
    submitters := Function.update s.submitters t (.chosen cmds e queue)
    log := { s.log with routed := s.log.routed ++ [e] } }

/-- `req_ex` has been pushed. -/
def sent (s : State Tid) (t : Tid) (cmds : List Command) (e : RequestEx) (queue : QueueId)
    (q : BlockingQueue (Option RequestEx)) : State Tid :=
  { s.setQueue queue q with
    submitters := Function.update s.submitters t (.loop cmds ⟨e.request, e.cmdIdx + 1⟩)
    log := { s.log.move e (.queued queue) with pushes := s.log.pushes ++ [(queue, e)] } }

/-- The loop of `Submit`: choose a queue, push, and so on to the end. -/
def stepAdvance (s : State Tid) (t : Tid) : Option (State Tid) :=
  match s.submitters t with
  | .idle => none
  | .loop cmds e =>
      match cmds[e.cmdIdx]? with
      | none => some (s.submitted t e.request)
      | some cmd =>
          if cmd.streamed then
            if s.ioThreadGroup.length = 0 then some (s.fail .divisionByZero)
            else some (s.route t cmds e (.io (cmd.queueIdx s.ioThreadGroup.length)))
          else some (s.route t cmds e .pio)
  | .chosen cmds e queue =>
      match s.access queue with
      | .error f => some (s.fail f)
      | .ok q => (q.push (some e)).map fun q' => s.sent t cmds e queue q'

end State

/-! ## The workers -/

namespace State

variable {Tid : Type*}

/-- The worker has popped an empty request and leaves its loop. -/
def leave (s : State Tid) (w : WorkerId) (wk : Worker) (q : BlockingQueue (Option RequestEx)) :
    State Tid :=
  (s.setQueue w.queue q).setWorker w ⟨.exited, wk.emptied + 1⟩

/-- The worker has popped a command. -/
def take (s : State Tid) (w : WorkerId) (wk : Worker) (e : RequestEx)
    (q : BlockingQueue (Option RequestEx)) : State Tid :=
  { (s.setQueue w.queue q).setWorker w { wk with pc := .serving e .popped } with
    log := s.log.move e (.held w .popped) }

/-- `Pop` and the test of the loop, the same in `IOProcThreadFunc` and `PIOProcThreadFunc`. -/
def stepPop (s : State Tid) (w : WorkerId) (wk : Worker) : Option (State Tid) :=
  match s.access w.queue with
  | .error f => some (s.fail f)
  | .ok q =>
      match q.pop with
      | none => none
      | some (none, q') => some (s.leave w wk q')
      | some (some e, q') => some (s.take w wk e q')

/-- The worker goes on to another stage of the command it serves. -/
def reach (s : State Tid) (w : WorkerId) (wk : Worker) (e : RequestEx) (req : Request)
    (stage : Stage) : State Tid :=
  { (s.setRequest e.request req).setWorker w { wk with pc := .serving e stage } with
    log := s.log.move e (.held w stage) }

/-- `cmd.ret` is stored. -/
def execute (s : State Tid) (w : WorkerId) (wk : Worker) (e : RequestEx) (req : Request)
    (cmd : Command) (answer : BitVec 64 × BitVec 32) : State Tid :=
  let result := cmd.outcome answer
  let stage := if result.1 = -1 then .failed result.2 else .settled
  let s' := s.reach w wk e (req.storeRet e.cmdIdx result.1) stage
  { s' with log := { s'.log with
    executed := s.log.executed ++ [Execution.mk e cmd.sysCall result.1] } }

/-- The test and the callback at the end of `ProcessRequest`. -/
def finish (s : State Tid) (w : WorkerId) (wk : Worker) (e : RequestEx) (req : Request)
    (prevCnt : BitVec 32) : State Tid :=
  { s.setWorker w { wk with pc := .waiting } with
    log := { s.log.move e .done with
      finished := s.log.finished ++ [e]
      callbacks :=
        if req.isLast prevCnt then s.log.callbacks ++ [(e.request, req.complete)]
        else s.log.callbacks } }

/-- `ProcessRequest`, one atomic operation at a time. -/
def stepProcess (s : State Tid) (w : WorkerId) (wk : Worker) (e : RequestEx) (stage : Stage)
    (answer : BitVec 64 × BitVec 32) : Option (State Tid) :=
  match s.requests[e.request]? with
  | none => none
  | some req =>
      match stage with
      | .popped => req.cmds[e.cmdIdx]?.map fun cmd => s.execute w wk e req cmd answer
      | .failed lastError =>
          some (s.reach w wk e (req.storeError e.cmdIdx lastError).countFail .settled)
      | .settled => some (s.reach w wk e req.countCompleted (.counted req.completedCnt))
      | .counted prevCnt => some (s.finish w wk e req prevCnt)

def stepWorker (s : State Tid) (w : WorkerId) (answer : BitVec 64 × BitVec 32) :
    Option (State Tid) :=
  match s.workerAt w with
  | none => none
  | some wk =>
      match wk.pc with
      | .waiting => s.stepPop w wk
      | .serving e stage => s.stepProcess w wk e stage answer
      | .exited => none

/-! ## The machine -/

variable [DecidableEq Tid]

def step (s : State Tid) (l : Label Tid) : Option (State Tid) :=
  if s.fault.isSome then none
  else
    match l with
    | .start ioThreadnum pioThreadnum => some (s.stepStart ioThreadnum pioThreadnum)
    | .stop => some s.stepStop
    | .control cpuNum => s.stepControl cpuNum
    | .submit t cmds cb arg now => s.stepSubmit t cmds cb arg now
    | .advance t => s.stepAdvance t
    | .worker w answer => s.stepWorker w answer

end State

end XfUtil.Aio
