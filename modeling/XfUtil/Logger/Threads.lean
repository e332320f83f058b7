import XfUtil.BlockPool.Threads
import XfUtil.Logger.Model
import XfUtil.Queue.Model

/-!
# `LoggerImpl` with its threads

Any number of threads inside `LogMsg`, the log thread, and the thread that calls
`Close`. They share the block pool, the memory behind its blocks and the queue. A
step is a critical section of the pool or of the queue, `xmalloc` or `xfree`
outside the lock, a formatting into a block of one's own, or a call on the log
file. The lines entered, what has been written, the blocks taken and freed and the
number of new log files are ghost state.
-/

namespace XfUtil

open FlatMemory

/-- What `m_data_queue` holds. -/
structure LogData where
  buf : Nat
  len : BitVec 32
deriving Repr, DecidableEq

/-- `LogData data = {nullptr}`. -/
def LogData.exitMark : LogData := ⟨0, 0#32⟩

namespace LoggerImpl

/-- `BLOCK_SIZE`. -/
def blockSize : BitVec 32 := 8192#32

/-- `CACHE_NUM`. -/
def cacheNum : BitVec 32 := 1024#32

/-- `QUEUE_CAPACITY`. -/
def queueCapacity : BitVec 64 := 10000#64

def newline : Byte := 0x0A#8

/-- A call of `LogMsg`: what its format puts in front of the message (the time, the
level and the place), and what `format` and `args` expand to. -/
structure Call where
  header : List Byte
  message : List Byte
deriving Repr, DecidableEq

/-- A string as `%s` reads it: up to the terminator. -/
def text (bytes : List Byte) : List Byte := bytes.takeWhile fun b => b ≠ 0#8

/-- What `vsnprintf` leaves in the message block, as a string. -/
def Call.msg (call : Call) : List Byte := text (Format.stored blockSize.toNat call.message)

/-- The line that the call is to log. -/
def Call.line (call : Call) : List Byte := call.header ++ call.msg ++ [newline]

/-! ## Places in the code -/

/-- Where a thread is in `LogMsg`. A thread that is in `xmalloc` or `xfree` stays where
it entered the call of the pool. -/
inductive Pc where
  | idle
  | allocMsg (call : Call)
  | formatMsg (call : Call) (msg : Nat)
  | allocBuf (call : Call) (msg : Nat)
  | formatLine (call : Call) (msg buf : Nat)
  | freeMsg (call : Call) (msg : Nat) (data : LogData)
  | push (call : Call) (data : LogData)
deriving Repr, DecidableEq

namespace Pc

/-- In a call of `Alloc`. -/
def allocating : Pc → Bool
  | allocMsg _ => true
  | allocBuf _ _ => true
  | _ => false

/-- `Alloc` has returned `block`. -/
def received : Pc → Nat → Pc
  | allocMsg call, block => formatMsg call block
  | allocBuf call msg, block => formatLine call msg block
  | pc, _ => pc

/-- The blocks that the call holds. -/
def blocks : Pc → List Nat
  | idle => []
  | allocMsg _ => []
  | formatMsg _ msg => [msg]
  | allocBuf _ msg => [msg]
  | formatLine _ msg buf => [buf, msg]
  | freeMsg _ msg data => [data.buf, msg]
  | push _ data => [data.buf]

end Pc

/-- Where the log thread is: at `Pop`, or in `Write`. -/
inductive LogPc where
  | pop
  | append (data : LogData)
  | free (data : LogData)
  | reopen
  | exited
deriving Repr, DecidableEq

/-- The blocks that the log thread holds. -/
def LogPc.blocks : LogPc → List Nat
  | append data => [data.buf]
  | free data => [data.buf]
  | _ => []

/-- How far `Close` has got. -/
inductive Closing where
  | started
  | pushing
  | joining
  | closed
deriving Repr, DecidableEq

inductive Label (Tid : Type*) where
  /-- Call `LogMsg`. -/
  | logMsg (t : Tid) (call : Call)
  /-- The locked section of `m_pool.Alloc`. -/
  | alloc (t : Tid)
  /-- `Alloc` outside the lock, with the answer of `xmalloc`. -/
  | xmalloc (t : Tid) (buf : Nat)
  /-- `vsnprintf` or `snprintf`. -/
  | format (t : Tid)
  /-- The locked section of `m_pool.Free` in `LogMsg`. -/
  | free (t : Tid)
  /-- `Free` outside the lock; `none` is the log thread. -/
  | xfree (t : Option Tid)
  | push (t : Tid)
  /-- The log thread: `Pop`. -/
  | pop
  /-- The log thread: `m_logfile.Write`, and `m_filesize`. -/
  | append
  /-- The log thread: the locked section of `m_pool.Free`. -/
  | logFree
  /-- The log thread: the rest of `Write`. -/
  | reopen
  /-- Call `Close`. -/
  | close
  | pushMark
  | join
deriving DecidableEq

end LoggerImpl

/-! ## The state -/

open LoggerImpl in
structure LoggerImpl (Tid : Type*) where
  /-- `m_conf`, `m_logfile` and `m_filesize`. -/
  file : LogFile
  /-- `m_pool`, with its callers; `none` is the log thread. -/
  pool : BlockPool.Shared (Option Tid)
  mem : Mem
  dataQueue : BlockingQueue LogData
  threads : Tid → Pc
  logThread : LogPc
  closing : Closing
  /-- The lines, in the order in which they entered the queue. -/
  entered : List (List Byte)
  /-- The lines that the log thread has written. -/
  written : List (List Byte)
  /-- How often the log thread has begun a new log file. -/
  rolled : Nat
  /-- The answers of `m_pool.Alloc`. -/
  took : List Nat
  /-- The arguments of `m_pool.Free`. -/
  freed : List Nat

namespace LoggerImpl

variable {Tid : Type*}

/-- `Start`; `opens` is the answer of `Open`, `buf` the one of `xmalloc` in `Init`. -/
def start (Tid : Type*) (conf : LogConfig) (files : FileMap.Files FilePath Byte) (opens : Bool)
    (pool : BlockPool) (buf : Nat) (mem : Mem) : Option (LoggerImpl Tid) :=
  match LogFile.start conf files opens with
  | none => none
  | some file =>
      some {
        file := file
        pool := BlockPool.Shared.start (Option Tid) (pool.init blockSize cacheNum buf).1
        mem := mem
        dataQueue := ⟨[], queueCapacity⟩
        threads := fun _ => .idle
        logThread := .pop
        closing := .started
        entered := [], written := [], rolled := 0, took := [], freed := [] }

variable [DecidableEq Tid]

def goto (s : LoggerImpl Tid) (t : Tid) (pc : Pc) : LoggerImpl Tid :=
  { s with threads := Function.update s.threads t pc }

/-- The pool is not busy with a call of this thread. -/
def atRest (s : LoggerImpl Tid) (t : Option Tid) : Bool := s.pool.threads t = .idle

/-- `Alloc` has returned `block` to `LogMsg`. -/
def receive (s : LoggerImpl Tid) (t : Tid) (block : Nat) : LoggerImpl Tid :=
  { s with took := s.took ++ [block] }.goto t ((s.threads t).received block)

/-! ## Steps of `LogMsg` -/

def stepLogMsg (s : LoggerImpl Tid) (t : Tid) (call : Call) : Option (LoggerImpl Tid) :=
  match s.threads t with
  | .idle => some (s.goto t (.allocMsg call))
  | _ => none

def stepAlloc (s : LoggerImpl Tid) (t : Tid) : Option (LoggerImpl Tid) :=
  if !(s.threads t).allocating then none
  else
    match s.pool.stepAlloc (some t) with
    | none => none
    | some pool =>
        match s.pool.pool.takeFree with
        | some (block, _) => some ({ s with pool := pool }.receive t block)
        | none => some { s with pool := pool }

def stepXmalloc (s : LoggerImpl Tid) (t : Tid) (buf : Nat) : Option (LoggerImpl Tid) :=
  -- `LogMsg` formats into what it gets, and does not come back from `nullptr`.
  if buf = 0 then none
  else
    match s.pool.stepXmalloc (some t) buf with
    | none => none
    | some pool => some ({ s with pool := pool }.receive t buf)

/-- What `snprintf` makes of the header and the string in the message block. -/
def formatted (s : LoggerImpl Tid) (call : Call) (msg : Nat) : List Byte :=
  call.header ++ text (read s.mem msg blockSize.toNat) ++ [newline]

/-- `snprintf(block, BLOCK_SIZE, …)`, with the terminator. -/
def print (s : LoggerImpl Tid) (block : Nat) (bytes : List Byte) : LoggerImpl Tid :=
  { s with mem := write s.mem block (Format.stored blockSize.toNat bytes ++ [0#8]) }

def stepFormat (s : LoggerImpl Tid) (t : Tid) : Option (LoggerImpl Tid) :=
  match s.threads t with
  | .formatMsg call msg => some ((s.print msg call.message).goto t (.allocBuf call msg))
  | .formatLine call msg buf =>
      let line := s.formatted call msg
      some ((s.print buf line).goto t (.freeMsg call msg ⟨buf, BitVec.ofNat 32 line.length⟩))
  | _ => none

/-- The locked section of `m_pool.Free`. A block that the pool has not handed out is
only recorded as freed. -/
def release (s : LoggerImpl Tid) (t : Option Tid) (block : Nat) : LoggerImpl Tid :=
  { s with
    pool := (s.pool.stepFree t block).getD s.pool
    freed := s.freed ++ [block] }

def stepFree (s : LoggerImpl Tid) (t : Tid) : Option (LoggerImpl Tid) :=
  match s.threads t with
  | .freeMsg call msg data => some ((s.release (some t) msg).goto t (.push call data))
  | _ => none

def stepXfree (s : LoggerImpl Tid) (t : Option Tid) : Option (LoggerImpl Tid) :=
  match s.pool.stepXfree t with
  | none => none
  | some pool => some { s with pool := pool }

def stepPush (s : LoggerImpl Tid) (t : Tid) : Option (LoggerImpl Tid) :=
  match s.threads t with
  | .push call data =>
      if !s.atRest (some t) then none
      else
        match s.dataQueue.push data with
        | none => none
        | some q =>
            let s := { s with dataQueue := q, entered := s.entered ++ [call.line] }
            some (s.goto t .idle)
  | _ => none

/-! ## Steps of the log thread -/

def stepPop (s : LoggerImpl Tid) : Option (LoggerImpl Tid) :=
  match s.logThread with
  | .pop =>
      match s.dataQueue.pop with
      | none => none
      | some (data, q) =>
          let s := { s with dataQueue := q }
          if data.buf = 0 then some { s with logThread := .exited }
          else some { s with logThread := .append data }
  | _ => none

def stepAppend (s : LoggerImpl Tid) : Option (LoggerImpl Tid) :=
  match s.logThread with
  | .append data =>
      let bytes := read s.mem data.buf data.len.toNat
      some { s with
        file := s.file.append ⟨bytes, data.len⟩
        written := s.written ++ [bytes]
        logThread := .free data }
  | _ => none

def stepLogFree (s : LoggerImpl Tid) : Option (LoggerImpl Tid) :=
  match s.logThread with
  | .free data => some { s.release none data.buf with logThread := .reopen }
  | _ => none

def stepReopen (s : LoggerImpl Tid) : Option (LoggerImpl Tid) :=
  match s.logThread with
  | .reopen =>
      if !s.atRest none then none
      else
        some { s with
          file := s.file.reopenIfFull
          rolled := if s.file.full then s.rolled + 1 else s.rolled
          logThread := .pop }
  | _ => none

/-! ## Steps of `Close` -/

def stepClose (s : LoggerImpl Tid) : Option (LoggerImpl Tid) :=
  match s.closing with
  | .started => some { s with closing := .pushing }
  | _ => none

def stepPushMark (s : LoggerImpl Tid) : Option (LoggerImpl Tid) :=
  match s.closing with
  | .pushing =>
      match s.dataQueue.push .exitMark with
      | none => none
      | some q => some { s with dataQueue := q, closing := .joining }
  | _ => none

/-- `m_thread.Join` and the rest of `Close`. -/
def stepJoin (s : LoggerImpl Tid) : Option (LoggerImpl Tid) :=
  match s.closing with
  | .joining => if s.logThread = .exited then some { s with closing := .closed } else none
  | _ => none

def step : Machine.Step (LoggerImpl Tid) (Label Tid)
  | s, .logMsg t call => s.stepLogMsg t call
  | s, .alloc t => s.stepAlloc t
  | s, .xmalloc t buf => s.stepXmalloc t buf
  | s, .format t => s.stepFormat t
  | s, .free t => s.stepFree t
  | s, .xfree t => s.stepXfree t
  | s, .push t => s.stepPush t
  | s, .pop => s.stepPop
  | s, .append => s.stepAppend
  | s, .logFree => s.stepLogFree
  | s, .reopen => s.stepReopen
  | s, .close => s.stepClose
  | s, .pushMark => s.stepPushMark
  | s, .join => s.stepJoin

/-- How the logger is meant to be used: lines shorter than a block, and `Close` once
all calls of `LogMsg` have returned and no more are made. -/
def Orderly (s : LoggerImpl Tid) : Label Tid → Prop
  | .logMsg _ call => s.closing = .started ∧ call.line.length < blockSize.toNat
  | .close => ∀ t, s.threads t = .idle
  | _ => True

end LoggerImpl

end XfUtil
