import XfUtil.Queue.Model

/-!
# Commands and requests of the AIO

What one command asks of the kernel, which queue it goes to, and the counters by
which a request knows that its last command is done. A `RequestPtr` is the
number of its request, and callbacks, their arguments and buffers are opaque
addresses.
-/

namespace XfUtil.Aio

/-! ## Commands -/

@[match_pattern] abbrev cmdRead : BitVec 32 := 0#32
@[match_pattern] abbrev cmdWrite : BitVec 32 := 1#32
@[match_pattern] abbrev cmdReadv : BitVec 32 := 2#32
@[match_pattern] abbrev cmdWritev : BitVec 32 := 3#32
/-- `CMD_MIN_PIO`: commands from here on carry their position. -/
@[match_pattern] abbrev cmdMinPio : BitVec 32 := 4#32
@[match_pattern] abbrev cmdPread : BitVec 32 := 5#32
@[match_pattern] abbrev cmdPwrite : BitVec 32 := 6#32
@[match_pattern] abbrev cmdPreadv : BitVec 32 := 7#32
@[match_pattern] abbrev cmdPwritev : BitVec 32 := 8#32
@[match_pattern] abbrev cmdReadahead : BitVec 32 := 9#32
@[match_pattern] abbrev cmdFsync : BitVec 32 := 10#32
@[match_pattern] abbrev cmdFdatasync : BitVec 32 := 11#32

/-- `EINVAL`. -/
def einval : BitVec 32 := 22#32

structure Command where
  cmd : BitVec 32
  fd : BitVec 32
  pos : BitVec 64
  buf : Nat
  size : BitVec 64
  ret : BitVec 64
  error : BitVec 32
deriving Repr, DecidableEq

namespace Command

/-- `Set(cmd, fd, buf, size)`, which leaves `pos` as it is. -/
def set (c : Command) (cmd fd : BitVec 32) (buf : Nat) (size : BitVec 64) : Command :=
  { c with cmd := cmd, fd := fd, buf := buf, size := size, ret := -1, error := 0 }

/-- `Set(cmd, fd, pos, buf, size)`. -/
def setAt (c : Command) (cmd fd : BitVec 32) (pos : BitVec 64) (buf : Nat) (size : BitVec 64) :
    Command :=
  { c with cmd := cmd, fd := fd, pos := pos, buf := buf, size := size, ret := -1, error := 0 }

/-- The system call of a command and its arguments. -/
inductive SysCall where
  | read (fd : BitVec 32) (buf : Nat) (size : BitVec 64)
  | write (fd : BitVec 32) (buf : Nat) (size : BitVec 64)
  | readv (fd : BitVec 32) (iov : Nat) (iovcnt : BitVec 32)
  | writev (fd : BitVec 32) (iov : Nat) (iovcnt : BitVec 32)
  | pread (fd : BitVec 32) (buf : Nat) (size pos : BitVec 64)
  | pwrite (fd : BitVec 32) (buf : Nat) (size pos : BitVec 64)
  | preadv (fd : BitVec 32) (iov : Nat) (iovcnt : BitVec 32) (pos : BitVec 64)
  | pwritev (fd : BitVec 32) (iov : Nat) (iovcnt : BitVec 32) (pos : BitVec 64)
  | readahead (fd : BitVec 32) (pos size : BitVec 64)
  | fsync (fd : BitVec 32)
  | fdatasync (fd : BitVec 32)
deriving Repr, DecidableEq

/-- The switch of `ProcessRequest`; `none` is its default branch. -/
def sysCall (c : Command) : Option SysCall :=
  match c.cmd with
  | cmdRead => some (.read c.fd c.buf c.size)
  | cmdWrite => some (.write c.fd c.buf c.size)
  | cmdReadv => some (.readv c.fd c.buf (c.size.setWidth 32))
  | cmdWritev => some (.writev c.fd c.buf (c.size.setWidth 32))
  | cmdPread => some (.pread c.fd c.buf c.size c.pos)
  | cmdPwrite => some (.pwrite c.fd c.buf c.size c.pos)
  | cmdPreadv => some (.preadv c.fd c.buf (c.size.setWidth 32) c.pos)
  | cmdPwritev => some (.pwritev c.fd c.buf (c.size.setWidth 32) c.pos)
  | cmdReadahead => some (.readahead c.fd c.pos c.size)
  | cmdFsync => some (.fsync c.fd)
  | cmdFdatasync => some (.fdatasync c.fd)
  | _ => none

/-- What a command's execution leaves in `ret` and in `LastError`, when the
kernel answers a system call with `answer`. -/
def outcome (c : Command) (answer : BitVec 64 × BitVec 32) : BitVec 64 × BitVec 32 :=
  match c.sysCall with
  | some _ => answer
  | none => (-1, einval)

/-- `cmd < CMD_MIN_PIO`, a comparison of `int`s. -/
def streamed (c : Command) : Bool := c.cmd.slt cmdMinPio

/-- `cmd.fd % s_io_thread_group.Size()`: the `int` is converted to `size_t` first. -/
def queueIdx (c : Command) (size : Nat) : Nat := (c.fd.signExtend 64).toNat % size

end Command

/-! ## Requests -/

/-- `RequestEx`: one command of a request. In a queue, `none` stands for the
`RequestEx` whose request pointer is empty. -/
structure RequestEx where
  request : Nat
  cmdIdx : Nat
deriving Repr, DecidableEq

structure Request where
  cmds : List Command
  callback : Nat
  arg : Nat
  createTime : BitVec 64
  cmdFailCnt : BitVec 32
  completedCnt : BitVec 32
  completedTime : BitVec 64
deriving Repr, DecidableEq

/-- An invocation of a completion callback: `cmds`, `cmd_fail_cnt`, `elapsed_time` and `arg`. -/
structure Callback where
  callback : Nat
  cmds : List Command
  cmdFailCnt : BitVec 32
  elapsedTime : BitVec 64
  arg : Nat
deriving Repr, DecidableEq

namespace Request

/-- The constructor; `now` is the answer of `GetTickMilliTime`. -/
def new (cmds : List Command) (cb arg : Nat) (now : BitVec 64) : Request :=
  ⟨cmds, cb, arg, now, 0, 0, -1⟩

/-- `ElapsedTime`. -/
def elapsedTime (r : Request) : BitVec 64 := r.completedTime - r.createTime

/-- `cmd.ret = ret`. -/
def storeRet (r : Request) (idx : Nat) (ret : BitVec 64) : Request :=
  { r with cmds := r.cmds.modify idx fun c => { c with ret := ret } }

/-- `cmd.error = LastError`. -/
def storeError (r : Request) (idx : Nat) (error : BitVec 32) : Request :=
  { r with cmds := r.cmds.modify idx fun c => { c with error := error } }

/-- `m_cmd_fail_cnt.fetch_add(1)`. -/
def countFail (r : Request) : Request := { r with cmdFailCnt := r.cmdFailCnt + 1 }

/-- `m_completed_cnt.fetch_add(1)`. -/
def countCompleted (r : Request) : Request := { r with completedCnt := r.completedCnt + 1 }

/-- `prev_cnt == request->m_cmds.size()-1`, a comparison of `size_t`s. -/
def isLast (r : Request) (prevCnt : BitVec 32) : Bool :=
  prevCnt.setWidth 64 == BitVec.ofNat 64 r.cmds.length - 1

/-- The call of `m_callback`. -/
def complete (r : Request) : Callback :=
  ⟨r.callback, r.cmds, r.cmdFailCnt, r.elapsedTime, r.arg⟩

end Request

end XfUtil.Aio
