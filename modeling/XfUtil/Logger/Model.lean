import XfUtil.Base.FileMap
import XfUtil.Path.Model

/-!
# The log file of `LoggerImpl`

What `Start`, `Write`, `Reopen` and `Rename` do to the files. `m_logfile` is open
between `Start` and `Close` and is only renamed while it is closed, so it is the
file that `file_path` names. The calls on the file system are lists, in the order
in which they are made.
-/

namespace XfUtil

open FlatMemory FileMap

structure LogConfig where
  filePath : FilePath
  maxFileSize : BitVec 64 := 52428800#64
  maxFileNum : BitVec 16 := 4#16
deriving Repr, DecidableEq

namespace LogConfig

/-- `snprintf(path, sizeof(path), "%s.%u", file_path, i)`. -/
def backup (conf : LogConfig) (i : Nat) : FilePath :=
  Format.stored maxPathLen (conf.filePath ++ FilePath.dot :: Format.decimal i)

/-- The loop of `Rename`, from `i` down to 1. `i + 1` is an `int`. -/
def renameLoop (conf : LogConfig) : Nat → List (Op FilePath Byte)
  | 0 => []
  | i + 1 => .rename (conf.backup (i + 1)) (conf.backup (i + 2)) :: conf.renameLoop i

/-- The calls of `Rename` in front of its last; `m_conf.max_file_num-1` goes into a
`uint16_t`. -/
def makeRoom (conf : LogConfig) : List (Op FilePath Byte) :=
  .remove (conf.backup conf.maxFileNum.toNat) :: conf.renameLoop (conf.maxFileNum - 1#16).toNat

/-- The calls of `Rename`. -/
def renameCalls (conf : LogConfig) : List (Op FilePath Byte) :=
  conf.makeRoom ++ [.rename conf.filePath (conf.backup 1)]

/-- The calls of `Reopen`. -/
def reopenCalls (conf : LogConfig) : List (Op FilePath Byte) :=
  conf.renameCalls ++ [.create conf.filePath]

end LogConfig

/-- What a `LogData` is to the log thread: the bytes from `buf` on, and `len`. -/
structure LogLine where
  buf : List Byte
  len : BitVec 32
deriving Repr, DecidableEq

/-- `m_conf`, `m_filesize` and the files around `m_logfile`. -/
structure LogFile where
  conf : LogConfig
  files : Files FilePath Byte
  filesize : BitVec 64

namespace LogFile

/-- `Start`, as far as the file is concerned; `opens` is the answer of `Open`. -/
def start (conf : LogConfig) (files : Files FilePath Byte) (opens : Bool) : Option LogFile :=
  if !opens then none
  else
    let files := apply files (.create conf.filePath)
    some ⟨conf, files, BitVec.ofNat 64 ((files conf.filePath).getD []).length⟩

/-- The call of `Write` that appends the line. -/
def appendCall (s : LogFile) (data : LogLine) : Op FilePath Byte :=
  .append s.conf.filePath (data.buf.take data.len.toNat)

/-- `Write` up to its call of `m_pool.Free`. -/
def append (s : LogFile) (data : LogLine) : LogFile :=
  { s with
    files := apply s.files (s.appendCall data)
    filesize := s.filesize + data.len.setWidth 64 }

/-- The test of `Write` that ends in `Reopen`. -/
def full (s : LogFile) : Bool := s.conf.maxFileSize ≤ s.filesize

def rename (s : LogFile) : LogFile := { s with files := execute s.files s.conf.renameCalls }

def reopen (s : LogFile) : LogFile :=
  { s with files := execute s.files s.conf.reopenCalls, filesize := 0#64 }

/-- `Write` from the call of `m_pool.Free` on. -/
def reopenIfFull (s : LogFile) : LogFile := if s.full then s.reopen else s

def write (s : LogFile) (data : LogLine) : LogFile := (s.append data).reopenIfFull

/-- All calls of `Write`. -/
def writeCalls (s : LogFile) (data : LogLine) : List (Op FilePath Byte) :=
  s.appendCall data :: if (s.append data).full then s.conf.reopenCalls else []

@[simp] theorem append_conf (s : LogFile) (data : LogLine) : (s.append data).conf = s.conf := rfl

@[simp] theorem reopenIfFull_conf (s : LogFile) : s.reopenIfFull.conf = s.conf := by
  unfold reopenIfFull
  split <;> rfl

@[simp] theorem write_conf (s : LogFile) (data : LogLine) : (s.write data).conf = s.conf := by
  simp [write]

theorem write_files (s : LogFile) (data : LogLine) :
    (s.write data).files = execute s.files (s.writeCalls data) := by
  unfold write reopenIfFull writeCalls
  split <;> rfl

end LogFile

end XfUtil
