import XfUtil.Base.Decimal
import XfUtil.Logger.Invariant

/-!
# The lines of `LogMsg`

What `LogMsg` makes of its arguments: the message goes through one block, and the line,
with the message cut to that block, through another. `data.len` is what the second
`snprintf` returns, which is the length the line would have without a cut.
-/

namespace XfUtil

open FlatMemory

inductive LogLevel where
  | debug
  | info
  | warn
  | error
  | fatal
deriving Repr, DecidableEq

namespace LogLevel

/-- `LEVEL_DESC`. No comma stands between the last two texts, so they are one and the last
place is null. -/
def desc : LogLevel → Option Format.CString
  -- DEBUG
  | debug => some ⟨[0x44#8, 0x45#8, 0x42#8, 0x55#8, 0x47#8], by decide⟩
  -- INFO
  | info => some ⟨[0x49#8, 0x4E#8, 0x46#8, 0x4F#8], by decide⟩
  -- WARN
  | warn => some ⟨[0x57#8, 0x41#8, 0x52#8, 0x4E#8], by decide⟩
  -- ERRORFATAL
  | error =>
      some ⟨[0x45#8, 0x52#8, 0x52#8, 0x4F#8, 0x52#8, 0x46#8, 0x41#8, 0x54#8, 0x41#8, 0x4C#8],
        by decide⟩
  | fatal => none

end LogLevel

/-- `struct tm` and `tv_usec`, as far as they are printed. -/
structure LogClock where
  tmYear : BitVec 32
  tmMon : BitVec 32
  tmMday : BitVec 32
  tmHour : BitVec 32
  tmMin : BitVec 32
  tmSec : BitVec 32
  tvUsec : BitVec 64
deriving Repr, DecidableEq

/-- What a call of `LogMsg` prints: its arguments, the flags and the time, and what `format`
and `args` expand to. -/
structure LogEntry where
  clock : LogClock
  level : LogLevel
  fileName : Format.CString
  funcName : Format.CString
  lineNum : BitVec 32
  flags : BitVec 32
  message : List Byte
deriving Repr, DecidableEq

def flagOutFilename : BitVec 32 := 0x01#32
def flagOutFunction : BitVec 32 := 0x02#32
def flagOutLinenum : BitVec 32 := 0x04#32

/-- `%04d-%02d-%02d %02d:%02d:%02d.%03lu`. -/
def LogClock.stamp (c : LogClock) : List (List Byte) :=
  [Decimal.paddedInt 4 (c.tmYear + 1900#32).toInt, [0x2D#8],
    Decimal.paddedInt 2 (c.tmMon + 1#32).toInt, [0x2D#8],
    Decimal.paddedInt 2 c.tmMday.toInt, [0x20#8],
    Decimal.paddedInt 2 c.tmHour.toInt, [0x3A#8],
    Decimal.paddedInt 2 c.tmMin.toInt, [0x3A#8],
    Decimal.paddedInt 2 c.tmSec.toInt, [0x2E#8],
    Decimal.padded 3 (c.tvUsec / 1000#64).toNat]

namespace LogEntry

open LoggerImpl

/-- `%s` of the level; `null` is what is printed for a null pointer. -/
def levelText (e : LogEntry) (null : Format.CString) : List Byte := (e.level.desc.getD null).bytes

def fileText (e : LogEntry) : List Byte :=
  if e.flags &&& flagOutFilename ≠ 0#32 then FilePath.getFileName e.fileName.bytes else []

/-- `line_buf`, which has 64 bytes. -/
def lineText (e : LogEntry) : List Byte :=
  if e.flags &&& flagOutLinenum ≠ 0#32 then
    Format.stored 64 (Decimal.paddedInt 0 e.lineNum.toInt)
  else []

def funcText (e : LogEntry) : List Byte :=
  if e.flags &&& flagOutFunction ≠ 0#32 then e.funcName.bytes else []

/-- The stamp and then `" [%s] [%s:%s:%s] "`. -/
def headerParts (e : LogEntry) (null : Format.CString) : List (List Byte) :=
  e.clock.stamp ++
    [[0x20#8, 0x5B#8], e.levelText null, [0x5D#8, 0x20#8, 0x5B#8], e.fileText, [0x3A#8],
      e.lineText, [0x3A#8], e.funcText, [0x5D#8, 0x20#8]]

/-- The call, for `LogMsg` with its threads. -/
def call (e : LogEntry) (null : Format.CString) : Call where
  header := (e.headerParts null).flatten
  message := e.message

@[simp] theorem call_header (e : LogEntry) (null : Format.CString) :
    (e.call null).header = (e.headerParts null).flatten := by
  rw [call]

@[simp] theorem call_message (e : LogEntry) (null : Format.CString) :
    (e.call null).message = e.message := by
  rw [call]

end LogEntry

namespace LoggerImpl

/-- `vsnprintf` into the block `msg` and `snprintf` into the block `buf`. -/
def logMsg (m : Mem) (msg buf : Nat) (call : Call) : Mem × LogData :=
  let m := (Format.snprintf m msg blockSize.toNat call.message).1
  let r := Format.snprintf m buf blockSize.toNat
    (call.header ++ text (read m msg blockSize.toNat) ++ [newline])
  (r.1, ⟨buf, BitVec.ofInt 32 r.2⟩)

/-- `data.len` is the length of the string at `data.buf`, which fits in a block. -/
def Measured (m : Mem) (data : LogData) : Prop :=
  ∃ line, Format.StringAt m data.buf line ∧ data.len.toNat = line.length ∧
    data.len.toNat ≤ blockSize.toNat - 1

/-- What `Write` appends is then the line, up to its terminator. -/
theorem Measured.read_eq {m : Mem} {data : LogData} (h : Measured m data) :
    ∃ line, Format.StringAt m data.buf line ∧ read m data.buf data.len.toNat = line := by
  obtain ⟨line, hline, hlen, -⟩ := h
  exact ⟨line, hline, by rw [hlen, hline.1]⟩

/-- Thread `i` formats its message and then the line; meanwhile nobody writes to the memory. -/
def Formats {Tid : Type*} [DecidableEq Tid] (s v : LoggerImpl Tid) (i : Tid) (call : Call)
    (msg buf : Nat) : Prop :=
  ∃ t u : LoggerImpl Tid, s.threads i = .formatMsg call msg ∧ s.stepFormat i = some t ∧
    u.threads i = .formatLine call msg buf ∧ u.mem = t.mem ∧ u.stepFormat i = some v

/-- The two formatting steps of a thread do the same. -/
theorem Formats.eq_logMsg {Tid : Type*} [DecidableEq Tid] {s v : LoggerImpl Tid} {i : Tid}
    {call : Call} {msg buf : Nat} (h : Formats s v i call msg buf) :
    v.mem = (logMsg s.mem msg buf call).1 ∧
      v.threads i = .freeMsg call msg (logMsg s.mem msg buf call).2 := by
  obtain ⟨t, u, hmsg, hfirst, hbuf, hmem, hsecond⟩ := h
  have hsize : ¬ blockSize.toNat = 0 := by decide
  simp only [stepFormat, hmsg] at hfirst
  simp only [stepFormat, hbuf] at hsecond
  cases hfirst
  cases hsecond
  simp only [goto, print, formatted, hmem, logMsg, Format.snprintf, if_neg hsize,
    Function.update_self]
  exact ⟨trivial, rfl⟩

/-! ## The line -/

/-- The line goes through `snprintf` with the message as the first block has it. -/
theorem logMsg_eq (m : Mem) (msg buf : Nat) (call : Call) :
    logMsg m msg buf call =
      ((Format.snprintf (Format.snprintf m msg blockSize.toNat call.message).1 buf blockSize.toNat
        call.line).1, ⟨buf, BitVec.ofNat 32 call.line.length⟩) := by
  have hsize : ¬ blockSize.toNat = 0 := by decide
  have htext : text (read (Format.snprintf m msg blockSize.toNat call.message).1 msg
      blockSize.toNat) = call.msg := by
    rw [Format.snprintf, if_neg hsize]
    exact text_printed m msg call.message
  simp only [logMsg, htext]
  rfl

theorem measured_logMsg_iff (m : Mem) (msg buf : Nat) {call : Call} (hfree : 0#8 ∉ call.line) :
    Measured (logMsg m msg buf call).1 (logMsg m msg buf call).2 ↔
      call.line.length < 8192 ∨ call.line.length % 2 ^ 32 = 8191 := by
  have hsize : blockSize.toNat = 8192 := rfl
  have hroom : blockSize.toNat ≠ 0 := by decide
  have hstored := Format.snprintf_stored (Format.snprintf m msg blockSize.toNat call.message).1 buf
    hroom hfree
  have hlen : (Format.stored blockSize.toNat call.line).length = min 8191 call.line.length := by
    rw [Format.length_stored, hsize]
  rw [logMsg_eq]
  constructor
  · rintro ⟨line, hline, hdata, -⟩
    rw [hline.unique hstored, hlen] at hdata
    dsimp only at hdata
    rw [BitVec.toNat_ofNat] at hdata
    omega
  · intro hfits
    have hdata : call.line.length % 2 ^ 32 = min 8191 call.line.length := by
      rcases hfits with hshort | hwrapped
      · omega
      · have hle := Nat.mod_le call.line.length (2 ^ 32)
        omega
    refine ⟨_, hstored, ?_, ?_⟩
    · rw [hlen, BitVec.toNat_ofNat, hdata]
    · rw [BitVec.toNat_ofNat, hdata, hsize]
      omega

theorem length_text_take (n : Nat) (bytes : List Byte) :
    (text (bytes.take n)).length = min (text bytes).length n := by
  induction bytes generalizing n with
  | nil => simp [text]
  | cons b bs ih =>
      cases n with
      | zero => simp [text]
      | succ n =>
          unfold text at ih ⊢
          rw [List.take_succ_cons, List.takeWhile_cons, List.takeWhile_cons]
          split
          · rw [List.length_cons, List.length_cons, ih n]
            omega
          · rfl

theorem zero_not_mem_text (bytes : List Byte) : 0#8 ∉ text bytes := by
  intro hmem
  have hne := List.mem_takeWhile_imp hmem
  exact absurd hne (by decide)

end LoggerImpl

namespace LogEntry

open LoggerImpl

theorem zero_not_mem_stamp (c : LogClock) : ∀ part ∈ c.stamp, 0#8 ∉ part := by
  simp only [LogClock.stamp, List.forall_mem_cons, List.not_mem_nil, false_imp_iff, implies_true,
    Decimal.zero_not_mem_paddedInt, Decimal.zero_not_mem_padded, not_false_iff, true_and, and_true]
  decide

theorem zero_not_mem_fileText (e : LogEntry) : 0#8 ∉ e.fileText := by
  unfold fileText
  split
  · exact fun hmem => e.fileName.free ((List.rtakeWhile_suffix _ _).subset hmem)
  · exact List.not_mem_nil

theorem zero_not_mem_lineText (e : LogEntry) : 0#8 ∉ e.lineText := by
  unfold lineText
  split
  · exact fun hmem => Decimal.zero_not_mem_paddedInt 0 _ (List.mem_of_mem_take hmem)
  · exact List.not_mem_nil

theorem zero_not_mem_funcText (e : LogEntry) : 0#8 ∉ e.funcText := by
  unfold funcText
  split
  · exact e.funcName.free
  · exact List.not_mem_nil

theorem zero_not_mem_headerParts (e : LogEntry) (null : Format.CString) :
    ∀ part ∈ e.headerParts null, 0#8 ∉ part := by
  have hlevel : 0#8 ∉ e.levelText null := (e.level.desc.getD null).free
  intro part hpart
  rw [headerParts, List.mem_append] at hpart
  rcases hpart with hstamp | hrest
  · exact zero_not_mem_stamp e.clock part hstamp
  · revert part
    simp only [List.forall_mem_cons, List.not_mem_nil, false_imp_iff, implies_true, hlevel,
      zero_not_mem_fileText, zero_not_mem_lineText, zero_not_mem_funcText, not_false_iff, true_and,
      and_true]
    decide

theorem zero_not_mem_line (e : LogEntry) (null : Format.CString) :
    0#8 ∉ (e.call null).line := by
  rw [Call.line, call_header, List.mem_append, List.mem_append, not_or, not_or]
  refine ⟨⟨?_, zero_not_mem_text _⟩, by decide⟩
  intro hmem
  obtain ⟨part, hpart, hzero⟩ := List.mem_flatten.mp hmem
  exact zero_not_mem_headerParts e null part hpart hzero

/-- The length of the line: the stamp, the four texts, ten characters around them, and the
message as far as it fits in a block. -/
def lineLength (e : LogEntry) (null : Format.CString) : Nat :=
  e.clock.stamp.flatten.length + (e.levelText null).length + e.fileText.length +
    e.lineText.length + e.funcText.length + 10 + min (text e.message).length 8191

theorem length_line (e : LogEntry) (null : Format.CString) :
    (e.call null).line.length = e.lineLength null := by
  have hsize : blockSize.toNat - 1 = 8191 := by decide
  rw [Call.line, List.length_append, List.length_append, Call.msg, Format.stored, hsize,
    length_text_take, call_header, call_message, List.length_singleton, lineLength, headerParts,
    List.flatten_append, List.length_append]
  simp only [List.flatten_cons, List.flatten_nil, List.length_append, List.length_cons,
    List.length_nil]
  omega

/-- `data.len` measures the line in its block exactly when header and message together are
less than a block, or when their length is cut to that of the block on its way into 32 bits.
A thread of the logger formats its line so. -/
theorem logMsg_measured_iff (m : Mem) (msg buf : Nat) (e : LogEntry) (null : Format.CString) :
    (Measured (logMsg m msg buf (e.call null)).1 (logMsg m msg buf (e.call null)).2 ↔
      e.lineLength null < 8192 ∨ e.lineLength null % 2 ^ 32 = 8191) ∧
    ∀ (s v : LoggerImpl Nat) (i : Nat), Formats s v i (e.call null) msg buf →
      v.mem = (logMsg s.mem msg buf (e.call null)).1 ∧
        v.threads i = .freeMsg (e.call null) msg (logMsg s.mem msg buf (e.call null)).2 := by
  rw [measured_logMsg_iff m msg buf (e.zero_not_mem_line null), e.length_line null]
  exact ⟨Iff.rfl, fun s v i h => h.eq_logMsg⟩

/-- No file, no function, no line number, and a message of 8191 characters. -/
def longMessage : LogEntry where
  clock := ⟨124#32, 0#32, 1#32, 0#32, 0#32, 0#32, 0#64⟩
  level := .info
  fileName := ⟨[], by decide⟩
  funcName := ⟨[], by decide⟩
  lineNum := 0#32
  flags := 0#32
  message := List.replicate 8191 0x61#8

theorem lineLength_longMessage (null : Format.CString) : longMessage.lineLength null = 8228 := by
  have hmsg : (text longMessage.message).length = 8191 := by
    have hall : text (List.replicate 8191 0x61#8) = List.replicate 8191 0x61#8 := by
      rw [text, List.takeWhile_replicate, if_pos (by decide)]
    rw [longMessage, hall, List.length_replicate]
  have hstamp : longMessage.clock.stamp.flatten.length = 23 := by decide
  have hlevel : (longMessage.levelText null).length = 4 := rfl
  have hfile : longMessage.fileText.length = 0 := rfl
  have hline : longMessage.lineText.length = 0 := rfl
  have hfunc : longMessage.funcText.length = 0 := rfl
  rw [lineLength, hmsg, hstamp, hlevel, hfile, hline, hfunc, Nat.min_self]

/-- The line would have 8228 characters, and that is what `data.len` says. -/
theorem long_message_overruns :
    ¬ ∀ (m : Mem) (msg buf : Nat) (e : LogEntry) (null : Format.CString),
      Measured (logMsg m msg buf (e.call null)).1 (logMsg m msg buf (e.call null)).2 := by
  intro hall
  have hlong := hall (fun _ => 0#8) 8192 16384 longMessage ⟨[], by decide⟩
  rw [measured_logMsg_iff _ _ _ (longMessage.zero_not_mem_line _), length_line,
    lineLength_longMessage] at hlong
  omega

end LogEntry

end XfUtil
