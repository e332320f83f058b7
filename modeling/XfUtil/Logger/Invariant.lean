import XfUtil.Base.Ownership
import XfUtil.Logger.Contents
import XfUtil.Logger.Ledger

/-!
# The invariant of the logger

Every block in use has one holder: a thread in `LogMsg`, or the queue with the log
thread behind it. A block that has been formatted keeps its text, since formatting
goes to blocks of one's own. The lines that have entered the queue are the lines
written, then those that the log thread and the queue still hold, in order.
-/

namespace XfUtil.LoggerImpl

open FlatMemory Ownership

/-! ## Text in blocks -/

/-- `data` is `line`, in its block. -/
structure Carries (mem : Mem) (data : LogData) (line : List Byte) : Prop where
  len : data.len.toNat = line.length
  short : line.length < blockSize.toNat
  bytes : read mem data.buf line.length = line

theorem text_append_zero (xs ys : List Byte) : text (xs ++ 0#8 :: ys) = text xs := by
  induction xs with
  | nil => rfl
  | cons x xs ih =>
      unfold text at ih ⊢
      rw [List.cons_append, List.takeWhile_cons, List.takeWhile_cons, ih]

/-- What `snprintf` writes stays in the block. -/
theorem length_printed (bytes : List Byte) :
    (Format.stored blockSize.toNat bytes ++ [0#8]).length ≤ blockSize.toNat := by
  have hpos : blockSize.toNat = 8192 := rfl
  rw [List.length_append, Format.length_stored, List.length_singleton]
  omega

theorem text_printed (mem : Mem) (block : Nat) (bytes : List Byte) :
    text (read (write mem block (Format.stored blockSize.toNat bytes ++ [0#8])) block
      blockSize.toNat) = text (Format.stored blockSize.toNat bytes) := by
  have hlen := length_printed bytes
  generalize Format.stored blockSize.toNat bytes = stored at hlen ⊢
  obtain ⟨k, hk⟩ := Nat.exists_eq_add_of_le hlen
  rw [hk, read_add, read_write_same, List.append_assoc]
  exact text_append_zero _ _

theorem carries_printed (mem : Mem) (block : Nat) {line : List Byte}
    (h : line.length < blockSize.toNat) :
    Carries (write mem block (Format.stored blockSize.toNat line ++ [0#8]))
      ⟨block, BitVec.ofNat 32 line.length⟩ line := by
  have hsize : blockSize.toNat = 8192 := rfl
  refine ⟨?_, h, ?_⟩
  · rw [BitVec.toNat_ofNat, Nat.mod_eq_of_lt (by omega)]
  · rw [Format.stored_of_lt h]
    exact (read_eq_append (read_write_same mem block (line ++ [0#8]))).1

variable {mem : Mem} {data : LogData} {line : List Byte}

/-- Printing into another block does not change a line. -/
theorem Carries.print (h : Carries mem data line) {block : Nat}
    (hapart : Apart block blockSize.toNat data.buf blockSize.toNat) (bytes : List Byte) :
    Carries (write mem block (Format.stored blockSize.toNat bytes ++ [0#8])) data line := by
  have hlen := length_printed bytes
  have hshort := h.short
  unfold Apart at hapart
  refine ⟨h.len, h.short, ?_⟩
  rw [read_write_disjoint _ _ (by omega), h.bytes]

theorem text_print {block other : Nat} (bytes : List Byte)
    (hapart : Apart block blockSize.toNat other blockSize.toNat) :
    read (write mem block (Format.stored blockSize.toNat bytes ++ [0#8])) other blockSize.toNat =
      read mem other blockSize.toNat := by
  have hlen := length_printed bytes
  unfold Apart at hapart
  exact read_write_disjoint _ _ (by omega)

/-- What a thread relies on in memory. -/
def Pc.Good (mem : Mem) : Pc → Prop
  | idle => True
  | allocMsg call => call.line.length < blockSize.toNat
  | formatMsg call _ => call.line.length < blockSize.toNat
  | allocBuf call msg =>
      call.line.length < blockSize.toNat ∧ text (read mem msg blockSize.toNat) = call.msg
  | formatLine call msg _ =>
      call.line.length < blockSize.toNat ∧ text (read mem msg blockSize.toNat) = call.msg
  | freeMsg call _ data => Carries mem data call.line
  | push call data => Carries mem data call.line

/-- Printing into a block that is not the thread's does not matter to it. -/
theorem Pc.Good.print {pc : Pc} (h : pc.Good mem) {block : Nat}
    (hapart : ∀ b ∈ pc.blocks, Apart block blockSize.toNat b blockSize.toNat)
    (bytes : List Byte) :
    pc.Good (write mem block (Format.stored blockSize.toNat bytes ++ [0#8])) := by
  cases pc with
  | idle => trivial
  | allocMsg call => exact h
  | formatMsg call msg => exact h
  | allocBuf call msg =>
      refine ⟨h.1, ?_⟩
      rw [text_print bytes (hapart msg (by simp [Pc.blocks]))]
      exact h.2
  | formatLine call msg buf =>
      refine ⟨h.1, ?_⟩
      rw [text_print bytes (hapart msg (by simp [Pc.blocks]))]
      exact h.2
  | freeMsg call msg data =>
      exact Carries.print h (hapart data.buf (by simp [Pc.blocks])) bytes
  | push call data =>
      exact Carries.print h (hapart data.buf (by simp [Pc.blocks])) bytes

/-! ## Places that go together -/

/-- Where a thread may be in the pool when it is here in `LogMsg`. -/
def Pc.Suits : Pc → BlockPool.Pc → Prop
  | _, .idle => True
  | pc, .allocHeap => pc.allocating = true
  | pc, .freeHeap _ _ => ∃ call data, pc = push call data

def LogPc.Suits : LogPc → BlockPool.Pc → Prop
  | _, .idle => True
  | _, .allocHeap => False
  | pc, .freeHeap _ _ => pc = reopen

/-- A thread that is neither in `Alloc` nor behind `Free` is not in the pool. -/
theorem Pc.Suits.atRest {pc : Pc} {place : BlockPool.Pc} (h : pc.Suits place)
    (halloc : pc.allocating = false) (hpush : ∀ call data, pc ≠ push call data) :
    place = .idle := by
  cases place with
  | idle => rfl
  | allocHeap => simp [Pc.Suits, halloc] at h
  | freeHeap block n =>
      obtain ⟨call, data, heq⟩ := h
      exact absurd heq (hpush call data)

theorem LogPc.Suits.atRest {pc : LogPc} {place : BlockPool.Pc} (h : pc.Suits place)
    (hne : pc ≠ reopen) : place = .idle := by
  cases place with
  | idle => rfl
  | allocHeap => exact h.elim
  | freeHeap block n => exact absurd h hne

/-- What `Close` has put into the queue so far. -/
def Closing.sent : Closing → List LogData
  | started => []
  | pushing => []
  | joining => [.exitMark]
  | closed => [.exitMark]

/-- The data that the log thread is about to write. -/
def LogPc.current : LogPc → List LogData
  | append data => [data]
  | _ => []

/-! ## The invariant -/

variable {Tid : Type*}

/-- The queue without the exit mark. -/
def items (s : LoggerImpl Tid) : List LogData :=
  s.dataQueue.queue.filter fun data => data.buf ≠ 0

/-- Who holds which blocks; `none` is the queue with the log thread behind it. -/
def own (s : LoggerImpl Tid) : Option Tid → List Nat
  | some t => (s.threads t).blocks
  | none => s.logThread.blocks ++ s.items.map LogData.buf

structure Inv (conf : LogConfig) (old : List (List Byte)) (base count : Nat)
    (s : LoggerImpl Tid) : Prop where
  ledger : Ledger base count s.pool s.took s.freed
  owned : Owned (s.pool.live.map Prod.fst) s.own
  suits : ∀ t, (s.threads t).Suits (s.pool.threads (some t))
  logSuits : s.logThread.Suits (s.pool.threads none)
  good : ∀ t, (s.threads t).Good s.mem
  order : ∃ lines, List.Forall₂ (Carries s.mem) (s.logThread.current ++ s.items) lines ∧
    s.entered = s.written ++ lines
  file : s.file.Rolls conf old s.written s.rolled
  /-- The exit mark is the last in the queue, and the last that is taken from it. -/
  marked : if s.logThread = .exited then s.dataQueue.queue = [] ∧ s.closing.sent = [.exitMark]
    else s.dataQueue.queue = s.items ++ s.closing.sent
  /-- Nobody logs any more once `Close` has been called. -/
  quiet : s.closing ≠ .started → ∀ t, s.threads t = .idle
  joined : s.closing = .closed → s.logThread = .exited

variable {conf : LogConfig} {old : List (List Byte)} {base count : Nat} {s : LoggerImpl Tid}

theorem start_inv {files : FileMap.Files FilePath Byte} {opens : Bool} {pool : BlockPool}
    {buf : Nat} {mem : Mem} (h : start Tid conf files opens pool buf mem = some s)
    (hpool : Rested pool) : ∃ base count, s.Inv conf (conf.contents files) base count := by
  unfold start at h
  cases hfile : LogFile.start conf files opens with
  | none => simp [hfile] at h
  | some file =>
      rw [hfile] at h
      cases h
      obtain ⟨hrested, hsize⟩ := hpool.init buf
      obtain ⟨base, count, hledger⟩ := hrested.ledger (Option Tid) hsize
      refine ⟨base, count, hledger, ?_, fun _ => trivial, trivial, fun _ => trivial,
        ⟨[], List.Forall₂.nil, rfl⟩, LogFile.start_rolls hfile, ?_, ?_, ?_⟩
      · apply Owned.of_forall_nil
        intro k
        cases k <;> rfl
      · simp [items, Closing.sent]
      · simp
      · simp

/-- Blocks of different holders do not overlap. -/
theorem Inv.apart (h : s.Inv conf old base count) {j k : Option Tid} (hjk : j ≠ k) {a b : Nat}
    (ha : a ∈ s.own j) (hb : b ∈ s.own k) : Apart a blockSize.toNat b blockSize.toNat :=
  h.ledger.apart ((h.owned.live a).mpr ⟨j, ha⟩) ((h.owned.live b).mpr ⟨k, hb⟩)
    (h.owned.ne hjk ha hb)

end XfUtil.LoggerImpl
