import XfUtil.Base.OpenFiles
import XfUtil.FileWatcher.Events

/-!
# `FileWatcher::Read`

The loop reads batches of events until there are none left, and then waits for more. The
answers of `read` and of `poll` come from the environment, each from its own list. A batch
is a part of memory after the call of `read`.
-/

namespace XfUtil.FileWatcher

open FlatMemory FilePath OpenFiles

/-- `EAGAIN`. -/
def eagain : Errno := 11#32

/-- `IBUF_SIZE`. -/
def ibufSize : Nat := 4096

/-- `POLLERR`. -/
def pollErr : BitVec 16 := 8#16

/-! ## `Select` -/

inductive PollAnswer where
  /-- There is something to see in `revents`. -/
  | ready (revents : BitVec 16)
  | timeout
  | error (e : Errno)
deriving Repr, DecidableEq

inductive Selected where
  | returned (ret : Int)
  | aborted
deriving Repr, DecidableEq

/-- `Select`; `none` if `poll` does not answer any more. -/
def select (debug : Bool) : List PollAnswer → Option (Selected × List PollAnswer)
  | [] => none
  | .ready revents :: ps =>
      if revents &&& pollErr ≠ 0#16 then some (.returned (-1), ps)
      else if debug && !decide (0 < revents.toInt) then some (.aborted, ps)
      else some (.returned revents.toInt, ps)
  | .timeout :: ps => some (.returned 0, ps)
  | .error e :: ps => if e ≠ eintr then some (.returned (-1), ps) else select debug ps

/-! ## `Read` -/

inductive ReadAnswer where
  /-- `size` bytes have been read, and memory is as it is then. -/
  | bytes (m : Mem) (size : Nat)
  | error (e : Errno)

inductive ReadEnd where
  /-- It is still in a call of the system. -/
  | pending
  | returned (ret : Int)
  | aborted
deriving Repr, DecidableEq

structure Reading where
  /-- The calls of the callback. -/
  calls : List (FilePath × BitVec 32)
  ending : ReadEnd
  /-- The number of answers of `read` that have been taken. -/
  taken : Nat
deriving DecidableEq

namespace Reading

/-- What has been done before is done first. -/
def after (r : Reading) (calls : List (FilePath × BitVec 32)) : Reading :=
  { r with calls := calls ++ r.calls, taken := r.taken + 1 }

end Reading

/-- `Read`, with its buffer at `buf` and the end of what may be read at `limit`. -/
def readAll (debug : Bool) (w : FileWatcher) (buf limit : Nat) :
    List ReadAnswer → List PollAnswer → Reading
  | [], _ => ⟨[], .pending, 0⟩
  | .bytes m size :: rs, ps =>
      if 0 < size then
        match handleEvent debug w m limit buf (buf + size) with
        | none => ⟨[], .pending, 1⟩
        | some h =>
            if h.aborted then ⟨h.calls, .aborted, 1⟩
            else (readAll debug w buf limit rs ps).after h.calls
      else (readAll debug w buf limit rs ps).after []
  | .error e :: rs, ps =>
      if e = eagain then
        match select debug ps with
        | none => ⟨[], .pending, 1⟩
        | some (.aborted, _) => ⟨[], .aborted, 1⟩
        | some (.returned ret, ps) =>
            if ret ≤ 0 then ⟨[], .returned ret, 1⟩
            else (readAll debug w buf limit rs ps).after []
      else if e ≠ eintr then ⟨[], .returned (-1), 1⟩
      else (readAll debug w buf limit rs ps).after []

/-! ## What is delivered -/

/-- The answer is a batch of whole records, or an error and no records. Records of directories
that are watched have bytes for a name. -/
def Carries (w : FileWatcher) (buf limit : Nat) (a : ReadAnswer) (records : List Record) : Prop :=
  (∀ r ∈ records, Registered w r → r.len ≠ 0) ∧
    match a with
    | .bytes m size =>
        read m buf size = Record.buffer records ∧ size = (Record.buffer records).length ∧
          size ≤ ibufSize ∧ buf + ibufSize ≤ limit
    | .error _ => records = []

/-- What is ready is an event. -/
def PollAnswer.Sane : PollAnswer → Prop
  | .ready revents => 0 < revents.toInt
  | _ => True

variable {debug : Bool} {w : FileWatcher} {buf limit : Nat}

/-- `Select` goes on to its caller with a positive number, 0 or -1. -/
theorem select_eq_some {ps ps' : List PollAnswer} {x : Selected} (hps : ∀ p ∈ ps, p.Sane)
    (h : select debug ps = some (x, ps')) :
    (∀ p ∈ ps', p.Sane) ∧ ∃ ret, x = .returned ret ∧ (0 < ret ∨ ret = 0 ∨ ret = -1) := by
  induction ps with
  | nil => cases h
  | cons p ps ih =>
      have hrest : ∀ q ∈ ps, q.Sane := fun q hq => hps q (List.mem_cons_of_mem _ hq)
      cases p with
      | ready revents =>
          have hpos : 0 < revents.toInt := hps _ List.mem_cons_self
          rw [select] at h
          split at h
          · obtain ⟨rfl, rfl⟩ := Prod.mk.inj (Option.some.inj h)
            exact ⟨hrest, -1, rfl, Or.inr (Or.inr rfl)⟩
          · split at h
            · rename_i habort
              simp [hpos] at habort
            · obtain ⟨rfl, rfl⟩ := Prod.mk.inj (Option.some.inj h)
              exact ⟨hrest, _, rfl, Or.inl hpos⟩
      | timeout =>
          obtain ⟨rfl, rfl⟩ := Prod.mk.inj (Option.some.inj h)
          exact ⟨hrest, 0, rfl, Or.inr (Or.inl rfl)⟩
      | error e =>
          rw [select] at h
          split at h
          · obtain ⟨rfl, rfl⟩ := Prod.mk.inj (Option.some.inj h)
            exact ⟨hrest, -1, rfl, Or.inr (Or.inr rfl)⟩
          · exact ih hrest h

/-- A reading that has delivered what the answers taken carry, and has not gone wrong. -/
def Delivered (w : FileWatcher) (batches : List (List Record)) (r : Reading) : Prop :=
  r.taken ≤ batches.length ∧ r.calls = reports w (batches.take r.taken).flatten ∧
    (r.ending = .pending ∨ r.ending = .returned 0 ∨ r.ending = .returned (-1))

theorem reports_append (w : FileWatcher) (xs ys : List Record) :
    reports w (xs ++ ys) = reports w xs ++ reports w ys :=
  List.filterMap_append ..

theorem Delivered.after {batches : List (List Record)} {r : Reading} (h : Delivered w batches r)
    (records : List Record) : Delivered w (records :: batches) (r.after (reports w records)) := by
  obtain ⟨hle, hcalls, hend⟩ := h
  refine ⟨Nat.succ_le_succ hle, ?_, hend⟩
  show reports w records ++ r.calls = reports w ((records :: batches).take (r.taken + 1)).flatten
  rw [List.take_succ_cons, List.flatten_cons, reports_append, hcalls]

/-- The first answer carries nothing, and the reading ends with it. -/
theorem delivered_last {batches : List (List Record)} {e : ReadEnd}
    (he : e = .pending ∨ e = .returned 0 ∨ e = .returned (-1)) :
    Delivered w ([] :: batches) ⟨[], e, 1⟩ :=
  ⟨Nat.succ_le_succ (Nat.zero_le _), by simp [reports], he⟩

/-- Whatever `read` and `poll` answer, `Read` reports every event of every batch that it has
taken, once and in the order in which they came. It comes back with 0 or -1 only. -/
theorem readAll_delivers (hw : w.Named) {reads : List ReadAnswer} {batches : List (List Record)}
    (hreads : List.Forall₂ (Carries w buf limit) reads batches) {polls : List PollAnswer}
    (hpolls : ∀ p ∈ polls, p.Sane) :
    Delivered w batches (readAll debug w buf limit reads polls) := by
  induction hreads generalizing polls with
  | nil => exact ⟨Nat.le_refl _, rfl, Or.inl rfl⟩
  | @cons a records as batches hcarries _ ih =>
      obtain ⟨hnamed, hcarries⟩ := hcarries
      cases a with
      | bytes m size =>
          obtain ⟨hread, hsize, hle, hlimit⟩ := hcarries
          rw [readAll]
          split
          · subst hsize
            have hiff : Reported w records (handleLoop debug w m limit
                (buf + (Record.buffer records).length) (Record.buffer records).length buf) ↔ _ :=
              reported_iff hw hread rfl (by omega) (Nat.le_refl _)
            obtain ⟨h, hh, haborted, hcalls, -⟩ := hiff.mpr hnamed
            have hhandle : handleEvent debug w m limit buf (buf + (Record.buffer records).length) =
                some h := by
              rw [handleEvent, Nat.add_sub_cancel_left]
              exact hh
            simp only [hhandle, haborted, Bool.false_eq_true, if_false, hcalls]
            exact (ih hpolls).after records
          · rename_i hzero
            have hnil : records = [] := by
              cases records with
              | nil => rfl
              | cons r records =>
                  rw [Record.buffer_cons, List.length_append, r.length_bytes,
                    InotifyEvent.headerSize] at hsize
                  omega
            subst hnil
            exact (ih hpolls).after []
      | error e =>
          obtain rfl : records = [] := hcarries
          rw [readAll]
          split
          · cases hselect : select debug polls with
            | none => exact delivered_last (Or.inl rfl)
            | some x =>
                obtain ⟨hrest, ret, hx, hret⟩ := select_eq_some hpolls hselect
                obtain ⟨x, ps⟩ := x
                obtain rfl : x = .returned ret := hx
                dsimp only
                split
                · rename_i hle
                  refine delivered_last (Or.inr ?_)
                  rcases hret with hpos | rfl | rfl
                  · omega
                  · exact Or.inl rfl
                  · exact Or.inr rfl
                · exact (ih hrest).after []
          · split
            · exact delivered_last (Or.inr (Or.inr rfl))
            · exact (ih hpolls).after []

theorem readAll_delivers_one : Delivered watchingOne [[recordOfFile], [], []]
    (readAll true watchingOne 0 4096
      [.bytes (write (fun _ => 0x7A#8) 0 (Record.buffer [recordOfFile]))
        (Record.buffer [recordOfFile]).length, .error eintr, .error eagain] [.timeout]) := by
  refine readAll_delivers named_watchingOne
    (.cons ⟨?_, ?_⟩ (.cons ⟨?_, rfl⟩ (.cons ⟨?_, rfl⟩ .nil)))
    (by simp [PollAnswer.Sane])
  · intro r hr _
    obtain rfl := List.mem_singleton.mp hr
    decide
  · exact ⟨read_write_same _ _ _, rfl, by decide, by decide⟩
  · simp
  · simp

end XfUtil.FileWatcher
