import XfUtil.Base.Machine
import XfUtil.Logger.Steps
import Mathlib.Data.Fintype.Basic

/-!
# The logger writes every line once and in order

What the files hold when `Close` returns, after any interleaving of the calls of
`LogMsg` with the log thread, and what has become of the blocks of the pool.
-/

namespace XfUtil.LoggerImpl

open FlatMemory RollingLog

variable {Tid : Type*} [DecidableEq Tid]

/-- What a session leaves behind that has begun with `files`. -/
structure Delivered (conf : LogConfig) (files : FileMap.Files FilePath Byte)
    (s : LoggerImpl Tid) : Prop where
  /-- All files there have been are those of the beginning, with the first group of
  lines at the end of the last, and one for each other group; of these the oldest
  `rolled` are gone. -/
  groups : ∃ groups : List (List (List Byte)), groups.length = s.rolled + 1 ∧
    groups.flatten = s.entered ∧ conf.contents s.file.files =
      (history (conf.contents files) (groups.map List.flatten)).drop s.rolled
  suffix : (conf.contents s.file.files).flatten <:+
    (conf.contents files).flatten ++ s.entered.flatten
  /-- Every block that `LogMsg` took has been freed once. -/
  freed_perm : s.freed.Perm s.took
  /-- Every `Free` was of a block in use and has returned it once, to its source. -/
  frees : s.pool.frees.map BlockPool.FreeCall.block = s.freed
  returned : ∀ call ∈ s.pool.frees, call.returned = [call.source]
  /-- The pool and the queue are ready for another `Start`. -/
  rested : Rested s.pool.pool
  empty : s.dataQueue.queue = []

omit [DecidableEq Tid] in
/-- Once the log thread is gone and nobody logs, nothing is held any more. -/
theorem Inv.delivered {conf : LogConfig} {files : FileMap.Files FilePath Byte} {base count : Nat}
    {s : LoggerImpl Tid} (h : s.Inv conf (conf.contents files) base count)
    (hclosed : s.closing = .closed) : Delivered conf files s := by
  have hpc := h.joined hclosed
  have hidle := h.quiet (by simp [hclosed])
  have hqueue : s.dataQueue.queue = [] := by
    have hmarked := h.marked
    rw [if_pos hpc] at hmarked
    exact hmarked.1
  have hitems : s.items = [] := by rw [items, hqueue]; rfl
  have hlive : s.pool.live = [] := by
    apply List.map_eq_nil_iff.mp
    apply h.owned.eq_nil
    intro k
    cases k with
    | none => simp [own, hpc, hitems, LogPc.blocks]
    | some t => simp [own, hidle t, Pc.blocks]
  have hrest : ∀ u, s.pool.threads u = .idle := by
    intro u
    cases u with
    | none => exact h.logSuits.atRest (by simp [hpc])
    | some t => apply (h.suits t).atRest <;> simp [hidle t, Pc.allocating]
  have hwritten : s.entered = s.written := by
    obtain ⟨lines, hlines, hentered⟩ := h.order
    rw [hpc, hitems] at hlines
    obtain rfl := List.forall₂_nil_left_iff.mp hlines
    simpa using hentered
  obtain ⟨groups, -, hgroups, hkept⟩ := h.file.kept
  refine ⟨⟨groups, ?_, by rw [hgroups, hwritten], hkept.kept⟩, ?_, ?_, h.ledger.freed_eq, ?_,
    h.ledger.rested hlive, hqueue⟩
  · simpa using hkept.begun
  · have hflat : (groups.map List.flatten).flatten = s.entered.flatten := by
      rw [hwritten, ← hgroups, List.flatten_flatten]
    rw [← hflat]
    exact hkept.suffix
  · have htook := h.ledger.took_perm
    rw [hlive] at htook
    simpa using htook.symm
  · intro call hcall
    obtain ⟨i, hi⟩ := List.getElem?_of_mem hcall
    rcases h.ledger.inv.settled i call hi with hsettled | ⟨u, hu⟩
    · exact hsettled
    · simp [hrest u] at hu

/-- Every accepted line is written once and in order: when `Close` returns, the files
from the oldest backup to the log file are the end of what there was at `Start`
followed by the lines as they entered the queue. Only whole files are dropped, no line
is split, and every block is back. -/
theorem close_delivered {conf : LogConfig} {files : FileMap.Files FilePath Byte} {opens : Bool}
    {pool : BlockPool} {buf : Nat} {mem : Mem} {s₀ s : LoggerImpl Tid} {ls : List (Label Tid)}
    (hstart : start Tid conf files opens pool buf mem = some s₀) (hpool : Rested pool)
    (hnum : 1 ≤ conf.maxFileNum.toNat) (hfits : conf.Fits)
    (horderly : Machine.StepsMeet step Orderly s₀ ls) (hrun : Machine.run step s₀ ls = some s)
    (hclosed : s.closing = .closed) : Delivered conf files s := by
  obtain ⟨base, count, hinv⟩ := start_inv hstart hpool
  have hold := conf.contents_ne_nil files
  have hs := Machine.run_invariant_of_stepsMeet
    (fun s => s.Inv conf (conf.contents files) base count) hinv
    (fun _ _ _ ht hl hstep => ht.step hfits hnum hold hl hstep) horderly hrun
  exact hs.delivered hclosed

instance [Fintype Tid] (s : LoggerImpl Tid) (l : Label Tid) : Decidable (s.Orderly l) :=
  match l with
  | .logMsg _ _ => inferInstanceAs (Decidable (_ ∧ _))
  | .close => inferInstanceAs (Decidable (∀ t, s.threads t = .idle))
  | .alloc _ | .xmalloc _ _ | .format _ | .free _ | .xfree _ | .push _ | .pop | .append | .logFree
  | .reopen | .pushMark | .join => isTrue trivial

/-- `l`, at most three bytes, and one backup. -/
def oneBackup : LogConfig := { filePath := [0x6C#8], maxFileSize := 3#64, maxFileNum := 1#16 }

/-- Two threads log `ab` and `c` at the same time, with all blocks from the heap; the
second to be formatted is the first in the queue. -/
def twoCalls : List (Label Bool) :=
  [.logMsg true ⟨[0x61#8], [0x62#8]⟩, .logMsg false ⟨[0x63#8], []⟩, .alloc true, .alloc false,
    .xmalloc true 8192, .xmalloc false 16384, .format true, .format false, .alloc true,
    .alloc false, .xmalloc true 24576, .xmalloc false 32768, .format true, .format false,
    .free false, .xfree (some false), .push false, .free true, .xfree (some true), .push true,
    .pop, .append, .logFree, .close, .xfree none, .reopen, .pushMark, .pop, .append, .logFree,
    .xfree none, .reopen, .pop, .join]

/-- The logger before `twoCalls`. -/
def quietLogger : LoggerImpl Bool where
  file := LogFile.started oneBackup
  pool := BlockPool.Shared.start (Option Bool) ⟨blockSize, 0, 0, []⟩
  mem := fun _ => 0#8
  dataQueue := ⟨[], queueCapacity⟩
  threads := fun _ => .idle
  logThread := .pop
  closing := .started
  entered := []
  written := []
  rolled := 0
  took := []
  freed := []

/-- Both lines end up in the backup. -/
theorem close_delivered_two_calls : ∃ s : LoggerImpl Bool,
    Machine.run step quietLogger twoCalls = some s ∧
      s.entered = [[0x63#8, 0x0A#8], [0x61#8, 0x62#8, 0x0A#8]] ∧
      oneBackup.contents s.file.files = [[0x63#8, 0x0A#8, 0x61#8, 0x62#8, 0x0A#8], []] ∧
      Delivered oneBackup (fun _ => none) s := by
  have hstart : start Bool oneBackup (fun _ => none) true BlockPool.new 0 (fun _ => 0#8) =
      some quietLogger := rfl
  have hfits : oneBackup.Fits := by
    unfold LogConfig.Fits
    decide
  have houtcome : (Machine.run step quietLogger twoCalls).map (fun s =>
      (s.closing, s.entered, oneBackup.contents s.file.files)) =
        some (.closed, [[0x63#8, 0x0A#8], [0x61#8, 0x62#8, 0x0A#8]],
          [[0x63#8, 0x0A#8, 0x61#8, 0x62#8, 0x0A#8], []]) := by
    decide +kernel
  obtain ⟨s, hrun, hs⟩ := Option.map_eq_some_iff.mp houtcome
  simp only [Prod.mk.injEq] at hs
  refine ⟨s, hrun, hs.2.1, hs.2.2, ?_⟩
  exact close_delivered hstart rested_new (by decide) hfits
    (Machine.StepsMeet.of_meets (by decide +kernel)) hrun hs.1

end XfUtil.LoggerImpl
