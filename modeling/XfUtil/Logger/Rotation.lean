import XfUtil.Logger.Model
import XfUtil.Base.Machine

/-!
# The files that rotation leaves

A rotation moves every backup on by one and makes the log file the first of them.
It stays with the configured files when there is a backup to make and the log
file's name is not one that the buffer cuts to itself.
-/

namespace XfUtil

open FlatMemory FileMap

/-! ## Names and calls -/

namespace LogConfig

/-- A name of exactly 255 characters leaves no room for a number. -/
theorem backup_eq_filePath {conf : LogConfig} (h : conf.filePath.length = maxPathLen - 1)
    (i : Nat) : conf.backup i = conf.filePath :=
  Format.stored_append_of_eq h _

theorem backup_ne_filePath {conf : LogConfig} (h : conf.filePath.length ≠ maxPathLen - 1)
    (i : Nat) : conf.backup i ≠ conf.filePath := by
  intro heq
  have hlen := congrArg List.length heq
  rw [backup, Format.length_stored, List.length_append, List.length_cons] at hlen
  omega

theorem renameLoop_eq (conf : LogConfig) (n : Nat) :
    conf.renameLoop n = renameChain (fun i => conf.backup (i + 1)) n := by
  induction n with
  | zero => rfl
  | succ n ih => rw [renameLoop, renameChain, ih]

theorem mem_renameLoop {conf : LogConfig} {n : Nat} {op : Op FilePath Byte}
    (h : op ∈ conf.renameLoop n) :
    ∃ i < n, op = .rename (conf.backup (i + 1)) (conf.backup (i + 2)) := by
  rw [renameLoop_eq] at h
  exact mem_renameChain h

/-- The log file and the backups it turns into. -/
def link (conf : LogConfig) : Nat → FilePath
  | 0 => conf.filePath
  | i + 1 => conf.backup (i + 1)

/-- The calls of `Rename` with a backup to make: the last link is removed, and the chain
moves on. -/
theorem renameCalls_eq {conf : LogConfig} (hnum : 1 ≤ conf.maxFileNum.toNat) :
    conf.renameCalls =
      .remove (conf.link conf.maxFileNum.toNat) :: renameChain conf.link conf.maxFileNum.toNat := by
  obtain ⟨n, hn⟩ : ∃ n, conf.maxFileNum.toNat = n + 1 := ⟨conf.maxFileNum.toNat - 1, by omega⟩
  have hlast : (conf.maxFileNum - 1#16).toNat = n := by
    bv_omega
  rw [renameCalls, makeRoom, renameLoop_eq, hlast, hn, renameChain_succ]
  rfl

/-- Only the log file and its configured backups are there. -/
def Confined (conf : LogConfig) (files : Files FilePath Byte) : Prop :=
  ∀ n, (files n).isSome →
    n = conf.filePath ∨ ∃ i, 1 ≤ i ∧ i ≤ conf.maxFileNum.toNat ∧ n = conf.backup i

/-- With a backup to make, the calls of `Reopen` make none but the configured files. -/
theorem made_reopenCalls {conf : LogConfig} (hnum : 1 ≤ conf.maxFileNum.toNat)
    {op : Op FilePath Byte} (hop : op ∈ conf.reopenCalls) {n : FilePath} (hn : n ∈ op.made) :
    n = conf.filePath ∨ ∃ i, 1 ≤ i ∧ i ≤ conf.maxFileNum.toNat ∧ n = conf.backup i := by
  have hlast : (conf.maxFileNum - 1#16).toNat = conf.maxFileNum.toNat - 1 := by
    bv_omega
  simp only [reopenCalls, renameCalls, makeRoom, List.mem_append, List.mem_cons,
    List.not_mem_nil, or_false] at hop
  rcases hop with ((rfl | hop) | rfl) | rfl
  · simp [Op.made] at hn
  · obtain ⟨i, hi, rfl⟩ := mem_renameLoop hop
    obtain rfl : n = conf.backup (i + 2) := by simpa [Op.made] using hn
    exact Or.inr ⟨i + 2, by omega, by omega, rfl⟩
  · obtain rfl : n = conf.backup 1 := by simpa [Op.made] using hn
    exact Or.inr ⟨1, Nat.le_refl 1, hnum, rfl⟩
  · exact Or.inl (by simpa [Op.made] using hn)

theorem makeRoom_filePath {conf : LogConfig} (h : conf.filePath.length ≠ maxPathLen - 1)
    (files : Files FilePath Byte) :
    execute files conf.makeRoom conf.filePath = files conf.filePath := by
  have hne : ∀ i, conf.filePath ≠ conf.backup i := fun i => (backup_ne_filePath h i).symm
  apply execute_of_not_touched
  intro op hop
  rcases List.mem_cons.mp hop with rfl | hop
  · simpa [Op.touched] using hne _
  · obtain ⟨i, -, rfl⟩ := mem_renameLoop hop
    simp [Op.touched, hne]

/-- With all names cut to the same one, the log file is what `Remove` removes. -/
theorem makeRoom_filePath_eq_none {conf : LogConfig}
    (h : conf.filePath.length = maxPathLen - 1) (files : Files FilePath Byte) :
    execute files conf.makeRoom conf.filePath = none := by
  have hloop : ∀ n fs, execute fs (conf.renameLoop n) = fs := by
    intro n
    induction n with
    | zero => exact fun _ => rfl
    | succ n ih =>
        intro fs
        rw [renameLoop, backup_eq_filePath h, backup_eq_filePath h, execute_cons,
          apply_rename_self, ih]
  rw [makeRoom, backup_eq_filePath h, execute_cons, hloop]
  exact Function.update_self ..

end LogConfig

/-! ## Runs of the log thread -/

namespace LogFile

/-- One line written. -/
def step : Machine.Step LogFile LogLine := fun s data => some (s.write data)

/-- While the line is written no other files come up, and what `Rename` finds under
`file_path` is what its last call moves. -/
structure KeepsTo (s : LogFile) (data : LogLine) : Prop where
  confined : ∀ calls, calls <+: s.writeCalls data → s.conf.Confined (execute s.files calls)
  spared : (s.append data).full →
    execute (s.append data).files s.conf.makeRoom s.conf.filePath =
      (s.append data).files s.conf.filePath

/-- A line that fills the file finds a backup to make and a name with room for it. -/
def Rotatable (s : LogFile) (data : LogLine) : Prop :=
  (s.append data).full → 1 ≤ s.conf.maxFileNum.toNat ∧ s.conf.filePath.length ≠ maxPathLen - 1

theorem append_filePath (s : LogFile) (data : LogLine) :
    ((s.append data).files s.conf.filePath).isSome = (s.files s.conf.filePath).isSome := by
  simp [append, appendCall, apply]

theorem write_filePath {s : LogFile} (h : (s.files s.conf.filePath).isSome) (data : LogLine) :
    ((s.write data).files s.conf.filePath).isSome := by
  unfold write reopenIfFull
  split
  · rw [reopen, LogConfig.reopenCalls, execute_append, append_conf]
    simp [apply]
  · rwa [append_filePath]

theorem keepsTo_of_rotatable {s : LogFile} {data : LogLine} (hs : s.conf.Confined s.files)
    (h : s.Rotatable data) : s.KeepsTo data := by
  constructor
  · intro calls hcalls n hn
    rcases execute_isSome hn with hn | ⟨op, hop, hmade⟩
    · exact hs n hn
    · have hop := hcalls.subset hop
      rw [writeCalls, List.mem_cons] at hop
      rcases hop with rfl | hop
      · simp [appendCall, Op.made] at hmade
      · split at hop
        · rename_i hfull
          exact LogConfig.made_reopenCalls (h hfull).1 hop hmade
        · simp at hop
  · intro hfull
    exact LogConfig.makeRoom_filePath (h hfull).2 _

/-- The other way round it takes a log file that is there to be moved. -/
theorem rotatable_of_keepsTo {s : LogFile} {data : LogLine}
    (hs : (s.files s.conf.filePath).isSome) (h : s.KeepsTo data) : s.Rotatable data := by
  intro hfull
  have hfile : ((s.append data).files s.conf.filePath).isSome := by rwa [append_filePath]
  have hspared := h.spared hfull
  have hlen : s.conf.filePath.length ≠ maxPathLen - 1 := by
    intro hlen
    rw [LogConfig.makeRoom_filePath_eq_none hlen] at hspared
    rw [← hspared] at hfile
    simp at hfile
  refine ⟨?_, hlen⟩
  -- The last rename puts a file under the name of the first backup.
  obtain ⟨content, hcontent⟩ := Option.isSome_iff_exists.mp hfile
  have hfirst : (execute (s.append data).files s.conf.renameCalls (s.conf.backup 1)).isSome := by
    rw [LogConfig.renameCalls, execute_append, execute_cons, execute_nil, apply,
      move_of_some (hspared.trans hcontent), Function.update_self]
    rfl
  have hprefix : s.appendCall data :: s.conf.renameCalls <+: s.writeCalls data := by
    rw [writeCalls, if_pos hfull, LogConfig.reopenCalls]
    exact ⟨[.create s.conf.filePath], by simp⟩
  rcases h.confined _ hprefix _ hfirst with heq | ⟨i, hi, hle, -⟩
  · exact absurd heq (LogConfig.backup_ne_filePath hlen 1)
  · omega

theorem start_eq_some {conf : LogConfig} {files : Files FilePath Byte} {opens : Bool} {s : LogFile}
    (h : start conf files opens = some s) :
    s = ⟨conf, apply files (.create conf.filePath),
      BitVec.ofNat 64 ((files conf.filePath).getD []).length⟩ := by
  unfold start at h
  split at h
  · cases h
  · cases h
    simp [apply]

theorem start_empty {conf : LogConfig} {opens : Bool} {s : LogFile}
    (h : start conf (fun _ => none) opens = some s) :
    s.conf.Confined s.files ∧ (s.files s.conf.filePath).isSome := by
  rw [start_eq_some h]
  constructor
  · intro n hn
    have hn : (apply (fun _ => none) (.create conf.filePath) n : Option (List Byte)).isSome := hn
    rcases apply_isSome hn with hn | hn
    · simp at hn
    · exact Or.inl (by simpa [Op.made] using hn)
  · simp [apply]

theorem run_conf {s t : LogFile} {lines : List LogLine} (h : Machine.run step s lines = some t) :
    t.conf = s.conf := by
  apply Machine.run_invariant (fun t => t.conf = s.conf) rfl _ h
  intro t data u hinv hstep
  cases hstep
  rw [write_conf, hinv]

/-- It is enough that the configuration has a backup to make and a name with room. -/
theorem stepsMeet_rotatable {s : LogFile} (hnum : 1 ≤ s.conf.maxFileNum.toNat)
    (hlen : s.conf.filePath.length ≠ maxPathLen - 1) (lines : List LogLine) :
    Machine.StepsMeet step Rotatable s lines := by
  intro pre data post _ t ht _
  rw [run_conf ht]
  exact ⟨hnum, hlen⟩

theorem run_filePath {s t : LogFile} {lines : List LogLine}
    (hs : (s.files s.conf.filePath).isSome) (h : Machine.run step s lines = some t) :
    (t.files t.conf.filePath).isSome := by
  apply Machine.run_invariant (fun t => (t.files t.conf.filePath).isSome) hs _ h
  intro t data u hinv hstep
  cases hstep
  rw [write_conf]
  exact write_filePath hinv data

theorem run_confined {s t : LogFile} {lines : List LogLine} (hs : s.conf.Confined s.files)
    (hrot : Machine.StepsMeet step Rotatable s lines) (h : Machine.run step s lines = some t) :
    t.conf.Confined t.files := by
  apply Machine.run_invariant_of_stepsMeet (fun t => t.conf.Confined t.files) hs _ hrot h
  intro t data u hinv hrot hstep
  cases hstep
  rw [write_conf, write_files]
  exact (keepsTo_of_rotatable hinv hrot).confined _ List.prefix_rfl

/-- Rotation keeps to the configured files exactly as long as every line that fills
the log file finds a backup to make and a name with room for its number. -/
theorem rotation_keepsTo_iff {conf : LogConfig} {opens : Bool} {s : LogFile}
    (h : start conf (fun _ => none) opens = some s) (lines : List LogLine) :
    s.conf.Confined s.files ∧
      (Machine.StepsMeet step KeepsTo s lines ↔ Machine.StepsMeet step Rotatable s lines) := by
  obtain ⟨hconfined, hfile⟩ := start_empty h
  refine ⟨hconfined, ?_, ?_⟩
  · intro hkeeps pre data post hlines t ht
    exact rotatable_of_keepsTo (run_filePath hfile ht) (hkeeps pre data post hlines t ht)
  · intro hrot pre data post hlines t ht
    have hpre : Machine.StepsMeet step Rotatable s pre := by
      rw [hlines] at hrot
      exact hrot.of_append
    exact keepsTo_of_rotatable (run_confined hconfined hpre ht) (hrot pre data post hlines t ht)

/-- `x.log`, one byte at most, and `num` backups. -/
def smallLog (num : BitVec 16) : LogConfig :=
  { filePath := [0x78#8, 0x2E#8, 0x6C#8, 0x6F#8, 0x67#8], maxFileSize := 1#64, maxFileNum := num }

def started (conf : LogConfig) : LogFile :=
  ⟨conf, apply (fun _ => none) (.create conf.filePath), 0#64⟩

theorem start_started (conf : LogConfig) :
    start conf (fun _ => none) true = some (started conf) := by
  simp [start, started, apply]

/-- Two lines of two bytes, with two backups. -/
theorem rotation_keepsTo_iff_two :
    Machine.StepsMeet step KeepsTo (started (smallLog 2#16))
      (List.replicate 2 (LogLine.mk [0x61#8, 0x0A#8] 2#32)) := by
  have hrot := stepsMeet_rotatable (s := started (smallLog 2#16)) (by decide) (by decide)
    (List.replicate 2 (LogLine.mk [0x61#8, 0x0A#8] 2#32))
  exact ((rotation_keepsTo_iff (start_started (smallLog 2#16)) _).2).mpr hrot

/-- Without a backup to make the log file still becomes `x.log.1`. -/
theorem rotation_without_backups :
    start (smallLog 0#16) (fun _ => none) true = some (started (smallLog 0#16)) ∧
      ¬ Machine.StepsMeet step KeepsTo (started (smallLog 0#16))
        [LogLine.mk [0x61#8, 0x0A#8] 2#32] := by
  refine ⟨start_started _, fun hkeeps => ?_⟩
  have hfile := (start_empty (start_started (smallLog 0#16))).2
  have hrot := rotatable_of_keepsTo hfile (hkeeps [] _ [] rfl _ rfl)
  have hnum : 1 ≤ (smallLog 0#16).maxFileNum.toNat := (hrot (by decide)).1
  exact absurd hnum (by decide)

end LogFile

end XfUtil
