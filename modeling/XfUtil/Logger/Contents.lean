import XfUtil.Base.RollingLog
import XfUtil.Logger.Rotation

/-!
# What the log file and its backups hold

Read from the oldest backup to the log file, the files are a log that rolls over:
`Write` adds to the last of them, and `Reopen` gives up the oldest for a new one.
This takes names that the buffer does not cut.
-/

namespace XfUtil

open FlatMemory FileMap RollingLog

namespace LogConfig

/-- All names fit into `char[MAX_PATH_LEN]`. -/
def Fits (conf : LogConfig) : Prop :=
  ∀ i ≤ conf.maxFileNum.toNat,
    (conf.filePath ++ FilePath.dot :: Format.decimal i).length < maxPathLen

/-- The contents of the backups and the log file, the oldest first. A file that is not
there counts as empty. -/
def contents (conf : LogConfig) (files : Files FilePath Byte) : List (List Byte) :=
  (List.range (conf.maxFileNum.toNat + 1)).reverse.map fun i => (files (conf.link i)).getD []

/-- The log file is the last. -/
theorem contents_eq (conf : LogConfig) (files : Files FilePath Byte) :
    conf.contents files = ((List.range conf.maxFileNum.toNat).reverse.map fun i =>
      (files (conf.link (i + 1))).getD []) ++ [(files conf.filePath).getD []] := by
  rw [contents, List.range_succ_eq_map, List.reverse_cons, List.map_append, ← List.map_reverse,
    List.map_map]
  rfl

theorem tail_contents (conf : LogConfig) (files : Files FilePath Byte) :
    (conf.contents files).tail =
      (List.range conf.maxFileNum.toNat).reverse.map fun i => (files (conf.link i)).getD [] := by
  simp [contents, List.range_succ]

theorem contents_ne_nil (conf : LogConfig) (files : Files FilePath Byte) :
    conf.contents files ≠ [] := by
  simp [contents]

variable {conf : LogConfig}

theorem Fits.backup_eq (h : conf.Fits) {i : Nat} (hi : i ≤ conf.maxFileNum.toNat) :
    conf.backup i = conf.filePath ++ FilePath.dot :: Format.decimal i :=
  Format.stored_of_lt (h i hi)

/-- Names that fit are different. -/
theorem Fits.link_injective (h : conf.Fits) {i j : Nat} (hi : i ≤ conf.maxFileNum.toNat)
    (hj : j ≤ conf.maxFileNum.toNat) (heq : conf.link i = conf.link j) : i = j := by
  cases i with
  | zero =>
      cases j with
      | zero => rfl
      | succ j =>
          rw [link, link, h.backup_eq hj] at heq
          simp at heq
  | succ i =>
      cases j with
      | zero =>
          rw [link, link, h.backup_eq hi] at heq
          simp at heq
      | succ j =>
          rw [link, link, h.backup_eq hi, h.backup_eq hj] at heq
          have hdecimal := List.append_cancel_left heq
          exact Format.decimal_injective (List.cons.inj hdecimal).2

theorem Fits.link_succ_ne (h : conf.Fits) {i : Nat} (hi : i < conf.maxFileNum.toNat) :
    conf.link (i + 1) ≠ conf.filePath := by
  intro heq
  have := h.link_injective hi (Nat.zero_le _) (heq : conf.link (i + 1) = conf.link 0)
  omega

/-- `Rename` moves every file of the chain on by one. -/
theorem Fits.renameCalls_shift (h : conf.Fits) (hnum : 1 ≤ conf.maxFileNum.toNat)
    (files : Files FilePath Byte) :
    execute files conf.renameCalls conf.filePath = none ∧
      ∀ i < conf.maxFileNum.toNat,
        execute files conf.renameCalls (conf.link (i + 1)) = files (conf.link i) := by
  rw [renameCalls_eq hnum, execute_cons]
  have hfree : apply files (.remove (conf.link conf.maxFileNum.toNat))
      (conf.link conf.maxFileNum.toNat) = none := Function.update_self ..
  obtain ⟨hfirst, hshift⟩ := renameChain_shift
    (fun i hi j hj heq => h.link_injective hi hj heq) hfree
  refine ⟨hfirst, fun i hi => ?_⟩
  have hne : conf.link i ≠ conf.link conf.maxFileNum.toNat := by
    intro heq
    have := h.link_injective (by omega) (Nat.le_refl _) heq
    omega
  rw [hshift i hi]
  exact Function.update_of_ne hne ..

/-- `Reopen` gives up the oldest content for an empty log file. -/
theorem Fits.contents_reopen (h : conf.Fits) (hnum : 1 ≤ conf.maxFileNum.toNat)
    (files : Files FilePath Byte) :
    conf.contents (execute files conf.reopenCalls) = (conf.contents files).tail ++ [[]] := by
  obtain ⟨hfirst, hshift⟩ := h.renameCalls_shift hnum files
  have hreopen : execute files conf.reopenCalls =
      Function.update (execute files conf.renameCalls) conf.filePath (some []) := by
    rw [reopenCalls, execute_append, execute_cons, execute_nil, apply, hfirst]
    rfl
  rw [contents_eq, tail_contents, hreopen, Function.update_self]
  congr 1
  apply List.map_congr_left
  intro i hi
  have hi : i < conf.maxFileNum.toNat := by simpa using hi
  rw [Function.update_of_ne (h.link_succ_ne hi), hshift i hi]

/-- A write adds to the last content. -/
theorem Fits.contents_append (h : conf.Fits) {files : Files FilePath Byte}
    (hfile : (files conf.filePath).isSome) (bytes : List Byte) :
    conf.contents (apply files (.append conf.filePath bytes)) =
      addLast (conf.contents files) bytes := by
  obtain ⟨content, hcontent⟩ := Option.isSome_iff_exists.mp hfile
  have happend : apply files (.append conf.filePath bytes) =
      Function.update files conf.filePath (some (content ++ bytes)) := by
    rw [apply, hcontent, Option.map_some]
  rw [contents_eq, contents_eq, addLast_concat, happend, Function.update_self, hcontent]
  congr 1
  apply List.map_congr_left
  intro i hi
  have hi : i < conf.maxFileNum.toNat := by simpa using hi
  rw [Function.update_of_ne (h.link_succ_ne hi)]

/-- Opening the log file does not change what is there. -/
theorem contents_create (conf : LogConfig) (files : Files FilePath Byte) :
    conf.contents (apply files (.create conf.filePath)) = conf.contents files := by
  apply List.map_congr_left
  intro i hi
  by_cases hname : conf.link i = conf.filePath
  · simp [apply, hname]
  · rw [apply_of_not_touched (by simpa [Op.touched] using hname)]

end LogConfig

namespace LogFile

/-- The log file as a log that rolls over: it holds what is left of `old` and of the
lines written, each of them whole in one file. -/
structure Rolls (conf : LogConfig) (old lines : List (List Byte)) (rolled : Nat) (s : LogFile) :
    Prop where
  conf_eq : s.conf = conf
  present : (s.files conf.filePath).isSome
  kept : ∃ groups : List (List (List Byte)), groups ≠ [] ∧ groups.flatten = lines ∧
    Kept old (conf.contents s.files) (groups.map List.flatten) rolled

variable {conf : LogConfig} {old lines : List (List Byte)} {rolled : Nat} {s : LogFile}

theorem start_rolls {files : Files FilePath Byte} {opens : Bool}
    (h : start conf files opens = some s) : s.Rolls conf (conf.contents files) [] 0 := by
  rw [start_eq_some h]
  refine ⟨rfl, by simp [apply], [[]], by simp, rfl, ?_⟩
  rw [LogConfig.contents_create]
  exact Kept.start (conf.contents_ne_nil files)

theorem Rolls.append (h : s.Rolls conf old lines rolled) (hfits : conf.Fits) (hold : old ≠ [])
    (data : LogLine) :
    (s.append data).Rolls conf old (lines ++ [data.buf.take data.len.toNat]) rolled := by
  have hconf := h.conf_eq
  subst hconf
  obtain ⟨groups, hne, hlines, hkept⟩ := h.kept
  refine ⟨rfl, ?_, addLast groups [data.buf.take data.len.toNat], addLast_ne_nil _ _, ?_, ?_⟩
  · rw [append_filePath]
    exact h.present
  · rw [flatten_addLast, hlines]
  · rw [map_flatten_addLast hne, LogFile.append, appendCall, hfits.contents_append h.present]
    exact hkept.add hold _

theorem Rolls.reopen (h : s.Rolls conf old lines rolled) (hfits : conf.Fits)
    (hnum : 1 ≤ conf.maxFileNum.toNat) (hold : old ≠ []) :
    s.reopen.Rolls conf old lines (rolled + 1) := by
  have hconf := h.conf_eq
  subst hconf
  obtain ⟨groups, hne, hlines, hkept⟩ := h.kept
  refine ⟨rfl, ?_, groups ++ [[]], by simp, by simp [hlines], ?_⟩
  · rw [LogFile.reopen, LogConfig.reopenCalls, execute_append]
    simp [apply]
  · rw [LogFile.reopen, hfits.contents_reopen hnum, List.map_append]
    exact hkept.roll hold

end LogFile

end XfUtil
