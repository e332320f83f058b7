import XfUtil.Logger.Contents

/-!
# The chain of backups

`Rename` removes the last backup, moves the others on by one, the last of them first, and
makes the log file the first. With names that are not cut, that is one chain of renames with
the log file as its first link, and it does not matter which of the links are there.
-/

namespace XfUtil

open FlatMemory FileMap

namespace LogConfig

/-- The name of a backup in full. -/
def numbered (conf : LogConfig) (i : Nat) : FilePath :=
  conf.filePath ++ FilePath.dot :: Format.decimal i

/-- The highest number that there can be leaves room for the terminator. -/
def Short (conf : LogConfig) : Prop := (conf.numbered 65535).length < maxPathLen

/-- Every file of the chain has moved on by one, and no other file has changed. -/
structure Shifted (conf : LogConfig) (before after : Files FilePath Byte) : Prop where
  base_absent : after conf.filePath = none
  first : after (conf.numbered 1) = before conf.filePath
  next : ∀ i, 1 ≤ i → i < conf.maxFileNum.toNat →
    after (conf.numbered (i + 1)) = before (conf.numbered i)
  other : ∀ n, n ≠ conf.filePath →
    (∀ i, 1 ≤ i → i ≤ conf.maxFileNum.toNat → n ≠ conf.numbered i) → after n = before n

variable {conf : LogConfig}

theorem Short.fits (h : conf.Short) : conf.Fits := by
  intro i hi
  have hmax : conf.maxFileNum.toNat ≤ 65535 := Nat.le_of_lt_succ conf.maxFileNum.isLt
  have hlen := Format.length_decimal_le (n := i) (k := 5) (by decide) (by omega)
  have hfive : (Format.decimal 65535).length = 5 := by decide
  unfold Short at h
  rw [numbered, List.length_append, List.length_cons] at h
  rw [List.length_append, List.length_cons]
  omega

theorem Fits.link_succ (h : conf.Fits) {i : Nat} (hi : i + 1 ≤ conf.maxFileNum.toNat) :
    conf.link (i + 1) = conf.numbered (i + 1) :=
  h.backup_eq hi

section

variable (hfits : conf.Fits) (hnum : 1 ≤ conf.maxFileNum.toNat)

include hfits hnum

theorem shifted_renameCalls (files : Files FilePath Byte) :
    conf.Shifted files (execute files conf.renameCalls) := by
  obtain ⟨hfirst, hshift⟩ := hfits.renameCalls_shift hnum files
  refine ⟨hfirst, ?_, fun i hi hlt => ?_, fun m hbase hnumbered => ?_⟩
  · have hone := hshift 0 hnum
    rwa [hfits.link_succ hnum] at hone
  · obtain ⟨k, rfl⟩ := Nat.exists_eq_add_of_le' hi
    have hmoved := hshift (k + 1) hlt
    rwa [hfits.link_succ hlt, hfits.link_succ hlt.le] at hmoved
  · have hne : ∀ i ≤ conf.maxFileNum.toNat, m ≠ conf.link i := by
      intro i hi
      cases i with
      | zero => exact hbase
      | succ i =>
          rw [hfits.link_succ hi]
          exact hnumbered (i + 1) (Nat.le_add_left 1 i) hi
    rw [renameCalls_eq hnum, execute_cons, renameChain_other hne]
    exact Function.update_of_ne (hne _ le_rfl) ..

/-- What the last backup held is in no file any more. -/
theorem renameCalls_forget (files : Files FilePath Byte) (content : Option (List Byte)) :
    execute (Function.update files (conf.numbered conf.maxFileNum.toNat) content)
        conf.renameCalls = execute files conf.renameCalls := by
  obtain ⟨n, hn⟩ := Nat.exists_eq_add_of_le' hnum
  have hlast : conf.link conf.maxFileNum.toNat = conf.numbered conf.maxFileNum.toNat := by
    rw [hn]
    exact hfits.link_succ hn.ge
  rw [renameCalls_eq hnum, execute_cons, execute_cons, hlast, apply, apply, Function.update_idem]

end

end LogConfig

namespace LogFile

/-- `Rename` moves every file of the chain on by one, whichever of them are there; the last
backup is gone. -/
theorem rename_shifts {s : LogFile} (hnum : 1 ≤ s.conf.maxFileNum.toNat)
    (hshort : s.conf.Short) :
    s.conf.Shifted s.files s.rename.files ∧
      ∀ content, execute (Function.update s.files (s.conf.numbered s.conf.maxFileNum.toNat) content)
        s.conf.renameCalls = s.rename.files :=
  ⟨LogConfig.shifted_renameCalls hshort.fits hnum s.files,
    LogConfig.renameCalls_forget hshort.fits hnum s.files⟩

/-- `x.log` with three backups at most, of which the first and the last are there. -/
def withGap : LogFile where
  conf := smallLog 3#16
  files := Function.update (Function.update (started (smallLog 3#16)).files
    ((smallLog 3#16).numbered 1) (some [0x61#8])) ((smallLog 3#16).numbered 3) (some [0x62#8])
  filesize := 0#64

theorem rename_shifts_withGap :
    withGap.conf.Shifted withGap.files withGap.rename.files ∧
      ∀ content, execute (Function.update withGap.files
        (withGap.conf.numbered withGap.conf.maxFileNum.toNat) content)
        withGap.conf.renameCalls = withGap.rename.files :=
  rename_shifts (by decide) (by unfold LogConfig.Short; decide)

end LogFile

end XfUtil
