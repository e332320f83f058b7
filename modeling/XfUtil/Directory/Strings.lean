import XfUtil.Directory.Descents

/-!
# The strings that `Directory::Remove` makes

Every string that a system call gets is the path itself or a full path that is cut to
`MAX_PATH_LEN - 1` characters. Cut in front of its end, it names at most what a shorter full
path names.
-/

namespace XfUtil.Directory

open FilePath FileTree

variable {ι : Type*} {fs : FileSystem ι} {path p : FilePath}

/-- The path, or a full path as it comes out of `CombineEx`. -/
def Formed (path p : FilePath) : Prop :=
  p = path ∨ ∃ names n, (∀ m ∈ names ++ [n], Proper m) ∧
    p = Format.stored maxPathLen (fullPath path (names ++ [n]))

theorem exists_joined_eq (path name : FilePath) : ∃ rest, joined path name = path ++ rest := by
  unfold joined
  split
  · exact ⟨name, rfl⟩
  · exact ⟨slash :: name, rfl⟩

theorem exists_fullPath_eq (path : FilePath) (names : List FilePath) :
    ∃ rest, fullPath path names = path ++ rest := by
  induction names using List.reverseRecOn with
  | nil => exact ⟨[], (List.append_nil path).symm⟩
  | append_singleton names n ih =>
      obtain ⟨rest, hrest⟩ := ih
      obtain ⟨more, hmore⟩ := exists_joined_eq (fullPath path names) n
      exact ⟨rest ++ more, by rw [fullPath_concat, hmore, hrest, List.append_assoc]⟩

theorem stored_of_le {text : FilePath} (h : maxPathLen - 1 ≤ text.length) (rest : FilePath) :
    Format.stored maxPathLen (text ++ rest) = Format.stored maxPathLen text :=
  List.take_append_of_le_length h

/-- What is put together from a formed string is formed. -/
theorem Formed.combineEx (h : Formed path p) {n : FilePath} (hn : Proper n) :
    Formed path (combineEx maxPathLen p n) := by
  rw [combineEx_eq]
  rcases h with rfl | ⟨names, m, hnames, rfl⟩
  · exact Or.inr ⟨[], n, by simpa using hn, rfl⟩
  · by_cases hlen : (fullPath path (names ++ [m])).length < maxPathLen
    · rw [Format.stored_of_lt hlen, ← fullPath_concat]
      refine Or.inr ⟨names ++ [m], n, ?_, rfl⟩
      intro x hx
      rcases List.mem_append.mp hx with hx | hx
      · exact hnames x hx
      · exact List.mem_singleton.mp hx ▸ hn
    · obtain ⟨rest, hrest⟩ :=
        exists_joined_eq (Format.stored maxPathLen (fullPath path (names ++ [m]))) n
      have hfull : (Format.stored maxPathLen (fullPath path (names ++ [m]))).length =
          maxPathLen - 1 := by
        rw [Format.length_stored]
        omega
      rw [hrest, Format.stored_append_of_eq hfull]
      exact Or.inr ⟨names, m, hnames, rfl⟩

/-! ## Where a full path is cut -/

theorem take_joined {path : FilePath} {k : Nat} (hlen : path.length < k) (name : FilePath) :
    ∃ j, (joined path name).take k = joined path (name.take j) := by
  unfold joined
  split
  · refine ⟨k - path.length, ?_⟩
    rw [List.take_append, List.take_of_length_le hlen.le]
  · obtain ⟨j, hj⟩ : ∃ j, k - path.length = j + 1 := ⟨k - path.length - 1, by omega⟩
    refine ⟨j, ?_⟩
    rw [List.take_append, List.take_of_length_le hlen.le, hj, List.take_succ_cons]

/-- The cut goes through the last name, or through an earlier one. -/
theorem exists_cut (hlen : path.length < maxPathLen - 1) {names : List FilePath}
    (hnames : ∀ m ∈ names, Proper m) (hne : names ≠ []) :
    ∃ xs y, (∀ x ∈ xs, Proper x) ∧ slash ∉ y ∧
      Format.stored maxPathLen (fullPath path names) = joined (fullPath path xs) y := by
  induction names using List.reverseRecOn with
  | nil => exact absurd rfl hne
  | append_singleton names n ih =>
      have hfront : ∀ m ∈ names, Proper m := fun m hm => hnames m (List.mem_append_left _ hm)
      rw [fullPath_concat]
      by_cases hshort : (fullPath path names).length < maxPathLen - 1
      · obtain ⟨j, hj⟩ := take_joined hshort n
        refine ⟨names, n.take j, hfront, fun hmem => ?_, hj⟩
        exact (hnames n (by simp)).no_slash (List.mem_of_mem_take hmem)
      · have hsome : names ≠ [] := by
          rintro rfl
          exact hshort hlen
        obtain ⟨rest, hrest⟩ := exists_joined_eq (fullPath path names) n
        rw [hrest, stored_of_le (Nat.not_lt.mp hshort)]
        exact ih hfront hsome

/-! ## What a formed string names -/

theorem named_congr {q : FilePath} (h : steps p = steps q) : fs.named p = fs.named q := by
  unfold FileSystem.named FileSystem.follow
  rw [h]

theorem comps_of_no_slash {y : FilePath} (hy : slash ∉ y) :
    (steps y).comps = if y = [] then [] else [component y] := by
  simp only [steps]
  rw [pieces_of_no_slash hy]
  split
  · rename_i hnil
    simp [hnil]
  · rename_i hsome
    simp [hsome]

/-- The names of a full path that fits, or only those of the path. -/
theorem Formed.exists_names (h : Formed path p) (hpath : path ≠ [])
    (hlen : path.length < maxPathLen - 1) {e : DirEntry ι} (hnamed : fs.named p = some e) :
    fs.named path = some e ∨ ∃ xs n, (∀ x ∈ xs ++ [n], Proper x) ∧
      (fullPath path (xs ++ [n])).length < maxPathLen ∧
        fs.named (fullPath path (xs ++ [n])) = some e := by
  rcases h with rfl | ⟨names, n, hnames, rfl⟩
  · exact Or.inl hnamed
  · obtain ⟨xs, y, hxs, hy, heq⟩ := exists_cut hlen hnames (by simp)
    have hstored := Format.length_stored maxPathLen (fullPath path (names ++ [n]))
    rw [heq] at hnamed hstored
    have hfits : (joined (fullPath path xs) y).length < maxPathLen := by
      have hpos : 0 < maxPathLen := by decide
      omega
    have hsteps := steps_joined_append (fullPath_ne_nil hpath xs) y
    rw [comps_of_no_slash hy] at hsteps
    by_cases hnil : y = []
    · -- The string ends with a slash.
      rw [if_pos hnil, List.append_nil] at hsteps
      rw [named_congr hsteps] at hnamed
      rcases List.eq_nil_or_concat' xs with rfl | ⟨xs, x, rfl⟩
      · exact Or.inl hnamed
      · refine Or.inr ⟨xs, x, hxs, ?_, hnamed⟩
        exact Nat.lt_of_le_of_lt (length_le_joined _ y) hfits
    · rw [if_neg hnil] at hsteps
      have hlast := (named_eq_some.mp hnamed).1
      rw [hsteps, List.getLast?_concat, Option.some.injEq] at hlast
      have hproper : Proper y := by
        refine ⟨hnil, ?_, ?_, hy⟩
        · rintro rfl
          cases hlast
        · rintro rfl
          cases hlast
      rw [← fullPath_concat] at hfits hnamed
      refine Or.inr ⟨xs, y, ?_, hfits, hnamed⟩
      intro x hx
      rcases List.mem_append.mp hx with hx | hx
      · exact hxs x hx
      · exact List.mem_singleton.mp hx ▸ hproper

end XfUtil.Directory
