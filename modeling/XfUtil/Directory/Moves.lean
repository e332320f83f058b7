import XfUtil.Directory.Descents

/-!
# The steps of `Directory::Remove`, taken apart

One case for each way in which the body of the loop may end, and one for the end of the loop.
-/

namespace XfUtil.Directory.Removal

open FilePath FileTree

variable {ι : Type*} [DecidableEq ι]

omit [DecidableEq ι] in
/-- `readdir` has returned the name. -/
def took (s : Removal ι) (frame : Frame ι) (rest : List (Frame ι)) (n : FilePath) : Removal ι :=
  { s with stack := { frame with names := frame.names.erase n } :: rest }

theorem drop_stack (s : Removal ι) (gone : Option (DirEntry ι)) :
    (s.drop gone).stack = s.stack := by
  cases gone <;> rfl

/-- What a step does. -/
inductive Moves (s : Removal ι) : Label → Removal ι → Prop
  | skip {frame : Frame ι} {rest : List (Frame ι)} {n : FilePath}
      (hstack : s.stack = frame :: rest) (hmem : n ∈ frame.names)
      (hdots : n = [dot] ∨ n = [dot, dot]) : Moves s (.entry n) (s.took frame rest n)
  | fail {frame : Frame ι} {rest : List (Frame ι)} {n : FilePath}
      (hstack : s.stack = frame :: rest) (hmem : n ∈ frame.names)
      (hdots : ¬ (n = [dot] ∨ n = [dot, dot]))
      (hstat : s.fs.stat (combineEx maxPathLen frame.path n) = none) :
      Moves s (.entry n) ({ s with stack := rest }.leave frame.path false)
  | enter {frame : Frame ι} {rest : List (Frame ι)} {n : FilePath} {c : ι}
      {entries : List (FilePath × ι)} (hstack : s.stack = frame :: rest) (hmem : n ∈ frame.names)
      (hdots : ¬ (n = [dot] ∨ n = [dot, dot]))
      (hstat : s.fs.stat (combineEx maxPathLen frame.path n) = some c)
      (hnode : s.fs.tree.node c = .dir entries) :
      Moves s (.entry n)
        { s with
          stack := ⟨combineEx maxPathLen frame.path n, c,
            [dot] :: [dot, dot] :: entries.map Prod.fst⟩ :: (s.took frame rest n).stack }
  | unlink {frame : Frame ι} {rest : List (Frame ι)} {n : FilePath} {c : ι}
      (hstack : s.stack = frame :: rest) (hmem : n ∈ frame.names)
      (hdots : ¬ (n = [dot] ∨ n = [dot, dot]))
      (hstat : s.fs.stat (combineEx maxPathLen frame.path n) = some c)
      (hfile : ¬ s.fs.tree.IsDir c) :
      Moves s (.entry n)
        ((s.took frame rest n).drop (s.fs.unlink (combineEx maxPathLen frame.path n)))
  | finish {frame : Frame ι} {rest : List (Frame ι)} (hstack : s.stack = frame :: rest)
      (hall : ∀ n ∈ frame.names, s.fs.tree.entry frame.dir n = none) :
      Moves s .finish ({ s.drop (s.fs.rmdir frame.path) with stack := rest }.leave frame.path true)

variable {s t : Removal ι} {l : Label}

theorem moves_of_step (h : step s l = some t) : Moves s l t := by
  cases l with
  | entry n =>
      simp only [step, stepEntry] at h
      split at h
      · cases h
      · rename_i frame rest hstack
        split at h
        · rename_i hmem
          cases h
          unfold visit
          split
          · rename_i hdots
            exact .skip hstack hmem hdots
          · rename_i hdots
            dsimp only
            split
            · rename_i hstat
              exact .fail hstack hmem hdots hstat
            · rename_i c hstat
              split
              · rename_i entries hnode
                have hopen := opendir_eq_some.mpr ⟨hstat, entries, hnode, rfl⟩
                simp only [enter, hopen]
                exact .enter hstack hmem hdots hstat hnode
              · rename_i hnode
                exact .unlink hstack hmem hdots hstat fun hdir => hdir.elim hnode
        · cases h
  | finish =>
      simp only [step, stepFinish] at h
      split at h
      · cases h
      · rename_i frame rest hstack
        split at h
        · rename_i hall
          cases h
          exact .finish hstack (by simpa using hall)
        · cases h

omit [DecidableEq ι] in
/-- What `readdir` returns is one of the dots or the name of an entry. -/
theorem dots_or_proper {entries : List (FilePath × ι)} (hproper : ∀ e ∈ entries, Proper e.1)
    {n : FilePath} (hn : n ∈ [dot] :: [dot, dot] :: entries.map Prod.fst) :
    n = [dot] ∨ n = [dot, dot] ∨ Proper n := by
  simp only [List.mem_cons, List.mem_map] at hn
  obtain rfl | rfl | ⟨e, he, rfl⟩ := hn
  · exact .inl rfl
  · exact .inr (.inl rfl)
  · exact .inr (.inr (hproper e he))

theorem step_eq_none (h : s.stack = []) : step s l = none := by
  cases l <;> simp [step, stepEntry, stepFinish, h]

/-- As long as `Remove` runs it can go on. -/
theorem exists_step (h : s.stack ≠ []) : ∃ l t, step s l = some t := by
  obtain ⟨⟨path, dir, names⟩, rest, hstack⟩ := List.exists_cons_of_ne_nil h
  cases names with
  | nil => exact ⟨.finish, _, by simp only [step, stepFinish, hstack]; exact if_pos rfl⟩
  | cons n names =>
      exact ⟨.entry n, _, by
        simp only [step, stepEntry, hstack]
        exact if_pos List.mem_cons_self⟩

end XfUtil.Directory.Removal
