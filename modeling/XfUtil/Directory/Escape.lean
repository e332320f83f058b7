import XfUtil.Directory.Confinement

/-!
# When `Directory::Remove` stays inside

Where entries lead to a directory, `Remove` gets there before it removes anything: the
names are taken in the order in which they stand in the path. Then the next entry is
removed, unless it leads to a directory that is not empty.
-/

namespace XfUtil.Directory

open FilePath FileTree

variable {ι : Type*} [DecidableEq ι] {fs : FileSystem ι} {path : FilePath} {names : List FilePath}
  {d r : ι} {limit : Nat}

namespace Removal

variable {s : Removal ι}

/-! ## Single steps -/

theorem enter_dir {p : FilePath} {entries : List (FilePath × ι)} (hstat : s.fs.stat p = some d)
    (hnode : s.fs.tree.node d = .dir entries) :
    s.enter p =
      { s with stack := ⟨p, d, [dot] :: [dot, dot] :: entries.map Prod.fst⟩ :: s.stack } := by
  have hopen := opendir_eq_some.mpr ⟨hstat, entries, hnode, rfl⟩
  simp [enter, hopen]

theorem visit_dir {frame : Frame ι} {rest : List (Frame ι)} {n : FilePath} (hn : Proper n)
    (hlen : (joined frame.path n).length < maxPathLen)
    (hstat : s.fs.stat (joined frame.path n) = some d) (hdir : s.fs.tree.IsDir d) :
    s.visit frame rest n = s.enter (joined frame.path n) := by
  obtain ⟨entries, hnode⟩ := hdir
  simp [visit, hn.ne_dot, hn.ne_dotdot, combineEx_of_lt hlen, hstat, hnode]

theorem visit_other {frame : Frame ι} {rest : List (Frame ι)} {n : FilePath} (hn : Proper n)
    (hlen : (joined frame.path n).length < maxPathLen)
    (hstat : s.fs.stat (joined frame.path n) = some d) (hdir : ¬ s.fs.tree.IsDir d) :
    s.visit frame rest n = s.drop (s.fs.unlink (joined frame.path n)) := by
  simp only [visit, hn.ne_dot, hn.ne_dotdot, or_self, if_false, combineEx_of_lt hlen, hstat]
  split
  · rename_i entries hnode
    exact absurd ⟨entries, hnode⟩ hdir
  · rfl

theorem step_entry {frame : Frame ι} {rest : List (Frame ι)} {n : FilePath}
    (hstack : s.stack = frame :: rest) (hmem : n ∈ frame.names) :
    step s (.entry n) =
      some (visit { s with stack := { frame with names := frame.names.erase n } :: rest }
        { frame with names := frame.names.erase n } rest n) := by
  simp [step, stepEntry, hstack, hmem]

theorem step_finish {frame : Frame ι} {rest : List (Frame ι)} (hstack : s.stack = frame :: rest)
    (hempty : s.fs.tree.node frame.dir = .dir []) :
    step s .finish =
      some ({ s.drop (s.fs.rmdir frame.path) with stack := rest }.leave frame.path true) := by
  have hnone : ∀ n, s.fs.tree.entry frame.dir n = none := by simp [FileTree.entry, hempty]
  simp [step, stepFinish, hstack, hnone]

theorem mem_drop {e : DirEntry ι} (h : e ∈ s.removed) (gone : Option (DirEntry ι)) :
    e ∈ (s.drop gone).removed := by
  cases gone with
  | none => exact h
  | some e' => exact List.mem_append_left _ h

theorem mem_leave {e : DirEntry ι} (h : e ∈ s.removed) (p : FilePath) (result : Bool) :
    e ∈ (s.leave p result).removed := by
  unfold leave
  split
  · exact h
  · exact mem_drop h _

/-! ## The way to a directory -/

/-- `Remove` is in the loop for `d`, and nothing has been removed. -/
structure ArrivedAt (fs : FileSystem ι) (p : FilePath) (d : ι) (s : Removal ι) : Prop where
  fs_eq : s.fs = fs
  removed : s.removed = []
  stack : ∃ entries rest, fs.tree.node d = .dir entries ∧
    s.stack = ⟨p, d, [dot] :: [dot, dot] :: entries.map Prod.fst⟩ :: rest

/-- The entry of `d` comes next. -/
theorem ArrivedAt.step_entry {p : FilePath} (h : s.ArrivedAt fs p d) {n : FilePath} {c : ι}
    (hentry : fs.tree.entry d n = some c) :
    ∃ (t : Removal ι) (found : List FilePath) (rest : List (Frame ι)),
      step s (.entry n) = some (t.visit ⟨p, d, found⟩ rest n) ∧ t.fs = fs ∧ t.removed = [] ∧
        t.stack = ⟨p, d, found⟩ :: rest := by
  obtain ⟨entries, rest, hnode, hstack⟩ := h.stack
  have hmem : n ∈ [dot] :: [dot, dot] :: entries.map Prod.fst := by
    have hname := List.mem_map_of_mem (f := Prod.fst) (mem_of_entry hnode hentry)
    simp only [List.mem_cons]
    exact .inr (.inr hname)
  exact ⟨_, _, _, Removal.step_entry hstack hmem, h.fs_eq, h.removed, rfl⟩

theorem arrivedAt_enter {p : FilePath} (hstat : s.fs.stat p = some d) (hdir : s.fs.tree.IsDir d)
    (hremoved : s.removed = []) : (s.enter p).ArrivedAt s.fs p d := by
  obtain ⟨entries, hnode⟩ := hdir
  rw [enter_dir hstat hnode]
  exact ⟨rfl, hremoved, entries, s.stack, hnode, rfl⟩

omit [DecidableEq ι] in
/-- In the loop for `d`, the next full path fits. -/
theorem ArrivedAt.fits {p : FilePath} (h : s.ArrivedAt fs p d) {n : FilePath}
    (hlen : (joined p n).length < maxPathLen) : s.Fits (.entry n) := by
  obtain ⟨entries, rest, -, hstack⟩ := h.stack
  intro frame hframe _ _
  rw [hstack, List.head?_cons, Option.mem_some_iff] at hframe
  exact hframe ▸ hlen

/-- Where entries lead to a directory, a run gets there. -/
theorem exists_arrivedAt (hfs : WellFormed fs) (hr : fs.stat path = some r)
    (hreach : Reaches fs path names d limit)
    (hlen : names = [] ∨ (fullPath path names).length < maxPathLen) (hdir : fs.tree.IsDir d) :
    ∃ s, Machine.StepsMeet step Fits (call fs path) (names.map .entry) ∧
      Machine.run step (call fs path) (names.map .entry) = some s ∧
        s.ArrivedAt fs (fullPath path names) d := by
  have hpath := ne_nil_of_stat hr
  induction names using List.reverseRecOn generalizing d limit with
  | nil =>
      obtain rfl := reaches_nil hr hreach
      have harrived := arrivedAt_enter (s := ⟨fs, [], none, []⟩) hr hdir rfl
      exact ⟨call fs path, .nil step Fits _, rfl, harrived⟩
  | append_singleton names n ih =>
      obtain ⟨c, k, hc, hwalk⟩ := reaches_concat.mp hreach
      have hstat := stat_joined hfs hpath hc hwalk
      have hfits := hlen.resolve_left (by simp)
      rw [fullPath_concat] at hfits
      obtain ⟨e, hentry⟩ := entry_of_walk_name hwalk
      have hshort := Nat.lt_of_le_of_lt (length_le_joined (fullPath path names) n) hfits
      obtain ⟨s, hmeet, hrun, harrived⟩ := ih hc (.inr hshort) (isDir_of_entry hentry)
      obtain ⟨t, found, rest, hstep, rfl, hremoved, -⟩ := harrived.step_entry hentry
      rw [visit_dir (hfs.proper_of_entry hentry) hfits hstat hdir] at hstep
      refine ⟨t.enter (joined (fullPath path names) n), ?_, ?_, ?_⟩
      · rw [List.map_append]
        refine Machine.stepsMeet_snoc.mpr ⟨hmeet, fun u hu => ?_⟩
        obtain rfl := Option.some.inj (hrun.symm.trans hu)
        exact harrived.fits hfits
      · rw [List.map_append, List.map_singleton, Machine.run_snoc, hrun]
        exact hstep
      · rw [fullPath_concat]
        exact arrivedAt_enter hstat hdir hremoved

/-! ## Removing what is there -/

section Remove

variable {n : FilePath} {c : ι} (hfs : WellFormed fs) (hpath : path ≠ [])
  (hreach : Reaches fs path names d limit) (harrived : s.ArrivedAt fs (fullPath path names) d)
  (hlen : (joined (fullPath path names) n).length < maxPathLen)
  (hentry : fs.tree.entry d n = some c)

include hfs hpath hreach harrived hlen hentry

theorem exists_step_unlink {x : ι} {k : Nat}
    (hwalk : fs.tree.walk limit d [.name n] = some (x, k)) (hx : ¬ fs.tree.IsDir x)
    (hc : ¬ fs.tree.IsDir c) : ∃ t, step s (.entry n) = some t ∧ ⟨d, n, c⟩ ∈ t.removed := by
  have hstat := stat_joined hfs hpath hreach hwalk
  have hunlink := unlink_eq_some.mpr ⟨named_joined hfs hpath hreach hentry, hc⟩
  obtain ⟨t, found, rest, hstep, rfl, -, -⟩ := harrived.step_entry hentry
  rw [visit_other (hfs.proper_of_entry hentry) hlen hstat hx, hunlink] at hstep
  exact ⟨_, hstep, by simp [drop]⟩

theorem exists_steps_rmdir (hc : fs.tree.node c = .dir []) :
    ∃ t u, step s (.entry n) = some t ∧ step t .finish = some u ∧ ⟨d, n, c⟩ ∈ u.removed := by
  have hwalk := walk_entry limit hentry (by simp [hc])
  have hstat := stat_joined hfs hpath hreach hwalk
  have hrmdir := rmdir_eq_some.mpr ⟨named_joined hfs hpath hreach hentry, hc⟩
  obtain ⟨t, found, rest, hstep, rfl, -, -⟩ := harrived.step_entry hentry
  rw [visit_dir (hfs.proper_of_entry hentry) hlen hstat ⟨[], hc⟩, enter_dir hstat hc] at hstep
  refine ⟨_, _, hstep, step_finish rfl hc, mem_leave ?_ _ true⟩
  simp only
  rw [hrmdir]
  simp [drop]

end Remove

/-- What can be removed outside is removed by some run. -/
theorem exists_removed_outside (hfs : WellFormed fs) (hr : fs.stat path = some r)
    (hrdir : fs.tree.IsDir r) (hout : LeadsOutside fs path r) :
    ∃ ls s, Machine.StepsMeet step Fits (call fs path) ls ∧
      Machine.run step (call fs path) ls = some s ∧ ∃ e ∈ s.removed, ¬ Inside fs r e := by
  obtain ⟨names, n, d, limit, hlen, hreach, hwithin, hdel⟩ := hout
  have hpath := ne_nil_of_stat hr
  rw [fullPath_concat] at hlen
  have hshort := Nat.lt_of_le_of_lt (length_le_joined (fullPath path names) n) hlen
  obtain ⟨s, hmeet, hrun, harrived⟩ := exists_arrivedAt hfs hr hreach (.inr hshort) hdel.isDir
  have hmeet' : Machine.StepsMeet step Fits (call fs path) (names.map .entry ++ [.entry n]) := by
    refine Machine.stepsMeet_snoc.mpr ⟨hmeet, fun u hu => ?_⟩
    obtain rfl := Option.some.inj (hrun.symm.trans hu)
    exact harrived.fits hlen
  rcases hdel with ⟨x, k, hwalk, hx⟩ | ⟨c, hentry, hc⟩
  · obtain ⟨c, hentry⟩ := entry_of_walk_name hwalk
    have hc : ¬ fs.tree.IsDir c := by
      rintro ⟨entries, hnode⟩
      have hend := hwalk.symm.trans (walk_entry limit hentry (by simp [hnode]))
      obtain rfl : x = c := congrArg Prod.fst (Option.some.inj hend)
      exact hx ⟨entries, hnode⟩
    obtain ⟨t, hstep, hmem⟩ :=
      exists_step_unlink hfs hpath hreach harrived hlen hentry hwalk hx hc
    refine ⟨_, t, hmeet', ?_, _, hmem, ?_⟩
    · rw [Machine.run_snoc, hrun]
      exact hstep
    · rintro (hin | rfl)
      · exact hwithin hin
      · exact hc hrdir
  · obtain ⟨t, u, hstep, hfinish, hmem⟩ :=
      exists_steps_rmdir hfs hpath hreach harrived hlen hentry hc
    have hlast : Machine.StepsMeet step Fits (call fs path)
        ((names.map .entry ++ [.entry n]) ++ [.finish]) :=
      Machine.stepsMeet_snoc.mpr ⟨hmeet', fun _ _ => trivial⟩
    refine ⟨_, u, hlast, ?_, _, hmem, ?_⟩
    · rw [Machine.run_snoc, Machine.run_snoc, hrun, Option.bind_some, hstep]
      exact hfinish
    · rintro (hin | rfl)
      · exact hwithin hin
      · have hroot := fun c k (h : Reaches fs path [] c k) => reaches_nil hr h
        exact hwithin (eq_of_reaches_of_empty hroot hc hreach ▸ .root)

end Removal

/-! ## Confinement -/

/-- `Remove` removes nothing outside of the tree that it was given, whatever order
`readdir` has, exactly if no path of entries leads to a directory outside that holds
something to delete. -/
theorem remove_confined_iff (hfs : WellFormed fs) (hr : fs.stat path = some r)
    (hdir : fs.tree.IsDir r) :
    (∀ ls s, Machine.StepsMeet Removal.step Removal.Fits (Removal.call fs path) ls →
      Machine.run Removal.step (Removal.call fs path) ls = some s →
        ∀ e ∈ s.removed, Inside fs r e) ↔ ¬ LeadsOutside fs path r := by
  constructor
  · intro hconfined hout
    obtain ⟨ls, s, hmeet, hrun, e, he, hinside⟩ :=
      Removal.exists_removed_outside hfs hr hdir hout
    exact hinside (hconfined ls s hmeet hrun e he)
  · intro hout ls s hmeet hrun
    exact Removal.inside_of_run hfs hr hdir hout hmeet hrun

/-- `/d` with a link `/d/l` to `/e`, and a file `/e/f`. -/
def linkedOut : FileSystem Nat where
  tree :=
    { node := fun
        | 0 => .dir [([0x64#8], 1), ([0x65#8], 2)]
        | 1 => .dir [([0x6C#8], 3)]
        | 2 => .dir [([0x66#8], 4)]
        | 3 => .link (steps [slash, 0x65#8])
        | _ => .file
      parent := fun _ => 0
      root := 0 }
  cwd := 0
  symloopMax := 40

theorem linkedOut_dir {d : Nat} {entries : List (FilePath × Nat)}
    (h : linkedOut.tree.node d = .dir entries) :
    d = 0 ∧ entries = [([0x64#8], 1), ([0x65#8], 2)] ∨ d = 1 ∧ entries = [([0x6C#8], 3)] ∨
      d = 2 ∧ entries = [([0x66#8], 4)] := by
  rcases d with _ | _ | _ | _ | d <;> cases h <;> simp

theorem linkedOut_entry {d c : Nat} {n : FilePath} (h : linkedOut.tree.entry d n = some c) :
    d = 0 ∧ (c = 1 ∨ c = 2) ∨ d = 1 ∧ c = 3 ∨ d = 2 ∧ c = 4 := by
  obtain ⟨entries, hnode⟩ := isDir_of_entry h
  have hmem := mem_of_entry hnode h
  obtain ⟨rfl, rfl⟩ | ⟨rfl, rfl⟩ | ⟨rfl, rfl⟩ := linkedOut_dir hnode <;> simp at hmem <;> omega

theorem linkedOut_wellFormed : WellFormed linkedOut := by
  constructor
  · intro d entries hnode e he
    have hname : e.1 ∈ [[0x64#8], [0x65#8], [0x6C#8], [0x66#8]] := by
      obtain ⟨-, rfl⟩ | ⟨-, rfl⟩ | ⟨-, rfl⟩ := linkedOut_dir hnode <;> simp at he ⊢ <;> grind
    generalize e.1 = n at hname
    simp only [List.mem_cons, List.not_mem_nil, or_false] at hname
    rcases hname with rfl | rfl | rfl | rfl <;> constructor <;> decide
  · intro d n d' n' c h h' ⟨entries, hdir⟩
    have hc := linkedOut_dir hdir
    have hd := linkedOut_entry h
    have hd' := linkedOut_entry h'
    omega

theorem linkedOut_within {c : Nat} (h : linkedOut.tree.Within 1 c) : c = 1 := by
  induction h with
  | root => rfl
  | entry hd hc hdir ih =>
      obtain ⟨entries, hnode⟩ := hdir
      have hto := linkedOut_entry hc
      have hkind := linkedOut_dir hnode
      omega

theorem remove_confined_iff_linkedOut :
    WellFormed linkedOut ∧ linkedOut.stat [slash, 0x64#8] = some 1 ∧
      ((∀ ls s, Machine.StepsMeet Removal.step Removal.Fits
          (Removal.call linkedOut [slash, 0x64#8]) ls →
        Machine.run Removal.step (Removal.call linkedOut [slash, 0x64#8]) ls = some s →
          ∀ e ∈ s.removed, Inside linkedOut 1 e) ↔
        ¬ LeadsOutside linkedOut [slash, 0x64#8] 1) :=
  ⟨linkedOut_wellFormed, by decide +kernel,
    remove_confined_iff linkedOut_wellFormed (by decide +kernel) ⟨_, rfl⟩⟩

/-- `Remove("/d")` unlinks `/e/f`. -/
theorem remove_follows_link :
    WellFormed linkedOut ∧ linkedOut.stat [slash, 0x64#8] = some 1 ∧ linkedOut.tree.IsDir 1 ∧
      ∃ ls s, Machine.StepsMeet Removal.step Removal.Fits
          (Removal.call linkedOut [slash, 0x64#8]) ls ∧
        Machine.run Removal.step (Removal.call linkedOut [slash, 0x64#8]) ls = some s ∧
          s.result = some true ∧ ⟨2, [0x66#8], 4⟩ ∈ s.removed ∧
            ¬ Inside linkedOut 1 ⟨2, [0x66#8], 4⟩ := by
  have hrun : (Machine.run Removal.step (Removal.call linkedOut [slash, 0x64#8])
      [.entry [0x6C#8], .entry [0x66#8], .finish, .finish]).map
        (fun s => (s.result, s.removed)) = some (some true, [⟨2, [0x66#8], 4⟩]) := by
    decide +kernel
  obtain ⟨s, hs, heq⟩ := Option.map_eq_some_iff.mp hrun
  obtain ⟨hresult, hremoved⟩ := Prod.mk.inj heq
  refine ⟨linkedOut_wellFormed, by decide +kernel, ⟨_, rfl⟩, _, s,
    .of_meets (by decide +kernel), hs, hresult, ?_, ?_⟩
  · simp [hremoved]
  · rintro (hin | heq)
    · cases linkedOut_within hin
    · cases heq

/-- Whatever the limit, links inside do not lead to directories outside. -/
def LinksStay (fs : FileSystem ι) (r : ι) : Prop :=
  ∀ d n l target limit c k, fs.tree.Within r d → fs.tree.entry d n = some l →
    fs.tree.node l = .link target → fs.tree.walk limit d [.name n] = some (c, k) →
      fs.tree.IsDir c → fs.tree.Within r c

omit [DecidableEq ι] in
theorem LinksStay.within (h : LinksStay fs r) (hr : fs.stat path = some r)
    (hreach : Reaches fs path names d limit) (hdir : fs.tree.IsDir d) : fs.tree.Within r d := by
  induction names using List.reverseRecOn generalizing d limit with
  | nil => exact reaches_nil hr hreach ▸ .root
  | append_singleton names n ih =>
      obtain ⟨c, k, hc, hwalk⟩ := reaches_concat.mp hreach
      obtain ⟨l, hentry⟩ := entry_of_walk_name hwalk
      have hwithin := ih hc (isDir_of_entry hentry)
      by_cases hlink : ∃ target, fs.tree.node l = .link target
      · obtain ⟨target, hnode⟩ := hlink
        exact h c n l target k d limit hwithin hentry hnode hwalk hdir
      · have hend := hwalk.symm.trans (walk_entry k hentry fun target ht => hlink ⟨target, ht⟩)
        obtain rfl : d = l := congrArg Prod.fst (Option.some.inj hend)
        exact .entry hwithin hentry hdir

/-- In particular, a tree without symbolic links is all that is removed. -/
theorem remove_confined_of_linksStay (hfs : WellFormed fs) (hr : fs.stat path = some r)
    (hdir : fs.tree.IsDir r) (hlinks : LinksStay fs r) {ls : List Label}
    {s : Removal ι} (hmeet : Machine.StepsMeet Removal.step Removal.Fits (Removal.call fs path) ls)
    (hrun : Machine.run Removal.step (Removal.call fs path) ls = some s) :
    ∀ e ∈ s.removed, Inside fs r e := by
  have hout : ¬ LeadsOutside fs path r := by
    rintro ⟨names, n, d, limit, -, hreach, hwithin, hdel⟩
    exact hwithin (hlinks.within hr hreach hdel.isDir)
  exact Removal.inside_of_run hfs hr hdir hout hmeet hrun

end XfUtil.Directory
