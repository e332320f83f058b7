import XfUtil.Directory.Stack

/-!
# When `Directory::Remove` removes the whole tree

Where all full paths fit and the path leads around the tree, every step finds what it needs,
and takes from what is left to do. Elsewhere something is never removed.
-/

namespace XfUtil.Directory

open FilePath FileTree

variable {ι : Type*} [DecidableEq ι] {fs : FileSystem ι} {path : FilePath} {e : DirEntry ι}
  {removed : List (DirEntry ι)} {d c r : ι} {ns : List FilePath} {n : FilePath}
  {inside : Option FilePath} {frame : Frame ι} {rest : List (Frame ι)} {depth : Nat}

/-! ## In the loop -/

namespace Removal

/-- `Remove` is in its loop. -/
structure Looping (fs : FileSystem ι) (path : FilePath) (r : ι) (s : Removal ι) : Prop where
  kept : s.Kept fs path
  stacked : ∃ ns, Stacked fs path r s.removed ns none s.stack
  below : ∀ e ∈ s.removed, ∃ ms, fs.tree.descend r ms = some e.dir
  /-- Nothing is removed from a directory that has not been opened. -/
  opened : ∀ e ∈ s.removed,
    (∃ frame ∈ s.stack, e.dir = frame.dir) ∨ ∃ e' ∈ s.removed, e'.node = e.dir

variable {s t : Removal ι}

omit [DecidableEq ι] in
theorem reading_of_untouched (h : Removable fs path e depth)
    (hdown : fs.tree.descend e.node ns = some d) {entries : List (FilePath × ι)}
    (hnode : fs.tree.node d = .dir entries) (huntouched : ∀ e' ∈ removed, e'.dir ≠ d) :
    Reading fs path e.node removed ns none
      ⟨fullPath path ns, d, [dot] :: [dot, dot] :: entries.map Prod.fst⟩ := by
  have hproper : ∀ m ∈ entries.map Prod.fst, Proper m := by
    intro m hm
    obtain ⟨x, hx, rfl⟩ := List.mem_map.mp hm
    exact h.wellFormed.proper d entries hnode x hx
  refine ⟨rfl, hdown, ⟨entries, hnode⟩, ?_, ?_, ?_, ?_⟩
  · simp only [List.nodup_cons, List.mem_cons, not_or]
    exact ⟨⟨by decide, fun hm => (hproper _ hm).ne_dot rfl⟩,
      fun hm => (hproper _ hm).ne_dotdot rfl, h.names_nodup d entries hnode⟩
  · exact fun m hm => nomatch hm
  · intro m hm
    simp only [List.mem_cons] at hm
    exact hm.imp_right fun hm => hm.imp_right fun hm => exists_entry_of_mem hnode hm
  · intro m c hm
    refine iff_of_false (fun hgone => huntouched _ hgone rfl) fun hread => hread.1 ?_
    exact List.mem_cons_of_mem _ (List.mem_cons_of_mem _ (mem_names_of_entry hnode hm))

theorem Looping.opened_of_dirs (hs : s.Looping fs path r) {stack : List (Frame ι)}
    (hdirs : ∀ f ∈ s.stack, ∃ f' ∈ stack, f'.dir = f.dir) :
    ∀ e ∈ s.removed, (∃ f ∈ stack, e.dir = f.dir) ∨ ∃ e' ∈ s.removed, e'.node = e.dir := by
  intro e he
  refine (hs.opened e he).imp_left ?_
  rintro ⟨f, hf, hdir⟩
  obtain ⟨f', hf', hsame⟩ := hdirs f hf
  exact ⟨f', hf', hdir.trans hsame.symm⟩

omit [DecidableEq ι] in
theorem took_dirs (hstack : s.stack = frame :: rest) (n : FilePath) :
    ∀ f ∈ s.stack, ∃ f' ∈ (s.took frame rest n).stack, f'.dir = f.dir := by
  rw [hstack]
  intro f hf
  rcases List.mem_cons.mp hf with rfl | hf
  · exact ⟨_, List.mem_cons_self, rfl⟩
  · exact ⟨f, List.mem_cons_of_mem _ hf, rfl⟩

theorem Looping.named_path (hs : s.Looping fs path e.node) (hkeeps : KeepsOut fs path e) :
    s.fs.named path = some e := by
  rw [hs.kept.fs_eq]
  exact hkeeps s.removed hs.below

/-- The way down to the innermost directory is still there. -/
theorem descend_of_stacked (hist : History fs path removed)
    (h : Stacked fs path r removed ns inside (frame :: rest)) :
    (fs.without removed).tree.descend r ns = some frame.dir := by
  generalize hstack : frame :: rest = stack at h
  induction h generalizing frame rest with
  | root h =>
      obtain ⟨rfl, -⟩ := List.cons.inj hstack
      exact h.descend_eq
  | @child ns n inside frame' above rest' hrest h ih =>
      obtain ⟨rfl, -⟩ := List.cons.inj hstack
      obtain ⟨hentry, hnot⟩ := h.entry_of_above hrest.reading
      exact descend_concat_eq_some.mpr ⟨above.dir, ih rfl, hist.entry_of_not_mem hentry hnot⟩

section Given

variable (h : Removable fs path e depth) (hkeeps : KeepsOut fs path e)
  (hs : s.Looping fs path e.node)

include h hkeeps hs

theorem Looping.reaches (hstacked : Stacked fs path e.node s.removed ns inside (frame :: rest)) :
    ∃ limit, Reaches s.fs path ns frame.dir limit := by
  have hdown := descend_of_stacked hs.kept.history hstacked
  rw [← hs.kept.fs_eq] at hdown
  have hplain := hs.kept.plain h.plain
  have hdir : s.fs.tree.IsDir e.node := by
    rw [hs.kept.fs_eq]
    exact isDir_without.mpr h.isDir
  obtain ⟨limit, hroot⟩ := follow_of_named (hs.named_path hkeeps) hdir
  refine ⟨limit, ?_⟩
  rw [← List.nil_append ns]
  refine reaches_append.mpr ⟨e.node, limit, ?_, ?_⟩
  · simpa [Reaches] using hroot
  · rw [walk_names hplain, hdown]
    rfl

theorem Looping.found (hstacked : Stacked fs path e.node s.removed ns inside (frame :: rest))
    (hentry : fs.tree.entry frame.dir n = some c) (hnot : ⟨frame.dir, n, c⟩ ∉ s.removed) :
    s.fs.stat (fullPath path (ns ++ [n])) = some c ∧
      s.fs.named (fullPath path (ns ++ [n])) = some ⟨frame.dir, n, c⟩ := by
  have hdown := descend_concat_eq_some.mpr ⟨frame.dir, hstacked.reading.descend_eq, hentry⟩
  have hproper := h.wellFormed.proper_of_descend hdown
  have hnow := hs.kept.history.entry_of_not_mem hentry hnot
  rw [← hs.kept.fs_eq] at hnow
  obtain ⟨limit, hreach⟩ := Looping.reaches h hkeeps hs hstacked
  have hc : ∀ target, s.fs.tree.node c ≠ .link target := by
    rw [hs.kept.fs_eq]
    exact fun target hlink => h.plain _ c hdown target (prune_link.mp hlink)
  constructor
  · refine (stat_fullPath h.ne_nil hproper).mpr ⟨limit, ?_⟩
    exact reaches_concat.mpr ⟨frame.dir, limit, hreach, walk_entry limit hnow hc⟩
  · exact (named_fullPath h.ne_nil hproper).mpr ⟨rfl, ⟨limit, hreach⟩, hnow⟩

end Given

/-! ## One step -/

theorem Looping.skip (hs : s.Looping fs path r) (hfs : WellFormed fs)
    (hstack : s.stack = frame :: rest) (hdots : n = [dot] ∨ n = [dot, dot]) :
    (s.took frame rest n).Looping fs path r := by
  obtain ⟨ns, hstacked⟩ := hs.stacked
  rw [hstack] at hstacked
  refine ⟨hs.kept.took hstack n, ⟨ns, hstacked.replace (fun _ _ _ _ _ => Iff.rfl) ?_⟩, hs.below,
    hs.opened_of_dirs (took_dirs hstack n)⟩
  · refine hstacked.reading.erase (fun m hm => nomatch hm) fun m c hentry => ?_
    have hproper := hfs.proper_of_entry hentry
    have hne : m ≠ n := by
      rintro rfl
      exact hdots.elim hproper.ne_dot hproper.ne_dotdot
    simp [hne]

section Given

variable (h : Removable fs path e depth) (hs : s.Looping fs path e.node)
  (hstack : s.stack = frame :: rest)

include h hs hstack

theorem Looping.untouched (hstacked : Stacked fs path e.node s.removed ns none (frame :: rest))
    (hentry : fs.tree.entry frame.dir n = some c) (hnot : ⟨frame.dir, n, c⟩ ∉ s.removed)
    (hc : fs.tree.IsDir c) : ∀ e' ∈ s.removed, e'.dir ≠ c := by
  rintro e' he' rfl
  have hdown := descend_concat_eq_some.mpr ⟨frame.dir, hstacked.reading.descend_eq, hentry⟩
  rcases hs.opened e' he' with ⟨f, hf, hdir⟩ | ⟨e'', he'', hnode⟩
  · rw [hstack] at hf
    have hthere : ∃ ms, fs.tree.descend e.node ms = some f.dir ∧ ms.length ≤ ns.length := by
      rcases List.mem_cons.mp hf with rfl | hf
      · exact ⟨ns, hstacked.reading.descend_eq, le_rfl⟩
      · obtain ⟨ms, hms, -, hlt⟩ := hstacked.exists_outer hf
        exact ⟨ms, hms, hlt.le⟩
    obtain ⟨ms, hms, hle⟩ := hthere
    rw [← hdir] at hms
    have hsame := h.single.position_unique h.depthLe hms hdown hc
    rw [hsame, List.length_append, List.length_singleton] at hle
    omega
  · have hvalid := hs.kept.history.valid he''
    rw [hnode] at hvalid
    obtain ⟨hd, hn⟩ := h.single _ _ _ _ _ hvalid hentry hc
    apply hnot
    rw [← hd, ← hn, ← hnode]
    exact he''

variable (hfit : PathsFit fs path e.node) (hkeeps : KeepsOut fs path e)

include hfit hkeeps

omit hstack in
theorem Looping.found_read (hstacked : Stacked fs path e.node s.removed ns none (frame :: rest))
    (hmem : n ∈ frame.names) (hdots : ¬ (n = [dot] ∨ n = [dot, dot])) :
    ∃ c, fs.tree.entry frame.dir n = some c ∧ ⟨frame.dir, n, c⟩ ∉ s.removed ∧
      combineEx maxPathLen frame.path n = fullPath path (ns ++ [n]) ∧
        s.fs.stat (combineEx maxPathLen frame.path n) = some c ∧
          s.fs.named (combineEx maxPathLen frame.path n) = some ⟨frame.dir, n, c⟩ := by
  obtain ⟨c, hentry, hnot⟩ := exists_entry_of_reading hstacked.reading hmem hdots
  have hfull : combineEx maxPathLen frame.path n = fullPath path (ns ++ [n]) := by
    rw [hstacked.reading.path_eq]
    exact hfit.combineEx_eq hstacked.reading.descend_eq hentry
  rw [hfull]
  exact ⟨c, hentry, hnot, rfl, Looping.found h hkeeps hs hstacked hentry hnot⟩

theorem Looping.enter (hmem : n ∈ frame.names) (hdots : ¬ (n = [dot] ∨ n = [dot, dot]))
    {entries : List (FilePath × ι)}
    (hstat : s.fs.stat (combineEx maxPathLen frame.path n) = some c)
    (hnode : s.fs.tree.node c = .dir entries)
    (hkept : t.Kept fs path)
    (ht : t = { s with
      stack := ⟨combineEx maxPathLen frame.path n, c,
        [dot] :: [dot, dot] :: entries.map Prod.fst⟩ :: (s.took frame rest n).stack }) :
    t.Looping fs path e.node ∧ todo fs depth t.stack < todo fs depth s.stack := by
  obtain ⟨ns, hstacked⟩ := hs.stacked
  rw [hstack] at hstacked
  obtain ⟨c', hentry, hnot, hfull, hstat', -⟩ :=
    Looping.found_read h hs hfit hkeeps hstacked hmem hdots
  obtain rfl : c = c' := Option.some.inj (hstat.symm.trans hstat')
  have hdown := descend_concat_eq_some.mpr ⟨frame.dir, hstacked.reading.descend_eq, hentry⟩
  have hc : fs.tree.IsDir c := by
    have hnow : s.fs.tree.IsDir c := ⟨entries, hnode⟩
    rw [hs.kept.fs_eq] at hnow
    exact isDir_without.mp hnow
  have huntouched := Looping.untouched h hs hstack hstacked hentry hnot hc
  have hnode' : fs.tree.node c = .dir entries := by
    obtain ⟨entries', hnode'⟩ := hc
    have hnow := node_of_untouched huntouched hnode'
    rw [← hs.kept.fs_eq, hnode] at hnow
    rw [hnode', hnow]
  subst ht
  have htop := reading_of_untouched h hdown hnode' huntouched
  rw [← hfull] at htop
  refine ⟨⟨hkept, ⟨ns ++ [n], .child (hstacked.replace (fun _ _ _ _ _ => Iff.rfl) ?_) htop⟩,
    hs.below, hs.opened_of_dirs fun f hf => ?_⟩, ?_⟩
  · refine hstacked.reading.erase (fun m hm => (Option.some.inj hm).symm) fun m c' hm => ?_
    by_cases hmn : m = n
    · subst hmn
      obtain rfl : c = c' := Option.some.inj (hentry.symm.trans hm)
      simp [hnot]
    · simp [hmn, Ne.symm hmn]
  · obtain ⟨f', hf', hdir⟩ := took_dirs hstack n f hf
    exact ⟨f', List.mem_cons_of_mem _ hf', hdir⟩
  · have htook := todo_took fs hstack hmem depth
    have hlevel := h.depthLe _ _ hdown
    have hlen := hstacked.length_eq
    rw [List.length_append, List.length_singleton] at hlevel
    obtain ⟨levels, hlevels⟩ : ∃ k, depth - rest.length = k + 1 :=
      ⟨depth - rest.length - 1, by omega⟩
    have hbelow : depth - (s.took frame rest n).stack.length = levels := by
      simp only [took, List.length_cons]
      omega
    rw [cost, hentry, hlevels] at htook
    simp only [Option.elim_some, bulk, hnode'] at htook
    rw [todo, hbelow]
    dsimp only
    omega

theorem Looping.unlink (hmem : n ∈ frame.names) (hdots : ¬ (n = [dot] ∨ n = [dot, dot]))
    (hstat : s.fs.stat (combineEx maxPathLen frame.path n) = some c)
    (hfile : ¬ s.fs.tree.IsDir c) (hkept : t.Kept fs path)
    (ht : t = (s.took frame rest n).drop (s.fs.unlink (combineEx maxPathLen frame.path n))) :
    t.Looping fs path e.node ∧ todo fs depth t.stack < todo fs depth s.stack := by
  obtain ⟨ns, hstacked⟩ := hs.stacked
  rw [hstack] at hstacked
  obtain ⟨c', hentry, -, -, hstat', hnamed⟩ :=
    Looping.found_read h hs hfit hkeeps hstacked hmem hdots
  obtain rfl : c = c' := Option.some.inj (hstat.symm.trans hstat')
  rw [unlink_eq_some.mpr ⟨hnamed, hfile⟩] at ht
  subst ht
  refine ⟨⟨hkept, ⟨ns, hstacked.replace (fun f hf m c' _ => ?_) ?_⟩, ?_, ?_⟩,
    todo_took_lt hstack hmem depth⟩
  · exact mem_append_entry_of_ne (hstacked.outer_ne h.single h.depthLe hf)
  · refine hstacked.reading.erase (fun m hm => nomatch hm) fun m c' hm => ?_
    exact (mem_append_entry hentry hm).trans (by simp [took])
  · intro e' he'
    rcases List.mem_append.mp he' with he' | he'
    · exact hs.below e' he'
    · rw [List.mem_singleton.mp he']
      exact ⟨ns, hstacked.reading.descend_eq⟩
  · intro e' he'
    rcases List.mem_append.mp he' with he' | he'
    · refine (hs.opened_of_dirs (took_dirs hstack n) e' he').imp_right ?_
      rintro ⟨e'', he'', hnode⟩
      exact ⟨e'', List.mem_append_left _ he'', hnode⟩
    · rw [List.mem_singleton.mp he']
      exact Or.inl ⟨_, List.mem_cons_self, rfl⟩

omit h hs hstack hfit hkeeps in
/-- What has been removed is not removed once more. -/
theorem rmdir_again {now : FileSystem ι} {p : FilePath} {e : DirEntry ι}
    (hnamed : now.named p = some e) : (now.without [e]).rmdir p = none := by
  cases hagain : (now.without [e]).rmdir p with
  | none => rfl
  | some e' =>
      have hnamed' := (rmdir_eq_some.mp hagain).1
      obtain rfl : e = e' := Option.some.inj (hnamed.symm.trans (named_without hnamed'))
      have hentry := (named_eq_some.mp hnamed').2.2
      rw [entry_of_mem List.mem_cons_self] at hentry
      cases hentry

omit h hfit hkeeps in
/-- When `readdir` has nothing more, the directory is empty. -/
theorem Looping.emptied (hall : ∀ n ∈ frame.names, s.fs.tree.entry frame.dir n = none) :
    s.fs.tree.node frame.dir = .dir [] := by
  obtain ⟨ns, hstacked⟩ := hs.stacked
  rw [hstack] at hstacked
  have hreading := hstacked.reading
  rw [hs.kept.fs_eq] at hall ⊢
  refine node_of_entries_gone hreading.isDir fun n c hentry => ?_
  by_cases hmem : n ∈ frame.names
  · exact hall n hmem
  · exact entry_of_mem ((hreading.removed_iff n c hentry).mpr ⟨hmem, by simp⟩)

end Given

/-- `Remove` has returned true, and nothing is left. -/
structure AllGone (fs : FileSystem ι) (e : DirEntry ι) (s : Removal ι) : Prop where
  stack_eq : s.stack = []
  result_eq : s.result = some true
  cleared : Cleared fs e s.fs

section Given

variable (h : Removable fs path e depth) (hkeeps : KeepsOut fs path e)
  (hs : s.Looping fs path e.node) (hkept : t.Kept fs path)

include h hkeeps hs hkept

theorem Looping.finish_outermost {frame : Frame ι} (hstack : s.stack = [frame])
    (hall : ∀ n ∈ frame.names, s.fs.tree.entry frame.dir n = none)
    (ht : t = { s.drop (s.fs.rmdir frame.path) with stack := [] }.leave frame.path true) :
    t.AllGone fs e := by
  have hempty := hs.emptied hstack hall
  obtain ⟨ns, hstacked⟩ := hs.stacked
  rw [hstack] at hstacked
  obtain rfl : ns = [] := List.eq_nil_of_length_eq_zero hstacked.length_eq
  have hdir : e.node = frame.dir := Option.some.inj hstacked.reading.descend_eq
  have hpath : frame.path = path := hstacked.reading.path_eq
  rw [← hdir] at hempty
  rw [hpath, rmdir_eq_some.mpr ⟨hs.named_path hkeeps, hempty⟩] at ht
  subst ht
  have hlast : e ∈ s.removed ++ [e] := List.mem_append_right _ List.mem_cons_self
  have hfs := hkept.fs_eq
  have hhist : History fs path (s.removed ++ [e]) := hkept.history
  refine ⟨rfl, rfl, ?_, ?_⟩
  · intro ns d n hdown
    rw [hfs]
    cases hentry : (fs.without (s.removed ++ [e])).tree.entry d n with
    | none => exact hentry
    | some c =>
        have hd := isDir_without.mp (isDir_of_entry hentry)
        have hnone := hhist.emptied_below (hhist.emptied hlast h.isDir) hdown hd
        simp [FileTree.entry, hnone] at hentry
  · rw [hfs]
    exact entry_of_mem hlast

theorem Looping.finish_inner {frame above : Frame ι} {rest : List (Frame ι)}
    (hstack : s.stack = frame :: above :: rest)
    (hall : ∀ n ∈ frame.names, s.fs.tree.entry frame.dir n = none)
    (ht : t =
      { s.drop (s.fs.rmdir frame.path) with stack := above :: rest }.leave frame.path true) :
    t.Looping fs path e.node ∧ t.stack = above :: rest := by
  have hempty := hs.emptied hstack hall
  obtain ⟨ns, hstacked⟩ := hs.stacked
  rw [hstack] at hstacked
  cases hstacked with
  | @child ns n _ _ _ _ houter hreading =>
      obtain ⟨hentry, hnot⟩ := hreading.entry_of_above houter.reading
      have hnamed := (Looping.found h hkeeps hs houter hentry hnot).2
      have hagain := rmdir_again hnamed
      rw [← hreading.path_eq] at hnamed hagain
      rw [rmdir_eq_some.mpr ⟨hnamed, hempty⟩] at ht
      simp only [Removal.drop, Removal.leave, hagain] at ht
      subst ht
      refine ⟨⟨hkept, ⟨ns, houter.replace (fun f hf m c _ => ?_) ?_⟩, ?_, ?_⟩, rfl⟩
      · exact mem_append_entry_of_ne (houter.outer_ne h.single h.depthLe hf)
      · exact houter.reading.back fun m c hm => mem_append_entry hentry hm
      · intro e' he'
        rcases List.mem_append.mp he' with he' | he'
        · exact hs.below e' he'
        · rw [List.mem_singleton.mp he']
          exact ⟨ns, houter.reading.descend_eq⟩
      · intro e' he'
        rcases List.mem_append.mp he' with he' | he'
        · rcases hs.opened e' he' with ⟨f, hf, hdir⟩ | ⟨e'', he'', hnode⟩
          · rw [hstack] at hf
            rcases List.mem_cons.mp hf with rfl | hf
            · exact Or.inr ⟨_, List.mem_append_right _ List.mem_cons_self, hdir.symm⟩
            · exact Or.inl ⟨f, hf, hdir⟩
          · exact Or.inr ⟨e'', List.mem_append_left _ he'', hnode⟩
        · rw [List.mem_singleton.mp he']
          exact Or.inl ⟨above, List.mem_cons_self, rfl⟩

end Given

/-! ## Whole runs -/

section Given

variable (h : Removable fs path e depth) (hfit : PathsFit fs path e.node)
  (hkeeps : KeepsOut fs path e)

include h

theorem Looping.call : (Removal.call fs path).Looping fs path e.node := by
  have hkept : (Removal.call fs path).Kept fs path := Kept.call h.wellFormed
  obtain ⟨entries, hnode⟩ := h.isDir
  have hcall : Removal.call fs path =
      ⟨fs, [⟨path, e.node, [dot] :: [dot, dot] :: entries.map Prod.fst⟩], none, []⟩ := by
    have hopen := opendir_eq_some.mpr ⟨h.stat_eq, entries, hnode, rfl⟩
    simp [Removal.call, Removal.enter, hopen]
  rw [hcall] at hkept ⊢
  have htop := reading_of_untouched h (descend_nil fs.tree e.node) hnode (List.forall_mem_nil _)
  exact ⟨hkept, ⟨[], .root htop⟩, List.forall_mem_nil _, List.forall_mem_nil _⟩

include hfit hkeeps

/-- One step: there is less to do, and `Remove` goes on or is done. -/
theorem Looping.step (hs : s.Looping fs path e.node) {l : Label}
    (hstep : Removal.step s l = some t) :
    (t.Looping fs path e.node ∨ t.AllGone fs e) ∧
      todo fs depth t.stack < todo fs depth s.stack := by
  have hkept := hs.kept.step h.wellFormed hstep
  cases moves_of_step hstep with
  | skip hstack hmem hdots =>
      exact ⟨Or.inl (hs.skip h.wellFormed hstack hdots), todo_took_lt hstack hmem depth⟩
  | fail hstack hmem hdots hstat =>
      obtain ⟨ns, hstacked⟩ := hs.stacked
      rw [hstack] at hstacked
      obtain ⟨c, -, -, -, hstat', -⟩ :=
        Looping.found_read h hs hfit hkeeps hstacked hmem hdots
      rw [hstat] at hstat'
      cases hstat'
  | enter hstack hmem hdots hstat hnode =>
      obtain ⟨hnext, hlt⟩ :=
        Looping.enter h hs hstack hfit hkeeps hmem hdots hstat hnode hkept rfl
      exact ⟨Or.inl hnext, hlt⟩
  | unlink hstack hmem hdots hstat hfile =>
      obtain ⟨hnext, hlt⟩ :=
        Looping.unlink h hs hstack hfit hkeeps hmem hdots hstat hfile hkept rfl
      exact ⟨Or.inl hnext, hlt⟩
  | @finish frame rest hstack hall =>
      cases rest with
      | nil =>
          have hdone := Looping.finish_outermost h hkeeps hs hkept hstack hall rfl
          rw [hdone.stack_eq, hstack]
          exact ⟨Or.inr hdone, todo_pop frame [] depth⟩
      | cons above rest =>
          obtain ⟨hnext, hkeep⟩ := Looping.finish_inner h hkeeps hs hkept hstack hall rfl
          rw [hkeep, hstack]
          exact ⟨Or.inl hnext, todo_pop frame (above :: rest) depth⟩

/-- `Remove` ends, and everything is gone. -/
theorem ends_of_fit : Machine.Ends step (call fs path) (AllGone fs e) := by
  refine Machine.Ends.of_measure
    (fun s : Removal ι => s.Looping fs path e.node ∨ s.AllGone fs e)
    (fun s => todo fs depth s.stack) (Or.inl (Looping.call h)) ?_ ?_
  · rintro s l t (hs | hdone) hstep
    · exact Looping.step h hfit hkeeps hs hstep
    · rw [step_eq_none hdone.stack_eq] at hstep
      cases hstep
  · rintro s (hs | hdone)
    · obtain ⟨ns, hstacked⟩ := hs.stacked
      refine Or.inr (exists_step ?_)
      intro hnil
      rw [hnil] at hstacked
      cases hstacked
    · exact Or.inl hdone

end Given

end Removal

/-- `Remove` removes the whole tree, whatever order `readdir` has, exactly if all full paths
fit and the given one leads around the tree. -/
theorem remove_ends_iff (h : Removable fs path e depth) :
    Machine.Ends Removal.step (Removal.call fs path) (Removal.AllGone fs e) ↔
      PathsFit fs path e.node ∧ KeepsOut fs path e := by
  constructor
  · intro hends
    obtain ⟨ls, s, hrun, hdone⟩ := hends.exists_run
    have hkept := Removal.kept_of_run h.wellFormed hrun
    have hclear := hdone.cleared
    rw [hkept.fs_eq] at hclear
    exact ⟨h.pathsFit hkept.history hclear, h.keepsOut hkept.history hclear⟩
  · rintro ⟨hfit, hkeeps⟩
    exact Removal.ends_of_fit h hfit hkeeps

theorem removable_holding {name : FilePath} (hname : Proper name) :
    Removable (holding name) [slash, 0x64#8] ⟨0, [0x64#8], 1⟩ 1 where
  wellFormed := holding_wellFormed hname
  plain := holding_plain name
  single := holding_single name
  names_nodup := by
    intro d entries hnode
    obtain ⟨-, rfl⟩ | ⟨-, rfl⟩ := holding_dir hnode <;> simp
  named_eq := rfl
  isDir := ⟨_, rfl⟩
  depthLe := by
    intro ns d hdown
    rcases holding_descend hdown with ⟨rfl, -⟩ | ⟨rfl, -⟩
    · exact Nat.zero_le _
    · exact le_rfl

theorem remove_ends_iff_holding :
    Machine.Ends Removal.step (Removal.call (holding [0x66#8]) [slash, 0x64#8])
        (Removal.AllGone (holding [0x66#8]) ⟨0, [0x64#8], 1⟩) ↔
      PathsFit (holding [0x66#8]) [slash, 0x64#8] 1 ∧
        KeepsOut (holding [0x66#8]) [slash, 0x64#8] ⟨0, [0x64#8], 1⟩ :=
  remove_ends_iff (removable_holding (by constructor <;> decide))

/-- 255 times `x`: with `/d/` in front, the last characters are cut. -/
def longName : FilePath := List.replicate 255 0x78#8

/-- `stat` finds nothing under the name that was cut, and `Remove("/d")` returns false. -/
theorem remove_stops_at_long_name :
    Removable (holding longName) [slash, 0x64#8] ⟨0, [0x64#8], 1⟩ 1 ∧
      ¬ Machine.Ends Removal.step (Removal.call (holding longName) [slash, 0x64#8])
        (Removal.AllGone (holding longName) ⟨0, [0x64#8], 1⟩) := by
  refine ⟨removable_holding (by constructor <;> decide), ?_⟩
  rintro ⟨bound, hbound⟩
  have hrun : (Machine.run Removal.step (Removal.call (holding longName) [slash, 0x64#8])
      [.entry longName]).map (fun s => (s.stack.isEmpty, s.result)) =
        some (true, some false) := by
    decide +kernel
  obtain ⟨s, hs, heq⟩ := Option.map_eq_some_iff.mp hrun
  obtain ⟨hstack, hresult⟩ := Prod.mk.inj heq
  rcases (hbound _ s hs).2 with hdone | ⟨l, t, hstep⟩
  · rw [hdone.result_eq] at hresult
    cases hresult
  · rw [Removal.step_eq_none (List.isEmpty_iff.mp hstack)] at hstep
    cases hstep

end XfUtil.Directory
