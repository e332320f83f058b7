import XfUtil.Directory.Moves
import XfUtil.Directory.Strings

/-!
# What `Directory::Remove` must have emptied

Whatever `Remove` has removed was named by one of its strings, and was empty if it was a
directory. When the given directory goes, all directories below it are empty, so that its path
may not lead through them; and a full path that does not fit is never named.
-/

namespace XfUtil.Directory

open FilePath FileTree

variable {ι : Type*} [DecidableEq ι] {fs : FileSystem ι} {path p : FilePath} {e : DirEntry ι}
  {gone removed : List (DirEntry ι)} {d c r : ι} {ns : List FilePath} {n : FilePath}

/-! ## Entries that are gone -/

theorem entry_without : (fs.without gone).tree.entry d n =
    if ∃ e ∈ gone, e.dir = d ∧ e.name = n then none else fs.tree.entry d n := by
  rw [FileSystem.without, entry_prune]
  simp

theorem named_without (h : (fs.without gone).named p = some e) : fs.named p = some e := by
  obtain ⟨hlast, ⟨limit, hfollow⟩, hentry⟩ := named_eq_some.mp h
  exact named_eq_some.mpr ⟨hlast, ⟨limit, follow_without hfollow⟩, entry_of_prune hentry⟩

theorem isDir_without : (fs.without gone).tree.IsDir d ↔ fs.tree.IsDir d := isDir_prune

theorem empty_without_append (h : (fs.without gone).tree.node d = .dir [])
    (more : List (DirEntry ι)) : (fs.without (gone ++ more)).tree.node d = .dir [] := by
  rw [← without_without]
  exact prune_dir h

/-- What `Remove` has removed, one entry after the other. -/
inductive History (fs : FileSystem ι) (path : FilePath) : List (DirEntry ι) → Prop
  | nil : History fs path []
  | remove {gone : List (DirEntry ι)} {p : FilePath} {e : DirEntry ι} (h : History fs path gone)
      (hp : Formed path p) (hnamed : (fs.without gone).named p = some e)
      (hempty : fs.tree.IsDir e.node → (fs.without gone).tree.node e.node = .dir []) :
      History fs path (gone ++ [e])

namespace History

theorem exists_named (h : History fs path removed) (he : e ∈ removed) :
    ∃ gone p, History fs path gone ∧ Formed path p ∧ (fs.without gone).named p = some e ∧
      (fs.tree.IsDir e.node → (fs.without gone).tree.node e.node = .dir []) := by
  induction h with
  | nil => cases he
  | @remove gone p e' hgone hp hnamed hempty ih =>
      rcases List.mem_append.mp he with he | he
      · exact ih he
      · obtain rfl := List.mem_singleton.mp he
        exact ⟨gone, p, hgone, hp, hnamed, hempty⟩

theorem valid (h : History fs path removed) (he : e ∈ removed) :
    fs.tree.entry e.dir e.name = some e.node := by
  obtain ⟨gone, p, -, -, hnamed, -⟩ := h.exists_named he
  exact (named_eq_some.mp (named_without hnamed)).2.2

theorem emptied (h : History fs path removed) (he : e ∈ removed) (hdir : fs.tree.IsDir e.node) :
    (fs.without removed).tree.node e.node = .dir [] := by
  induction h with
  | nil => cases he
  | @remove gone p e' hgone hp hnamed hempty ih =>
      apply empty_without_append
      rcases List.mem_append.mp he with he | he
      · exact ih he
      · obtain rfl := List.mem_singleton.mp he
        exact hempty hdir

theorem mem_of_entry (h : History fs path removed) (hentry : fs.tree.entry d n = some c)
    (hgone : (fs.without removed).tree.entry d n = none) : ⟨d, n, c⟩ ∈ removed := by
  rw [entry_without, hentry] at hgone
  split at hgone
  · rename_i hex
    obtain ⟨⟨d', n', c'⟩, he, rfl, rfl⟩ := hex
    obtain rfl : c' = c := Option.some.inj ((h.valid he).symm.trans hentry)
    exact he
  · cases hgone

/-- Below an empty directory all directories are empty. -/
theorem emptied_below (h : History fs path removed)
    (hr : (fs.without removed).tree.node r = .dir []) (hdown : fs.tree.descend r ns = some d)
    (hd : fs.tree.IsDir d) : (fs.without removed).tree.node d = .dir [] := by
  induction ns generalizing r with
  | nil =>
      cases hdown
      exact hr
  | cons n ns ih =>
      obtain ⟨c, hentry, hrest⟩ := descend_cons_eq_some.mp hdown
      have hnone : (fs.without removed).tree.entry r n = none := by simp [FileTree.entry, hr]
      have hmem := h.mem_of_entry hentry hnone
      have hc : fs.tree.IsDir c := by
        cases ns with
        | nil =>
            cases hrest
            exact hd
        | cons m ns =>
            obtain ⟨c', hentry', -⟩ := descend_cons_eq_some.mp hrest
            exact isDir_of_entry hentry'
      exact ih (h.emptied hmem hc) hrest

/-- Where the directory is empty, no string that still names something leads through it. -/
theorem not_through (h : History fs path removed)
    (hr : (fs.without removed).tree.node r = .dir [])
    (hnamed : (fs.without removed).named p = some e) (he : fs.tree.IsDir e.node)
    {comps more : List (PathComponent FilePath)} {k : Nat}
    (hsteps : (steps p).comps = comps ++ .name n :: more)
    (hfollow : fs.follow p comps = some (d, k)) : fs.tree.descend r ns ≠ some d := by
  intro hdown
  obtain ⟨limit, hall⟩ := follow_of_named hnamed (isDir_without.mpr he)
  rw [hsteps, FileSystem.follow, walk_append] at hall
  obtain ⟨⟨d', k'⟩, hcomps, hrest⟩ := Option.bind_eq_some_iff.mp hall
  obtain ⟨rfl, rfl⟩ : d' = d ∧ k' = k := by
    have hsame := (follow_without hcomps).symm.trans hfollow
    simpa using hsame
  cases hentry : (fs.without removed).tree.entry d' n with
  | none =>
      have hlookup : (fs.without removed).tree.lookup d' (.name n) = none := hentry
      rw [walk_missing k' hlookup] at hrest
      cases hrest
  | some c =>
      have hdir := isDir_without.mp (isDir_of_entry hentry)
      have hempty := h.emptied_below hr hdown hdir
      simp [FileTree.entry, hempty] at hentry

end History

/-! ## What is given, and what should be done -/

/-- A finite tree of directories and files, without links. `e` is the entry of the directory
that the path names, so that `rmdir` may remove it. -/
structure Removable (fs : FileSystem ι) (path : FilePath) (e : DirEntry ι) (depth : Nat) :
    Prop where
  wellFormed : WellFormed fs
  plain : fs.tree.Plain e.node
  single : fs.tree.Single
  names_nodup : ∀ d entries, fs.tree.node d = .dir entries → (entries.map Prod.fst).Nodup
  named_eq : fs.named path = some e
  isDir : fs.tree.IsDir e.node
  depthLe : fs.tree.DepthLe e.node depth

/-- The path and everything below it are gone. -/
structure Cleared (fs : FileSystem ι) (e : DirEntry ι) (now : FileSystem ι) : Prop where
  below : ∀ ns d n, fs.tree.descend e.node ns = some d → now.tree.entry d n = none
  own : now.tree.entry e.dir e.name = none

/-- Every entry of the tree was named by a formed string. -/
theorem Cleared.exists_string (hclear : Cleared fs e (fs.without removed))
    (hist : History fs path removed) (hdown : fs.tree.descend e.node ns = some d)
    (hentry : fs.tree.entry d n = some c) :
    ∃ p, Formed path p ∧ fs.named p = some ⟨d, n, c⟩ := by
  have hmem := hist.mem_of_entry hentry (hclear.below ns d n hdown)
  obtain ⟨gone, p, -, hp, hnamed, -⟩ := hist.exists_named hmem
  exact ⟨p, hp, named_without hnamed⟩

/-- The path takes no entry of the tree: it names the same whichever of them are gone. -/
def KeepsOut (fs : FileSystem ι) (path : FilePath) (e : DirEntry ι) : Prop :=
  ∀ gone : List (DirEntry ι), (∀ x ∈ gone, ∃ ns, fs.tree.descend e.node ns = some x.dir) →
    (fs.without gone).named path = some e

namespace Removable

variable {depth : Nat}

omit [DecidableEq ι] in
theorem stat_eq (h : Removable fs path e depth) : fs.stat path = some e.node :=
  stat_of_named h.named_eq h.isDir

omit [DecidableEq ι] in
theorem ne_nil (h : Removable fs path e depth) : path ≠ [] := ne_nil_of_stat h.stat_eq

omit [DecidableEq ι] in
/-- The entry of the directory is not one in the tree. -/
theorem not_below (h : Removable fs path e depth) (hne : ns ≠ [])
    (hdown : fs.tree.descend e.node ns = some c) {d : ι} {n : FilePath} : e ≠ ⟨d, n, c⟩ := by
  rintro rfl
  exact h.depthLe.ne_self hne hdown

variable (h : Removable fs path e depth) (hist : History fs path removed)
  (hclear : Cleared fs e (fs.without removed))

include h hist hclear

/-- When the directory was removed, it was empty. -/
theorem exists_last : ∃ gone p, History fs path gone ∧ Formed path p ∧
    (fs.without gone).named p = some e ∧ (fs.without gone).tree.node e.node = .dir [] := by
  have hentry := (named_eq_some.mp h.named_eq).2.2
  have hmem := hist.mem_of_entry hentry hclear.own
  obtain ⟨gone, p, hgone, hp, hnamed, hempty⟩ := hist.exists_named hmem
  exact ⟨gone, p, hgone, hp, hnamed, hempty h.isDir⟩

/-- A path that is cut itself: all strings are the same, and name one entry only. -/
theorem length_lt_of_entry (hentry : fs.tree.entry e.node n = some c) :
    path.length < maxPathLen - 1 := by
  by_contra hlong
  have hcut : ∀ p, Formed path p → p = path ∨ p = Format.stored maxPathLen path := by
    rintro p (rfl | ⟨names, m, -, rfl⟩)
    · exact Or.inl rfl
    · obtain ⟨rest, hrest⟩ := exists_fullPath_eq path (names ++ [m])
      rw [hrest, stored_of_le (Nat.not_lt.mp hlong)]
      exact Or.inr rfl
  have hother : e ≠ ⟨e.node, n, c⟩ :=
    h.not_below (List.cons_ne_nil n []) (descend_cons_eq_some.mpr ⟨c, hentry, rfl⟩)
  obtain ⟨p, hp, hnamed⟩ := hclear.exists_string hist (descend_nil _ _) hentry
  rcases hcut p hp with rfl | rfl
  · exact hother (Option.some.inj (h.named_eq.symm.trans hnamed))
  · obtain ⟨gone, q, hgone, hq, hlast, hempty⟩ := h.exists_last hist hclear
    rcases hcut q hq with rfl | rfl
    · -- The path leads to where the cut path ends, and on by a name of the directory.
      obtain ⟨hend, ⟨limit, hfollow⟩, -⟩ := named_eq_some.mp hnamed
      have hcomps := (List.dropLast_append_getLast? _ hend).symm
      obtain ⟨habs, m, more, hmore⟩ :=
        steps_append_of_name hcomps (q.drop (maxPathLen - 1))
      have hwhole : Format.stored maxPathLen q ++ q.drop (maxPathLen - 1) = q :=
        List.take_append_drop (maxPathLen - 1) q
      rw [hwhole] at habs hmore
      have hthere : fs.follow q (steps (Format.stored maxPathLen q)).comps.dropLast =
          some (e.node, limit) := by
        rw [← hfollow]
        simp only [FileSystem.follow, FileTree.origin, habs]
      exact hgone.not_through hempty hlast h.isDir hmore hthere (descend_nil _ _)
    · exact hother (Option.some.inj ((named_without hlast).symm.trans hnamed))

theorem pathsFit : PathsFit fs path e.node := by
  intro ns c hdown hne
  obtain ⟨xs, n, rfl⟩ := (List.eq_nil_or_concat' ns).resolve_left hne
  obtain ⟨d, hd, hentry⟩ := descend_concat_eq_some.mp hdown
  have hlen : path.length < maxPathLen - 1 := by
    obtain ⟨m, ms, hns⟩ := List.exists_cons_of_ne_nil hne
    rw [hns] at hdown
    obtain ⟨c', hfirst, -⟩ := descend_cons_eq_some.mp hdown
    exact h.length_lt_of_entry hist hclear hfirst
  obtain ⟨p, hp, hnamed⟩ := hclear.exists_string hist hd hentry
  rcases hp.exists_names h.ne_nil hlen hnamed with hown | ⟨ys, m, hproper, hfits, hnamed'⟩
  · exact absurd (Option.some.inj (h.named_eq.symm.trans hown)) (h.not_below hne hdown)
  · obtain ⟨hname, hreach, -⟩ := (named_fullPath h.ne_nil hproper).mp hnamed'
    have hdown' := (reaches_iff_descend h.plain h.stat_eq).mp hreach
    have hsame := h.single.position_unique h.depthLe hd hdown' (isDir_of_entry hentry)
    rw [hsame, show n = m from hname]
    exact hfits

/-- When the directory was removed, the path itself named it. -/
theorem exists_named_path : ∃ gone, History fs path gone ∧ (fs.without gone).named path = some e ∧
    (fs.without gone).tree.node e.node = .dir [] := by
  obtain ⟨entries, hnode⟩ := h.isDir
  cases entries with
  | nil =>
      have hnow : (fs.without []).named path = some e := by
        rw [without_nil]
        exact h.named_eq
      exact ⟨[], .nil, hnow, prune_dir hnode⟩
  | cons first entries =>
      obtain ⟨c, hentry⟩ := exists_entry_of_mem hnode List.mem_cons_self
      have hlen := h.length_lt_of_entry hist hclear hentry
      obtain ⟨gone, p, hgone, hp, hlast, hempty⟩ := h.exists_last hist hclear
      rcases hp.exists_names h.ne_nil hlen hlast with hown | ⟨xs, n, hproper, -, hnamed⟩
      · exact ⟨gone, hgone, hown, hempty⟩
      · -- The directory would be below itself.
        obtain ⟨-, ⟨limit, hreach⟩, hentry'⟩ :=
          (named_fullPath h.ne_nil hproper).mp hnamed
        have hdown := (reaches_iff_descend h.plain h.stat_eq).mp ⟨limit, hreach.of_without⟩
        have hloop := descend_concat_eq_some.mpr ⟨e.dir, hdown, entry_of_prune hentry'⟩
        exact absurd hloop (h.depthLe.ne_self (by simp))

/-- The path leads around the tree. -/
theorem keepsOut : KeepsOut fs path e := by
  intro below hbelow
  obtain ⟨gone, hgone, hnamed, hempty⟩ := h.exists_named_path hist hclear
  have hsame : fs.without (below ++ gone) = fs.without gone := by
    simp only [FileSystem.without, List.map_append]
    rw [prune_append_of_subset]
    intro d entries hnode x hx hmem
    obtain ⟨y, hy, heq⟩ := List.mem_map.mp hmem
    obtain ⟨ns, hdown⟩ := hbelow y hy
    rw [(Prod.mk.inj heq).1] at hdown
    have hnow := hgone.emptied_below hempty hdown ⟨entries, hnode⟩
    rw [FileSystem.without, prune_dir hnode, FileNode.dir.injEq] at hnow
    simpa using List.filter_eq_nil_iff.mp hnow x hx
  rw [← hsame, ← without_without] at hnamed
  exact named_without hnamed

end Removable

/-! ## Every run has such a history -/

namespace Removal

/-- What a run keeps, whatever the strings lead to. -/
structure Kept (fs : FileSystem ι) (path : FilePath) (s : Removal ι) : Prop where
  fs_eq : s.fs = fs.without s.removed
  history : History fs path s.removed
  formed : ∀ frame ∈ s.stack, Formed path frame.path
  names : ∀ frame ∈ s.stack, ∀ n ∈ frame.names, n = [dot] ∨ n = [dot, dot] ∨ Proper n

variable {s t : Removal ι} {frame : Frame ι} {rest : List (Frame ι)}

theorem Kept.plain (h : s.Kept fs path) (hplain : fs.tree.Plain r) : s.fs.tree.Plain r := by
  rw [h.fs_eq]
  exact hplain.prune _

theorem Kept.drop (h : s.Kept fs path) (hp : Formed path p) (hnamed : s.fs.named p = some e)
    (hempty : s.fs.tree.IsDir e.node → s.fs.tree.node e.node = .dir []) :
    (s.drop (some e)).Kept fs path := by
  have hfs := h.fs_eq
  refine ⟨?_, ?_, h.formed, h.names⟩
  · rw [Removal.drop, hfs]
    exact without_without fs s.removed [e]
  · rw [hfs] at hnamed hempty
    exact h.history.remove hp hnamed fun hdir => hempty (isDir_without.mpr hdir)

theorem Kept.drop_unlink (h : s.Kept fs path) (hp : Formed path p) :
    (s.drop (s.fs.unlink p)).Kept fs path := by
  cases he : s.fs.unlink p with
  | none => exact h
  | some e =>
      obtain ⟨hnamed, hfile⟩ := unlink_eq_some.mp he
      exact h.drop hp hnamed fun hdir => absurd hdir hfile

theorem Kept.drop_rmdir (h : s.Kept fs path) (hp : Formed path p) :
    (s.drop (s.fs.rmdir p)).Kept fs path := by
  cases he : s.fs.rmdir p with
  | none => exact h
  | some e =>
      obtain ⟨hnamed, hempty⟩ := rmdir_eq_some.mp he
      exact h.drop hp hnamed fun _ => hempty

theorem Kept.leave (h : s.Kept fs path) (hp : Formed path p) (result : Bool) :
    (s.leave p result).Kept fs path := by
  unfold Removal.leave
  split
  · exact ⟨h.fs_eq, h.history, h.formed, h.names⟩
  · exact h.drop_rmdir hp

theorem Kept.pop (h : s.Kept fs path) (hstack : s.stack = frame :: rest) :
    Kept fs path { s with stack := rest } := by
  have hmem : ∀ f ∈ rest, f ∈ s.stack := fun f hf => hstack ▸ List.mem_cons_of_mem frame hf
  exact ⟨h.fs_eq, h.history, fun f hf => h.formed f (hmem f hf), fun f hf => h.names f (hmem f hf)⟩

theorem Kept.took (h : s.Kept fs path) (hstack : s.stack = frame :: rest) (n : FilePath) :
    (s.took frame rest n).Kept fs path := by
  have hframe : frame ∈ s.stack := hstack ▸ List.mem_cons_self
  have hrest := h.pop hstack
  refine ⟨h.fs_eq, h.history, ?_, ?_⟩
  · exact List.forall_mem_cons.mpr ⟨h.formed frame hframe, hrest.formed⟩
  · refine List.forall_mem_cons.mpr ⟨fun m hm => ?_, hrest.names⟩
    exact h.names frame hframe m (List.mem_of_mem_erase hm)

theorem Kept.push (h : s.Kept fs path) (hfs : WellFormed fs) (hp : Formed path p)
    {entries : List (FilePath × ι)} (hnode : s.fs.tree.node c = .dir entries) :
    Kept fs path
      { s with stack := ⟨p, c, [dot] :: [dot, dot] :: entries.map Prod.fst⟩ :: s.stack } := by
  rw [h.fs_eq] at hnode
  have hproper := hfs.proper_without s.removed c entries hnode
  refine ⟨h.fs_eq, h.history, ?_, ?_⟩
  · exact List.forall_mem_cons.mpr ⟨hp, h.formed⟩
  · exact List.forall_mem_cons.mpr ⟨fun n hn => dots_or_proper hproper hn, h.names⟩

theorem Kept.combineEx (h : s.Kept fs path) (hstack : s.stack = frame :: rest)
    (hmem : n ∈ frame.names) (hdots : ¬ (n = [dot] ∨ n = [dot, dot])) :
    Formed path (combineEx maxPathLen frame.path n) := by
  have hframe : frame ∈ s.stack := hstack ▸ List.mem_cons_self
  obtain ⟨hdot, hdotdot⟩ := not_or.mp hdots
  have hproper := ((h.names frame hframe n hmem).resolve_left hdot).resolve_left hdotdot
  exact (h.formed frame hframe).combineEx hproper

theorem Kept.step (h : s.Kept fs path) (hfs : WellFormed fs) {l : Label}
    (hstep : Removal.step s l = some t) : t.Kept fs path := by
  cases moves_of_step hstep with
  | skip hstack hmem hdots => exact h.took hstack _
  | fail hstack hmem hdots hstat =>
      exact (h.pop hstack).leave (h.formed _ (hstack ▸ List.mem_cons_self)) false
  | enter hstack hmem hdots hstat hnode =>
      exact (h.took hstack _).push hfs (h.combineEx hstack hmem hdots) hnode
  | unlink hstack hmem hdots hstat hfile =>
      exact (h.took hstack _).drop_unlink (h.combineEx hstack hmem hdots)
  | @finish frame rest hstack hall =>
      have hframe := h.formed frame (hstack ▸ List.mem_cons_self)
      have hdrop := h.drop_rmdir hframe
      have hkept := (drop_stack s (s.fs.rmdir frame.path)).trans hstack
      exact (hdrop.pop hkept).leave hframe true

theorem Kept.call (hfs : WellFormed fs) : (call fs path).Kept fs path := by
  have hstart : Kept fs path (⟨fs, [], none, []⟩ : Removal ι) := by
    refine ⟨(without_nil fs).symm, .nil, ?_, ?_⟩ <;> exact List.forall_mem_nil _
  unfold Removal.call Removal.enter
  split
  · exact hstart.leave (Or.inl rfl) false
  · rename_i hopen
    obtain ⟨-, entries, hnode, rfl⟩ := opendir_eq_some.mp hopen
    exact hstart.push hfs (Or.inl rfl) hnode

theorem kept_of_run (hfs : WellFormed fs) {ls : List Label}
    (hrun : Machine.run Removal.step (call fs path) ls = some s) : s.Kept fs path :=
  Machine.run_invariant (Kept fs path) (Kept.call hfs) (fun _ _ _ h hstep => h.step hfs hstep) hrun

end Removal

end XfUtil.Directory
