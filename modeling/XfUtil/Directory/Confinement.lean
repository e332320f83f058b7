import XfUtil.Directory.Moves

/-!
# What `Directory::Remove` removes

`Remove` goes where `stat` says that there is a directory, so a symbolic link takes it
out of the tree that it was given. Whatever it removes is an entry of a directory that
entries lead to from the given path; a path that still resolves resolves as it did at
the beginning. So it stays inside exactly if no directory that it can get to outside
has anything for it to delete.
-/

namespace XfUtil.Directory

open FilePath FileTree

variable {ι : Type*} {fs : FileSystem ι} {path : FilePath} {names : List FilePath} {d r : ι}
  {limit : Nat}

/-! ## Inside and outside -/

/-- The entry is in the tree below `r`, or is the one of `r` itself. -/
def Inside (fs : FileSystem ι) (r : ι) (e : DirEntry ι) : Prop :=
  fs.tree.Within r e.dir ∨ e.node = r

/-- What `Remove` deletes when it comes upon the entry `n` of `d`: something that is
not a directory to `stat`, or an empty directory. -/
def Deletable (fs : FileSystem ι) (d : ι) (n : FilePath) (limit : Nat) : Prop :=
  (∃ c limit', fs.tree.walk limit d [.name n] = some (c, limit') ∧ ¬ fs.tree.IsDir c) ∨
    ∃ c, fs.tree.entry d n = some c ∧ fs.tree.node c = .dir []

theorem Deletable.isDir {n : FilePath} (h : Deletable fs d n limit) : fs.tree.IsDir d := by
  rcases h with ⟨c, k, hwalk, -⟩ | ⟨c, hentry, -⟩
  · obtain ⟨c', hentry⟩ := entry_of_walk_name hwalk
    exact isDir_of_entry hentry
  · exact isDir_of_entry hentry

/-- Entries lead from the path to a directory outside, with something to delete. -/
def LeadsOutside (fs : FileSystem ι) (path : FilePath) (r : ι) : Prop :=
  ∃ names n d limit, (fullPath path (names ++ [n])).length < maxPathLen ∧
    Reaches fs path names d limit ∧ ¬ fs.tree.Within r d ∧ Deletable fs d n limit

/-- A directory below `r` has no entry outside. -/
theorem inside_of_within {e : DirEntry ι} (hfs : WellFormed fs)
    (hentry : fs.tree.entry e.dir e.name = some e.node) (hdir : fs.tree.IsDir e.node)
    (hwithin : fs.tree.Within r e.node) : Inside fs r e := by
  generalize hc : e.node = c at hwithin
  cases hwithin with
  | root => exact .inr hc
  | entry hd hentry' _ =>
      rw [hc] at hentry hdir
      have hsame := hfs.hierarchical _ _ _ _ _ hentry hentry' hdir
      exact .inl (hsame ▸ hd)

/-- The path, or a full path below it that fits. -/
def Below (path p : FilePath) : Prop :=
  ∃ names, p = fullPath path names ∧ (∀ n ∈ names, Proper n) ∧
    (names = [] ∨ p.length < maxPathLen)

namespace Removal

variable [DecidableEq ι]

/-- The file system is the one of the beginning without what has been removed, and all
of this was inside. -/
structure Inv (fs : FileSystem ι) (path : FilePath) (r : ι) (s : Removal ι) : Prop where
  fs_eq : s.fs = fs.without s.removed
  inside : ∀ e ∈ s.removed, Inside fs r e
  valid : ∀ e ∈ s.removed, fs.tree.entry e.dir e.name = some e.node
  /-- A directory is empty when it is removed, and stays so. -/
  emptied : ∀ e ∈ s.removed, fs.tree.IsDir e.node → s.fs.tree.node e.node = .dir []
  paths : ∀ frame ∈ s.stack, Below path frame.path
  names : ∀ frame ∈ s.stack, ∀ n ∈ frame.names, n = [dot] ∨ n = [dot, dot] ∨ Proper n

variable {s : Removal ι}

/-! ## The file system now and at the beginning -/

theorem Inv.entry (h : s.Inv fs path r) {n : FilePath} {c : ι}
    (hentry : s.fs.tree.entry d n = some c) : fs.tree.entry d n = some c := by
  rw [h.fs_eq] at hentry
  exact entry_of_prune hentry

theorem Inv.isDir (h : s.Inv fs path r) {c : ι} : s.fs.tree.IsDir c ↔ fs.tree.IsDir c := by
  rw [h.fs_eq]
  exact isDir_prune

theorem Inv.walk (h : s.Inv fs path r) {comps : List (PathComponent FilePath)} {p : ι × Nat}
    (hwalk : s.fs.tree.walk limit d comps = some p) : fs.tree.walk limit d comps = some p := by
  rw [h.fs_eq] at hwalk
  exact walk_prune limit d comps hwalk

theorem Inv.reaches (h : s.Inv fs path r) (hreach : Reaches s.fs path names d limit) :
    Reaches fs path names d limit := by
  rw [h.fs_eq] at hreach
  exact hreach.of_without

/-! ## What is removed is inside -/

/-- A directory that has become empty has lost an entry. -/
theorem Inv.exists_removed (h : s.Inv fs path r) {c : ι} {first : FilePath × ι}
    {rest : List (FilePath × ι)} (hnode : fs.tree.node c = .dir (first :: rest))
    (hempty : s.fs.tree.node c = .dir []) : ∃ e ∈ s.removed, e.dir = c := by
  rw [h.fs_eq] at hempty
  have hpruned := hempty.symm.trans (prune_dir hnode)
  rw [FileNode.dir.injEq] at hpruned
  have hgone := List.filter_eq_nil_iff.mp hpruned.symm first List.mem_cons_self
  obtain ⟨e, he, heq⟩ : ∃ e ∈ s.removed, (e.dir, e.name) = (c, first.1) := by
    simpa using hgone
  exact ⟨e, he, congrArg Prod.fst heq⟩

theorem Inv.drop (h : s.Inv fs path r) {e : DirEntry ι}
    (hinside : Inside fs r e) (hentry : s.fs.tree.entry e.dir e.name = some e.node)
    (hempty : s.fs.tree.IsDir e.node → s.fs.tree.node e.node = .dir []) :
    (s.drop (some e)).Inv fs path r := by
  have hstays : ∀ c, s.fs.tree.node c = .dir [] → (s.fs.without [e]).tree.node c = .dir [] := by
    intro c hc
    exact prune_dir hc
  constructor
  · rw [Removal.drop, h.fs_eq]
    exact without_without fs s.removed [e]
  · intro e' he'
    rcases List.mem_append.mp he' with he' | he'
    · exact h.inside e' he'
    · exact List.mem_singleton.mp he' ▸ hinside
  · intro e' he'
    rcases List.mem_append.mp he' with he' | he'
    · exact h.valid e' he'
    · exact List.mem_singleton.mp he' ▸ h.entry hentry
  · intro e' he' hdir
    rcases List.mem_append.mp he' with he' | he'
    · exact hstays _ (h.emptied e' he' hdir)
    · obtain rfl := List.mem_singleton.mp he'
      exact hstays _ (hempty (h.isDir.mpr hdir))
  · exact h.paths
  · exact h.names

theorem Inv.pop (h : s.Inv fs path r) {frame : Frame ι} {rest : List (Frame ι)}
    (hstack : s.stack = frame :: rest) : Inv fs path r { s with stack := rest } := by
  have hmem : ∀ f ∈ rest, f ∈ s.stack := fun f hf => hstack ▸ List.mem_cons_of_mem frame hf
  exact ⟨h.fs_eq, h.inside, h.valid, h.emptied, fun f hf => h.paths f (hmem f hf),
    fun f hf => h.names f (hmem f hf)⟩

theorem Inv.took (h : s.Inv fs path r) {frame : Frame ι} {rest : List (Frame ι)}
    (hstack : s.stack = frame :: rest) (n : FilePath) : (s.took frame rest n).Inv fs path r := by
  have hframe : frame ∈ s.stack := hstack ▸ List.mem_cons_self
  have hrest := h.pop hstack
  refine ⟨h.fs_eq, h.inside, h.valid, h.emptied, ?_, ?_⟩
  · exact List.forall_mem_cons.mpr ⟨h.paths frame hframe, hrest.paths⟩
  · refine List.forall_mem_cons.mpr ⟨fun m hm => ?_, hrest.names⟩
    exact h.names frame hframe m (List.mem_of_mem_erase hm)

theorem Inv.push (h : s.Inv fs path r) (hfs : WellFormed fs) {p : FilePath} (hp : Below path p)
    {c : ι} {entries : List (FilePath × ι)} (hnode : s.fs.tree.node c = .dir entries) :
    Inv fs path r
      { s with stack := ⟨p, c, [dot] :: [dot, dot] :: entries.map Prod.fst⟩ :: s.stack } := by
  have hproper : ∀ e ∈ entries, Proper e.1 :=
    hfs.proper_without s.removed c entries (h.fs_eq ▸ hnode)
  refine ⟨h.fs_eq, h.inside, h.valid, h.emptied, ?_, ?_⟩
  · exact List.forall_mem_cons.mpr ⟨hp, h.paths⟩
  · exact List.forall_mem_cons.mpr ⟨fun n hn => dots_or_proper hproper hn, h.names⟩

/-- The full path of a name of the loop. -/
theorem Inv.exists_fullPath (h : s.Inv fs path r) {frame : Frame ι} {rest : List (Frame ι)}
    (hstack : s.stack = frame :: rest) {n : FilePath} (hmem : n ∈ frame.names)
    (hdots : ¬ (n = [dot] ∨ n = [dot, dot])) (hfits : s.Fits (.entry n)) :
    ∃ names, combineEx maxPathLen frame.path n = fullPath path (names ++ [n]) ∧
      (∀ m ∈ names ++ [n], Proper m) ∧ (fullPath path (names ++ [n])).length < maxPathLen := by
  have hframe : frame ∈ s.stack := hstack ▸ List.mem_cons_self
  obtain ⟨hdot, hdotdot⟩ := not_or.mp hdots
  have hproper := ((h.names frame hframe n hmem).resolve_left hdot).resolve_left hdotdot
  have hlen := hfits frame (by simp [hstack]) hdot hdotdot
  obtain ⟨names, hpath, hnames, -⟩ := h.paths frame hframe
  refine ⟨names, ?_, ?_, ?_⟩
  · rw [combineEx_of_lt hlen, fullPath_concat, hpath]
  · simpa [or_imp, forall_and] using ⟨hnames, hproper⟩
  · rwa [fullPath_concat, ← hpath]

section Steps

variable (hfs : WellFormed fs) (hr : fs.stat path = some r) (hrdir : fs.tree.IsDir r)
  (hout : ¬ LeadsOutside fs path r)

include hr hout in
/-- `unlink` removes what `stat` did not take for a directory. -/
theorem Inv.inside_of_unlink (h : s.Inv fs path r) {n : FilePath}
    (hnames : ∀ m ∈ names ++ [n], Proper m)
    (hlen : (fullPath path (names ++ [n])).length < maxPathLen) {c : ι}
    (hstat : s.fs.stat (fullPath path (names ++ [n])) = some c) (hc : ¬ s.fs.tree.IsDir c)
    {e : DirEntry ι} (he : s.fs.unlink (fullPath path (names ++ [n])) = some e) :
    Inside fs r e := by
  have hpath := ne_nil_of_stat hr
  obtain ⟨limit', hreach⟩ := (stat_fullPath hpath hnames).mp hstat
  obtain ⟨d, limit, hd, hwalk⟩ := reaches_concat.mp hreach
  obtain ⟨-, ⟨limit'', he'⟩, -⟩ := (named_fullPath hpath hnames).mp (unlink_eq_some.mp he).1
  have hsame : e.dir = d := congrArg Prod.fst (Option.some.inj (he'.symm.trans hd))
  by_contra hinside
  apply hout
  refine ⟨names, n, d, limit, hlen, h.reaches hd, fun hwithin => ?_, .inl ⟨c, limit', ?_, ?_⟩⟩
  · exact hinside (.inl (hsame ▸ hwithin))
  · exact h.walk hwalk
  · exact fun hdir => hc (h.isDir.mpr hdir)

include hfs hr hrdir hout

/-- `rmdir` removes an empty directory. If it was not empty at the beginning, something
has been removed from it, so it is inside. -/
theorem Inv.inside_of_rmdir (h : s.Inv fs path r) {p : FilePath} (hp : Below path p)
    {e : DirEntry ι} (he : s.fs.rmdir p = some e) : Inside fs r e := by
  have hpath := ne_nil_of_stat hr
  obtain ⟨hnamed, hempty⟩ := rmdir_eq_some.mp he
  have hentry := h.entry (named_eq_some.mp hnamed).2.2
  have hdir : fs.tree.IsDir e.node := h.isDir.mp ⟨[], hempty⟩
  obtain ⟨names, rfl, hnames, hfits⟩ := hp
  rcases List.eq_nil_or_concat' names with rfl | ⟨names, n, rfl⟩
  · apply Or.inr
    apply node_of_named hr _ hdir
    obtain ⟨hlast, ⟨limit, hfollow⟩, -⟩ := named_eq_some.mp hnamed
    rw [h.fs_eq] at hfollow
    exact named_eq_some.mpr ⟨hlast, ⟨limit, follow_without hfollow⟩, hentry⟩
  · obtain ⟨hname, ⟨limit, hreach⟩, -⟩ := (named_fullPath hpath hnames).mp hnamed
    by_contra hinside
    have hwithin : ¬ fs.tree.Within r e.dir := fun hwithin => hinside (.inl hwithin)
    obtain ⟨entries, hnode⟩ := hdir
    cases entries with
    | nil =>
        have hlen := hfits.resolve_left (by simp)
        exact hout ⟨names, n, e.dir, limit, hlen, h.reaches hreach, hwithin,
          .inr ⟨e.node, hname ▸ hentry, hnode⟩⟩
    | cons first rest =>
        obtain ⟨e', he', hdir'⟩ := h.exists_removed hnode hempty
        rcases h.inside e' he' with hin | hin
        · rw [hdir'] at hin
          exact hinside (inside_of_within hfs hentry ⟨_, hnode⟩ hin)
        · -- `r` is empty now, so that no name leads further.
          have hrempty : s.fs.tree.node r = .dir [] := hin ▸ h.emptied e' he' (hin ▸ hrdir)
          have hroot : ∀ c k, Reaches s.fs path [] c k → c = r :=
            fun c k hc => reaches_nil hr (h.reaches hc)
          exact hwithin (eq_of_reaches_of_empty hroot hrempty hreach ▸ .root)

omit hfs hrdir in
theorem Inv.drop_unlink (h : s.Inv fs path r) {n : FilePath}
    (hnames : ∀ m ∈ names ++ [n], Proper m)
    (hlen : (fullPath path (names ++ [n])).length < maxPathLen) {c : ι}
    (hstat : s.fs.stat (fullPath path (names ++ [n])) = some c) (hc : ¬ s.fs.tree.IsDir c) :
    (s.drop (s.fs.unlink (fullPath path (names ++ [n])))).Inv fs path r := by
  cases he : s.fs.unlink (fullPath path (names ++ [n])) with
  | none => exact h
  | some e =>
      obtain ⟨hnamed, hnode⟩ := unlink_eq_some.mp he
      exact h.drop (h.inside_of_unlink hr hout hnames hlen hstat hc he)
        (named_eq_some.mp hnamed).2.2 fun hdir => absurd hdir hnode

theorem Inv.drop_rmdir (h : s.Inv fs path r) {p : FilePath} (hp : Below path p) :
    (s.drop (s.fs.rmdir p)).Inv fs path r := by
  cases he : s.fs.rmdir p with
  | none => exact h
  | some e =>
      obtain ⟨hnamed, hempty⟩ := rmdir_eq_some.mp he
      exact h.drop (h.inside_of_rmdir hfs hr hrdir hout hp he) (named_eq_some.mp hnamed).2.2
        fun _ => hempty

theorem Inv.leave (h : s.Inv fs path r) {p : FilePath} (hp : Below path p) (result : Bool) :
    (s.leave p result).Inv fs path r := by
  unfold Removal.leave
  split
  · exact ⟨h.fs_eq, h.inside, h.valid, h.emptied, h.paths, h.names⟩
  · exact h.drop_rmdir hfs hr hrdir hout hp

theorem Inv.step (h : s.Inv fs path r) {l : Label} (hfits : s.Fits l) {t : Removal ι}
    (hstep : Removal.step s l = some t) : t.Inv fs path r := by
  cases moves_of_step hstep with
  | skip hstack hmem hdots => exact h.took hstack _
  | fail hstack hmem hdots hstat =>
      have hframe := h.paths _ (hstack ▸ List.mem_cons_self)
      exact (h.pop hstack).leave hfs hr hrdir hout hframe false
  | enter hstack hmem hdots hstat hnode =>
      obtain ⟨names, hfull, hnames, hlen⟩ := h.exists_fullPath hstack hmem hdots hfits
      rw [hfull]
      exact (h.took hstack _).push hfs ⟨_, rfl, hnames, .inr hlen⟩ hnode
  | unlink hstack hmem hdots hstat hfile =>
      obtain ⟨names, hfull, hnames, hlen⟩ := h.exists_fullPath hstack hmem hdots hfits
      rw [hfull] at hstat ⊢
      exact (h.took hstack _).drop_unlink hr hout hnames hlen hstat hfile
  | @finish frame rest hstack hall =>
      have hframe : Below path frame.path := h.paths frame (hstack ▸ List.mem_cons_self)
      have hdrop := h.drop_rmdir hfs hr hrdir hout hframe
      have hkept := (drop_stack s (s.fs.rmdir frame.path)).trans hstack
      exact (hdrop.pop hkept).leave hfs hr hrdir hout hframe true

theorem Inv.call : (call fs path).Inv fs path r := by
  have hstart : Inv fs path r (⟨fs, [], none, []⟩ : Removal ι) := by
    constructor <;> simp [without_nil]
  have hpath : Below path path := ⟨[], rfl, by simp, .inl rfl⟩
  unfold Removal.call Removal.enter
  split
  · exact hstart.leave hfs hr hrdir hout hpath false
  · rename_i hopen
    obtain ⟨-, entries, hnode, rfl⟩ := opendir_eq_some.mp hopen
    exact hstart.push hfs hpath hnode

theorem inside_of_run {ls : List Label}
    (hfits : Machine.StepsMeet Removal.step Fits (call fs path) ls)
    (hrun : Machine.run Removal.step (call fs path) ls = some s) :
    ∀ e ∈ s.removed, Inside fs r e := by
  have hinv := Machine.run_invariant_of_stepsMeet (Inv fs path r)
    (Inv.call hfs hr hrdir hout) (fun t l u h hl hstep => h.step hfs hr hrdir hout hl hstep)
    hfits hrun
  exact hinv.inside

end Steps

end Removal

end XfUtil.Directory
