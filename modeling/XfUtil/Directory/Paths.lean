import XfUtil.Directory.Model

/-!
# Paths below a path

The full paths that `Remove` puts together are the given path and names of entries.
What the system calls answer for one of them is told by the walk along the names, and
a walk that still succeeds after a removal ends where it ended before.
-/

namespace XfUtil.Directory

open FilePath FileTree

/-! ## Paths that `Remove` puts together -/

/-- The path, and names below it. -/
def fullPath (path : FilePath) (names : List FilePath) : FilePath := names.foldl joined path

theorem fullPath_concat (path : FilePath) (names : List FilePath) (n : FilePath) :
    fullPath path (names ++ [n]) = joined (fullPath path names) n := by
  simp [fullPath]

theorem fullPath_ne_nil {path : FilePath} (h : path ≠ []) (names : List FilePath) :
    fullPath path names ≠ [] := by
  induction names using List.reverseRecOn with
  | nil => exact h
  | append_singleton names n ih =>
      rw [fullPath_concat]
      exact joined_ne_nil ih n

theorem steps_fullPath {path : FilePath} (hpath : path ≠ []) {names : List FilePath}
    (hnames : ∀ n ∈ names, Proper n) :
    steps (fullPath path names) =
      ⟨(steps path).absolute, (steps path).comps ++ names.map .name⟩ := by
  induction names using List.reverseRecOn with
  | nil => simp [fullPath]
  | append_singleton names n ih =>
      rw [fullPath_concat, steps_joined (fullPath_ne_nil hpath names) (hnames n (by simp)),
        ih fun m hm => hnames m (List.mem_append_left _ hm)]
      simp

variable {ι : Type*}

/-- What file systems look like: proper names, and one parent for each directory. -/
structure WellFormed (fs : FileSystem ι) : Prop where
  proper : ∀ d entries, fs.tree.node d = .dir entries → ∀ e ∈ entries, Proper e.1
  hierarchical : fs.tree.Hierarchical

/-- The names lead from the path to `d`, where `limit` links may still be followed. -/
def Reaches (fs : FileSystem ι) (path : FilePath) (names : List FilePath) (d : ι)
    (limit : Nat) : Prop :=
  fs.follow path ((steps path).comps ++ names.map .name) = some (d, limit)

variable {fs : FileSystem ι} {path : FilePath} {names : List FilePath} {d : ι} {limit : Nat}

theorem WellFormed.proper_of_entry (h : WellFormed fs) {n : FilePath} {c : ι}
    (hentry : fs.tree.entry d n = some c) : Proper n := by
  obtain ⟨entries, hnode⟩ := isDir_of_entry hentry
  exact h.proper d entries hnode (n, c) (mem_of_entry hnode hentry)

theorem reaches_append {xs ys : List FilePath} :
    Reaches fs path (xs ++ ys) d limit ↔
      ∃ c k, Reaches fs path xs c k ∧ fs.tree.walk k c (ys.map .name) = some (d, limit) := by
  unfold Reaches FileSystem.follow
  rw [List.map_append, ← List.append_assoc, walk_append, Option.bind_eq_some_iff]
  simp

/-- One name further. -/
theorem reaches_concat {n : FilePath} :
    Reaches fs path (names ++ [n]) d limit ↔
      ∃ c k, Reaches fs path names c k ∧ fs.tree.walk k c [.name n] = some (d, limit) :=
  reaches_append

theorem entry_of_walk_name {tree : FileTree ι FilePath} {n : FilePath} {p : ι × Nat}
    (h : tree.walk limit d [.name n] = some p) : ∃ c, tree.entry d n = some c := by
  cases hentry : tree.entry d n with
  | none =>
      have hlookup : tree.lookup d (.name n) = none := hentry
      rw [walk_missing limit hlookup] at h
      cases h
  | some c => exact ⟨c, rfl⟩

/-- Names that lead somewhere are names of entries. -/
theorem WellFormed.proper_of_reaches (h : WellFormed fs) (hreach : Reaches fs path names d limit) :
    ∀ n ∈ names, Proper n := by
  induction names using List.reverseRecOn generalizing d limit with
  | nil => simp
  | append_singleton names n ih =>
      obtain ⟨d', limit', hd', hn⟩ := reaches_concat.mp hreach
      obtain ⟨c, hentry⟩ := entry_of_walk_name hn
      intro m hm
      rcases List.mem_append.mp hm with hm | hm
      · exact ih hd' m hm
      · obtain rfl : m = n := by simpa using hm
        exact h.proper_of_entry hentry

theorem follow_fullPath (hpath : path ≠ []) (hnames : ∀ n ∈ names, Proper n)
    (comps : List (PathComponent FilePath)) :
    fs.follow (fullPath path names) comps = fs.follow path comps := by
  rw [FileSystem.follow, FileSystem.follow, steps_fullPath hpath hnames]
  rfl

theorem stat_fullPath (hpath : path ≠ []) (hnames : ∀ n ∈ names, Proper n) {c : ι} :
    fs.stat (fullPath path names) = some c ↔ ∃ limit, Reaches fs path names c limit := by
  rw [FileSystem.stat, if_neg (fullPath_ne_nil hpath names), follow_fullPath hpath hnames,
    steps_fullPath hpath hnames]
  simp [Reaches]

/-! ## System calls by what they answer -/

theorem opendir_eq_some {p : FilePath} {found : List FilePath} :
    fs.opendir p = some (d, found) ↔
      fs.stat p = some d ∧ ∃ entries, fs.tree.node d = .dir entries ∧
        found = [dot] :: [dot, dot] :: entries.map Prod.fst := by
  unfold FileSystem.opendir
  constructor
  · intro h
    split at h
    · cases h
    · rename_i c hstat
      split at h
      · rename_i entries hnode
        cases h
        exact ⟨hstat, entries, hnode, rfl⟩
      · cases h
  · rintro ⟨hstat, entries, hnode, rfl⟩
    simp [hstat, hnode]

theorem named_eq_some {p : FilePath} {e : DirEntry ι} :
    fs.named p = some e ↔
      (steps p).comps.getLast? = some (.name e.name) ∧
        (∃ limit, fs.follow p (steps p).comps.dropLast = some (e.dir, limit)) ∧
          fs.tree.entry e.dir e.name = some e.node := by
  obtain ⟨d, n, c⟩ := e
  unfold FileSystem.named
  constructor
  · intro h
    split at h
    · rename_i m hlast
      split at h
      · cases h
      · rename_i d' limit hfollow
        obtain ⟨c', hentry, heq⟩ := Option.map_eq_some_iff.mp h
        cases heq
        exact ⟨hlast, ⟨limit, hfollow⟩, hentry⟩
    · cases h
  · rintro ⟨hlast, ⟨limit, hfollow⟩, hentry⟩
    simp only at hlast hfollow hentry
    simp [hlast, hfollow, hentry]

theorem named_fullPath (hpath : path ≠ []) {n : FilePath}
    (hnames : ∀ m ∈ names ++ [n], Proper m) {e : DirEntry ι} :
    fs.named (fullPath path (names ++ [n])) = some e ↔
      e.name = n ∧ (∃ limit, Reaches fs path names e.dir limit) ∧
        fs.tree.entry e.dir n = some e.node := by
  have hcomps : (steps (fullPath path (names ++ [n]))).comps =
      (steps path).comps ++ names.map .name ++ [.name n] := by
    rw [steps_fullPath hpath hnames]
    simp
  rw [named_eq_some, hcomps, List.getLast?_concat, List.dropLast_concat,
    follow_fullPath hpath hnames, Option.some.injEq, PathComponent.name.injEq]
  constructor
  · rintro ⟨rfl, hreach, hentry⟩
    exact ⟨rfl, hreach, hentry⟩
  · rintro ⟨rfl, hreach, hentry⟩
    exact ⟨rfl, hreach, hentry⟩

theorem unlink_eq_some {p : FilePath} {e : DirEntry ι} :
    fs.unlink p = some e ↔ fs.named p = some e ∧ ¬ fs.tree.IsDir e.node := by
  unfold FileSystem.unlink FileTree.IsDir
  cases fs.named p with
  | none => simp
  | some e' =>
      simp only [Option.some.injEq]
      constructor
      · intro h
        split at h
        · cases h
        · rename_i hnode
          cases h
          exact ⟨rfl, fun hdir => hdir.elim hnode⟩
      · rintro ⟨rfl, hnode⟩
        split
        · rename_i entries hdir
          exact absurd ⟨entries, hdir⟩ hnode
        · rfl

theorem rmdir_eq_some {p : FilePath} {e : DirEntry ι} :
    fs.rmdir p = some e ↔ fs.named p = some e ∧ fs.tree.node e.node = .dir [] := by
  unfold FileSystem.rmdir
  cases fs.named p with
  | none => simp
  | some e' =>
      simp only [Option.some.injEq]
      constructor
      · intro h
        split at h
        · rename_i hnode
          cases h
          exact ⟨rfl, hnode⟩
        · cases h
      · rintro ⟨rfl, hnode⟩
        simp [hnode]

/-! ## The directory that the path names -/

theorem ne_nil_of_stat {r : ι} (hr : fs.stat path = some r) : path ≠ [] := by
  rintro rfl
  simp [FileSystem.stat] at hr

theorem reaches_nil {r : ι} (hr : fs.stat path = some r) :
    Reaches fs path [] d limit → d = r := by
  intro h
  have hstat : fs.stat (fullPath path []) = some d :=
    (stat_fullPath (ne_nil_of_stat hr) (by simp)).mpr ⟨limit, h⟩
  exact Option.some.inj (hstat.symm.trans hr)

/-- From an empty directory no name leads further. -/
theorem eq_of_reaches_of_empty {r : ι} (hroot : ∀ c k, Reaches fs path [] c k → c = r)
    (hempty : fs.tree.node r = .dir []) (hreach : Reaches fs path names d limit) : d = r := by
  rw [← List.nil_append names] at hreach
  obtain ⟨c, k, hc, hwalk⟩ := reaches_append.mp hreach
  obtain rfl := hroot c k hc
  cases names with
  | nil =>
      obtain ⟨hcd, -⟩ : c = d ∧ k = limit := by simpa using hwalk
      exact hcd.symm
  | cons n names =>
      have hlookup : fs.tree.lookup c (.name n) = none := by
        simp [FileTree.lookup, FileTree.entry, hempty]
      rw [List.map_cons, walk_missing k hlookup] at hwalk
      cases hwalk

/-- The walk to a directory ends with its entry. -/
theorem follow_of_named {e : DirEntry ι} (hnamed : fs.named path = some e)
    (hdir : fs.tree.IsDir e.node) :
    ∃ limit, fs.follow path (steps path).comps = some (e.node, limit) := by
  obtain ⟨hlast, ⟨limit, hfollow⟩, hentry⟩ := named_eq_some.mp hnamed
  obtain ⟨entries, hnode⟩ := hdir
  have hcomps : (steps path).comps = (steps path).comps.dropLast ++ [.name e.name] :=
    (List.dropLast_append_getLast? _ hlast).symm
  have hplain : ∀ target, fs.tree.node e.node ≠ .link target := by simp [hnode]
  refine ⟨limit, ?_⟩
  rw [FileSystem.follow] at hfollow
  rw [hcomps, FileSystem.follow, walk_append]
  simp [hfollow, walk_entry limit hentry hplain]

theorem stat_of_named {e : DirEntry ι} (hnamed : fs.named path = some e)
    (hdir : fs.tree.IsDir e.node) : fs.stat path = some e.node := by
  have hpath : path ≠ [] := by
    rintro rfl
    cases hnamed
  obtain ⟨limit, hend⟩ := follow_of_named hnamed hdir
  rw [FileSystem.stat, if_neg hpath, hend]
  rfl

theorem node_of_named {r : ι} {e : DirEntry ι} (hr : fs.stat path = some r)
    (hnamed : fs.named path = some e) (hdir : fs.tree.IsDir e.node) : e.node = r :=
  Option.some.inj ((stat_of_named hnamed hdir).symm.trans hr)

/-! ## One entry further -/

theorem stat_joined (hfs : WellFormed fs) (hpath : path ≠ []) {n : FilePath} {c : ι} {k : Nat}
    (hreach : Reaches fs path names d limit)
    (hwalk : fs.tree.walk limit d [.name n] = some (c, k)) :
    fs.stat (joined (fullPath path names) n) = some c := by
  have hreach' := reaches_concat.mpr ⟨d, limit, hreach, hwalk⟩
  rw [← fullPath_concat]
  exact (stat_fullPath hpath (hfs.proper_of_reaches hreach')).mpr ⟨k, hreach'⟩

theorem named_joined (hfs : WellFormed fs) (hpath : path ≠ []) {n : FilePath} {c : ι}
    (hreach : Reaches fs path names d limit) (hentry : fs.tree.entry d n = some c) :
    fs.named (joined (fullPath path names) n) = some ⟨d, n, c⟩ := by
  have hnames : ∀ m ∈ names ++ [n], Proper m := by
    simpa [or_imp, forall_and] using ⟨hfs.proper_of_reaches hreach, hfs.proper_of_entry hentry⟩
  rw [← fullPath_concat]
  exact (named_fullPath hpath hnames).mpr ⟨rfl, ⟨limit, hreach⟩, hentry⟩

/-! ## With fewer entries -/

variable [DecidableEq ι] {removed : List (DirEntry ι)}

theorem without_nil (fs : FileSystem ι) : fs.without [] = fs := by
  cases fs
  simp [FileSystem.without, prune_nil]

theorem without_without (fs : FileSystem ι) (xs ys : List (DirEntry ι)) :
    (fs.without xs).without ys = fs.without (xs ++ ys) := by
  simp [FileSystem.without, prune_prune]

theorem follow_without {comps : List (PathComponent FilePath)} {p : ι × Nat}
    (h : (fs.without removed).follow path comps = some p) : fs.follow path comps = some p :=
  walk_prune _ _ _ h

/-- Removing entries makes no names up. -/
theorem WellFormed.proper_without (h : WellFormed fs) (removed : List (DirEntry ι)) :
    ∀ d entries, (fs.without removed).tree.node d = .dir entries → ∀ e ∈ entries, Proper e.1 := by
  intro d entries hnode e he
  obtain ⟨all, hall⟩ := isDir_prune.mp ⟨entries, hnode⟩
  have hpruned := hnode.symm.trans (prune_dir hall)
  rw [FileNode.dir.injEq] at hpruned
  rw [hpruned] at he
  exact h.proper d all hall e (List.mem_of_mem_filter he)

theorem Reaches.of_without (h : Reaches (fs.without removed) path names d limit) :
    Reaches fs path names d limit :=
  follow_without h

end XfUtil.Directory
