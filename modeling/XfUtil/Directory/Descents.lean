import XfUtil.Base.Descent
import XfUtil.Directory.Paths

/-!
# Full paths and positions

Without symbolic links, the names that follow the given path in a full path are a position
below the directory that the path names.
-/

namespace XfUtil.Directory

open FilePath FileTree

/-! ## The length of a full path -/

theorem length_lt_joined (path name : FilePath) (hname : name ≠ []) :
    path.length < (joined path name).length := by
  have hpos := List.length_pos_of_ne_nil hname
  unfold joined
  split
  · rw [List.length_append]
    omega
  · rw [List.length_append, List.length_cons]
    omega

theorem length_le_fullPath (path : FilePath) {names : List FilePath}
    (hnames : ∀ n ∈ names, Proper n) :
    path.length + names.length ≤ (fullPath path names).length := by
  induction names using List.reverseRecOn with
  | nil => simp [fullPath]
  | append_singleton names n ih =>
      have hle := ih fun m hm => hnames m (List.mem_append_left _ hm)
      have hlt := length_lt_joined (fullPath path names) n (hnames n (by simp)).ne_nil
      rw [fullPath_concat, List.length_append, List.length_singleton]
      omega

variable {ι : Type*} {fs : FileSystem ι} {path : FilePath} {r d c : ι} {ns : List FilePath}
  {n : FilePath}

/-- Below the path, all full paths fit into `char[MAX_PATH_LEN]`. -/
def PathsFit (fs : FileSystem ι) (path : FilePath) (r : ι) : Prop :=
  ∀ ns d, fs.tree.descend r ns = some d → ns ≠ [] → (fullPath path ns).length < maxPathLen

theorem PathsFit.combineEx_eq (h : PathsFit fs path r) (hdown : fs.tree.descend r ns = some d)
    (hentry : fs.tree.entry d n = some c) :
    combineEx maxPathLen (fullPath path ns) n = fullPath path (ns ++ [n]) := by
  have hfits := h (ns ++ [n]) c (descend_concat_eq_some.mpr ⟨d, hdown, hentry⟩) (by simp)
  rw [fullPath_concat] at hfits ⊢
  exact combineEx_of_lt hfits

/-! ## Positions and what the system calls answer -/

theorem reaches_iff_descend (hplain : fs.tree.Plain r) (hr : fs.stat path = some r) :
    (∃ limit, Reaches fs path ns d limit) ↔ fs.tree.descend r ns = some d := by
  have hne := ne_nil_of_stat hr
  constructor
  · rintro ⟨limit, hreach⟩
    rw [← List.nil_append ns] at hreach
    obtain ⟨e, k, he, hwalk⟩ := reaches_append.mp hreach
    obtain rfl := reaches_nil hr he
    rw [walk_names hplain] at hwalk
    obtain ⟨d', hd', heq⟩ := Option.map_eq_some_iff.mp hwalk
    cases heq
    exact hd'
  · intro hdown
    obtain ⟨limit, hroot⟩ := (stat_fullPath hne (List.forall_mem_nil Proper)).mp hr
    refine ⟨limit, ?_⟩
    rw [← List.nil_append ns]
    refine reaches_append.mpr ⟨r, limit, hroot, ?_⟩
    rw [walk_names hplain, hdown]
    rfl

theorem WellFormed.proper_of_descend (h : WellFormed fs) (hdown : fs.tree.descend r ns = some d) :
    ∀ n ∈ ns, Proper n := by
  induction ns using List.reverseRecOn generalizing d with
  | nil => simp
  | append_singleton ns n ih =>
      obtain ⟨e, he, hentry⟩ := descend_concat_eq_some.mp hdown
      intro m hm
      rcases List.mem_append.mp hm with hm | hm
      · exact ih he m hm
      · rw [List.mem_singleton.mp hm]
        exact h.proper_of_entry hentry

theorem stat_of_descend (hfs : WellFormed fs) (hplain : fs.tree.Plain r)
    (hr : fs.stat path = some r) (hdown : fs.tree.descend r ns = some d) :
    fs.stat (fullPath path ns) = some d :=
  (stat_fullPath (ne_nil_of_stat hr) (hfs.proper_of_descend hdown)).mpr
    ((reaches_iff_descend hplain hr).mpr hdown)

/-- A directory can be opened, and all of its entries are found. -/
theorem opendir_of_descend (hfs : WellFormed fs) (hplain : fs.tree.Plain r)
    (hr : fs.stat path = some r) (hdown : fs.tree.descend r ns = some d)
    {entries : List (FilePath × ι)} (hnode : fs.tree.node d = .dir entries) :
    fs.opendir (fullPath path ns) = some (d, [dot] :: [dot, dot] :: entries.map Prod.fst) :=
  opendir_eq_some.mpr ⟨stat_of_descend hfs hplain hr hdown, entries, hnode, rfl⟩

/-! ## A directory with one file -/

/-- `/d` with a file of this name. -/
def holding (name : FilePath) : FileSystem Nat where
  tree :=
    { node := fun
        | 0 => .dir [([0x64#8], 1)]
        | 1 => .dir [(name, 2)]
        | _ => .file
      parent := fun _ => 0
      root := 0 }
  cwd := 0
  symloopMax := 40

section

variable {name m : FilePath} {d c : Nat} {entries : List (FilePath × Nat)}

theorem holding_dir (h : (holding name).tree.node d = .dir entries) :
    d = 0 ∧ entries = [([0x64#8], 1)] ∨ d = 1 ∧ entries = [(name, 2)] := by
  rcases d with _ | _ | d <;> cases h <;> simp

theorem holding_entry (h : (holding name).tree.entry d m = some c) :
    d = 0 ∧ m = [0x64#8] ∧ c = 1 ∨ d = 1 ∧ m = name ∧ c = 2 := by
  obtain ⟨entries, hnode⟩ := isDir_of_entry h
  have hmem := mem_of_entry hnode h
  obtain ⟨rfl, rfl⟩ | ⟨rfl, rfl⟩ := holding_dir hnode
  · exact Or.inl ⟨rfl, Prod.mk.inj (List.mem_singleton.mp hmem)⟩
  · exact Or.inr ⟨rfl, Prod.mk.inj (List.mem_singleton.mp hmem)⟩

theorem holding_descend {ns : List FilePath} (h : (holding name).tree.descend 1 ns = some c) :
    ns = [] ∧ c = 1 ∨ ns = [name] ∧ c = 2 := by
  cases ns with
  | nil =>
      cases h
      exact Or.inl ⟨rfl, rfl⟩
  | cons n ns =>
      obtain ⟨e, he, hrest⟩ := descend_cons_eq_some.mp h
      rcases holding_entry he with ⟨h1, -⟩ | ⟨-, rfl, rfl⟩
      · cases h1
      · cases ns with
        | nil =>
            cases hrest
            exact Or.inr ⟨rfl, rfl⟩
        | cons m ns =>
            obtain ⟨e, he, -⟩ := descend_cons_eq_some.mp hrest
            rcases holding_entry he with ⟨h2, -⟩ | ⟨h2, -⟩ <;> cases h2

theorem holding_plain (name : FilePath) : (holding name).tree.Plain 1 := by
  intro ns c _ target hlink
  rcases c with _ | _ | c <;> cases hlink

theorem holding_single (name : FilePath) : (holding name).tree.Single := by
  intro d n d' n' c h h' _
  rcases holding_entry h with ⟨rfl, rfl, rfl⟩ | ⟨rfl, rfl, rfl⟩ <;>
    rcases holding_entry h' with ⟨rfl, rfl, hc⟩ | ⟨rfl, rfl, hc⟩ <;>
      first | exact ⟨rfl, rfl⟩ | cases hc

theorem holding_wellFormed (hname : Proper name) : WellFormed (holding name) := by
  constructor
  · intro d entries hnode e he
    obtain ⟨-, rfl⟩ | ⟨-, rfl⟩ := holding_dir hnode
    · rw [List.mem_singleton.mp he]
      constructor <;> decide
    · rw [List.mem_singleton.mp he]
      exact hname
  · intro d n d' n' c h h' hdir
    exact (holding_single name d n d' n' c h h' hdir).1

end

end XfUtil.Directory
