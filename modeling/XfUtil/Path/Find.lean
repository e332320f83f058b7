import XfUtil.Directory.Descents

/-!
# `Path::List` and `Path::Find`

`List` hands the path of the directory to the callback, and the name. `Find` goes down the
tree and hands over the full path of what it has found, and the name. The two agree only where
nothing is found.
-/

namespace XfUtil

open FilePath FileTree

/-- The arguments of a callback: `dirname` and `filename`. -/
abbrev FoundCall := FilePath × FilePath

namespace FileSystem

variable {ι : Type*} (fs : FileSystem ι) (fnmatch : FilePath → FilePath → Bool)
  (pattern : FilePath)

/-- `Path::List`, with the calls of the callback. -/
def list (path : FilePath) : Bool × List FoundCall :=
  match fs.opendir path with
  | none => (false, [])
  | some (_, names) =>
      (true, (names.filter fun n => n ≠ [dot] ∧ n ≠ [dot, dot] ∧ fnmatch pattern n).map fun n =>
        (path, n))

/-- The loop of `Path::Find`; `inner` is the call of itself. -/
def findNames (inner : FilePath → Option (Bool × List FoundCall)) (path : FilePath) :
    List FilePath → Option (List FoundCall)
  | [] => some []
  | n :: names =>
      if n = [dot] ∨ n = [dot, dot] then findNames inner path names
      else
        let fullPath := combineEx maxPathLen path n
        let below :=
          match fs.stat fullPath with
          | none => some []
          | some c =>
              match fs.tree.node c with
              | .dir _ => (inner fullPath).map Prod.snd
              | _ => some []
        let own := if fnmatch pattern n then [(fullPath, n)] else []
        below.bind fun calls =>
          (findNames inner path names).map fun rest => calls ++ (own ++ rest)

/-- `Path::Find`, as deep as `fuel` allows. -/
def find : Nat → FilePath → Option (Bool × List FoundCall)
  | 0, _ => none
  | fuel + 1, path =>
      match fs.opendir path with
      | none => some (false, [])
      | some (_, names) =>
          (fs.findNames fnmatch pattern (find fuel) path names).map fun calls => (true, calls)

end FileSystem

namespace Directory

variable {ι : Type*} {fs : FileSystem ι} {fnmatch : FilePath → FilePath → Bool}
  {pattern path : FilePath} {r d c : ι} {ns : List FilePath} {n : FilePath}

/-! ## What is given -/

/-- A finite tree of directories and files below the path, without links, and all of its full
paths fit. -/
structure Searchable (fs : FileSystem ι) (path : FilePath) (r : ι) : Prop where
  wellFormed : WellFormed fs
  plain : fs.tree.Plain r
  stat_eq : fs.stat path = some r
  isDir : fs.tree.IsDir r
  fits : PathsFit fs path r

/-- The positions of the directories, each once. -/
structure Directories (fs : FileSystem ι) (r : ι) (dirs : List (List FilePath)) : Prop where
  nodup : dirs.Nodup
  mem_iff : ∀ ns, ns ∈ dirs ↔ ∃ d, fs.tree.descend r ns = some d ∧ fs.tree.IsDir d

/-- The call is one for a match in a directory of the tree. -/
def Matches (fs : FileSystem ι) (fnmatch : FilePath → FilePath → Bool) (pattern : FilePath)
    (r : ι) (ns : List FilePath) (n : FilePath) : Prop :=
  ∃ d c, fs.tree.descend r ns = some d ∧ fs.tree.entry d n = some c ∧ fnmatch pattern n = true

theorem exists_entry_of_opened {tree : FileTree ι FilePath} {entries : List (FilePath × ι)}
    (hnode : tree.node d = .dir entries)
    (hn : n ∈ [dot] :: [dot, dot] :: entries.map Prod.fst) (hdot : n ≠ [dot])
    (hdotdot : n ≠ [dot, dot]) : ∃ c, tree.entry d n = some c :=
  exists_entry_of_mem hnode (List.mem_of_ne_of_mem hdotdot (List.mem_of_ne_of_mem hdot hn))

/-! ## `List` -/

theorem Searchable.mem_list (h : Searchable fs path r) (hdown : fs.tree.descend r ns = some d)
    (hd : fs.tree.IsDir d) {call : FoundCall} :
    call ∈ (fs.list fnmatch pattern (fullPath path ns)).2 ↔
      call.1 = fullPath path ns ∧ Matches fs fnmatch pattern r ns call.2 := by
  obtain ⟨entries, hnode⟩ := hd
  obtain ⟨dirname, filename⟩ := call
  unfold FileSystem.list
  rw [opendir_of_descend h.wellFormed h.plain h.stat_eq hdown hnode]
  simp only [List.mem_map, List.mem_filter, decide_eq_true_eq, Prod.mk.injEq]
  constructor
  · rintro ⟨n, ⟨hn, hdot, hdotdot, hmatch⟩, rfl, rfl⟩
    obtain ⟨c, hc⟩ := exists_entry_of_opened hnode hn hdot hdotdot
    exact ⟨rfl, d, c, hdown, hc, hmatch⟩
  · rintro ⟨rfl, d', c, hd', hc, hmatch⟩
    obtain rfl : d = d' := Option.some.inj (hdown.symm.trans hd')
    have hproper := h.wellFormed.proper_of_entry hc
    have hmem := mem_names_of_entry hnode hc
    exact ⟨filename, ⟨List.mem_cons_of_mem _ (List.mem_cons_of_mem _ hmem), hproper.ne_dot,
      hproper.ne_dotdot, hmatch⟩, rfl, rfl⟩

/-! ## `Find` -/

section

variable {inner : FilePath → Option (Bool × List FoundCall)}

theorem findNames_isSome {names : List FilePath}
    (hinner : ∀ n ∈ names, n ≠ [dot] → n ≠ [dot, dot] → ∀ c,
      fs.stat (combineEx maxPathLen path n) = some c → fs.tree.IsDir c →
        (inner (combineEx maxPathLen path n)).isSome) :
    (fs.findNames fnmatch pattern inner path names).isSome := by
  induction names with
  | nil => rfl
  | cons n names ih =>
      have hrest := ih fun m hm => hinner m (List.mem_cons_of_mem _ hm)
      obtain ⟨rest, hrest⟩ := Option.isSome_iff_exists.mp hrest
      unfold FileSystem.findNames
      split
      · rw [hrest]
        rfl
      · rename_i hdots
        obtain ⟨hdot, hdotdot⟩ := not_or.mp hdots
        have hfirst := hinner n List.mem_cons_self hdot hdotdot
        rw [hrest]
        dsimp only
        split
        · rfl
        · rename_i c hstat
          split
          · rename_i entries hnode
            obtain ⟨below, hbelow⟩ :=
              Option.isSome_iff_exists.mp (hfirst c hstat ⟨entries, hnode⟩)
            rw [hbelow]
            rfl
          · rfl

theorem of_mem_findNames {names : List FilePath} {calls : List FoundCall}
    (hcalls : fs.findNames fnmatch pattern inner path names = some calls) {call : FoundCall}
    (hmem : call ∈ calls) :
    (call.2 ∈ names ∧ call.2 ≠ [dot] ∧ call.2 ≠ [dot, dot] ∧ fnmatch pattern call.2 = true) ∨
      ∃ n ∈ names, n ≠ [dot] ∧ n ≠ [dot, dot] ∧ ∃ ret below,
        (∃ c, fs.stat (combineEx maxPathLen path n) = some c ∧ fs.tree.IsDir c) ∧
        inner (combineEx maxPathLen path n) = some (ret, below) ∧ call ∈ below := by
  induction names generalizing calls with
  | nil =>
      cases hcalls
      cases hmem
  | cons n names ih =>
      have hlater : ∀ {rest}, fs.findNames fnmatch pattern inner path names = some rest →
          call ∈ rest →
          (call.2 ∈ n :: names ∧ call.2 ≠ [dot] ∧ call.2 ≠ [dot, dot] ∧
            fnmatch pattern call.2 = true) ∨
          ∃ m ∈ n :: names, m ≠ [dot] ∧ m ≠ [dot, dot] ∧ ∃ ret below,
            (∃ c, fs.stat (combineEx maxPathLen path m) = some c ∧ fs.tree.IsDir c) ∧
            inner (combineEx maxPathLen path m) = some (ret, below) ∧ call ∈ below := by
        intro rest hrest hcall
        rcases ih hrest hcall with ⟨hm, hown⟩ | ⟨m, hm, hbelow⟩
        · exact Or.inl ⟨List.mem_cons_of_mem _ hm, hown⟩
        · exact Or.inr ⟨m, List.mem_cons_of_mem _ hm, hbelow⟩
      unfold FileSystem.findNames at hcalls
      split at hcalls
      · exact hlater hcalls hmem
      · rename_i hdots
        obtain ⟨hdot, hdotdot⟩ := not_or.mp hdots
        obtain ⟨below, hbelow, hcalls⟩ := Option.bind_eq_some_iff.mp hcalls
        obtain ⟨rest, hrest, rfl⟩ := Option.map_eq_some_iff.mp hcalls
        rcases List.mem_append.mp hmem with hin | hmem
        · split at hbelow
          · cases hbelow
            cases hin
          · rename_i c hstat
            split at hbelow
            · rename_i entries hnode
              obtain ⟨⟨ret, found⟩, hinner, rfl⟩ := Option.map_eq_some_iff.mp hbelow
              exact Or.inr ⟨n, List.mem_cons_self, hdot, hdotdot, ret, found,
                ⟨c, hstat, entries, hnode⟩, hinner, hin⟩
            · cases hbelow
              cases hin
        · rcases List.mem_append.mp hmem with hown | hcall
          · split at hown
            · rename_i hmatch
              rw [List.mem_singleton.mp hown]
              exact Or.inl ⟨List.mem_cons_self, hdot, hdotdot, hmatch⟩
            · cases hown
          · exact hlater hrest hcall

/-- A match is handed over with its full path, and so is what a call inside hands over. -/
theorem mem_findNames {names : List FilePath} {calls : List FoundCall}
    (hcalls : fs.findNames fnmatch pattern inner path names = some calls) (hn : n ∈ names)
    (hdot : n ≠ [dot]) (hdotdot : n ≠ [dot, dot]) :
    (fnmatch pattern n = true → (combineEx maxPathLen path n, n) ∈ calls) ∧
      ∀ c, fs.stat (combineEx maxPathLen path n) = some c → fs.tree.IsDir c →
        ∃ ret below, inner (combineEx maxPathLen path n) = some (ret, below) ∧
          ∀ call ∈ below, call ∈ calls := by
  induction names generalizing calls with
  | nil => cases hn
  | cons m names ih =>
      unfold FileSystem.findNames at hcalls
      split at hcalls
      · rename_i hdots
        have hne : n ≠ m := by
          rintro rfl
          exact hdots.elim hdot hdotdot
        exact ih hcalls (List.mem_of_ne_of_mem hne hn)
      · obtain ⟨below, hbelow, hcalls⟩ := Option.bind_eq_some_iff.mp hcalls
        obtain ⟨rest, hrest, rfl⟩ := Option.map_eq_some_iff.mp hcalls
        rcases List.mem_cons.mp hn with rfl | hn
        · constructor
          · intro hmatch
            simp [hmatch]
          · rintro c hstat ⟨entries, hnode⟩
            simp only [hstat, hnode] at hbelow
            obtain ⟨⟨ret, found⟩, hinner, rfl⟩ := Option.map_eq_some_iff.mp hbelow
            exact ⟨ret, found, hinner, fun call hcall => List.mem_append_left _ hcall⟩
        · obtain ⟨hown, hinside⟩ := ih hrest hn
          have hlast : ∀ call ∈ rest, call ∈
              below ++ ((if fnmatch pattern m then [(combineEx maxPathLen path m, m)] else []) ++
                rest) :=
            fun call hcall => List.mem_append_right _ (List.mem_append_right _ hcall)
          refine ⟨fun hmatch => hlast _ (hown hmatch), fun c hstat hdir => ?_⟩
          obtain ⟨ret, found, hinner, hfound⟩ := hinside c hstat hdir
          exact ⟨ret, found, hinner, fun call hcall => hlast call (hfound call hcall)⟩

end

theorem Searchable.length_lt (h : Searchable fs path r) (hdown : fs.tree.descend r ns = some d) :
    ns.length < maxPathLen := by
  by_cases hns : ns = []
  · subst hns
    exact Nat.zero_lt_of_ne_zero (by decide)
  · have hfit := h.fits ns d hdown hns
    have hle := length_le_fullPath path (h.wellFormed.proper_of_descend hdown)
    omega

theorem Searchable.find_succ (h : Searchable fs path r) {entries : List (FilePath × ι)}
    (hdown : fs.tree.descend r ns = some d) (hnode : fs.tree.node d = .dir entries) (fuel : Nat) :
    fs.find fnmatch pattern (fuel + 1) (fullPath path ns) =
      (fs.findNames fnmatch pattern (fs.find fnmatch pattern fuel) (fullPath path ns)
        ([dot] :: [dot, dot] :: entries.map Prod.fst)).map fun calls => (true, calls) := by
  rw [FileSystem.find, opendir_of_descend h.wellFormed h.plain h.stat_eq hdown hnode]

theorem Searchable.findNames_of_find (h : Searchable fs path r) {entries : List (FilePath × ι)}
    (hdown : fs.tree.descend r ns = some d) (hnode : fs.tree.node d = .dir entries) {fuel : Nat}
    {ret : Bool} {calls : List FoundCall}
    (hfind : fs.find fnmatch pattern fuel (fullPath path ns) = some (ret, calls)) :
    ∃ inner, fuel = inner + 1 ∧
      fs.findNames fnmatch pattern (fs.find fnmatch pattern inner) (fullPath path ns)
        ([dot] :: [dot, dot] :: entries.map Prod.fst) = some calls := by
  cases fuel with
  | zero => cases hfind
  | succ inner =>
      rw [h.find_succ hdown hnode] at hfind
      obtain ⟨found, hfound, heq⟩ := Option.map_eq_some_iff.mp hfind
      cases heq
      exact ⟨inner, rfl, hfound⟩

/-- Below a directory `Find` ends, and no full path has more names than fit. -/
theorem Searchable.find_isSome (h : Searchable fs path r) {fuel : Nat}
    (hdown : fs.tree.descend r ns = some d) (hd : fs.tree.IsDir d)
    (hfuel : maxPathLen < ns.length + fuel) :
    (fs.find fnmatch pattern fuel (fullPath path ns)).isSome := by
  induction fuel generalizing ns d with
  | zero =>
      have hlen := h.length_lt hdown
      omega
  | succ fuel ih =>
      obtain ⟨entries, hnode⟩ := hd
      rw [h.find_succ hdown hnode, Option.isSome_map]
      apply findNames_isSome
      intro n hn hdot hdotdot c hstat hc
      obtain ⟨c', hentry⟩ := exists_entry_of_opened hnode hn hdot hdotdot
      have hbelow := descend_concat_eq_some.mpr ⟨d, hdown, hentry⟩
      rw [h.fits.combineEx_eq hdown hentry] at hstat ⊢
      have hsame := stat_of_descend h.wellFormed h.plain h.stat_eq hbelow
      obtain rfl : c = c' := Option.some.inj (hstat.symm.trans hsame)
      refine ih hbelow hc ?_
      rw [List.length_append, List.length_singleton]
      omega

theorem Searchable.matches_of_mem_find (h : Searchable fs path r) {fuel : Nat}
    (hdown : fs.tree.descend r ns = some d) (hd : fs.tree.IsDir d) {ret : Bool}
    {calls : List FoundCall}
    (hfind : fs.find fnmatch pattern fuel (fullPath path ns) = some (ret, calls))
    {call : FoundCall} (hmem : call ∈ calls) :
    ∃ ms, Matches fs fnmatch pattern r ms call.2 := by
  induction fuel generalizing ns d ret calls with
  | zero => cases hfind
  | succ fuel ih =>
      obtain ⟨entries, hnode⟩ := hd
      obtain ⟨inner, heq, hfound⟩ := h.findNames_of_find hdown hnode hfind
      cases heq
      rcases of_mem_findNames hfound hmem with
        ⟨hn, hdot, hdotdot, hmatch⟩ |
          ⟨n, hn, hdot, hdotdot, ret, below, ⟨c, hstat, hc⟩, hinner, hin⟩
      · obtain ⟨c, hentry⟩ := exists_entry_of_opened hnode hn hdot hdotdot
        exact ⟨ns, d, c, hdown, hentry, hmatch⟩
      · obtain ⟨c', hentry⟩ := exists_entry_of_opened hnode hn hdot hdotdot
        have hbelow := descend_concat_eq_some.mpr ⟨d, hdown, hentry⟩
        rw [h.fits.combineEx_eq hdown hentry] at hstat hinner
        have hsame := stat_of_descend h.wellFormed h.plain h.stat_eq hbelow
        obtain rfl : c = c' := Option.some.inj (hstat.symm.trans hsame)
        exact ih hbelow hc hinner hin

theorem Searchable.mem_find (h : Searchable fs path r) {fuel : Nat} {ms : List FilePath}
    (hdown : fs.tree.descend r ns = some d) (hd : fs.tree.IsDir d) {ret : Bool}
    {calls : List FoundCall}
    (hfind : fs.find fnmatch pattern fuel (fullPath path ns) = some (ret, calls))
    (hmatch : Matches fs fnmatch pattern d ms n) :
    (fullPath path (ns ++ ms ++ [n]), n) ∈ calls := by
  induction ms generalizing ns d fuel ret calls with
  | nil =>
      obtain ⟨d', c, hd', hentry, hmatch⟩ := hmatch
      cases hd'
      obtain ⟨entries, hnode⟩ := hd
      have hproper := h.wellFormed.proper_of_entry hentry
      have hname := mem_names_of_entry hnode hentry
      obtain ⟨inner, rfl, hfound⟩ := h.findNames_of_find hdown hnode hfind
      have hown := (mem_findNames hfound
        (List.mem_cons_of_mem _ (List.mem_cons_of_mem _ hname)) hproper.ne_dot
        hproper.ne_dotdot).1 hmatch
      rwa [h.fits.combineEx_eq hdown hentry, ← List.append_nil ns] at hown
  | cons m ms ih =>
      obtain ⟨d', c, hd', hentry, hmatch⟩ := hmatch
      obtain ⟨e, he, hrest⟩ := descend_cons_eq_some.mp hd'
      obtain ⟨entries, hnode⟩ := hd
      have hproper := h.wellFormed.proper_of_entry he
      have hname := mem_names_of_entry hnode he
      have hbelow := descend_concat_eq_some.mpr ⟨d, hdown, he⟩
      -- Something is below it, so it is a directory.
      have hdir : fs.tree.IsDir e := by
        cases ms with
        | nil =>
            cases hrest
            exact isDir_of_entry hentry
        | cons m' ms =>
            obtain ⟨e', he', -⟩ := descend_cons_eq_some.mp hrest
            exact isDir_of_entry he'
      obtain ⟨inner, rfl, hfound⟩ := h.findNames_of_find hdown hnode hfind
      have hstat := stat_of_descend h.wellFormed h.plain h.stat_eq hbelow
      have hinside := (mem_findNames hfound
        (List.mem_cons_of_mem _ (List.mem_cons_of_mem _ hname)) hproper.ne_dot
        hproper.ne_dotdot).2
      rw [h.fits.combineEx_eq hdown he] at hinside
      obtain ⟨ret', below, hinner, hsub⟩ := hinside e hstat hdir
      have hmem := ih hbelow hdir hinner ⟨d', c, hrest, hentry, hmatch⟩
      rw [List.append_assoc ns, List.singleton_append] at hmem
      exact hsub _ hmem

/-! ## Both -/

/-- `Find` ends, and its calls are those of `List` in all directories, in some order. -/
def FindsAsListed (fs : FileSystem ι) (fnmatch : FilePath → FilePath → Bool)
    (pattern path : FilePath) (dirs : List (List FilePath)) : Prop :=
  ∃ fuel ret calls, fs.find fnmatch pattern fuel path = some (ret, calls) ∧
    calls.Perm (dirs.flatMap fun ns => (fs.list fnmatch pattern (fullPath path ns)).2)

section

variable (h : Searchable fs path r) {dirs : List (List FilePath)} (hdirs : Directories fs r dirs)

include h hdirs

theorem Searchable.mem_lists {call : FoundCall}
    (hcall : call ∈ dirs.flatMap fun ns => (fs.list fnmatch pattern (fullPath path ns)).2) :
    ∃ ns, call.1 = fullPath path ns ∧ Matches fs fnmatch pattern r ns call.2 := by
  obtain ⟨ns, hns, hcall⟩ := List.mem_flatMap.mp hcall
  obtain ⟨d, hdown, hd⟩ := (hdirs.mem_iff ns).mp hns
  exact ⟨ns, (h.mem_list hdown hd).mp hcall⟩

/-- A match with a longest directory would be handed over by `List` with a longer one. -/
theorem FindsAsListed.not_matches (hfinds : FindsAsListed fs fnmatch pattern path dirs) :
    ¬ Matches fs fnmatch pattern r ns n := by
  obtain ⟨fuel, ret, calls, hfind, hperm⟩ := hfinds
  have hlonger : ∀ k ns n, maxPathLen + path.length < (fullPath path ns).length + k →
      ¬ Matches fs fnmatch pattern r ns n := by
    intro k
    induction k with
    | zero =>
        rintro ns n hlen ⟨d, c, hdown, -, -⟩
        by_cases hns : ns = []
        · subst hns
          have hself : (fullPath path []).length = path.length := rfl
          omega
        · have hfit := h.fits ns d hdown hns
          omega
    | succ k ih =>
        intro ns n hlen hmatch
        have hmem := h.mem_find (n := n) (descend_nil fs.tree r) h.isDir hfind hmatch
        rw [List.nil_append] at hmem
        obtain ⟨ms, hms, hmatch'⟩ := h.mem_lists hdirs (hperm.subset hmem)
        have hproper : Proper n := by
          obtain ⟨d, c, -, hentry, -⟩ := hmatch
          exact h.wellFormed.proper_of_entry hentry
        refine ih ms n ?_ hmatch'
        have hlt := length_lt_joined (fullPath path ns) n hproper.ne_nil
        dsimp only at hms
        rw [← hms, fullPath_concat]
        omega
  exact hlonger (maxPathLen + path.length + 1) ns n (by omega)

theorem findsAsListed_of_not_matches (hnone : ∀ ns n, ¬ Matches fs fnmatch pattern r ns n) :
    FindsAsListed fs fnmatch pattern path dirs := by
  have hsome : (fs.find fnmatch pattern (maxPathLen + 1) path).isSome :=
    h.find_isSome (descend_nil fs.tree r) h.isDir (Nat.lt_add_left _ (Nat.lt_succ_self _))
  obtain ⟨⟨ret, calls⟩, hfind⟩ := Option.isSome_iff_exists.mp hsome
  have hcalls : calls = [] := by
    apply List.eq_nil_iff_forall_not_mem.mpr
    intro call hcall
    obtain ⟨ms, hms⟩ := h.matches_of_mem_find (descend_nil fs.tree r) h.isDir hfind hcall
    exact hnone ms call.2 hms
  have hlist : dirs.flatMap (fun ns => (fs.list fnmatch pattern (fullPath path ns)).2) = [] := by
    apply List.eq_nil_iff_forall_not_mem.mpr
    intro call hcall
    obtain ⟨ns, -, hmatch⟩ := h.mem_lists hdirs hcall
    exact hnone ns call.2 hmatch
  refine ⟨maxPathLen + 1, ret, calls, hfind, ?_⟩
  rw [hcalls, hlist]

end

/-- `Find` is `List` in every directory of the tree exactly when no name in the tree matches. -/
theorem findsAsListed_iff (h : Searchable fs path r) {dirs : List (List FilePath)}
    (hdirs : Directories fs r dirs) :
    FindsAsListed fs fnmatch pattern path dirs ↔
      ∀ ns n, ¬ Matches fs fnmatch pattern r ns n := by
  constructor
  · exact fun hfinds ns n => FindsAsListed.not_matches h hdirs hfinds
  · exact fun hnone => findsAsListed_of_not_matches h hdirs hnone

theorem searchable_holding : Searchable (holding [0x66#8]) [slash, 0x64#8] 1 where
  wellFormed := holding_wellFormed (by constructor <;> decide)
  plain := holding_plain _
  stat_eq := by decide +kernel
  isDir := ⟨_, rfl⟩
  fits := by
    intro ns d hdown hns
    rcases holding_descend hdown with ⟨rfl, -⟩ | ⟨rfl, -⟩
    · exact absurd rfl hns
    · decide

theorem directories_holding : Directories (holding [0x66#8]) 1 [[]] where
  nodup := List.nodup_cons.mpr ⟨List.not_mem_nil, List.nodup_nil⟩
  mem_iff := by
    intro ns
    rw [List.mem_singleton]
    constructor
    · rintro rfl
      exact ⟨1, rfl, _, rfl⟩
    · rintro ⟨d, hdown, entries, hnode⟩
      rcases holding_descend hdown with ⟨rfl, -⟩ | ⟨-, rfl⟩
      · rfl
      · cases hnode

/-- A pattern without special characters, which is not the name of the file. -/
theorem findsAsListed_iff_holding :
    FindsAsListed (holding [0x66#8]) (fun pattern name => pattern = name) [0x67#8]
      [slash, 0x64#8] [[]] := by
  refine (findsAsListed_iff searchable_holding directories_holding).mpr ?_
  rintro ns n ⟨d, c, hdown, hentry, hmatch⟩
  obtain rfl : [0x67#8] = n := by simpa using hmatch
  rcases holding_descend hdown with ⟨-, rfl⟩ | ⟨-, rfl⟩
  · cases hentry
  · cases hentry

/-- Of the file `f`, `List` says `("/d", "f")` and `Find` says `("/d/f", "f")`. -/
theorem find_names_the_file :
    ¬ ∀ (fs : FileSystem Nat) (fnmatch : FilePath → FilePath → Bool) (pattern path : FilePath)
      (r : Nat) (dirs : List (List FilePath)), Searchable fs path r → Directories fs r dirs →
        FindsAsListed fs fnmatch pattern path dirs := by
  intro hall
  obtain ⟨fuel, ret, calls, hfind, hperm⟩ := hall (holding [0x66#8]) (fun _ _ => true) [0x2A#8]
    [slash, 0x64#8] 1 [[]] searchable_holding directories_holding
  have hmatch : Matches (holding [0x66#8]) (fun _ _ => true) [0x2A#8] 1 [] [0x66#8] :=
    ⟨1, 2, rfl, rfl, rfl⟩
  have hmem := searchable_holding.mem_find (descend_nil _ 1) ⟨_, rfl⟩ hfind hmatch
  have hlist := hperm.subset hmem
  revert hlist
  decide +kernel

end Directory

end XfUtil
