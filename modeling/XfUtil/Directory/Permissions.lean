import XfUtil.Base.AccessTree
import XfUtil.Directory.Create

/-!
# `Directory::Create_r` and permissions

Each directory of a chain is made inside the one that was made before it. The mode `0644` does
not let its owner search a directory, so the first one that is made ends the chain.
-/

namespace XfUtil

open FlatMemory FilePath

namespace Directory

/-- Directories that processes share, and the mask of this one. -/
structure Session where
  tree : AccessTree FilePath
  mask : BitVec 32

/-- Where a path begins. -/
def startOf (cwd : List FilePath) (path : FilePath) : List FilePath :=
  if (steps path).absolute then [] else cwd

/-- The system as the account `u` finds it in `cwd`. `stat` looks every component up. -/
def host (u : Account) (cwd : List FilePath) : System Session where
  exist path s :=
    (path ≠ [] && (s.tree.walk u (startOf cwd path) (steps path).comps).isSome, s)
  mkdir path mode s :=
    match s.tree.mkdir u (startOf cwd path) (steps path).comps (mode &&& ~~~s.mask) with
    | none => (false, s)
    | some tree => (true, { s with tree := tree })
  umask mask s := (s.mask, { s with mask := mask })

/-- The components of a path: those that the account is led along to `d`, and those that are
missing. If any is, `d` is its own, and it may do everything there. -/
structure Deepest (t : AccessTree FilePath) (u : Account) (cwd : List FilePath) (path : FilePath)
    (there missing : List (PathComponent FilePath)) (d : List FilePath) : Prop where
  comps_eq : (steps path).comps = there ++ missing
  walk_eq : t.walk u (startOf cwd path) there = some d
  absent : ∀ c rest, missing = c :: rest → t.dirs (AccessTree.next d c) = none
  owned : missing ≠ [] → ∃ a, t.dirs d = some a ∧ a.owner = u.uid ∧
    a.allows u DirAttr.readBit ∧ a.allows u DirAttr.writeBit ∧ a.allows u DirAttr.searchBit

/-- The call has succeeded, every prefix of the path is a directory, and every directory that
is new is one of them. -/
structure Chained (cwd : List FilePath) (path : FilePath) (before after : AccessTree FilePath)
    (ret : Bool) : Prop where
  ret_eq : ret = true
  prefixes : ∀ front, front <+: (steps path).comps →
    (after.dirs (AccessTree.locate (startOf cwd path) front)).isSome
  others : ∀ loc, after.dirs loc ≠ before.dirs loc → before.dirs loc = none ∧
    ∃ front, front <+: (steps path).comps ∧ loc = AccessTree.locate (startOf cwd path) front

/-! ## The strings that are made -/

/-- The string is the path, or a part of it in front of a slash. -/
def PartOf (path string : FilePath) : Prop :=
  string ≠ [] ∧ (steps string).absolute = (steps path).absolute ∧
    (steps string).comps <+: (steps path).comps

theorem partOf_self {path : FilePath} (h : path ≠ []) : PartOf path path :=
  ⟨h, rfl, List.prefix_rfl⟩

theorem ne_nil_of_mem_frontsFrom {done rest : List Byte} (h : done ≠ []) {front : FilePath}
    (hmem : front ∈ frontsFrom done rest) : front ≠ [] := by
  induction rest generalizing done with
  | nil => cases hmem
  | cons c cs ih =>
      have hnext : done ++ [c] ≠ [] := by simp
      unfold frontsFrom at hmem
      split at hmem
      · rcases List.mem_cons.mp hmem with rfl | hrest
        · exact h
        · exact ih hnext hrest
      · exact ih hnext hmem

theorem partOf_of_mem_fronts {path front : FilePath} (hne : path ≠ [])
    (h : front ∈ fronts path) : PartOf path front := by
  have hfirst : path.take 1 ≠ [] := by
    obtain ⟨c, cs, rfl⟩ := List.exists_cons_of_ne_nil hne
    simp
  have hfront := ne_nil_of_mem_frontsFrom hfirst h
  obtain ⟨back, hback⟩ := slash_of_mem_frontsFrom h
  rw [List.take_append_drop] at hback
  obtain ⟨habs, hcomps⟩ := steps_append_slash hfront back
  refine ⟨hfront, ?_, ?_⟩
  · rw [hback, habs]
  · rw [hback, hcomps]
    exact List.prefix_append _ _

/-- Nothing below `there/n` can be looked up or made. -/
def Blocked (t : AccessTree FilePath) (u : Account) (st : List FilePath)
    (there : List (PathComponent FilePath)) (n : FilePath) : Prop :=
  ∀ more, more ≠ [] → t.walk u st (there ++ .name n :: more) = none ∧
    ∀ mode, t.mkdir u st (there ++ .name n :: more) mode = none

section

variable {t : AccessTree FilePath} {u : Account} {st d : List FilePath}
  {there : List (PathComponent FilePath)} {n : FilePath} {a : DirAttr}

/-- What is not there has nothing below it. -/
theorem blocked_of_absent (hwalk : t.walk u st there = some d) (hd : t.dirs d = some a)
    (hsearch : a.allows u DirAttr.searchBit) (hfree : t.dirs (d ++ [n]) = none) :
    Blocked t u st there n := by
  have hnone : ∀ cs, t.walk u st (there ++ .name n :: cs) = none := by
    intro cs
    rw [AccessTree.walk_append hwalk, AccessTree.walk_cons hd hsearch]
    exact AccessTree.walk_of_none hfree cs
  intro more hmore
  refine ⟨hnone more, fun mode => ?_⟩
  obtain ⟨init, last, rfl⟩ := (List.eq_nil_or_concat more).resolve_left hmore
  have hsplit : there ++ .name n :: (init ++ [last]) = (there ++ .name n :: init) ++ [last] := by
    simp
  rw [List.concat_eq_append, hsplit]
  exact AccessTree.mkdir_of_walk_none (hnone init) last mode

/-- A directory that may not be searched is as good as none to what is below it. -/
theorem blocked_of_not_allowed {b : DirAttr} (hwalk : t.walk u st there = some d)
    (hd : t.dirs d = some a) (hsearch : a.allows u DirAttr.searchBit)
    (hnew : t.dirs (d ++ [n]) = some b) (hclosed : b.allows u DirAttr.searchBit = false) :
    Blocked t u st there n := by
  have hnone : ∀ c cs, t.walk u st (there ++ .name n :: c :: cs) = none := by
    intro c cs
    rw [AccessTree.walk_append hwalk, AccessTree.walk_cons hd hsearch]
    exact AccessTree.walk_of_not_allowed hnew hclosed c cs
  have hlast : t.walk u st (there ++ [.name n]) = some (d ++ [n]) := by
    rw [AccessTree.walk_append hwalk, AccessTree.walk_cons hd hsearch]
    simp [AccessTree.walk, AccessTree.next, hnew]
  intro more hmore
  constructor
  · obtain ⟨c, cs, rfl⟩ := List.exists_cons_of_ne_nil hmore
    exact hnone c cs
  · intro mode
    obtain ⟨init, last, rfl⟩ := (List.eq_nil_or_concat more).resolve_left hmore
    have hsplit : there ++ .name n :: (init ++ [last]) = (there ++ .name n :: init) ++ [last] := by
      simp
    rw [List.concat_eq_append, hsplit]
    cases init with
    | nil => exact AccessTree.mkdir_of_not_allowed hlast hnew hclosed last mode
    | cons c cs => exact AccessTree.mkdir_of_walk_none (hnone c cs) last mode

end

section

variable {u : Account} {cwd : List FilePath} {path string : FilePath} {s : Session}

theorem PartOf.startOf_eq (h : PartOf path string) : startOf cwd string = startOf cwd path := by
  rw [startOf, startOf, h.2.1]

theorem ensure_of_walk (h : PartOf path string) {e : List FilePath}
    (hwalk : s.tree.walk u (startOf cwd path) (steps string).comps = some e) :
    (host u cwd).ensure string s = (true, s) := by
  simp [System.ensure, host, h.1, h.startOf_eq, hwalk]

theorem ensure_of_blocked (h : PartOf path string) {there more : List (PathComponent FilePath)}
    {n : FilePath} (hblocked : Blocked s.tree u (startOf cwd path) there n) (hmore : more ≠ [])
    (hcomps : (steps string).comps = there ++ .name n :: more) :
    (host u cwd).ensure string s = (false, s) := by
  obtain ⟨hwalk, hmkdir⟩ := hblocked more hmore
  simp [System.ensure, host, h.startOf_eq, hcomps, hwalk, hmkdir]

/-- The first one that is missing is made. -/
theorem ensure_of_absent (h : PartOf path string) {there : List (PathComponent FilePath)}
    {n : FilePath} {d : List FilePath} {a : DirAttr}
    (hwalk : s.tree.walk u (startOf cwd path) there = some d) (hd : s.tree.dirs d = some a)
    (hwrite : a.allows u DirAttr.writeBit) (hsearch : a.allows u DirAttr.searchBit)
    (hfree : s.tree.dirs (d ++ [n]) = none)
    (hcomps : (steps string).comps = there ++ [.name n]) :
    (host u cwd).ensure string s =
      (true, { s with
        tree := s.tree.add d n ⟨u.uid, u.gid, createMode &&& ~~~s.mask⟩ (by rw [hd]; rfl) }) := by
  have hnone : s.tree.walk u (startOf cwd path) (there ++ [.name n]) = none := by
    rw [AccessTree.walk_append hwalk, AccessTree.walk_cons hd hsearch]
    exact AccessTree.walk_of_none hfree []
  have hmkdir := AccessTree.mkdir_of_allowed hwalk hd hwrite hsearch hfree
    (createMode &&& ~~~s.mask)
  simp [System.ensure, host, h.startOf_eq, hcomps, hnone, hmkdir]

end

/-! ## The chain -/

section

variable {u : Account} {cwd : List FilePath} {path : FilePath}

theorem makeEach_of_walk {s : Session} {e : List FilePath} {strings : List FilePath}
    (hwalk : s.tree.walk u (startOf cwd path) (steps path).comps = some e)
    (hne : path ≠ []) (hstrings : ∀ x ∈ strings, PartOf path x) :
    (host u cwd).makeEach path strings s = ⟨true, path, s⟩ := by
  have hpart : ∀ x, PartOf path x → (host u cwd).ensure x s = (true, s) := by
    intro x hx
    obtain ⟨back, hback⟩ := hx.2.2
    rw [← hback] at hwalk
    obtain ⟨m, hm⟩ := AccessTree.walk_of_append hwalk
    exact ensure_of_walk hx hm
  induction strings with
  | nil => simp [System.makeEach, hpart path (partOf_self hne)]
  | cons x xs ih =>
      have hrest := ih fun y hy => hstrings y (List.mem_cons_of_mem _ hy)
      simp [System.makeEach, hpart x (hstrings x List.mem_cons_self), hrest]

variable {t : AccessTree FilePath} {there rest : List (PathComponent FilePath)}
  {d : List FilePath} {n : FilePath} {a : DirAttr}

/-- The tree with the first one that was missing. -/
def withFirst (t : AccessTree FilePath) (u : Account) (d : List FilePath) (n : FilePath)
    (hd : t.dirs d = some a) : AccessTree FilePath :=
  t.add d n ⟨u.uid, u.gid, createMode &&& ~~~0#32⟩ (by rw [hd]; rfl)

/-- What is known of the chain when the component `n` is the first one that is missing. -/
structure FirstMissing (t : AccessTree FilePath) (u : Account) (cwd : List FilePath)
    (path : FilePath) (there rest : List (PathComponent FilePath)) (d : List FilePath)
    (n : FilePath) (a : DirAttr) : Prop where
  comps_eq : (steps path).comps = there ++ .name n :: rest
  walk_eq : t.walk u (startOf cwd path) there = some d
  attr : t.dirs d = some a
  write : a.allows u DirAttr.writeBit
  search : a.allows u DirAttr.searchBit
  absent : t.dirs (d ++ [n]) = none
  not_root : u.uid ≠ 0

variable (h : FirstMissing t u cwd path there rest d n a)

include h

theorem FirstMissing.withFirst_walk {cs : List (PathComponent FilePath)} {e : List FilePath}
    (hwalk : t.walk u (startOf cwd path) cs = some e) :
    (withFirst t u d n h.attr).walk u (startOf cwd path) cs = some e :=
  AccessTree.walk_add _ h.absent hwalk

theorem FirstMissing.withFirst_attr : (withFirst t u d n h.attr).dirs d = some a := by
  have hne : d ≠ d ++ [n] := by simp
  exact (Function.update_of_ne hne ..).trans h.attr

theorem FirstMissing.withFirst_new : (withFirst t u d n h.attr).dirs (d ++ [n]) =
    some ⟨u.uid, u.gid, createMode &&& ~~~0#32⟩ :=
  Function.update_self ..

theorem FirstMissing.withFirst_walk_new :
    (withFirst t u d n h.attr).walk u (startOf cwd path) (there ++ [.name n]) =
      some (d ++ [n]) := by
  rw [AccessTree.walk_append (h.withFirst_walk h.walk_eq),
    AccessTree.walk_cons h.withFirst_attr h.search]
  simp [AccessTree.walk, AccessTree.next, h.withFirst_new]

/-- A directory with the mode `0644` cannot be searched by its owner. -/
theorem FirstMissing.blocked :
    Blocked t u (startOf cwd path) there n ∧
      Blocked (withFirst t u d n h.attr) u (startOf cwd path) there n := by
  constructor
  · exact blocked_of_absent h.walk_eq h.attr h.search h.absent
  · refine blocked_of_not_allowed (h.withFirst_walk h.walk_eq) h.withFirst_attr h.search
      h.withFirst_new ?_
    have hmode : decide ((createMode &&& ~~~0#32) >>> 6 &&& DirAttr.searchBit ≠ 0#32) = false := by
      decide
    rw [DirAttr.allows_of_owner h.not_root rfl]
    exact hmode

/-- A string of the chain is found, is the one that is made, or is below it. -/
theorem FirstMissing.cases {x : FilePath} (hx : PartOf path x) :
    (∃ back, there = (steps x).comps ++ back) ∨ (steps x).comps = there ++ [.name n] ∨
      ∃ more, more ≠ [] ∧ more <+: rest ∧ (steps x).comps = there ++ .name n :: more := by
  have hprefix := hx.2.2
  rw [h.comps_eq] at hprefix
  rcases List.prefix_or_prefix_of_prefix hprefix (List.prefix_append there _) with
    ⟨back, hback⟩ | ⟨back, hback⟩
  · exact Or.inl ⟨back, hback.symm⟩
  · rw [← hback, List.prefix_append_right_inj] at hprefix
    rcases List.prefix_cons_iff.mp hprefix with rfl | ⟨more, rfl, hmore⟩
    · exact Or.inl ⟨[], by rw [← hback]; simp⟩
    · by_cases hnil : more = []
      · subst hnil
        exact Or.inr (Or.inl hback.symm)
      · exact Or.inr (Or.inr ⟨more, hnil, hmore, hback.symm⟩)

/-- Each string leaves the tree as it was, or with the first directory in it. Below that it
fails. -/
theorem FirstMissing.ensure {x : FilePath} (hx : PartOf path x) {s : Session}
    (hs : s = ⟨t, 0#32⟩ ∨ s = ⟨withFirst t u d n h.attr, 0#32⟩) :
    ((host u cwd).ensure x s = (true, ⟨t, 0#32⟩) ∧ ∃ back, there = (steps x).comps ++ back) ∨
      (host u cwd).ensure x s = (true, ⟨withFirst t u d n h.attr, 0#32⟩) ∨
      (∃ more, more ≠ [] ∧ more <+: rest) ∧ (host u cwd).ensure x s = (false, s) := by
  rcases h.cases hx with ⟨back, hback⟩ | hnew | ⟨more, hmore, hrest, hcomps⟩
  · obtain ⟨m, hm⟩ : ∃ m, t.walk u (startOf cwd path) (steps x).comps = some m := by
      apply AccessTree.walk_of_append
      rw [← hback]
      exact h.walk_eq
    rcases hs with rfl | rfl
    · exact Or.inl ⟨ensure_of_walk hx hm, back, hback⟩
    · exact Or.inr (Or.inl (ensure_of_walk hx (h.withFirst_walk hm)))
  · refine Or.inr (Or.inl ?_)
    rcases hs with rfl | rfl
    · exact ensure_of_absent hx h.walk_eq h.attr h.write h.search h.absent hnew
    · apply ensure_of_walk hx
      rw [hnew]
      exact h.withFirst_walk_new
  · refine Or.inr (Or.inr ⟨⟨more, hmore, hrest⟩, ?_⟩)
    rcases hs with rfl | rfl
    · exact ensure_of_blocked hx h.blocked.1 hmore hcomps
    · exact ensure_of_blocked hx h.blocked.2 hmore hcomps

theorem FirstMissing.makeEach_one (hrest : rest = []) (hne : path ≠ []) {strings : List FilePath}
    (hstrings : ∀ x ∈ strings, PartOf path x) {s : Session}
    (hs : s = ⟨t, 0#32⟩ ∨ s = ⟨withFirst t u d n h.attr, 0#32⟩) :
    (host u cwd).makeEach path strings s =
      ⟨true, path, ⟨withFirst t u d n h.attr, 0#32⟩⟩ := by
  subst hrest
  induction strings generalizing s with
  | nil =>
      rcases h.ensure (partOf_self hne) hs with ⟨-, back, hback⟩ | hmade | ⟨⟨more, hmore, hnil⟩, -⟩
      · have hlen := congrArg List.length hback
        rw [h.comps_eq] at hlen
        simp at hlen
      · simp [System.makeEach, hmade]
      · exact absurd (List.prefix_nil.mp hnil) hmore
  | cons x xs ih =>
      have hxs := fun y hy => hstrings y (List.mem_cons_of_mem x hy)
      rcases h.ensure (hstrings x List.mem_cons_self) hs with
        ⟨hfound, -⟩ | hmade | ⟨⟨more, hmore, hnil⟩, -⟩
      · simp [System.makeEach, hfound, ih hxs (Or.inl rfl)]
      · simp [System.makeEach, hmade, ih hxs (Or.inr rfl)]
      · exact absurd (List.prefix_nil.mp hnil) hmore

theorem FirstMissing.makeEach_more (hrest : rest ≠ []) (hne : path ≠ []) {strings : List FilePath}
    (hstrings : ∀ x ∈ strings, PartOf path x) {s : Session}
    (hs : s = ⟨t, 0#32⟩ ∨ s = ⟨withFirst t u d n h.attr, 0#32⟩) :
    ((host u cwd).makeEach path strings s).ret = false := by
  induction strings generalizing s with
  | nil =>
      have hfail : (host u cwd).ensure path s = (false, s) := by
        rcases hs with rfl | rfl
        · exact ensure_of_blocked (partOf_self hne) h.blocked.1 hrest h.comps_eq
        · exact ensure_of_blocked (partOf_self hne) h.blocked.2 hrest h.comps_eq
      simp [System.makeEach, hfail]
  | cons x xs ih =>
      have hxs := fun y hy => hstrings y (List.mem_cons_of_mem x hy)
      rcases h.ensure (hstrings x List.mem_cons_self) hs with ⟨hfound, -⟩ | hmade | ⟨-, hfail⟩
      · simp [System.makeEach, hfound, ih hxs (Or.inl rfl)]
      · simp [System.makeEach, hmade, ih hxs (Or.inr rfl)]
      · simp [System.makeEach, hfail]

end

/-- `Create_r` makes the chain exactly when at most one of its components is missing. -/
theorem createR_chained_iff {u : Account} (hroot : u.uid ≠ 0) {cwd : List FilePath}
    {path : FilePath} (hne : path ≠ []) (hfree : 0#8 ∉ path) {s : Session}
    {there missing : List (PathComponent FilePath)} {d : List FilePath}
    (h : Deepest s.tree u cwd path there missing d) :
    ∃ r, (host u cwd).createR path s = some r ∧
      (Chained cwd path s.tree r.sys.tree r.ret ↔ missing.length ≤ 1) := by
  refine ⟨_, createR_eq (host u cwd) hne hfree s, ?_⟩
  have hstrings : ∀ x ∈ fronts path, PartOf path x := fun x hx => partOf_of_mem_fronts hne hx
  show Chained cwd path s.tree ((host u cwd).makeEach path (fronts path) ⟨s.tree, 0#32⟩).sys.tree
    ((host u cwd).makeEach path (fronts path) ⟨s.tree, 0#32⟩).ret ↔ _
  cases missing with
  | nil =>
      have hwalk : s.tree.walk u (startOf cwd path) (steps path).comps = some d := by
        rw [h.comps_eq, List.append_nil]
        exact h.walk_eq
      rw [makeEach_of_walk (s := ⟨s.tree, 0#32⟩) hwalk hne hstrings]
      refine iff_of_true ⟨rfl, fun front => AccessTree.locate_isSome_of_walk hwalk, ?_⟩ (by simp)
      exact fun loc hloc => absurd rfl hloc
  | cons c rest =>
      obtain ⟨a, hattr, -, -, hwrite, hsearch⟩ := h.owned (List.cons_ne_nil c rest)
      have habsent := h.absent c rest rfl
      obtain ⟨n, rfl⟩ := s.tree.name_of_next_none (by rw [hattr]; rfl) habsent
      have hfirst : FirstMissing s.tree u cwd path there rest d n a :=
        ⟨h.comps_eq, h.walk_eq, hattr, hwrite, hsearch, habsent, hroot⟩
      by_cases hrest : rest = []
      · subst hrest
        rw [hfirst.makeEach_one rfl hne hstrings (Or.inl rfl)]
        have hwalk := hfirst.withFirst_walk_new
        rw [← h.comps_eq] at hwalk
        refine iff_of_true ⟨rfl, fun front => AccessTree.locate_isSome_of_walk hwalk, ?_⟩ (by simp)
        intro loc hloc
        have hnew : loc = d ++ [n] := by
          by_contra hother
          exact hloc (Function.update_of_ne hother ..)
        obtain ⟨hlocate, -⟩ := AccessTree.walk_eq_some hwalk
        exact ⟨hnew ▸ habsent, (steps path).comps, List.prefix_rfl, hnew.trans hlocate⟩
      · have hfail := hfirst.makeEach_more hrest hne hstrings (Or.inl rfl)
        refine iff_of_false (fun hchained => ?_) ?_
        · rw [hchained.ret_eq] at hfail
          cases hfail
        · have hlen := List.length_pos_of_ne_nil hrest
          rw [List.length_cons]
          omega

/-- The root belongs to the user 1000, who may do everything there. -/
def homeTree : AccessTree FilePath where
  dirs := fun d => if d = [] then some ⟨1000, 1000, 0o755#32⟩ else none
  root_isSome := rfl
  parent_isSome := by
    intro d n h
    rw [if_neg (by simp)] at h
    cases h

def homeUser : Account := ⟨1000, 1000, []⟩

/-- Of `/a` the component `a` is missing. -/
theorem deepest_homeTree (n : FilePath) (rest : List (PathComponent FilePath)) {path : FilePath}
    (hcomps : steps path = ⟨true, .name n :: rest⟩) :
    Deepest homeTree homeUser [] path [] (.name n :: rest) [] := by
  refine ⟨by rw [hcomps]; rfl, by simp [startOf, AccessTree.walk, homeTree], ?_, fun _ => ?_⟩
  · intro c more hmissing
    obtain ⟨rfl, -⟩ := List.cons.inj hmissing
    rfl
  · exact ⟨⟨1000, 1000, 0o755#32⟩, rfl, rfl, by decide, by decide, by decide⟩

theorem createR_chained_iff_one :
    ∃ r, (host homeUser []).createR [0x2F#8, 0x61#8] ⟨homeTree, 0o022#32⟩ = some r ∧
      (Chained [] [0x2F#8, 0x61#8] homeTree r.sys.tree r.ret ↔ 1 ≤ 1) :=
  createR_chained_iff (s := ⟨homeTree, 0o022#32⟩) (by decide) (by decide) (by decide)
    (deepest_homeTree [0x61#8] [] (by decide))

/-- `/a/b` fails: `a` is made, and nothing can be looked up in it. -/
theorem createR_fails_at_two :
    ¬ ∀ (u : Account) (cwd : List FilePath) (path : FilePath) (s : Session)
      (there missing : List (PathComponent FilePath)) (d : List FilePath), u.uid ≠ 0 →
      path ≠ [] → 0#8 ∉ path → Deepest s.tree u cwd path there missing d →
        ∃ r, (host u cwd).createR path s = some r ∧
          Chained cwd path s.tree r.sys.tree r.ret := by
  intro hall
  obtain ⟨r, hr, hchained⟩ := hall homeUser [] [0x2F#8, 0x61#8, 0x2F#8, 0x62#8]
    ⟨homeTree, 0o022#32⟩ [] _ [] (by decide) (by decide) (by decide)
    (deepest_homeTree [0x61#8] [.name [0x62#8]] (by decide))
  have hret : ((host homeUser []).createR [0x2F#8, 0x61#8, 0x2F#8, 0x62#8]
      ⟨homeTree, 0o022#32⟩).map Made.ret = some false := by
    decide +kernel
  rw [hr, Option.map_some, hchained.ret_eq] at hret
  cases hret

end Directory

end XfUtil
