import Mathlib.Data.List.Infix
import XfUtil.Path.Model

/-!
# `Directory::Create_r`

`Create_r` goes over the slashes of the caller's string. It puts a terminator in the place of
each, makes the directory that the string then names, and puts the slash back. The system is
what answers the calls; a state that it keeps may be anything.
-/

namespace XfUtil

open FlatMemory

namespace Directory

/-- Answers to `Directory::Exist`, to `mkdir` (whether it succeeds) and to `umask`. -/
structure System (σ : Type*) where
  exist : FilePath → σ → Bool × σ
  mkdir : FilePath → BitVec 32 → σ → Bool × σ
  umask : BitVec 32 → σ → BitVec 32 × σ

/-- `0644`. -/
def createMode : BitVec 32 := 0o644#32

/-- `strchr(path + i, c)`, for the string that a buffer holds. -/
def strchr (path : List Byte) (i : Nat) (c : Byte) : Option Nat :=
  let rest := Format.untilZero (path.drop i)
  if rest.contains c then some (i + rest.idxOf c) else none

/-- What a call leaves: its answer, the characters of the path, and the system. -/
structure Made (σ : Type*) where
  ret : Bool
  path : List Byte
  sys : σ

namespace System

variable {σ : Type*} (sys : System σ)

/-- What the static `Create_r` does at each of its strings: nothing, or `mkdir`. -/
def ensure (path : FilePath) (s : σ) : Bool × σ :=
  let e := sys.exist path s
  if e.1 then e else sys.mkdir path createMode e.2

/-- The loop of the static `Create_r` and what follows it. -/
def createLoop : Nat → List Byte → Option Nat → σ → Option (Made σ)
  | _, path, none, s =>
      let r := sys.ensure (Format.untilZero path) s
      some ⟨r.1, path, r.2⟩
  | 0, _, some _, _ => none
  | fuel + 1, path, some slash, s =>
      let cut := path.set slash 0#8
      let r := sys.ensure (Format.untilZero cut) s
      if r.1 then
        let path := cut.set slash FilePath.slash
        createLoop fuel path (strchr path (slash + 1) FilePath.slash) r.2
      else some ⟨false, cut, r.2⟩

/-- `Directory::Create_r`; there are no more slashes than characters. -/
def createR (path : List Byte) (s : σ) : Option (Made σ) :=
  let old := sys.umask 0#32 s
  (sys.createLoop path.length path (strchr path 1 FilePath.slash) old.2).map fun r =>
    { r with sys := (sys.umask old.1 r.sys).2 }

/-- The directories of these strings are made in turn, and then that of the path. A string
that fails has its terminator in the path. -/
def makeEach (path : FilePath) : List FilePath → σ → Made σ
  | [], s =>
      let r := sys.ensure path s
      ⟨r.1, path, r.2⟩
  | front :: more, s =>
      let r := sys.ensure front s
      if r.1 then makeEach path more r.2 else ⟨false, path.set front.length 0#8, r.2⟩

/-- Every one of these directories is there or is made. -/
def makesAll : List FilePath → σ → Bool
  | [], _ => true
  | front :: more, s =>
      let r := sys.ensure front s
      r.1 && makesAll more r.2

end System

/-! ## The strings in front of the slashes -/

/-- The strings that end in front of a slash of `rest`, where `done` stands before it. -/
def frontsFrom (done : List Byte) : List Byte → List FilePath
  | [] => []
  | c :: cs =>
      if c = FilePath.slash then done :: frontsFrom (done ++ [c]) cs
      else frontsFrom (done ++ [c]) cs

/-- The first character does not count. -/
def fronts (path : FilePath) : List FilePath := frontsFrom (path.take 1) (path.drop 1)

theorem frontsFrom_append {u : List Byte} (h : FilePath.slash ∉ u) (done rest : List Byte) :
    frontsFrom done (u ++ rest) = frontsFrom (done ++ u) rest := by
  induction u generalizing done with
  | nil => simp
  | cons c u ih =>
      obtain ⟨hc, hu⟩ := List.ne_and_not_mem_of_not_mem_cons h
      rw [List.cons_append, frontsFrom, if_neg (Ne.symm hc), ih hu, List.append_assoc]
      rfl

theorem frontsFrom_of_not_mem {rest : List Byte} (h : FilePath.slash ∉ rest)
    (done : List Byte) : frontsFrom done rest = [] := by
  have hnil := frontsFrom_append h done []
  rwa [List.append_nil] at hnil

theorem frontsFrom_slash {u : List Byte} (h : FilePath.slash ∉ u) (done rest : List Byte) :
    frontsFrom done (u ++ FilePath.slash :: rest) =
      (done ++ u) :: frontsFrom (done ++ u ++ [FilePath.slash]) rest := by
  rw [frontsFrom_append h, frontsFrom, if_pos rfl]

/-- Each stands in front of a slash. -/
theorem slash_of_mem_frontsFrom {done rest : List Byte} {front : FilePath}
    (h : front ∈ frontsFrom done rest) :
    ∃ back, done ++ rest = front ++ FilePath.slash :: back := by
  induction rest generalizing done with
  | nil => cases h
  | cons c cs ih =>
      have hnext : front ∈ frontsFrom (done ++ [c]) cs →
          ∃ back, done ++ c :: cs = front ++ FilePath.slash :: back := by
        intro hmem
        obtain ⟨back, hback⟩ := ih hmem
        exact ⟨back, by rw [← hback, List.append_assoc]; rfl⟩
      unfold frontsFrom at h
      split at h
      · rename_i hc
        subst hc
        rcases List.mem_cons.mp h with rfl | hmem
        · exact ⟨cs, rfl⟩
        · exact hnext hmem
      · exact hnext h

theorem strchr_of_not_mem {done rest : List Byte} (hfree : 0#8 ∉ rest) {c : Byte} (h : c ∉ rest) :
    strchr (done ++ rest) done.length c = none := by
  unfold strchr
  rw [List.drop_left, Format.untilZero_of_free hfree]
  exact if_neg (by simpa using h)

theorem strchr_append {done u rest : List Byte} {c : Byte} (hfree : 0#8 ∉ u ++ c :: rest)
    (h : c ∉ u) :
    strchr (done ++ (u ++ c :: rest)) done.length c = some (done.length + u.length) := by
  have hidx : (u ++ c :: rest).idxOf c = u.length := by
    rw [List.idxOf_append_of_notMem h, List.idxOf_cons_self, Nat.add_zero]
  unfold strchr
  rw [List.drop_left, Format.untilZero_of_free hfree]
  dsimp only
  rw [if_pos (by simp), hidx]

/-! ## One string after the other -/

section

variable {σ : Type*} (sys : System σ)

/-- The loop goes over the strings in front of the slashes that are left. -/
theorem createLoop_eq {fuel : Nat} {done rest : List Byte} (hfuel : rest.length ≤ fuel)
    (hfree : 0#8 ∉ done ++ rest) (s : σ) :
    sys.createLoop fuel (done ++ rest) (strchr (done ++ rest) done.length FilePath.slash) s =
      some (sys.makeEach (done ++ rest) (frontsFrom done rest) s) := by
  induction fuel generalizing done rest s with
  | zero =>
      obtain rfl : rest = [] := List.eq_nil_of_length_eq_zero (Nat.le_zero.mp hfuel)
      rw [strchr_of_not_mem List.not_mem_nil List.not_mem_nil, System.createLoop,
        Format.untilZero_of_free hfree]
      rfl
  | succ fuel ih =>
      have hfree' : 0#8 ∉ rest := fun hmem => hfree (List.mem_append_right _ hmem)
      by_cases hslash : FilePath.slash ∈ rest
      · obtain ⟨u, back, rfl, hu⟩ := List.eq_append_cons_of_mem hslash
        have hdone : 0#8 ∉ done ++ u := by
          intro hmem
          apply hfree
          rw [← List.append_assoc]
          exact List.mem_append_left _ hmem
        have hpath : done ++ (u ++ FilePath.slash :: back) =
            (done ++ u) ++ FilePath.slash :: back := (List.append_assoc ..).symm
        have hlen : done.length + u.length = (done ++ u).length := List.length_append.symm
        rw [strchr_append hfree' hu, frontsFrom_slash hu, hlen, hpath, System.createLoop,
          List.set_append_right _ _ le_rfl, Nat.sub_self, List.set_cons_zero,
          Format.untilZero_append hdone, System.makeEach, List.set_append_right _ _ le_rfl,
          Nat.sub_self, List.set_cons_zero]
        dsimp only
        rw [List.set_append_right _ _ le_rfl, Nat.sub_self, List.set_cons_zero]
        split
        · -- The slash is back, and the search goes on behind it.
          have hback : (done ++ u) ++ FilePath.slash :: back =
              (done ++ u ++ [FilePath.slash]) ++ back := by simp
          have hnext : (done ++ u).length + 1 = (done ++ u ++ [FilePath.slash]).length := by
            simp [Nat.add_assoc]
          rw [hpath] at hfree
          rw [hback] at hfree ⊢
          rw [hnext]
          refine ih ?_ hfree _
          rw [List.length_append, List.length_cons] at hfuel
          omega
        · rfl
      · rw [strchr_of_not_mem hfree' hslash, System.createLoop, frontsFrom_of_not_mem hslash,
          Format.untilZero_of_free hfree]
        rfl

/-- `Create_r` returns, and has made the strings in front of the slashes in turn. -/
theorem createR_eq {path : FilePath} (hne : path ≠ []) (hfree : 0#8 ∉ path) (s : σ) :
    sys.createR path s =
      some
        (let r := sys.makeEach path (fronts path) (sys.umask 0#32 s).2
         { r with sys := (sys.umask (sys.umask 0#32 s).1 r.sys).2 }) := by
  obtain ⟨c, cs, rfl⟩ := List.exists_cons_of_ne_nil hne
  have hfuel : cs.length ≤ (c :: cs).length := Nat.le_succ _
  have hfree' : 0#8 ∉ [c] ++ cs := hfree
  have hloop := createLoop_eq sys hfuel hfree' (sys.umask 0#32 s).2
  exact congrArg (Option.map _) hloop

/-! ## The caller's string -/

theorem makeEach_path_iff {path : FilePath} (hfree : 0#8 ∉ path) {strings : List FilePath}
    (hstrings : ∀ front ∈ strings, ∃ back, path = front ++ FilePath.slash :: back) (s : σ) :
    (sys.makeEach path strings s).path = path ↔ sys.makesAll strings s = true := by
  induction strings generalizing s with
  | nil => exact iff_of_true rfl rfl
  | cons front more ih =>
      have hmore := ih fun x hx => hstrings x (List.mem_cons_of_mem _ hx)
      unfold System.makeEach System.makesAll
      cases hr : (sys.ensure front s).1 with
      | true =>
          simpa only [hr, if_true, Bool.true_and] using hmore _
      | false =>
          simp only [hr, Bool.false_eq_true, if_false, Bool.false_and, iff_false]
          -- The terminator stands where the slash was.
          intro hsame
          obtain ⟨back, hback⟩ := hstrings front List.mem_cons_self
          apply hfree
          rw [← hsame, hback, List.set_append_right _ _ le_rfl, Nat.sub_self, List.set_cons_zero]
          exact List.mem_append_right _ List.mem_cons_self

/-- `Create_r` returns, and the caller's string is what it was exactly when every string in
front of a slash names a directory that is there or is made. -/
theorem createR_path_iff {path : FilePath} (hne : path ≠ []) (hfree : 0#8 ∉ path) (s : σ) :
    ∃ r, sys.createR path s = some r ∧
      (r.path = path ↔ sys.makesAll (fronts path) (sys.umask 0#32 s).2 = true) := by
  refine ⟨_, createR_eq sys hne hfree s, ?_⟩
  apply makeEach_path_iff sys hfree
  intro front hfront
  obtain ⟨back, hback⟩ := slash_of_mem_frontsFrom hfront
  exact ⟨back, by rw [← hback, List.take_append_drop]⟩

end

/-- No directory is there, and none can be made. -/
def refusing : System Unit where
  exist := fun _ s => (false, s)
  mkdir := fun _ _ s => (false, s)
  umask := fun _ s => (0#32, s)

/-- `a/b`. -/
theorem createR_path_iff_refusing :
    ∃ r, refusing.createR [0x61#8, 0x2F#8, 0x62#8] () = some r ∧
      (r.path = [0x61#8, 0x2F#8, 0x62#8] ↔
        refusing.makesAll (fronts [0x61#8, 0x2F#8, 0x62#8]) () = true) :=
  createR_path_iff refusing (by decide) (by decide) ()

/-- `a/b` is cut to `a` when `a` cannot be made. -/
theorem createR_cuts_path :
    ¬ ∀ (sys : System Unit) (path : FilePath) (s : Unit), path ≠ [] → 0#8 ∉ path →
      ∀ r, sys.createR path s = some r → r.path = path := by
  intro hall
  have hsame := hall refusing [0x61#8, 0x2F#8, 0x62#8] () (by decide) (by decide) _ rfl
  exact absurd hsame (by decide)

end Directory

end XfUtil
