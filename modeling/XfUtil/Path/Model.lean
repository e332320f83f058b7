import Mathlib.Data.List.DropRight
import XfUtil.Base.FileTree
import XfUtil.Base.Format

/-!
# Paths

A path is the byte string in front of the terminator. Paths that the library puts
together go through a buffer of `MAX_PATH_LEN` bytes. The system takes a path apart
at its slashes.
-/

namespace XfUtil

open FlatMemory

/-- `MAX_PATH_LEN`, the terminator included. -/
def maxPathLen : Nat := 256

abbrev FilePath := List Byte

namespace FilePath

def slash : Byte := 0x2F#8
def dot : Byte := 0x2E#8

/-- `Path::CombineEx`. -/
def combineEx (pathSize : Nat) (path1 path2 : FilePath) : FilePath :=
  if path1.getLast? = some slash then Format.stored pathSize (path1 ++ path2)
  else Format.stored pathSize (path1 ++ slash :: path2)

/-- `Path::Combine`. -/
def combine (pathSize : Nat) (path1 path2 : FilePath) : FilePath :=
  Format.stored pathSize (path1 ++ slash :: path2)

/-- The assertions of `Path::Combine` and `Path::CombineEx` on what the pointers lead to. -/
def combineAsserts (path1 path2 : FilePath) : Bool :=
  path1 ≠ [] && path2.head? ≠ some slash

/-- `Path::GetFileName`: what follows the last slash. -/
def getFileName (path : FilePath) : FilePath := path.rtakeWhile fun c => c ≠ slash

/-! ## Taking a path apart -/

/-- The pieces between the slashes. -/
def pieces : FilePath → List FilePath
  | [] => [[]]
  | c :: cs =>
      if c = slash then [] :: pieces cs
      else
        match pieces cs with
        | [] => [[c]]
        | piece :: rest => (c :: piece) :: rest

def component (piece : FilePath) : PathComponent FilePath :=
  if piece = [dot] then .self
  else if piece = [dot, dot] then .up
  else .name piece

/-- The steps of a path; empty pieces do not count. -/
def steps (path : FilePath) : PathSteps FilePath where
  absolute := path.head? = some slash
  comps := ((pieces path).filter fun piece => piece ≠ []).map component

/-- What may stand in a directory as a name. -/
structure Proper (name : FilePath) : Prop where
  ne_nil : name ≠ []
  ne_dot : name ≠ [dot]
  ne_dotdot : name ≠ [dot, dot]
  no_slash : slash ∉ name

theorem pieces_ne_nil (path : FilePath) : pieces path ≠ [] := by
  cases path with
  | nil => simp [pieces]
  | cons c cs =>
      unfold pieces
      split
      · simp
      · split <;> simp

theorem pieces_append (p q : FilePath) : pieces (p ++ slash :: q) = pieces p ++ pieces q := by
  induction p with
  | nil => simp [pieces]
  | cons c cs ih =>
      by_cases hc : c = slash
      · simp [pieces, hc, ih]
      · cases hcs : pieces cs with
        | nil => exact absurd hcs (pieces_ne_nil cs)
        | cons piece rest => simp [pieces, hc, ih, hcs]

theorem pieces_of_no_slash {name : FilePath} (h : slash ∉ name) : pieces name = [name] := by
  induction name with
  | nil => rfl
  | cons c cs ih =>
      have hc : c ≠ slash := fun heq => h (heq ▸ List.mem_cons_self)
      have hcs : slash ∉ cs := fun hmem => h (List.mem_cons_of_mem c hmem)
      simp [pieces, hc, ih hcs]

theorem steps_append_slash {p : FilePath} (hp : p ≠ []) (q : FilePath) :
    (steps (p ++ slash :: q)).absolute = (steps p).absolute ∧
      (steps (p ++ slash :: q)).comps = (steps p).comps ++ (steps q).comps := by
  constructor
  · obtain ⟨c, cs, rfl⟩ := List.exists_cons_of_ne_nil hp
    rfl
  · simp only [steps]
    rw [pieces_append, List.filter_append, List.map_append]

theorem component_of_proper {name : FilePath} (h : Proper name) :
    component name = .name name := by
  simp [component, h.ne_dot, h.ne_dotdot]

/-- `path1` and `path2` with a slash between them, and no cut. -/
def joined (path1 path2 : FilePath) : FilePath :=
  if path1.getLast? = some slash then path1 ++ path2 else path1 ++ slash :: path2

theorem combineEx_eq (pathSize : Nat) (path1 path2 : FilePath) :
    combineEx pathSize path1 path2 = Format.stored pathSize (joined path1 path2) := by
  unfold combineEx joined
  split <;> rfl

theorem combineEx_of_lt {pathSize : Nat} {path1 path2 : FilePath}
    (h : (joined path1 path2).length < pathSize) :
    combineEx pathSize path1 path2 = joined path1 path2 := by
  rw [combineEx_eq, Format.stored_of_lt h]

theorem joined_ne_nil {path : FilePath} (h : path ≠ []) (name : FilePath) :
    joined path name ≠ [] := by
  unfold joined
  split <;> simp [h]

theorem length_le_joined (path name : FilePath) : path.length ≤ (joined path name).length := by
  unfold joined
  split <;> simp

theorem head?_append_of_ne_nil {path : FilePath} (hpath : path ≠ []) (rest : FilePath) :
    (path ++ rest).head? = path.head? := by
  obtain ⟨c, cs, rfl⟩ := List.exists_cons_of_ne_nil hpath
  rfl

theorem steps_joined_append {path : FilePath} (hpath : path ≠ []) (text : FilePath) :
    steps (joined path text) =
      ⟨(steps path).absolute, (steps path).comps ++ (steps text).comps⟩ := by
  unfold joined
  split
  · rename_i hlast
    obtain ⟨init, rfl⟩ : ∃ init, path = init ++ [slash] :=
      ⟨_, (List.dropLast_append_getLast? slash hlast).symm⟩
    simp only [steps, head?_append_of_ne_nil hpath]
    rw [List.append_assoc, List.singleton_append, pieces_append, pieces_append, List.filter_append,
      List.map_append]
    simp [pieces]
  · simp only [steps, head?_append_of_ne_nil hpath]
    rw [pieces_append, List.filter_append, List.map_append]

theorem comps_of_proper {name : FilePath} (h : Proper name) :
    (steps name).comps = [.name name] := by
  simp only [steps]
  rw [pieces_of_no_slash h.no_slash]
  simp [h.ne_nil, component_of_proper h]

theorem steps_joined {path name : FilePath} (hpath : path ≠ []) (hname : Proper name) :
    steps (joined path name) =
      ⟨(steps path).absolute, (steps path).comps ++ [.name name]⟩ := by
  rw [steps_joined_append hpath, comps_of_proper hname]

/-! ## Longer texts -/

/-- Where two texts meet, so do their pieces. -/
theorem exists_pieces_append (p q : FilePath) :
    ∃ init last first more, pieces p = init ++ [last] ∧ pieces q = first :: more ∧
      pieces (p ++ q) = init ++ (last ++ first) :: more := by
  induction p with
  | nil =>
      obtain ⟨first, more, hq⟩ := List.exists_cons_of_ne_nil (pieces_ne_nil q)
      exact ⟨[], [], first, more, rfl, hq, hq⟩
  | cons c cs ih =>
      obtain ⟨init, last, first, more, hcs, hq, hall⟩ := ih
      by_cases hc : c = slash
      · refine ⟨[] :: init, last, first, more, ?_, hq, ?_⟩
        · simp [pieces, hc, hcs]
        · simp [pieces, hc, hall]
      · cases init with
        | nil =>
            refine ⟨[], c :: last, first, more, ?_, hq, ?_⟩
            · simp [pieces, hc, hcs]
            · simp [pieces, hc, hall]
        | cons piece init =>
            refine ⟨(c :: piece) :: init, last, first, more, ?_, hq, ?_⟩
            · simp [pieces, hc, hcs]
            · simp [pieces, hc, hall]

/-- A piece that begins with a name is a name. -/
theorem component_append_of_name {piece n : FilePath} (hne : piece ≠ [])
    (h : component piece = .name n) (rest : FilePath) :
    component (piece ++ rest) = .name (piece ++ rest) := by
  obtain ⟨c, cs, rfl⟩ := List.exists_cons_of_ne_nil hne
  have hdot : c :: cs ≠ [dot] := by
    intro heq
    rw [heq] at h
    cases h
  have hdotdot : c :: cs ≠ [dot, dot] := by
    intro heq
    rw [heq] at h
    cases h
  unfold component
  rw [if_neg, if_neg]
  · intro heq
    obtain ⟨rfl, htail⟩ := List.cons.inj heq
    cases cs with
    | nil => exact hdot rfl
    | cons c' cs =>
        obtain ⟨rfl, hend⟩ := List.cons.inj htail
        exact hdotdot (by rw [(List.append_eq_nil_iff.mp hend).1])
  · intro heq
    obtain ⟨rfl, hend⟩ := List.cons.inj heq
    exact hdot (by rw [(List.append_eq_nil_iff.mp hend).1])

/-- A longer text leads the same way up to the last name, which may be longer. -/
theorem steps_append_of_name {p : FilePath} {comps : List (PathComponent FilePath)}
    {n : FilePath} (hp : (steps p).comps = comps ++ [.name n]) (q : FilePath) :
    (steps (p ++ q)).absolute = (steps p).absolute ∧
      ∃ m more, (steps (p ++ q)).comps = comps ++ .name m :: more := by
  have hne : p ≠ [] := by
    rintro rfl
    simp [steps, pieces] at hp
  refine ⟨by simp only [steps, head?_append_of_ne_nil hne], ?_⟩
  obtain ⟨init, last, first, more, hpieces, -, hall⟩ := exists_pieces_append p q
  simp only [steps] at hp ⊢
  rw [hpieces, List.filter_append, List.map_append] at hp
  rw [hall, List.filter_append, List.map_append]
  by_cases hlast : last = []
  · subst hlast
    simp only [ne_eq, not_true_eq_false, decide_false, Bool.false_eq_true, not_false_eq_true,
      List.filter_cons_of_neg, List.filter_nil, List.map_nil, List.append_nil] at hp
    rw [hp, List.append_assoc, List.singleton_append]
    exact ⟨n, _, rfl⟩
  · simp only [ne_eq, hlast, not_false_eq_true, decide_true, List.filter_cons_of_pos,
      List.filter_nil, List.map_cons, List.map_nil] at hp
    obtain ⟨hinit, hname⟩ := List.append_inj' hp rfl
    have hpiece := component_append_of_name hlast (List.singleton_inj.mp hname) first
    have hkept : ((last ++ first) :: more).filter (fun piece => piece ≠ []) =
        (last ++ first) :: more.filter fun piece => piece ≠ [] :=
      List.filter_cons_of_pos (by simp [hlast])
    rw [hinit, hkept, List.map_cons, hpiece]
    exact ⟨_, _, rfl⟩

end FilePath

end XfUtil
