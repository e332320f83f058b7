import Mathlib.Logic.Function.Basic
import Mathlib.Data.List.Basic

/-!
# Files by name

A file system seen as a partial map from names to contents, with the calls that
change it. A call on a file that is not there has no effect; a rename onto a file
that is there replaces it.
-/

namespace FileMap

/-- The contents of the files that are present. -/
abbrev Files (ν β : Type*) := ν → Option (List β)

inductive Op (ν β : Type*) where
  /-- Open for appending, and create the file if need be. -/
  | create (n : ν)
  | append (n : ν) (bytes : List β)
  | remove (n : ν)
  | rename (src dst : ν)
deriving DecidableEq

variable {ν β : Type*}

namespace Op

/-- Names under which the call may put a file. -/
def made : Op ν β → List ν
  | create n => [n]
  | append _ _ => []
  | remove _ => []
  | rename _ dst => [dst]

/-- Names whose files the call may change. -/
def touched : Op ν β → List ν
  | create n => [n]
  | append n _ => [n]
  | remove n => [n]
  | rename src dst => [src, dst]

end Op

/-- Move the file of each link of a chain to the next, the last link first. -/
def renameChain (link : Nat → ν) : Nat → List (Op ν β)
  | 0 => []
  | n + 1 => .rename (link n) (link (n + 1)) :: renameChain link n

theorem mem_renameChain {link : Nat → ν} {n : Nat} {op : Op ν β} (h : op ∈ renameChain link n) :
    ∃ i < n, op = .rename (link i) (link (i + 1)) := by
  induction n with
  | zero => simp [renameChain] at h
  | succ n ih =>
      rcases List.mem_cons.mp h with rfl | h
      · exact ⟨n, Nat.lt_succ_self n, rfl⟩
      · obtain ⟨i, hi, hop⟩ := ih h
        exact ⟨i, Nat.lt_succ_of_lt hi, hop⟩

/-- The last rename of a chain is that of its first link. -/
theorem renameChain_succ (link : Nat → ν) (n : Nat) :
    (renameChain link (n + 1) : List (Op ν β)) =
      renameChain (fun i => link (i + 1)) n ++ [.rename (link 0) (link 1)] := by
  induction n with
  | zero => rfl
  | succ n ih => rw [renameChain, ih, renameChain, List.cons_append]

variable [DecidableEq ν]

/-- The effect of a rename. -/
def move (fs : Files ν β) (src dst : ν) : Files ν β :=
  match fs src with
  | none => fs
  | some content => Function.update (Function.update fs src none) dst (some content)

def apply (fs : Files ν β) : Op ν β → Files ν β
  | .create n => Function.update fs n (some ((fs n).getD []))
  | .append n bytes => Function.update fs n ((fs n).map fun content => content ++ bytes)
  | .remove n => Function.update fs n none
  | .rename src dst => move fs src dst

theorem move_of_none {fs : Files ν β} {src : ν} (h : fs src = none) (dst : ν) :
    move fs src dst = fs := by
  simp [move, h]

theorem move_of_some {fs : Files ν β} {src : ν} {content : List β} (h : fs src = some content)
    (dst : ν) :
    move fs src dst = Function.update (Function.update fs src none) dst (some content) := by
  simp [move, h]

/-- Execute the calls from left to right. -/
def execute (fs : Files ν β) (ops : List (Op ν β)) : Files ν β := ops.foldl apply fs

@[simp] theorem execute_nil (fs : Files ν β) : execute fs [] = fs := rfl

@[simp] theorem execute_cons (fs : Files ν β) (op : Op ν β) (ops : List (Op ν β)) :
    execute fs (op :: ops) = execute (apply fs op) ops := rfl

theorem execute_append (fs : Files ν β) (xs ys : List (Op ν β)) :
    execute fs (xs ++ ys) = execute (execute fs xs) ys :=
  List.foldl_append ..

/-! ## What calls leave alone -/

theorem apply_of_not_touched {fs : Files ν β} {op : Op ν β} {n : ν} (h : n ∉ op.touched) :
    apply fs op n = fs n := by
  cases op with
  | create m => exact Function.update_of_ne (by simpa [Op.touched] using h) ..
  | append m bytes => exact Function.update_of_ne (by simpa [Op.touched] using h) ..
  | remove m => exact Function.update_of_ne (by simpa [Op.touched] using h) ..
  | rename src dst =>
      obtain ⟨hsrc, hdst⟩ : n ≠ src ∧ n ≠ dst := by simpa [Op.touched] using h
      rw [apply]
      cases hfile : fs src with
      | none => rw [move_of_none hfile]
      | some content =>
          rw [move_of_some hfile, Function.update_of_ne hdst, Function.update_of_ne hsrc]

theorem execute_of_not_touched {ops : List (Op ν β)} {n : ν}
    (h : ∀ op ∈ ops, n ∉ op.touched) (fs : Files ν β) : execute fs ops n = fs n := by
  induction ops generalizing fs with
  | nil => rfl
  | cons op ops ih =>
      rw [execute_cons, ih fun op hop => h op (List.mem_cons_of_mem _ hop)]
      exact apply_of_not_touched (h op List.mem_cons_self)

/-- A file appears only under a name that the call puts it under. -/
theorem apply_isSome {fs : Files ν β} {op : Op ν β} {n : ν} (h : (apply fs op n).isSome) :
    (fs n).isSome ∨ n ∈ op.made := by
  by_cases htouched : n ∈ op.touched
  · cases op with
    | create m => exact Or.inr htouched
    | append m bytes =>
        obtain rfl : n = m := by simpa [Op.touched] using htouched
        exact Or.inl (by simpa [apply] using h)
    | remove m =>
        obtain rfl : n = m := by simpa [Op.touched] using htouched
        simp [apply] at h
    | rename src dst =>
        by_cases hdst : n = dst
        · exact Or.inr (by simp [Op.made, hdst])
        · obtain rfl : n = src := by simpa [Op.touched, hdst] using htouched
          refine Or.inl ?_
          cases hfile : fs n with
          | none => simp [apply, move_of_none hfile, hfile] at h
          | some content => rfl
  · rw [apply_of_not_touched htouched] at h
    exact Or.inl h

theorem execute_isSome {fs : Files ν β} {ops : List (Op ν β)} {n : ν}
    (h : (execute fs ops n).isSome) : (fs n).isSome ∨ ∃ op ∈ ops, n ∈ op.made := by
  induction ops generalizing fs with
  | nil => exact Or.inl h
  | cons op ops ih =>
      rcases ih h with h | ⟨op', hop', hmade⟩
      · rcases apply_isSome h with h | hmade
        · exact Or.inl h
        · exact Or.inr ⟨op, List.mem_cons_self, hmade⟩
      · exact Or.inr ⟨op', List.mem_cons_of_mem _ hop', hmade⟩

/-! ## Renames -/

@[simp] theorem apply_rename_self (fs : Files ν β) (n : ν) : apply fs (.rename n n) = fs := by
  cases h : fs n with
  | none => exact move_of_none h n
  | some content =>
      rw [apply, move_of_some h, Function.update_idem, ← h, Function.update_eq_self]

/-- A rename onto a free name moves what is there, if anything is. -/
theorem apply_rename_of_absent {fs : Files ν β} {src dst : ν} (hdst : fs dst = none) :
    apply fs (.rename src dst) = Function.update (Function.update fs src none) dst (fs src) := by
  cases hsrc : fs src with
  | none =>
      have hsame : Function.update fs src none = fs := by
        rw [← hsrc, Function.update_eq_self]
      have hsame' : Function.update fs dst none = fs := by
        rw [← hdst, Function.update_eq_self]
      rw [apply, move_of_none hsrc, hsame, hsame']
  | some content => exact move_of_some hsrc dst

theorem renameChain_other {link : Nat → ν} {n : Nat} {m : ν} (h : ∀ i ≤ n, m ≠ link i)
    (fs : Files ν β) : execute fs (renameChain link n) m = fs m := by
  apply execute_of_not_touched
  intro op hop
  obtain ⟨i, hi, rfl⟩ := mem_renameChain hop
  simp [Op.touched, h i (by omega), h (i + 1) (by omega)]

/-- A chain whose last name is free moves on by one: what is found at each link is
what was at the one before, and the first link is free. -/
theorem renameChain_shift {link : Nat → ν} {n : Nat}
    (hinj : ∀ i ≤ n, ∀ j ≤ n, link i = link j → i = j) {fs : Files ν β}
    (hlast : fs (link n) = none) :
    execute fs (renameChain link n) (link 0) = none ∧
      ∀ i < n, execute fs (renameChain link n) (link (i + 1)) = fs (link i) := by
  induction n generalizing fs with
  | zero => exact ⟨hlast, fun i hi => by omega⟩
  | succ n ih =>
      have hne : ∀ i ≤ n, link i ≠ link (n + 1) := by
        intro i hi heq
        have := hinj i (by omega) (n + 1) (Nat.le_refl _) heq
        omega
      have hmove : apply fs (.rename (link n) (link (n + 1))) = _ := apply_rename_of_absent hlast
      -- The next link has just become free, so the shorter chain moves on.
      have hfree : apply fs (.rename (link n) (link (n + 1))) (link n) = none := by
        rw [hmove, Function.update_of_ne (hne n (Nat.le_refl _)), Function.update_self]
      obtain ⟨hfirst, hshift⟩ := ih (fun i hi j hj => hinj i (by omega) j (by omega)) hfree
      refine ⟨hfirst, fun i hi => ?_⟩
      rw [renameChain, execute_cons]
      by_cases hlt : i < n
      · have hni : link i ≠ link n := fun heq => by
          have := hinj i (by omega) n (by omega) heq
          omega
        rw [hshift i hlt, hmove, Function.update_of_ne (hne i (by omega)),
          Function.update_of_ne hni]
      · obtain rfl : i = n := by omega
        rw [renameChain_other (fun j hj => (hne j hj).symm), hmove, Function.update_self]

end FileMap
