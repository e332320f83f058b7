import Mathlib.Data.List.Infix
import XfUtil.Base.FileTree

/-!
# Directories with owners and permission bits

A directory is known by the names that lead to it from the root. To look something up in a
directory an account must be allowed to search it, and to enter something there it must be
allowed to write to it as well. A walk that succeeds is not changed by a directory that is
added, and ends in front of one that it may not search.
-/

/-- Who asks. -/
structure Account where
  uid : Nat
  gid : Nat
  groups : List Nat
deriving Repr, DecidableEq

structure DirAttr where
  owner : Nat
  group : Nat
  mode : BitVec 32
deriving Repr, DecidableEq

namespace DirAttr

def readBit : BitVec 32 := 4#32
def writeBit : BitVec 32 := 2#32
def searchBit : BitVec 32 := 1#32

/-- The bits that count for the account: those of the owner, of the group or of others. -/
def bitsFor (a : DirAttr) (u : Account) : BitVec 32 :=
  if a.owner = u.uid then a.mode >>> 6
  else if a.group = u.gid ∨ a.group ∈ u.groups then a.mode >>> 3
  else a.mode

def allows (a : DirAttr) (u : Account) (bit : BitVec 32) : Bool :=
  u.uid = 0 ∨ a.bitsFor u &&& bit ≠ 0#32

theorem allows_of_owner {a : DirAttr} {u : Account} (hroot : u.uid ≠ 0) (howner : a.owner = u.uid)
    (bit : BitVec 32) : a.allows u bit = decide (a.mode >>> 6 &&& bit ≠ 0#32) := by
  simp [allows, bitsFor, hroot, howner]

end DirAttr

structure AccessTree (ν : Type*) where
  dirs : List ν → Option DirAttr
  root_isSome : (dirs []).isSome
  parent_isSome : ∀ d n, (dirs (d ++ [n])).isSome → (dirs d).isSome

namespace AccessTree

variable {ν : Type*}

/-- Where a component leads from a directory. -/
def next (d : List ν) : PathComponent ν → List ν
  | .self => d
  | .up => d.dropLast
  | .name n => d ++ [n]

/-- Where components lead, if everything is there. -/
def locate (d : List ν) (comps : List (PathComponent ν)) : List ν := comps.foldl next d

/-- The directory that the components lead the account to. -/
def walk (t : AccessTree ν) (u : Account) (d : List ν) : List (PathComponent ν) → Option (List ν)
  | [] => if (t.dirs d).isSome then some d else none
  | c :: cs =>
      match t.dirs d with
      | none => none
      | some a => if a.allows u DirAttr.searchBit then t.walk u (next d c) cs else none

theorem dirs_dropLast_isSome (t : AccessTree ν) {d : List ν} (h : (t.dirs d).isSome) :
    (t.dirs d.dropLast).isSome := by
  rcases List.eq_nil_or_concat d with rfl | ⟨d, n, rfl⟩
  · exact h
  · rw [List.concat_eq_append] at h ⊢
    rw [List.dropLast_concat]
    exact t.parent_isSome d n h

/-- Only a name can lead to where nothing is. -/
theorem name_of_next_none (t : AccessTree ν) {d : List ν} (h : (t.dirs d).isSome)
    {c : PathComponent ν} (hc : t.dirs (next d c) = none) : ∃ n, c = .name n := by
  cases c with
  | self =>
      rw [next] at hc
      rw [hc] at h
      cases h
  | up =>
      have hup := t.dirs_dropLast_isSome h
      rw [next] at hc
      rw [hc] at hup
      cases hup
  | name n => exact ⟨n, rfl⟩

section

variable {t : AccessTree ν} {u : Account} {d e : List ν}

theorem walk_cons {a : DirAttr} (hd : t.dirs d = some a) (ha : a.allows u DirAttr.searchBit)
    (c : PathComponent ν) (cs : List (PathComponent ν)) :
    t.walk u d (c :: cs) = t.walk u (next d c) cs := by
  simp only [walk, hd, ha, if_true]

theorem walk_cons_eq_some {c : PathComponent ν} {cs : List (PathComponent ν)}
    (h : t.walk u d (c :: cs) = some e) :
    ∃ a, t.dirs d = some a ∧ a.allows u DirAttr.searchBit ∧ t.walk u (next d c) cs = some e := by
  unfold walk at h
  split at h
  · cases h
  · rename_i a hd
    split at h
    · rename_i ha
      exact ⟨a, hd, ha, h⟩
    · cases h

theorem walk_of_none (hd : t.dirs d = none) (cs : List (PathComponent ν)) :
    t.walk u d cs = none := by
  cases cs with
  | nil => simp [walk, hd]
  | cons c cs => simp [walk, hd]

/-- A directory that may not be searched ends the walk. -/
theorem walk_of_not_allowed {a : DirAttr} (hd : t.dirs d = some a)
    (ha : a.allows u DirAttr.searchBit = false) (c : PathComponent ν)
    (cs : List (PathComponent ν)) : t.walk u d (c :: cs) = none := by
  simp [walk, hd, ha]

theorem walk_eq_some {cs : List (PathComponent ν)} (h : t.walk u d cs = some e) :
    e = locate d cs ∧ (t.dirs e).isSome := by
  induction cs generalizing d with
  | nil =>
      unfold walk at h
      split at h
      · rename_i hd
        cases h
        exact ⟨rfl, hd⟩
      · cases h
  | cons c cs ih =>
      obtain ⟨-, -, -, hrest⟩ := walk_cons_eq_some h
      exact ih hrest

theorem walk_append {xs : List (PathComponent ν)} (h : t.walk u d xs = some e)
    (ys : List (PathComponent ν)) : t.walk u d (xs ++ ys) = t.walk u e ys := by
  induction xs generalizing d with
  | nil =>
      obtain ⟨rfl, -⟩ := walk_eq_some h
      rfl
  | cons c xs ih =>
      obtain ⟨a, hd, ha, hrest⟩ := walk_cons_eq_some h
      rw [List.cons_append, walk_cons hd ha, ih hrest]

/-- A walk comes by the end of every shorter one. -/
theorem walk_of_append {xs ys : List (PathComponent ν)} (h : t.walk u d (xs ++ ys) = some e) :
    ∃ m, t.walk u d xs = some m := by
  induction xs generalizing d with
  | nil =>
      refine ⟨d, ?_⟩
      cases hd : t.dirs d with
      | none =>
          rw [walk_of_none hd] at h
          cases h
      | some a => simp [walk, hd]
  | cons c xs ih =>
      obtain ⟨a, hd, ha, hrest⟩ := walk_cons_eq_some h
      obtain ⟨m, hm⟩ := ih hrest
      exact ⟨m, by rw [walk_cons hd ha, hm]⟩

/-- Whatever a walk comes by is there. -/
theorem locate_isSome_of_walk {cs front : List (PathComponent ν)} (h : t.walk u d cs = some e)
    (hfront : front <+: cs) : (t.dirs (locate d front)).isSome := by
  obtain ⟨back, rfl⟩ := hfront
  obtain ⟨m, hm⟩ := walk_of_append h
  obtain ⟨rfl, hsome⟩ := walk_eq_some hm
  exact hsome

end

variable [DecidableEq ν]

/-- Enter a directory. -/
def add (t : AccessTree ν) (p : List ν) (n : ν) (a : DirAttr) (hp : (t.dirs p).isSome) :
    AccessTree ν where
  dirs := Function.update t.dirs (p ++ [n]) (some a)
  root_isSome := by
    rw [Function.update_of_ne (by simp)]
    exact t.root_isSome
  parent_isSome := by
    intro d m hm
    by_cases hd : d = p ++ [n]
    · rw [hd, Function.update_self]
      rfl
    · rw [Function.update_of_ne hd]
      by_cases hnew : d ++ [m] = p ++ [n]
      · obtain ⟨rfl, -⟩ := List.append_inj' hnew rfl
        exact hp
      · rw [Function.update_of_ne hnew] at hm
        exact t.parent_isSome d m hm

/-- `mkdir`: the last component must be a name that is free, in a directory that the account
is led to and may write to and search. -/
def mkdir (t : AccessTree ν) (u : Account) (d : List ν) (comps : List (PathComponent ν))
    (mode : BitVec 32) : Option (AccessTree ν) :=
  match comps.getLast?, t.walk u d comps.dropLast with
  | some (.name n), some p =>
      match hp : t.dirs p with
      | none => none
      | some a =>
          if a.allows u DirAttr.writeBit && a.allows u DirAttr.searchBit &&
              (t.dirs (p ++ [n])).isNone then
            some (t.add p n ⟨u.uid, u.gid, mode⟩ (by rw [hp]; rfl))
          else none
  | _, _ => none

section

variable {t : AccessTree ν} {u : Account} {d : List ν}

theorem mkdir_of_walk_none {front : List (PathComponent ν)} (h : t.walk u d front = none)
    (c : PathComponent ν) (mode : BitVec 32) : t.mkdir u d (front ++ [c]) mode = none := by
  unfold mkdir
  rw [List.getLast?_concat, List.dropLast_concat, h]
  cases c <;> rfl

/-- Nothing is entered where the account may not search. -/
theorem mkdir_of_not_allowed {front : List (PathComponent ν)} {p : List ν} {a : DirAttr}
    (h : t.walk u d front = some p) (hp : t.dirs p = some a)
    (ha : a.allows u DirAttr.searchBit = false) (c : PathComponent ν) (mode : BitVec 32) :
    t.mkdir u d (front ++ [c]) mode = none := by
  unfold mkdir
  rw [List.getLast?_concat, List.dropLast_concat, h]
  cases c with
  | self => rfl
  | up => rfl
  | name n =>
      dsimp only
      split
      · rfl
      · rename_i b hb
        obtain rfl : a = b := Option.some.inj (hp.symm.trans hb)
        rw [ha, Bool.and_false, Bool.false_and]
        exact if_neg Bool.false_ne_true

theorem mkdir_of_allowed {front : List (PathComponent ν)} {p : List ν} {a : DirAttr} {n : ν}
    (h : t.walk u d front = some p) (hp : t.dirs p = some a)
    (hwrite : a.allows u DirAttr.writeBit) (hsearch : a.allows u DirAttr.searchBit)
    (hfree : t.dirs (p ++ [n]) = none) (mode : BitVec 32) :
    t.mkdir u d (front ++ [.name n]) mode =
      some (t.add p n ⟨u.uid, u.gid, mode⟩ (by rw [hp]; rfl)) := by
  unfold mkdir
  rw [List.getLast?_concat, List.dropLast_concat, h]
  dsimp only
  split
  · rename_i hnone
    rw [hp] at hnone
    cases hnone
  · rename_i b hb
    obtain rfl : a = b := Option.some.inj (hp.symm.trans hb)
    rw [hwrite, hsearch, hfree]
    rfl

/-- A new directory does not change a walk that succeeds. -/
theorem walk_add {p : List ν} {n : ν} {a : DirAttr} (hp : (t.dirs p).isSome)
    (hfree : t.dirs (p ++ [n]) = none) {cs : List (PathComponent ν)} {e : List ν}
    (h : t.walk u d cs = some e) : (t.add p n a hp).walk u d cs = some e := by
  have hkept : ∀ x b, t.dirs x = some b → (t.add p n a hp).dirs x = some b := by
    intro x b hx
    have hne : x ≠ p ++ [n] := by
      rintro rfl
      rw [hfree] at hx
      cases hx
    exact (Function.update_of_ne hne ..).trans hx
  induction cs generalizing d with
  | nil =>
      obtain ⟨rfl, hsome⟩ := walk_eq_some h
      obtain ⟨b, hb⟩ := Option.isSome_iff_exists.mp hsome
      simp [walk, hkept _ b hb]
  | cons c cs ih =>
      obtain ⟨b, hd, hb, hrest⟩ := walk_cons_eq_some h
      rw [walk_cons (hkept d b hd) hb, ih hrest]

end

end AccessTree
