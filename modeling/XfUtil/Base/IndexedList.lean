import Mathlib.Algebra.BigOperators.Group.List.Basic
import Mathlib.Algebra.GroupWithZero.Nat
import Mathlib.Data.List.Nodup
import Mathlib.Logic.Function.Basic

/-!
# Lists of nodes with an index from keys to node addresses

The structure behind linked hash maps: a list whose nodes have addresses of
their own (what an iterator holds), and a map from keys to addresses.
`Indexed` says that the two agree; each update of the pair keeps it.
-/

namespace IndexedList

variable {K N : Type*}

/-- Nodes in list order, each with its address. -/
abbrev Cells (N : Type*) := List (Nat × N)

/-- The node an iterator designates, if it is valid. -/
def deref : Cells N → Nat → Option N
  | [], _ => none
  | c :: cells, it => if c.1 = it then some c.2 else deref cells it

/-- Unlink the node an iterator designates. -/
def erase (cells : Cells N) (it : Nat) : Cells N := cells.filter fun c => c.1 ≠ it

theorem deref_of_mem {cells : Cells N} (hnd : (cells.map Prod.fst).Nodup) {it : Nat} {n : N}
    (h : (it, n) ∈ cells) : deref cells it = some n := by
  induction cells with
  | nil => simp at h
  | cons c cells ih =>
      simp only [List.map_cons, List.nodup_cons] at hnd
      rcases List.mem_cons.mp h with rfl | h
      · simp [deref]
      · have hne : c.1 ≠ it := by
          rintro rfl
          exact hnd.1 (List.mem_map.mpr ⟨(c.1, n), h, rfl⟩)
        rw [deref, if_neg hne, ih hnd.2 h]

theorem mem_erase {cells : Cells N} {it : Nat} {c : Nat × N} :
    c ∈ erase cells it ↔ c ∈ cells ∧ c.1 ≠ it := by
  simp [erase]

theorem erase_sublist (cells : Cells N) (it : Nat) : (erase cells it).Sublist cells :=
  List.filter_sublist

theorem erase_of_not_mem {cells : Cells N} {it : Nat} (h : ∀ c ∈ cells, c.1 ≠ it) :
    erase cells it = cells := by
  rw [erase, List.filter_eq_self]
  simpa using h

theorem erase_cons_ne (cells : Cells N) {it : Nat} {c : Nat × N} (h : c.1 ≠ it) :
    erase (c :: cells) it = c :: erase cells it := by
  simp [erase, h]

theorem erase_cons_self (cells : Cells N) (it : Nat) (n : N) :
    erase ((it, n) :: cells) it = erase cells it := by
  simp [erase]

theorem erase_concat {front : Cells N} {it : Nat} {n : N}
    (hnd : ((front ++ [(it, n)]).map Prod.fst).Nodup) : erase (front ++ [(it, n)]) it = front := by
  have hfront : ∀ c ∈ front, c.1 ≠ it := by
    rintro c hc rfl
    rw [List.map_append, List.nodup_append] at hnd
    exact hnd.2.2 c.1 (List.mem_map_of_mem hc) c.1 (by simp) rfl
  have hkeep : front.filter (fun c => c.1 ≠ it) = front := erase_of_not_mem hfront
  rw [erase, List.filter_append, hkeep]
  simp

/-- A node's share of a sum over the list is what erasing it takes away. -/
theorem sum_erase (f : N → Nat) {cells : Cells N} (hnd : (cells.map Prod.fst).Nodup) {it : Nat}
    {n : N} (h : (it, n) ∈ cells) :
    ((erase cells it).map fun c => f c.2).sum + f n = (cells.map fun c => f c.2).sum := by
  induction cells with
  | nil => simp at h
  | cons c cells ih =>
      simp only [List.map_cons, List.nodup_cons] at hnd
      rcases List.mem_cons.mp h with rfl | h
      · have hrest : ∀ c ∈ cells, c.1 ≠ it := fun c hc hid =>
          hnd.1 (List.mem_map.mpr ⟨c, hc, hid⟩)
        rw [erase_cons_self, erase_of_not_mem hrest, List.map_cons, List.sum_cons]
        exact Nat.add_comm _ _
      · have hne : c.1 ≠ it := by
          rintro rfl
          exact hnd.1 (List.mem_map.mpr ⟨(c.1, n), h, rfl⟩)
        have hrec := ih hnd.2 h
        rw [erase_cons_ne cells hne, List.map_cons, List.sum_cons, List.map_cons, List.sum_cons]
        omega

/-! ## Agreement of list and index -/

variable {key : N → K} {cells : Cells N} {map : K → Option Nat}

/-- Every key of the map designates the one node with that key, and every node
is indexed under its own key. -/
structure Indexed (key : N → K) (cells : Cells N) (map : K → Option Nat) : Prop where
  ids : (cells.map Prod.fst).Nodup
  sound : ∀ k it, map k = some it → ∃ n, (it, n) ∈ cells ∧ key n = k
  complete : ∀ c ∈ cells, map (key c.2) = some c.1

theorem Indexed.empty (key : N → K) : Indexed key [] fun _ => none :=
  ⟨by simp, by simp, by simp⟩

/-- Iterators of the map are valid. -/
theorem Indexed.deref (h : Indexed key cells map) {k : K} {it : Nat} (hk : map k = some it) :
    ∃ n, deref cells it = some n ∧ (it, n) ∈ cells ∧ key n = k := by
  obtain ⟨n, hmem, hkey⟩ := h.sound k it hk
  exact ⟨n, deref_of_mem h.ids hmem, hmem, hkey⟩

/-- A key is in the map exactly when some node has it. -/
theorem Indexed.map_eq_none_iff (h : Indexed key cells map) (k : K) :
    map k = none ↔ ∀ c ∈ cells, key c.2 ≠ k := by
  constructor
  · rintro hk c hc rfl
    rw [h.complete c hc] at hk
    cases hk
  · intro hk
    cases hit : map k with
    | none => rfl
    | some it =>
        obtain ⟨n, hmem, hkey⟩ := h.sound k it hit
        exact absurd hkey (hk (it, n) hmem)

/-- No two nodes have one key. -/
theorem Indexed.key_inj (h : Indexed key cells map) {c d : Nat × N} (hc : c ∈ cells)
    (hd : d ∈ cells) (hkey : key c.2 = key d.2) : c = d := by
  have hid : c.1 = d.1 := by
    have hcid := h.complete c hc
    rw [hkey, h.complete d hd] at hcid
    exact (Option.some.inj hcid).symm
  have hn : some c.2 = some d.2 := by
    rw [← deref_of_mem h.ids hc, hid, ← deref_of_mem h.ids hd]
  exact Prod.ext hid (Option.some.inj hn)

/-- No other node has the key of the first one. -/
theorem Indexed.front_ne {c : Nat × N} (h : Indexed key (c :: cells) map) :
    ∀ d ∈ cells, key d.2 ≠ key c.2 := by
  intro d hd hkey
  have hsame : d = c := h.key_inj (List.mem_cons_of_mem c hd) List.mem_cons_self hkey
  have hids := h.ids
  rw [List.map_cons, List.nodup_cons] at hids
  exact hids.1 (hsame ▸ List.mem_map_of_mem hd)

/-! ## Updates of the pair -/

variable [DecidableEq K]

theorem Indexed.cons (h : Indexed key cells map) {id : Nat} {n : N}
    (hfresh : ∀ c ∈ cells, c.1 ≠ id) (hk : map (key n) = none) :
    Indexed key ((id, n) :: cells) (Function.update map (key n) (some id)) := by
  refine ⟨?_, ?_, ?_⟩
  · simp only [List.map_cons, List.nodup_cons]
    refine ⟨fun hmem => ?_, h.ids⟩
    obtain ⟨c, hc, hid⟩ := List.mem_map.mp hmem
    exact hfresh c hc hid
  · intro k it hit
    by_cases hkn : k = key n
    · subst hkn
      rw [Function.update_self] at hit
      cases hit
      exact ⟨n, by simp, rfl⟩
    · rw [Function.update_of_ne hkn] at hit
      obtain ⟨m, hm, hkey⟩ := h.sound k it hit
      exact ⟨m, List.mem_cons_of_mem _ hm, hkey⟩
  · intro c hc
    rcases List.mem_cons.mp hc with rfl | hc
    · exact Function.update_self ..
    · have hne : key c.2 ≠ key n := (h.map_eq_none_iff (key n)).mp hk c hc
      rw [Function.update_of_ne hne, h.complete c hc]

theorem Indexed.erase (h : Indexed key cells map) {k : K} {it : Nat} (hk : map k = some it) :
    Indexed key (erase cells it) (Function.update map k none) := by
  refine ⟨h.ids.sublist ((erase_sublist cells it).map _), ?_, ?_⟩
  · intro k' it' hit
    have hne : k' ≠ k := by
      rintro rfl
      rw [Function.update_self] at hit
      cases hit
    rw [Function.update_of_ne hne] at hit
    obtain ⟨n, hmem, hkey⟩ := h.sound k' it' hit
    refine ⟨n, mem_erase.mpr ⟨hmem, ?_⟩, hkey⟩
    rintro rfl
    obtain ⟨m, hder, hm, hkm⟩ := h.deref hk
    have : m = n := Option.some.inj (hder.symm.trans (deref_of_mem h.ids hmem))
    exact hne (by rw [← hkey, ← hkm, this])
  · intro c hc
    obtain ⟨hmem, hne⟩ := mem_erase.mp hc
    have hkc : key c.2 ≠ k := by
      rintro rfl
      rw [h.complete c hmem] at hk
      exact hne (Option.some.inj hk)
    rw [Function.update_of_ne hkc, h.complete c hmem]

/-- Moving a key to a new node at the front. -/
theorem Indexed.replace (h : Indexed key cells map) {it id : Nat} {n : N}
    (hfresh : ∀ c ∈ cells, c.1 ≠ id) (hk : map (key n) = some it) :
    Indexed key ((id, n) :: IndexedList.erase cells it)
      (Function.update map (key n) (some id)) := by
  have hcons := (h.erase hk).cons
    (fun c hc => hfresh c (mem_erase.mp hc).1) (Function.update_self (key n) none map)
  rwa [Function.update_idem] at hcons

end IndexedList
