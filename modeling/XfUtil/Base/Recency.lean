import Mathlib.Data.List.Basic

/-!
# Recency

A log of keys, the newest entry first, tells when each key was last entered. A list
that puts every entered node at its front, and elsewhere only drops nodes, is ordered
by these times; its last node is the one entered longest ago.
-/

namespace Recency

variable {K N : Type*} [DecidableEq K]

/-- The time of a key's last entry, counted from 1; 0 for a key never entered. -/
def time : List K → K → Nat
  | [], _ => 0
  | j :: log, k => if j = k then log.length + 1 else time log k

@[simp] theorem time_cons_self (k : K) (log : List K) : time (k :: log) k = log.length + 1 :=
  if_pos rfl

theorem time_cons_ne {j k : K} (h : k ≠ j) (log : List K) : time (j :: log) k = time log k :=
  if_neg (Ne.symm h)

theorem time_le_length (log : List K) (k : K) : time log k ≤ log.length := by
  induction log with
  | nil => exact Nat.le_refl 0
  | cons j log ih =>
      unfold time
      split
      · exact Nat.le_refl _
      · exact Nat.le_succ_of_le ih

/-- Every node's key has been entered, the later the closer to the front. -/
structure Ordered (key : N → K) (log : List K) (nodes : List N) : Prop where
  entered : ∀ n ∈ nodes, key n ∈ log
  decreasing : nodes.Pairwise fun a b => time log (key b) < time log (key a)

variable {key : N → K} {log : List K} {nodes : List N}

theorem Ordered.nil (key : N → K) (log : List K) : Ordered key log [] := ⟨by simp, .nil⟩

theorem Ordered.sublist (h : Ordered key log nodes) {fewer : List N} (hsub : fewer.Sublist nodes) :
    Ordered key log fewer :=
  ⟨fun n hn => h.entered n (hsub.subset hn), h.decreasing.sublist hsub⟩

/-- Entries of other keys do not touch the order. -/
theorem Ordered.log_cons (h : Ordered key log nodes) {k : K} (hk : ∀ n ∈ nodes, key n ≠ k) :
    Ordered key (k :: log) nodes := by
  refine ⟨fun n hn => List.mem_cons_of_mem k (h.entered n hn), ?_⟩
  apply h.decreasing.imp_of_mem
  intro a b ha hb hlt
  rwa [time_cons_ne (hk a ha), time_cons_ne (hk b hb)]

/-- A node that is entered goes to the front. -/
theorem Ordered.front (h : Ordered key log nodes) {n : N} (hn : ∀ m ∈ nodes, key m ≠ key n) :
    Ordered key (key n :: log) (n :: nodes) := by
  have hrest := h.log_cons hn
  refine ⟨?_, List.pairwise_cons.mpr ⟨fun m hm => ?_, hrest.decreasing⟩⟩
  · intro m hm
    rcases List.mem_cons.mp hm with rfl | hm
    · exact List.mem_cons_self
    · exact hrest.entered m hm
  · rw [time_cons_self, time_cons_ne (hn m hm)]
    exact Nat.lt_succ_of_le (time_le_length log (key m))

/-- The last node was entered before every other one. -/
theorem Ordered.last_lt (h : Ordered key log nodes) {n : N} (hlast : nodes.getLast? = some n)
    {m : N} (hm : m ∈ nodes) (hne : m ≠ n) : time log (key n) < time log (key m) := by
  obtain ⟨front, rfl⟩ := List.getLast?_eq_some_iff.mp hlast
  rcases List.mem_append.mp hm with hm | hm
  · exact (List.pairwise_append.mp h.decreasing).2.2 m hm n List.mem_cons_self
  · exact absurd (List.mem_singleton.mp hm) hne

end Recency
