import XfUtil.LruCache.Invariants

/-!
# Adding a key that is held already

`Add` makes room before it looks for its key, and it looks in the cold map only. So
it leaves the cache alone in exactly the states in which the cold tier holds the key
and the new value would fit into that tier.
-/

namespace XfUtil

variable {K V : Type*}

namespace LruCache

/-- Lists, maps and size counters of both tiers are the same. -/
structure Untouched (c d : LruCache K V) : Prop where
  hotList : d.hot.list = c.hot.list
  hotMap : d.hot.map = c.hot.map
  hotSize : d.hot.size = c.hot.size
  coldList : d.cold.list = c.cold.list
  coldMap : d.cold.map = c.cold.map
  coldSize : d.cold.size = c.cold.size

theorem Untouched.refl (c : LruCache K V) : Untouched c c := ⟨rfl, rfl, rfl, rfl, rfl, rfl⟩

variable [DecidableEq K]

theorem reserveColdList_of_fits {maxSize valueSize : BitVec 64} (fuel : Nat) {t : Tier K V}
    (h : t.size + valueSize ≤ maxSize) : reserveColdList maxSize valueSize fuel t = t := by
  cases fuel with
  | zero => rfl
  | succ fuel =>
      unfold reserveColdList
      cases t.list.getLast? with
      | none => rfl
      | some c => exact if_neg (BitVec.not_lt.mpr h)

theorem Rep.add_of_fits {c : LruCache K V} (hrep : c.Rep) {k : K} {valueSize : BitVec 64}
    (hk : c.cold.Holds k) (hfits : c.cold.size + valueSize ≤ c.maxColdSize) (v : V) :
    c.add k v valueSize = c := by
  rw [LruCache.add, reserveColdList_of_fits _ hfits]
  cases hmap : c.cold.map k with
  | none => exact absurd hk ((hrep.cold.map_eq_none_iff k).mp hmap)
  | some it => rfl

/-- A new node has a new address, so only the branch that finds the key can leave the
list as it was; and then the loop has ended with every node still there. -/
theorem Rep.fits_of_untouched {c : LruCache K V} (hrep : c.Rep) {k : K} {v : V}
    {valueSize : BitVec 64} (h : Untouched c (c.add k v valueSize)) :
    c.cold.Holds k ∧ c.cold.size + valueSize ≤ c.maxColdSize := by
  have hdone := reserveColdList_done c.maxColdSize valueSize c.cold.list.length c.cold le_rfl
  have hlist := h.coldList
  have hmap := h.coldMap
  have hsize := h.coldSize
  unfold LruCache.add at hlist hmap hsize
  dsimp only at hlist hmap hsize
  split at hlist
  · rename_i it hk
    simp only [hk] at hmap hsize
    rw [hmap] at hk
    have hold : c.cold.Holds k := by
      by_contra hno
      rw [(hrep.cold.map_eq_none_iff k).mpr hno] at hk
      cases hk
    refine ⟨hold, ?_⟩
    rw [hlist, hsize] at hdone
    rcases hdone with hnil | hfits
    · obtain ⟨n, hn, -⟩ := hold
      rw [hnil] at hn
      cases hn
    · exact hfits
  · have hmem : (c.nextNode, ⟨k, v, valueSize⟩) ∈ c.cold.list := by
      rw [← hlist]
      exact List.mem_cons_self
    exact absurd (hrep.cold.fresh _ hmem) (Nat.lt_irrefl _)

/-- In every reachable state, `Add` changes nothing exactly if its key is in the cold
tier and its value would fit there. -/
theorem add_untouched_iff {maxSize : BitVec 64} {ops : List (Op K V)} {c : LruCache K V}
    (hrun : Machine.run step (new maxSize) ops = some c) (k : K) (v : V) (valueSize : BitVec 64) :
    Untouched c (c.add k v valueSize) ↔
      c.cold.Holds k ∧ c.cold.size + valueSize ≤ c.maxColdSize := by
  have hrep : c.Rep := Machine.run_invariant Rep (new_rep maxSize)
    (fun c op d hrep hd => hrep.step_keeps hd) hrun
  refine ⟨hrep.fits_of_untouched, fun h => ?_⟩
  rw [hrep.add_of_fits h.1 h.2 v]
  exact Untouched.refl c

/-- A key that was added once and never read. -/
theorem add_untouched_cold :
    Untouched ((new 10 : LruCache Nat Nat).add 1 7 2)
      (((new 10 : LruCache Nat Nat).add 1 7 2).add 1 8 2) :=
  (@add_untouched_iff Nat Nat _ 10 [.add 1 7 2] _ rfl 1 8 2).mpr
    ⟨⟨(0, ⟨1, 7, 2⟩), List.Mem.head _, rfl⟩, by decide⟩

/-- A promoted key gets a second entry, and a value too large for the cold tier evicts
the very key that is added. -/
theorem add_touches :
    (∃ c : LruCache Nat Nat, Machine.run step (new 10) [.add 1 7 1, .get 1] = some c ∧
      c.hot.Holds 1 ∧ ¬ Untouched c (c.add 1 8 1)) ∧
    ∃ c : LruCache Nat Nat, Machine.run step (new 10) [.add 1 7 1] = some c ∧
      c.cold.Holds 1 ∧ ¬ Untouched c (c.add 1 7 4) := by
  refine ⟨⟨_, rfl, ⟨(1, ⟨1, 7, 1⟩), List.Mem.head _, rfl⟩, fun h => ?_⟩,
    ⟨_, rfl, ⟨(0, ⟨1, 7, 1⟩), List.Mem.head _, rfl⟩, fun h => ?_⟩⟩
  · exact absurd h.coldSize (by decide)
  · exact absurd h.coldSize (by decide)

end LruCache

end XfUtil
