import XfUtil.LruCache.Invariants

/-!
# One key, one entry

`Add` looks for its key in the cold map only. Keys are unique, and a deleted key
stays deleted, in exactly the runs that never add a key the hot tier holds.
-/

namespace XfUtil

open IndexedList

variable {K V : Type*}

namespace LruCache

/-- No key is held in both tiers. -/
def Unique (c : LruCache K V) : Prop := ∀ k, ¬ (c.hot.Holds k ∧ c.cold.Holds k)

/-- Neither tier holds `k`. -/
def Absent (k : K) (c : LruCache K V) : Prop := ¬ c.hot.Holds k ∧ ¬ c.cold.Holds k

/-- An `Add` is of a key that the hot tier does not hold. -/
def AddsNew (c : LruCache K V) : Op K V → Prop
  | .add k _ _ => ¬ c.hot.Holds k
  | _ => True

/-- Whether the call is an `Add` of `k`. -/
def Op.Adds (k : K) : Op K V → Prop
  | .add j _ _ => j = k
  | _ => False

theorem new_unique (maxSize : BitVec 64) : (new maxSize : LruCache K V).Unique := by
  rintro k ⟨⟨c, hc, -⟩, -⟩
  exact absurd hc List.not_mem_nil

variable [DecidableEq K]

/-- `Delete` removes the key: from a run on a new cache that ends with `Delete k`,
whatever follows up to the next `Add` of `k`, `Get k` finds nothing. -/
def DeletesStick (maxSize : BitVec 64) (ops : List (Op K V)) : Prop :=
  ∀ before k after, before ++ .delete k :: after <+: ops → (∀ op ∈ after, ¬ op.Adds k) →
    ∀ c, Machine.run step (new maxSize) (before ++ .delete k :: after) = some c →
      ∃ d, c.get k = some (d, none)

/-! ## What each call does to the keys held -/

theorem holds_reserveColdList {t : Tier K V} {m : Nat} (h : t.Rep m) (maxSize valueSize : BitVec 64)
    (fuel : Nat) (k : K) (hk : (reserveColdList maxSize valueSize fuel t).Holds k) : t.Holds k := by
  obtain ⟨b, hb, hkey⟩ := hk
  exact ⟨b, (reserveColdList_sublist h maxSize valueSize fuel).2.subset hb, hkey⟩

/-- `Add` puts its key into the cold tier, where no other key is new. -/
theorem Rep.holds_add {c : LruCache K V} (h : c.Rep) (k : K) (v : V) (valueSize : BitVec 64) :
    (c.add k v valueSize).hot = c.hot ∧ (c.add k v valueSize).cold.Holds k ∧
      ∀ j, (c.add k v valueSize).cold.Holds j → c.cold.Holds j ∨ j = k := by
  obtain ⟨hcold, -⟩ := reserveColdList_sublist h.cold c.maxColdSize valueSize c.cold.list.length
  have hsub := holds_reserveColdList h.cold c.maxColdSize valueSize c.cold.list.length
  unfold LruCache.add
  dsimp only
  split
  · rename_i it hk
    refine ⟨rfl, ?_, fun j hj => Or.inl (hsub j hj)⟩
    by_contra hno
    rw [(hcold.map_eq_none_iff k).mpr hno] at hk
    cases hk
  · have hpush := Tier.holds_push
      (reserveColdList c.maxColdSize valueSize c.cold.list.length c.cold)
      c.nextNode ⟨k, v, valueSize⟩
    refine ⟨rfl, (hpush k).mpr (Or.inr rfl), fun j hj => ?_⟩
    exact ((hpush j).mp hj).imp_left (hsub j)

/-- A round of `ReserveHotList` moves a key from the hot tier to the cold one. -/
theorem Rep.holds_demote {c d : LruCache K V} {it : Nat} {n : LruNode K V} (h : c.Rep)
    (hback : c.hot.list.getLast? = some (it, n)) (hd : c.demote n = some d) :
    c.hot.Holds n.key ∧ (∀ k, d.hot.Holds k ↔ c.hot.Holds k ∧ k ≠ n.key) ∧
      ∀ k, d.cold.Holds k ↔ c.cold.Holds k ∨ k = n.key := by
  obtain ⟨-, htake, hcold, -⟩ := h.demote_spec hback hd
  have hmem := List.mem_of_getLast? hback
  exact ⟨⟨(it, n), hmem, rfl⟩, fun k => htake ▸ h.hot.holds_take hmem k, hcold⟩

theorem unique_reserveHotList {c d : LruCache K V} {valueSize : BitVec 64} {fuel : Nat}
    (h : c.Rep) (hu : c.Unique) (hd : reserveHotList valueSize fuel c = some d) : d.Unique := by
  apply reserveHotList_invariant Unique _ h hu hd
  intro c it n d hrep hback hu hd k hk
  obtain ⟨-, hhot, hcold⟩ := hrep.holds_demote hback hd
  obtain ⟨hold, hne⟩ := (hhot k).mp hk.1
  rcases (hcold k).mp hk.2 with hold' | hkey
  · exact hu k ⟨hold, hold'⟩
  · exact hne hkey

theorem absent_reserveHotList {c d : LruCache K V} {valueSize : BitVec 64} {fuel : Nat} {k : K}
    (h : c.Rep) (hk : c.Absent k) (hd : reserveHotList valueSize fuel c = some d) : d.Absent k := by
  apply reserveHotList_invariant (Absent k) _ h hk hd
  intro c it n d hrep hback hk hd
  obtain ⟨hn, hhot, hcold⟩ := hrep.holds_demote hback hd
  refine ⟨fun hold => hk.1 ((hhot k).mp hold).1, fun hold => ?_⟩
  rcases (hcold k).mp hold with hold | rfl
  · exact hk.2 hold
  · exact hk.1 hn

/-! ## One step -/

theorem Absent.get_eq {c : LruCache K V} {k : K} (h : c.Absent k) (hrep : c.Rep) :
    ∃ d, c.get k = some (d, none) := by
  rcases hrep.get_cases k with ⟨it, n, hmem, hkey, -⟩ | ⟨-, it, n, -, hmem, hkey, -⟩ | ⟨-, -, hget⟩
  · exact absurd ⟨_, hmem, hkey⟩ h.1
  · exact absurd ⟨_, hmem, hkey⟩ h.2
  · exact ⟨_, hget⟩

/-- A key once absent comes back only by an `Add` of it. -/
theorem Absent.step {c d : LruCache K V} {k : K} {op : Op K V} (h : c.Absent k) (hrep : c.Rep)
    (hop : ¬ op.Adds k) (hd : LruCache.step c op = some d) : d.Absent k := by
  cases op with
  | add j v valueSize =>
      cases hd
      obtain ⟨hhot, -, hcold⟩ := hrep.holds_add j v valueSize
      refine ⟨hhot ▸ h.1, fun hold => ?_⟩
      rcases hcold k hold with hold | rfl
      · exact h.2 hold
      · exact hop rfl
  | get j =>
      rcases hrep.step_get_cases hd with ⟨it, n, hmem, rfl, rfl⟩ |
        ⟨-, it, n, e, hmem, rfl, hloop, -, -, rfl⟩ | ⟨-, -, rfl⟩
      · exact ⟨fun hold => h.1 ((hrep.hot.holds_renew hmem rfl _ k).mp hold), h.2⟩
      · have habs := absent_reserveHotList (k := k)
          (c := { c with hitCount := c.hitCount + 1, cold := c.cold.take it n })
          ⟨hrep.hot, hrep.cold.take hmem⟩
          ⟨h.1, fun hold => h.2 ((hrep.cold.holds_take hmem k).mp hold).1⟩ hloop
        refine ⟨fun hold => ?_, habs.2⟩
        rcases (Tier.holds_push e.hot e.nextNode n k).mp hold with hold | rfl
        · exact habs.1 hold
        · exact h.2 ⟨_, hmem, rfl⟩
      · exact h
  | delete j =>
      rcases hrep.step_delete_cases hd with ⟨it, n, hmem, -, rfl⟩ | ⟨-, it, n, hmem, -, rfl⟩ |
        ⟨-, -, rfl⟩
      · exact ⟨fun hold => h.1 ((hrep.hot.holds_take hmem k).mp hold).1, h.2⟩
      · exact ⟨h.1, fun hold => h.2 ((hrep.cold.holds_take hmem k).mp hold).1⟩
      · exact h

theorem Unique.absent_delete {c d : LruCache K V} (h : c.Unique) (hrep : c.Rep) {k : K}
    (hd : step c (.delete k) = some d) : d.Absent k := by
  rcases hrep.step_delete_cases hd with ⟨it, n, hmem, rfl, rfl⟩ | ⟨hno, it, n, hmem, rfl, rfl⟩ |
    ⟨hno, hno', rfl⟩
  · exact ⟨fun hold => ((hrep.hot.holds_take hmem _).mp hold).2 rfl,
      fun hold => h _ ⟨⟨_, hmem, rfl⟩, hold⟩⟩
  · exact ⟨hno, fun hold => ((hrep.cold.holds_take hmem _).mp hold).2 rfl⟩
  · exact ⟨hno, hno'⟩

/-- One call keeps the keys unique exactly if it adds no key of the hot tier. -/
theorem step_unique_iff {c d : LruCache K V} {op : Op K V} (h : c.Unique) (hrep : c.Rep)
    (hd : step c op = some d) : d.Unique ↔ AddsNew c op := by
  cases op with
  | add k v valueSize =>
      cases hd
      obtain ⟨hhot, hcold, hsub⟩ := hrep.holds_add k v valueSize
      constructor
      · exact fun hu hold => hu k ⟨hhot ▸ hold, hcold⟩
      · rintro hno j ⟨hj, hj'⟩
        rw [hhot] at hj
        rcases hsub j hj' with hold | rfl
        · exact h j ⟨hj, hold⟩
        · exact hno hj
  | get k =>
      refine iff_of_true ?_ trivial
      rcases hrep.step_get_cases hd with ⟨it, n, hmem, rfl, rfl⟩ |
        ⟨hno, it, n, e, hmem, rfl, hloop, -, -, rfl⟩ | ⟨-, -, rfl⟩
      · exact fun j hj => h j ⟨(hrep.hot.holds_renew hmem rfl _ j).mp hj.1, hj.2⟩
      · have hrep' : Rep { c with hitCount := c.hitCount + 1, cold := c.cold.take it n } :=
          ⟨hrep.hot, hrep.cold.take hmem⟩
        have hsub := hrep.cold.holds_take hmem
        have hu := unique_reserveHotList hrep'
          (fun j hj => h j ⟨hj.1, ((hsub j).mp hj.2).1⟩) hloop
        have habs := absent_reserveHotList hrep'
          ⟨hno, fun hold => ((hsub n.key).mp hold).2 rfl⟩ hloop
        rintro j ⟨hj, hj'⟩
        rcases (Tier.holds_push e.hot e.nextNode n j).mp hj with hold | rfl
        · exact hu j ⟨hold, hj'⟩
        · exact habs.2 hj'
      · exact h
  | delete k =>
      refine iff_of_true ?_ trivial
      rcases hrep.step_delete_cases hd with ⟨it, n, hmem, -, rfl⟩ | ⟨-, it, n, hmem, -, rfl⟩ |
        ⟨-, -, rfl⟩
      · exact fun j hj => h j ⟨((hrep.hot.holds_take hmem j).mp hj.1).1, hj.2⟩
      · exact fun j hj => h j ⟨hj.1, ((hrep.cold.holds_take hmem j).mp hj.2).1⟩
      · exact h

/-! ## Whole runs -/

theorem Absent.run {c d : LruCache K V} {k : K} {ops : List (Op K V)} (h : c.Absent k)
    (hrep : c.Rep) (hops : ∀ op ∈ ops, ¬ op.Adds k)
    (hd : Machine.run LruCache.step c ops = some d) : d.Absent k ∧ d.Rep := by
  induction ops generalizing c with
  | nil =>
      cases hd
      exact ⟨h, hrep⟩
  | cons op ops ih =>
      obtain ⟨e, he, hd⟩ := Option.bind_eq_some_iff.mp hd
      exact ih (h.step hrep (hops op (by simp)) he) (hrep.step_keeps he)
        (fun op' hop => hops op' (by simp [hop])) hd

theorem unique_throughout (maxSize : BitVec 64) (ops : List (Op K V)) :
    Machine.Throughout step Unique (new maxSize) ops ↔
      Machine.StepsMeet step AddsNew (new maxSize) ops := by
  refine Machine.throughout_iff_stepsMeet Unique Rep (new_unique maxSize) (new_rep maxSize) ?_
    (fun c op d => step_unique_iff) ?_ ops
  · intro c op _ hrep
    obtain ⟨d, hd, -⟩ := hrep.step op
    exact ⟨d, hd⟩
  · exact fun c op d _ hrep hd _ => hrep.step_keeps hd

theorem deletesStick_of_unique {maxSize : BitVec 64} {ops : List (Op K V)}
    (h : Machine.Throughout step Unique (new maxSize) ops) : DeletesStick maxSize ops := by
  intro before k after hpre hafter c hc
  obtain ⟨d, hd, hc⟩ := Machine.run_append_eq_some hc
  obtain ⟨e, he, hc⟩ := Option.bind_eq_some_iff.mp hc
  have hu : d.Unique := h before ((List.prefix_append _ _).trans hpre) d hd
  have hrep : d.Rep := Machine.run_invariant Rep (new_rep maxSize)
    (fun c op d hrep hd => hrep.step_keeps hd) hd
  obtain ⟨habs, hrep'⟩ := Absent.run (hu.absent_delete hrep he) (hrep.step_keeps he) hafter hc
  exact habs.get_eq hrep'

/-- Keys are never held twice, and deleted keys stay deleted, in exactly the
runs in which every `Add` is of a key the hot tier does not hold. -/
theorem unique_deletesStick_iff (maxSize : BitVec 64) (ops : List (Op K V)) :
    (Machine.Throughout step Unique (new maxSize) ops ∧ DeletesStick maxSize ops) ↔
      Machine.StepsMeet step AddsNew (new maxSize) ops := by
  rw [← unique_throughout]
  exact ⟨And.left, fun h => ⟨h, deletesStick_of_unique h⟩⟩

/-- Adding a promoted key again keeps it in both tiers: after its `Delete`, `Get`
still returns the second value. -/
theorem add_duplicates_hot_key :
    ¬ ∀ (maxSize : BitVec 64) (ops : List (Op Nat Nat)),
      Machine.Throughout step Unique (new maxSize) ops ∧ DeletesStick maxSize ops := by
  intro h
  have hstick := (h 10 [.add 1 7 1, .get 1, .add 1 8 1, .delete 1]).2
    [.add 1 7 1, .get 1, .add 1 8 1] 1 [] List.prefix_rfl (by simp)
  obtain ⟨c, hc, d, hget⟩ : ∃ c : LruCache Nat Nat,
      Machine.run step (new 10) [.add 1 7 1, .get 1, .add 1 8 1, .delete 1] = some c ∧
        ∃ d, c.get 1 = some (d, some 8) := ⟨_, rfl, _, rfl⟩
  obtain ⟨d', hnone⟩ := hstick c hc
  rw [hget] at hnone
  cases hnone

end LruCache

end XfUtil
