import XfUtil.LruCache.Invariants

/-!
# The size counters of the LRU cache

Add, demotion, eviction and `Delete` move sizes and counters together. A
promotion takes the entry's size off the cold counter and adds it to no other:
the counters stay right exactly as long as promoted entries have size zero.
-/

namespace XfUtil

open IndexedList

variable {K V : Type*}

namespace LruCache

/-- Both counters and `Size()` are the totals of the entries held, modulo `2 ^ 64`. -/
structure Accounted (c : LruCache K V) : Prop where
  hot : c.hot.size = BitVec.ofNat 64 c.hot.total
  cold : c.cold.size = BitVec.ofNat 64 c.cold.total
  size : c.size = BitVec.ofNat 64 (c.hot.total + c.cold.total)

/-- No subtraction from either counter has wrapped around. -/
def NoUnderflow (c : LruCache K V) : Prop := c.hot.borrowed = false ∧ c.cold.borrowed = false

/-- A `Get` that promotes a cold entry promotes one of size zero. -/
def Charged (c : LruCache K V) : Op K V → Prop
  | .get k => ¬ c.hot.Holds k → ∀ n ∈ c.cold.list, n.2.key = k → n.2.valueSize = 0#64
  | _ => True

/-- An `Add` does not carry out of the cold counter. -/
def NoCarry (c : LruCache K V) : Op K V → Prop
  | .add _ _ valueSize => c.cold.size.toNat + valueSize.toNat < 2 ^ 64
  | _ => True

theorem accounted_iff (c : LruCache K V) : c.Accounted ↔ c.hot.Counted ∧ c.cold.Counted := by
  constructor
  · exact fun h => ⟨h.hot, h.cold⟩
  · rintro ⟨hhot, hcold⟩
    refine ⟨hhot, hcold, ?_⟩
    rw [size, hhot, hcold, BitVec.ofNat_add]

theorem new_accounted (maxSize : BitVec 64) : (new maxSize : LruCache K V).Accounted :=
  (accounted_iff _).mpr ⟨Tier.empty_counted, Tier.empty_counted⟩

variable [DecidableEq K]

/-! ## The counters modulo `2 ^ 64` -/

theorem counted_push_iff {t : Tier K V} (h : t.Counted) (id : Nat) (n : LruNode K V) :
    (t.push id n).Counted ↔ n.valueSize = 0#64 := by
  have htotal := Tier.total_push t id n
  rw [Tier.Counted, htotal, BitVec.ofNat_add, BitVec.ofNat_toNat, BitVec.setWidth_eq, ← h]
  show t.size = n.valueSize + t.size ↔ _
  rw [right_eq_add]
  rfl

theorem counted_renew {t : Tier K V} {m it : Nat} {n : LruNode K V} (hrep : t.Rep m)
    (h : t.Counted) (hmem : (it, n) ∈ t.list) (k : K) (id : Nat) :
    (t.renew k it id n).Counted := by
  have htotal := hrep.total_renew (n := n) hmem k id
  have heq : (t.renew k it id n).total = t.total := by omega
  rw [Tier.Counted, heq]
  exact h

theorem counted_add {c : LruCache K V} (hrep : c.Rep) (h : c.cold.Counted) (k : K) (v : V)
    (valueSize : BitVec 64) : (c.add k v valueSize).cold.Counted := by
  have hcold := (reserveColdList_keeps c.maxColdSize valueSize
    Tier.Counted (fun _ _ _ hrep hmem => hrep.counted_take hmem) c.cold.list.length c.cold
    hrep.cold h).2
  unfold add
  dsimp only
  split
  · exact hcold
  · exact Tier.counted_push_credit hcold c.nextNode ⟨k, v, valueSize⟩

theorem add_hot (c : LruCache K V) (k : K) (v : V) (valueSize : BitVec 64) :
    (c.add k v valueSize).hot = c.hot := by
  unfold add
  dsimp only
  split <;> rfl

theorem counted_reserveHotList {c d : LruCache K V} {valueSize : BitVec 64} {fuel : Nat}
    (hrep : c.Rep) (h : c.hot.Counted ∧ c.cold.Counted)
    (hd : reserveHotList valueSize fuel c = some d) : d.hot.Counted ∧ d.cold.Counted := by
  have hround : ∀ (c : LruCache K V) it n d, c.Rep → c.hot.list.getLast? = some (it, n) →
      c.hot.Counted ∧ c.cold.Counted → c.demote n = some d → d.hot.Counted ∧ d.cold.Counted := by
    intro c it n d hrep hback hc hd
    obtain ⟨-, htake, -, hcold, -⟩ := hrep.demote_spec hback hd
    rw [htake]
    exact ⟨hrep.hot.counted_take (List.mem_of_getLast? hback) hc.1, hcold hc.2⟩
  exact reserveHotList_invariant _ hround hrep h hd

/-- One call keeps the counters right exactly if it promotes nothing of positive size. -/
theorem step_accounted_iff {c d : LruCache K V} {op : Op K V} (h : c.Accounted) (hrep : c.Rep)
    (hd : step c op = some d) : d.Accounted ↔ Charged c op := by
  obtain ⟨hhot, hcold⟩ := (accounted_iff c).mp h
  rw [accounted_iff]
  cases op with
  | add k v valueSize =>
      cases hd
      refine iff_of_true ⟨?_, counted_add hrep hcold k v valueSize⟩ trivial
      rw [add_hot]
      exact hhot
  | get k =>
      rcases hrep.step_get_cases hd with ⟨it, n, hmem, hkey, rfl⟩ |
        ⟨habs, it, n, e, hmem, hkey, hloop, -, -, rfl⟩ | ⟨habs, hmiss, rfl⟩
      · exact iff_of_true ⟨counted_renew hrep.hot hhot hmem k _, hcold⟩
          fun hno => absurd ⟨_, hmem, hkey⟩ hno
      · have hloop' := counted_reserveHotList
          (c := { c with hitCount := c.hitCount + 1, cold := c.cold.take it n })
          ⟨hrep.hot, hrep.cold.take hmem⟩ ⟨hhot, hrep.cold.counted_take hmem hcold⟩ hloop
        have hpush := counted_push_iff hloop'.1 e.nextNode n
        constructor
        · intro hd _ m hm hmk
          obtain rfl : m = (it, n) := hrep.cold.indexed.key_inj hm hmem (hmk.trans hkey.symm)
          exact hpush.mp hd.1
        · exact fun hcharged => ⟨hpush.mpr (hcharged habs _ hmem hkey), hloop'.2⟩
      · exact iff_of_true ⟨hhot, hcold⟩ fun _ m hm hmk => absurd ⟨m, hm, hmk⟩ hmiss
  | delete k =>
      refine iff_of_true ?_ trivial
      rcases hrep.step_delete_cases hd with ⟨it, n, hmem, -, rfl⟩ | ⟨-, it, n, hmem, -, rfl⟩ |
        ⟨-, -, rfl⟩
      · exact ⟨hrep.hot.counted_take hmem hhot, hcold⟩
      · exact ⟨hhot, hrep.cold.counted_take hmem hcold⟩
      · exact ⟨hhot, hcold⟩

/-! ## The counters as numbers -/

/-- The state of a cache whose counters never wrapped: only entries of size zero
have been promoted, so the hot tier weighs nothing. -/
structure Balanced (c : LruCache K V) : Prop where
  rep : c.Rep
  hot : c.hot.Exact
  cold : c.cold.Exact
  light : c.hot.total = 0

omit [DecidableEq K] in
theorem new_balanced (maxSize : BitVec 64) : (new maxSize : LruCache K V).Balanced :=
  ⟨new_rep maxSize, Tier.empty_exact, Tier.empty_exact, rfl⟩

theorem Balanced.demote {c d : LruCache K V} {it : Nat} {n : LruNode K V} (h : c.Balanced)
    (hback : c.hot.list.getLast? = some (it, n)) (hd : c.demote n = some d) : d.Balanced := by
  have hmem := List.mem_of_getLast? hback
  have htotal := h.rep.hot.total_take hmem
  have hlight := h.light
  have hz : n.valueSize = 0#64 := BitVec.eq_of_toNat_eq (by simp; omega)
  obtain ⟨hrep, htake, -, -, hexact⟩ := h.rep.demote_spec hback hd
  refine ⟨hrep, ?_, hexact hz h.cold, ?_⟩
  · rw [htake]
    exact h.rep.hot.exact_take hmem h.hot
  · rw [htake]
    omega

theorem Balanced.add {c : LruCache K V} (h : c.Balanced) (k : K) (v : V) {valueSize : BitVec 64}
    (hcarry : c.cold.size.toNat + valueSize.toNat < 2 ^ 64) :
    (c.add k v valueSize).Balanced := by
  have hrep := h.rep.add k v valueSize
  have hhot := add_hot c k v valueSize
  refine ⟨hrep, hhot ▸ h.hot, ?_, hhot ▸ h.light⟩
  obtain ⟨-, hexact, hle⟩ := reserveColdList_keeps c.maxColdSize
    valueSize (fun t => t.Exact ∧ t.total ≤ c.cold.total)
    (fun t it n hrep hmem ht => ⟨hrep.exact_take hmem ht.1, by
      have htotal := hrep.total_take hmem
      omega⟩) c.cold.list.length c.cold h.rep.cold ⟨h.cold, le_rfl⟩
  unfold LruCache.add
  dsimp only
  split
  · exact hexact
  · refine Tier.exact_push_credit hexact c.nextNode ⟨k, v, valueSize⟩ ?_
    have hsize := h.cold.1
    simp only
    omega

theorem Balanced.step {c d : LruCache K V} {op : Op K V} (h : c.Balanced) (hcharged : Charged c op)
    (hcarry : NoCarry c op) (hd : LruCache.step c op = some d) : d.Balanced := by
  have hrep := h.rep.step_keeps hd
  cases op with
  | add k v valueSize =>
      cases hd
      exact h.add k v hcarry
  | get k =>
      rcases h.rep.step_get_cases hd with ⟨it, n, hmem, -, rfl⟩ |
        ⟨habs, it, n, e, hmem, hkey, hloop, -, -, rfl⟩ | ⟨-, -, rfl⟩
      · have htotal := h.rep.hot.total_renew (n := n) hmem k c.nextNode
        have heq : (c.hot.renew k it c.nextNode n).total = c.hot.total := by omega
        exact ⟨hrep, ⟨h.hot.1.trans heq.symm, h.hot.2⟩, h.cold, heq.trans h.light⟩
      · have hz : n.valueSize = 0#64 := hcharged habs _ hmem hkey
        have hbal : e.Balanced := reserveHotList_invariant Balanced
          (fun c it n d _ hback hc hd => hc.demote hback hd)
          (c := { c with hitCount := c.hitCount + 1, cold := c.cold.take it n })
          ⟨h.rep.hot, h.rep.cold.take hmem⟩
          ⟨⟨h.rep.hot, h.rep.cold.take hmem⟩, h.hot, h.rep.cold.exact_take hmem h.cold, h.light⟩
          hloop
        have htotal : (e.hot.push e.nextNode n).total = e.hot.total := by
          simp [Tier.total_push, hz]
        exact ⟨hrep, ⟨hbal.hot.1.trans htotal.symm, hbal.hot.2⟩, hbal.cold,
          htotal.trans hbal.light⟩
      · exact ⟨hrep, h.hot, h.cold, h.light⟩
  | delete k =>
      rcases h.rep.step_delete_cases hd with ⟨it, n, hmem, -, rfl⟩ | ⟨-, it, n, hmem, -, rfl⟩ |
        ⟨-, -, rfl⟩
      · have htotal := h.rep.hot.total_take hmem
        have hlight := h.light
        exact ⟨hrep, h.rep.hot.exact_take hmem h.hot, h.cold,
          (show (c.hot.take it n).total = 0 by omega)⟩
      · exact ⟨hrep, h.hot, h.rep.cold.exact_take hmem h.cold, h.light⟩
      · exact h

/-! ## Whole runs -/

/-- Over any sequence of calls on a new cache, which always runs to its end: the
counters are right throughout exactly if no `Get` promotes an entry of positive
size, and if besides no `Add` carries out of the cold counter, no subtraction
ever wraps. -/
theorem accounted_throughout_iff (maxSize : BitVec 64) (ops : List (Op K V)) :
    (∃ c, Machine.run step (new maxSize) ops = some c) ∧
    (Machine.Throughout step Accounted (new maxSize) ops ↔
      Machine.StepsMeet step Charged (new maxSize) ops) ∧
    (Machine.StepsMeet step (fun c op => Charged c op ∧ NoCarry c op) (new maxSize) ops →
      Machine.Throughout step NoUnderflow (new maxSize) ops) := by
  refine ⟨?_, ?_, ?_⟩
  · obtain ⟨c, hc, -⟩ := (new_rep maxSize).run ops
    exact ⟨c, hc⟩
  · refine Machine.throughout_iff_stepsMeet Accounted Rep (new_accounted maxSize)
      (new_rep maxSize) ?_ (fun c op d => step_accounted_iff) ?_ ops
    · intro c op _ hrep
      obtain ⟨d, hd, -⟩ := hrep.step op
      exact ⟨d, hd⟩
    · exact fun c op d _ hrep hd _ => hrep.step_keeps hd
  · rintro hmeet before ⟨after, rfl⟩ c hc
    have hbal := Machine.run_invariant_of_stepsMeet Balanced (new_balanced maxSize)
      (fun c op d hb hP hd => hb.step hP.1 hP.2 hd) hmeet.of_append hc
    exact ⟨hbal.hot.2, hbal.cold.2⟩

/-- A promoted entry of size one is on no counter, and deleting it wraps the hot one. -/
theorem get_loses_value_size :
    ¬ ∀ (maxSize : BitVec 64) (ops : List (Op Nat Nat)),
      Machine.Throughout step (fun c => c.Accounted ∧ c.NoUnderflow) (new maxSize) ops := by
  intro h
  have hacc := h 10 [.add 1 7 1, .get 1] [.add 1 7 1, .get 1] List.prefix_rfl
  obtain ⟨c, hc, hsize, htotal⟩ : ∃ c : LruCache Nat Nat,
      Machine.run step (new 10) [.add 1 7 1, .get 1] = some c ∧ c.hot.size = 0 ∧
        c.hot.total = 1 := ⟨_, rfl, rfl, rfl⟩
  have hhot := (hacc c hc).1.hot
  rw [hsize, htotal] at hhot
  revert hhot
  decide

end LruCache

end XfUtil
