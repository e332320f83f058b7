import Mathlib.Algebra.Order.BigOperators.Group.List
import Mathlib.Algebra.Order.Group.Nat
import XfUtil.LruCache.Accounting

/-!
# The budget of the LRU cache

Only `Add` makes a cache heavier: `Get` and `Delete` move entries or drop them.
`Add` brings the cold tier below its own limit, so the whole stays within the
budget as long as the hot tier is within its limit, which the hot counter, blind
to promotions, does not see to.
-/

namespace XfUtil

open IndexedList

variable {K V : Type*}

namespace Tier

theorem total_erase_le (cells : Cells (LruNode K V)) (it : Nat) :
    ((IndexedList.erase cells it).map fun c => c.2.valueSize.toNat).sum ≤
      (cells.map fun c => c.2.valueSize.toNat).sum :=
  ((erase_sublist cells it).map _).sum_le_sum fun _ _ => Nat.zero_le _

end Tier

namespace LruCache

/-- Sum of `value_size` over the entries of both lists. -/
def held (c : LruCache K V) : Nat := c.hot.total + c.cold.total

/-- A new cache whose `max_size` is split at `h`; the constructor splits it at 60 %. -/
def split (maxSize h : BitVec 64) : LruCache K V :=
  { (new maxSize) with maxHotSize := h, maxColdSize := maxSize - h }

example (maxSize : BitVec 64) : (new maxSize : LruCache K V) = split maxSize (hotShare maxSize) :=
  rfl

def Within (maxSize : BitVec 64) (c : LruCache K V) : Prop := c.held ≤ maxSize.toNat

/-- An `Add` finds the hot tier within its limit, and its size does not carry out of the
cold counter. -/
def Roomy (c : LruCache K V) : Op K V → Prop
  | .add _ _ valueSize =>
      c.hot.total ≤ c.maxHotSize.toNat ∧ c.cold.total + valueSize.toNat < 2 ^ 64
  | _ => True

instance (c : LruCache K V) (op : Op K V) : Decidable (c.Roomy op) := by
  cases op <;> unfold Roomy <;> infer_instance

/-- An added value fits either tier. -/
def Fits (maxHotSize maxColdSize : BitVec 64) : Op K V → Prop
  | .add _ _ valueSize => valueSize ≤ maxHotSize ∧ valueSize ≤ maxColdSize
  | _ => True

theorem split_rep (maxSize h : BitVec 64) : (split maxSize h : LruCache K V).Rep :=
  ⟨Tier.empty_rep, Tier.empty_rep⟩

variable [DecidableEq K]

/-! ## Limits and the weight of a demotion -/

/-- The limits are those given. -/
def Limits (maxHotSize maxColdSize : BitVec 64) (c : LruCache K V) : Prop :=
  c.maxHotSize = maxHotSize ∧ c.maxColdSize = maxColdSize

/-- A demotion moves an entry, and drops one with the same key. -/
theorem held_demote_le {c d : LruCache K V} {it : Nat} {n : LruNode K V} (hrep : c.Rep)
    (hback : c.hot.list.getLast? = some (it, n)) (hd : c.demote n = some d) :
    d.held ≤ c.held := by
  have hhot := hrep.hot.total_take (List.mem_of_getLast? hback)
  rw [← hrep.hot.dropBack_eq hback] at hhot
  have hpush : (((c.nextNode, n) :: c.cold.list).map fun b => b.2.valueSize.toNat).sum =
      n.valueSize.toNat + c.cold.total := by
    rw [List.map_cons, List.sum_cons, Tier.total]
  unfold demote at hd
  dsimp only at hd
  split at hd
  · cases hd
    show (c.hot.dropBack n).total +
      (((c.nextNode, n) :: c.cold.list).map fun b => b.2.valueSize.toNat).sum ≤ _
    rw [hpush, held]
    omega
  · rename_i it' _
    split at hd
    · cases hd
    · cases hd
      have herase := Tier.total_erase_le ((c.nextNode, n) :: c.cold.list) it'
      rw [hpush] at herase
      show (c.hot.dropBack n).total + ((IndexedList.erase ((c.nextNode, n) :: c.cold.list) it').map
        fun b => b.2.valueSize.toNat).sum ≤ _
      rw [held]
      omega

theorem limits_demote {c d : LruCache K V} {n : LruNode K V} {hot cold : BitVec 64}
    (h : Limits hot cold c) (hd : c.demote n = some d) : Limits hot cold d := by
  unfold demote at hd
  dsimp only at hd
  split at hd
  · cases hd
    exact h
  · split at hd
    · cases hd
    · cases hd
      exact h

/-! ## One call -/

/-- What the invariant of a run needs besides the budget itself. -/
structure Kept (maxHotSize maxColdSize : BitVec 64) (c : LruCache K V) : Prop where
  rep : c.Rep
  counted : c.cold.Counted
  limits : Limits maxHotSize maxColdSize c

theorem limits_add {c : LruCache K V} {hot cold : BitVec 64} (h : Limits hot cold c) (k : K) (v : V)
    (valueSize : BitVec 64) : Limits hot cold (c.add k v valueSize) := by
  unfold add
  dsimp only
  split <;> exact h

/-- Eviction stops below the limit of the cold tier, so the new entry fits. -/
theorem total_add_le {c : LruCache K V} (hrep : c.Rep) (hcount : c.cold.Counted) (k : K) (v : V)
    {valueSize : BitVec 64} (hfits : valueSize ≤ c.maxColdSize)
    (hcarry : c.cold.total + valueSize.toNat < 2 ^ 64) :
    (c.add k v valueSize).cold.total ≤ c.maxColdSize.toNat := by
  obtain ⟨-, hcount', hle⟩ := reserveColdList_keeps c.maxColdSize
    valueSize (fun t => t.Counted ∧ t.total ≤ c.cold.total)
    (fun t it n hrep hmem ht => ⟨hrep.counted_take hmem ht.1, by
      have htotal := hrep.total_take hmem
      omega⟩) c.cold.list.length c.cold hrep.cold ⟨hcount, le_rfl⟩
  have hdone := reserveColdList_done c.maxColdSize valueSize c.cold.list.length c.cold le_rfl
  unfold add
  dsimp only
  generalize reserveColdList c.maxColdSize valueSize c.cold.list.length c.cold = t at *
  have hroom : t.total + valueSize.toNat ≤ c.maxColdSize.toNat := by
    rcases hdone with hnil | hfit
    · have hzero : t.total = 0 := by simp [Tier.total, hnil]
      have hsize := BitVec.le_def.mp hfits
      omega
    · rw [BitVec.le_def, BitVec.toNat_add, hcount', BitVec.toNat_ofNat,
        Nat.mod_eq_of_lt (show t.total < 2 ^ 64 by omega), Nat.mod_eq_of_lt (by omega)] at hfit
      exact hfit
  split
  · exact (Nat.le_add_right _ _).trans hroom
  · show (t.push c.nextNode ⟨k, v, valueSize⟩).total ≤ _
    rw [Tier.total_push]
    show valueSize.toNat + t.total ≤ _
    omega

theorem held_reserveHotList_le {c d : LruCache K V} {valueSize : BitVec 64} {fuel : Nat}
    {hot cold : BitVec 64} (hkept : Kept hot cold c)
    (hd : reserveHotList valueSize fuel c = some d) : Kept hot cold d ∧ d.held ≤ c.held := by
  have hround : ∀ (e : LruCache K V) it n d, e.Rep → e.hot.list.getLast? = some (it, n) →
      Kept hot cold e ∧ e.held ≤ c.held → e.demote n = some d →
      Kept hot cold d ∧ d.held ≤ c.held := by
    intro e it n d hrep hback he hd
    have hle := held_demote_le hrep hback hd
    obtain ⟨hrep', -, -, hcount, -⟩ := hrep.demote_spec hback hd
    exact ⟨⟨hrep', hcount he.1.counted, limits_demote he.1.limits hd⟩, hle.trans he.2⟩
  exact reserveHotList_invariant _ hround hkept.rep ⟨hkept, le_rfl⟩ hd

theorem held_get_le {c d : LruCache K V} {k : K} {hot cold : BitVec 64} (h : Kept hot cold c)
    (hd : step c (.get k) = some d) : Kept hot cold d ∧ d.held ≤ c.held := by
  have hrep := h.rep.step_keeps hd
  rcases h.rep.step_get_cases hd with ⟨it, n, hmem, -, rfl⟩ |
    ⟨-, it, n, e, hmem, -, hloop, -, -, rfl⟩ | ⟨-, -, rfl⟩
  · have htotal := h.rep.hot.total_renew (n := n) hmem k c.nextNode
    refine ⟨⟨hrep, h.counted, h.limits⟩, ?_⟩
    show (c.hot.renew k it c.nextNode n).total + c.cold.total ≤ c.hot.total + c.cold.total
    omega
  · have htake := h.rep.cold.total_take hmem
    have hentry : Kept hot cold { c with hitCount := c.hitCount + 1, cold := c.cold.take it n } :=
      ⟨⟨h.rep.hot, h.rep.cold.take hmem⟩, h.rep.cold.counted_take hmem h.counted, h.limits⟩
    obtain ⟨hkept, hle⟩ := held_reserveHotList_le hentry hloop
    refine ⟨⟨hrep, hkept.counted, hkept.limits⟩, ?_⟩
    show (e.hot.push e.nextNode n).total + e.cold.total ≤ c.hot.total + c.cold.total
    have hbefore : e.hot.total + e.cold.total ≤ c.hot.total + (c.cold.take it n).total := hle
    rw [Tier.total_push]
    omega
  · exact ⟨⟨hrep, h.counted, h.limits⟩, le_rfl⟩

theorem held_delete_le {c d : LruCache K V} {k : K} {hot cold : BitVec 64} (h : Kept hot cold c)
    (hd : step c (.delete k) = some d) : Kept hot cold d ∧ d.held ≤ c.held := by
  have hrep := h.rep.step_keeps hd
  rcases h.rep.step_delete_cases hd with ⟨it, n, hmem, -, rfl⟩ | ⟨-, it, n, hmem, -, rfl⟩ |
      ⟨-, -, rfl⟩
  · have htake := h.rep.hot.total_take hmem
    refine ⟨⟨hrep, h.counted, h.limits⟩, ?_⟩
    show (c.hot.take it n).total + c.cold.total ≤ c.hot.total + c.cold.total
    omega
  · have htake := h.rep.cold.total_take hmem
    refine ⟨⟨hrep, h.rep.cold.counted_take hmem h.counted, h.limits⟩, ?_⟩
    show c.hot.total + (c.cold.take it n).total ≤ c.hot.total + c.cold.total
    omega
  · exact ⟨h, le_rfl⟩

/-- One call keeps within the budget, if it is an `Add` for which there is room. -/
theorem within_step {maxSize h : BitVec 64} (hh : h ≤ maxSize) {c d : LruCache K V} {op : Op K V}
    (hkept : Kept h (maxSize - h) c) (hin : Within maxSize c) (hroomy : Roomy c op)
    (hfits : Fits h (maxSize - h) op) (hd : step c op = some d) :
    Kept h (maxSize - h) d ∧ Within maxSize d := by
  have hrep := hkept.rep.step_keeps hd
  obtain ⟨hhot, hcold⟩ := hkept.limits
  cases op with
  | add k v valueSize =>
      cases hd
      have hle := total_add_le hkept.rep hkept.counted k v (hcold ▸ hfits.2) hroomy.2
      have hlimit := hroomy.1
      have hsum : h.toNat + (maxSize - h).toNat = maxSize.toNat := by
        have hle := BitVec.le_def.mp hh
        rw [BitVec.toNat_sub_of_le hh]
        omega
      rw [hcold] at hle
      rw [hhot] at hlimit
      refine ⟨⟨hrep, counted_add hkept.rep hkept.counted k v valueSize,
        limits_add hkept.limits k v valueSize⟩, ?_⟩
      rw [Within, held, add_hot]
      omega
  | get k =>
      obtain ⟨hkept', hle⟩ := held_get_le hkept hd
      exact ⟨hkept', hle.trans hin⟩
  | delete k =>
      obtain ⟨hkept', hle⟩ := held_delete_le hkept hd
      exact ⟨hkept', hle.trans hin⟩

/-! ## Whole runs -/

/-- Whatever the split: in every run of calls whose values fit either tier and whose
`Add`s find the hot tier within its limit, the entries held never exceed the budget. -/
theorem within_throughout {maxSize h : BitVec 64} (hh : h ≤ maxSize) {ops : List (Op K V)}
    (hfits : ∀ op ∈ ops, Fits h (maxSize - h) op)
    (hroomy : Machine.StepsMeet step Roomy (split maxSize h) ops) :
    (∃ c, Machine.run step (split maxSize h) ops = some c) ∧
      Machine.Throughout step (Within maxSize) (split maxSize h) ops := by
  constructor
  · obtain ⟨c, hc, -⟩ := (split_rep maxSize h).run ops
    exact ⟨c, hc⟩
  · have hmeet : Machine.StepsMeet step (fun c op => Roomy c op ∧ Fits h (maxSize - h) op)
        (split maxSize h) ops := by
      intro pre op post hops c hc
      exact ⟨hroomy pre op post hops c hc, hfits op (by simp [hops])⟩
    have hnew : Kept h (maxSize - h) (split maxSize h : LruCache K V) ∧
        Within maxSize (split maxSize h : LruCache K V) :=
      ⟨⟨split_rep maxSize h, Tier.empty_counted, rfl, rfl⟩, Nat.zero_le _⟩
    rintro pre ⟨post, rfl⟩ c hc
    exact (Machine.run_invariant_of_stepsMeet
      (fun c => Kept h (maxSize - h) c ∧ Within maxSize c) hnew
      (fun _ _ _ hI hP hd => within_step hh hI.1 hI.2 hP.1 hP.2 hd) hmeet.of_append hc).2

theorem within_throughout_ten :
    (∃ c, Machine.run step (split 10 6 : LruCache Nat Nat)
      [.add 1 7 4, .get 1, .add 2 8 4, .delete 1] = some c) ∧
      Machine.Throughout step (Within 10) (split 10 6 : LruCache Nat Nat)
        [.add 1 7 4, .get 1, .add 2 8 4, .delete 1] :=
  within_throughout (by decide) (by simp [Fits]) (Machine.StepsMeet.of_meets (by decide +kernel))

/-- Two promoted entries of size four are on no counter: with a third one in the cold
tier the cache of size ten holds twelve. -/
theorem exceeds_budget :
    ¬ ∀ (maxSize h : BitVec 64), h ≤ maxSize → ∀ ops : List (Op Nat Nat),
      (∀ op ∈ ops, Fits h (maxSize - h) op) →
        Machine.Throughout step (Within maxSize) (split maxSize h) ops := by
  intro hall
  have hwithin := hall 10 6 (by decide) [.add 1 7 4, .get 1, .add 2 8 4, .get 2, .add 3 9 4]
    (by simp [Fits]) _ List.prefix_rfl
  obtain ⟨c, hc, hheld⟩ : ∃ c : LruCache Nat Nat, Machine.run step (split 10 6)
      [.add 1 7 4, .get 1, .add 2 8 4, .get 2, .add 3 9 4] = some c ∧ c.held = 12 :=
    ⟨_, rfl, rfl⟩
  have hle := hwithin c hc
  rw [Within, hheld] at hle
  exact absurd hle (by decide)

end LruCache

end XfUtil
