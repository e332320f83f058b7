import XfUtil.LruCache.Model
import Mathlib.Data.BitVec

/-!
# What the steps of the LRU cache do to a tier

Dropping the last node and removing a found node are one operation, `Tier.take`,
and moving a node within a tier and demoting onto a stale node are another,
`Tier.renew`. Each gets its laws once, and the two reserve loops inherit them by
a rule for their rounds.
-/

namespace XfUtil

open IndexedList

variable {K V : Type*}

namespace Tier

/-- The list and the map agree, and node addresses were all handed out already. -/
structure Rep (bound : Nat) (t : Tier K V) : Prop where
  indexed : Indexed LruNode.key t.list t.map
  fresh : ∀ c ∈ t.list, c.1 < bound

/-- The counter is the sum of the entries' sizes modulo `2 ^ 64`. -/
def Counted (t : Tier K V) : Prop := t.size = BitVec.ofNat 64 t.total

/-- The counter is the sum itself, and no subtraction has wrapped around. -/
def Exact (t : Tier K V) : Prop := t.size.toNat = t.total ∧ t.borrowed = false

theorem Rep.mono {t : Tier K V} {m n : Nat} (h : t.Rep m) (hmn : m ≤ n) : t.Rep n :=
  ⟨h.indexed, fun c hc => (h.fresh c hc).trans_le hmn⟩

theorem Rep.credit {t : Tier K V} {m : Nat} (h : t.Rep m) (n : BitVec 64) : (t.credit n).Rep m :=
  ⟨h.indexed, h.fresh⟩

theorem empty_rep : (empty : Tier K V).Rep 0 := ⟨Indexed.empty _, by simp [empty]⟩

theorem empty_counted : (empty : Tier K V).Counted := by simp [Counted, empty, total]

theorem empty_exact : (empty : Tier K V).Exact := by simp [Exact, empty, total]

theorem Rep.map_eq_none_iff {t : Tier K V} {m : Nat} (h : t.Rep m) (k : K) :
    t.map k = none ↔ ¬ t.Holds k := by
  rw [h.indexed.map_eq_none_iff]
  simp [Holds]

variable [DecidableEq K]

/-! ## Taking a node out -/

/-- The effect of both ways to take the node at `it` out of a tier. -/
def take (t : Tier K V) (it : Nat) (n : LruNode K V) : Tier K V :=
  { t.debit n.valueSize with
    list := IndexedList.erase t.list it
    map := Function.update t.map n.key none }

theorem Rep.dropBack_eq {t : Tier K V} {m it : Nat} {n : LruNode K V} (h : t.Rep m)
    (hback : t.list.getLast? = some (it, n)) : t.dropBack n = t.take it n := by
  obtain ⟨front, hlist⟩ := List.getLast?_eq_some_iff.mp hback
  have hids := h.indexed.ids
  rw [hlist] at hids
  simp only [dropBack, take, hlist, erase_concat hids, List.dropLast_concat]

theorem Rep.remove_eq {t : Tier K V} {m it : Nat} {k : K} (h : t.Rep m) (hk : t.map k = some it) :
    ∃ n, (it, n) ∈ t.list ∧ n.key = k ∧ t.remove k it = some (n, t.take it n) := by
  obtain ⟨n, hder, hmem, rfl⟩ := h.indexed.deref hk
  exact ⟨n, hmem, rfl, by simp only [remove, hder, take]⟩

section Take

variable {t : Tier K V} {m it : Nat} {n : LruNode K V} (h : t.Rep m) (hmem : (it, n) ∈ t.list)
include h hmem

theorem Rep.take : (t.take it n).Rep m :=
  ⟨h.indexed.erase (h.indexed.complete (it, n) hmem), fun c hc => h.fresh c (mem_erase.mp hc).1⟩

theorem Rep.total_take : (t.take it n).total + n.valueSize.toNat = t.total :=
  sum_erase (fun n => n.valueSize.toNat) h.indexed.ids hmem

theorem Rep.valueSize_le_total : n.valueSize.toNat ≤ t.total := by
  have hsum := h.total_take hmem
  omega

theorem Rep.holds_take (k : K) : (t.take it n).Holds k ↔ t.Holds k ∧ k ≠ n.key := by
  constructor
  · rintro ⟨c, hc, rfl⟩
    obtain ⟨hc, hne⟩ := mem_erase.mp hc
    refine ⟨⟨c, hc, rfl⟩, fun hkey => hne ?_⟩
    rw [h.indexed.key_inj hc hmem hkey]
  · rintro ⟨⟨c, hc, rfl⟩, hne⟩
    refine ⟨c, mem_erase.mpr ⟨hc, fun hit => hne ?_⟩, rfl⟩
    have hn : some c.2 = some n := by
      rw [← deref_of_mem h.indexed.ids hc, hit, deref_of_mem h.indexed.ids hmem]
    rw [Option.some.inj hn]

theorem Rep.counted_take (hc : t.Counted) : (t.take it n).Counted := by
  have hsum := h.total_take hmem
  rw [Counted, ← hsum, BitVec.ofNat_add, BitVec.ofNat_toNat, BitVec.setWidth_eq] at hc
  show t.size - n.valueSize = _
  rw [hc, BitVec.add_sub_cancel]

theorem Rep.exact_take (he : t.Exact) : (t.take it n).Exact := by
  have hsum := h.total_take hmem
  have hle : n.valueSize ≤ t.size := by
    rw [BitVec.le_def, he.1]
    exact h.valueSize_le_total hmem
  constructor
  · show (t.size - n.valueSize).toNat = _
    rw [BitVec.toNat_sub_of_le hle, he.1]
    omega
  · show (t.borrowed || decide (t.size < n.valueSize)) = false
    simpa [he.2] using BitVec.not_lt.mpr hle

end Take

/-! ## Pushing and renewing a node -/

theorem Rep.push {t : Tier K V} {m : Nat} {n : LruNode K V} (h : t.Rep m) (hn : ¬ t.Holds n.key) :
    (t.push m n).Rep (m + 1) := by
  refine ⟨h.indexed.cons (fun c hc => (h.fresh c hc).ne) ((h.map_eq_none_iff n.key).mpr hn), ?_⟩
  intro c hc
  rcases List.mem_cons.mp hc with rfl | hc
  · exact Nat.lt_succ_self m
  · exact (h.fresh c hc).trans (Nat.lt_succ_self m)

theorem total_push (t : Tier K V) (id : Nat) (n : LruNode K V) :
    (t.push id n).total = n.valueSize.toNat + t.total := by
  simp [push, total]

theorem holds_push (t : Tier K V) (id : Nat) (n : LruNode K V) (k : K) :
    (t.push id n).Holds k ↔ t.Holds k ∨ k = n.key := by
  simp [push, Holds, or_comm, eq_comm]

theorem counted_push_credit {t : Tier K V} (h : t.Counted) (id : Nat) (n : LruNode K V) :
    ((t.push id n).credit n.valueSize).Counted := by
  have htotal := total_push t id n
  show t.size + n.valueSize = BitVec.ofNat 64 (t.push id n).total
  rw [htotal, h, BitVec.ofNat_add, BitVec.ofNat_toNat, BitVec.setWidth_eq, BitVec.add_comm]

theorem exact_push_credit {t : Tier K V} (h : t.Exact) (id : Nat) (n : LruNode K V)
    (hcarry : t.total + n.valueSize.toNat < 2 ^ 64) :
    ((t.push id n).credit n.valueSize).Exact := by
  have htotal := total_push t id n
  refine ⟨?_, h.2⟩
  show (t.size + n.valueSize).toNat = (t.push id n).total
  rw [htotal, BitVec.toNat_add_of_lt (by rw [h.1]; exact hcarry), h.1]
  omega

section Renew

variable {t : Tier K V} {m it : Nat} {n old : LruNode K V} (h : t.Rep m)
  (hmem : (it, old) ∈ t.list) (hkey : old.key = n.key)
include h hmem

theorem Rep.total_renew (k : K) (id : Nat) :
    (t.renew k it id n).total + old.valueSize.toNat = n.valueSize.toNat + t.total := by
  have hsum := sum_erase (fun n : LruNode K V => n.valueSize.toNat) h.indexed.ids hmem
  simp only [total, renew, List.map_cons, List.sum_cons]
  omega

include hkey

theorem Rep.renew : (t.renew n.key it m n).Rep (m + 1) := by
  have hk : t.map n.key = some it := hkey ▸ h.indexed.complete (it, old) hmem
  refine ⟨h.indexed.replace (fun c hc => (h.fresh c hc).ne) hk, ?_⟩
  intro c hc
  rcases List.mem_cons.mp hc with rfl | hc
  · exact Nat.lt_succ_self m
  · exact (h.fresh c (mem_erase.mp hc).1).trans (Nat.lt_succ_self m)

theorem Rep.holds_renew (id : Nat) (k : K) : (t.renew n.key it id n).Holds k ↔ t.Holds k := by
  have htake := h.holds_take hmem k
  have hcons : (t.renew n.key it id n).Holds k ↔ (t.take it old).Holds k ∨ k = n.key := by
    simp [Tier.renew, Tier.take, Holds, or_comm, eq_comm]
  rw [hcons, htake]
  constructor
  · rintro (⟨hold, -⟩ | rfl)
    · exact hold
    · exact ⟨(it, old), hmem, hkey⟩
  · intro hold
    by_cases hk : k = n.key
    · exact Or.inr hk
    · exact Or.inl ⟨hold, hkey ▸ hk⟩

end Renew

end Tier

/-! ## The reserve loops -/

namespace LruCache

/-- Both tiers are well formed. -/
structure Rep (c : LruCache K V) : Prop where
  hot : c.hot.Rep c.nextNode
  cold : c.cold.Rep c.nextNode

theorem new_rep (maxSize : BitVec 64) : (new maxSize : LruCache K V).Rep :=
  ⟨Tier.empty_rep, Tier.empty_rep⟩

variable [DecidableEq K]

/-- The rule for `ReserveColdList`: a property that taking out the last node
keeps holds after the loop. -/
theorem reserveColdList_keeps {m : Nat} (maxSize valueSize : BitVec 64) (I : Tier K V → Prop)
    (hround : ∀ t it n, t.Rep m → (it, n) ∈ t.list → I t → I (t.take it n)) :
    ∀ (fuel : Nat) (t : Tier K V), t.Rep m → I t →
      (reserveColdList maxSize valueSize fuel t).Rep m ∧
        I (reserveColdList maxSize valueSize fuel t) := by
  intro fuel
  induction fuel with
  | zero => exact fun t hrep hI => ⟨hrep, hI⟩
  | succ fuel ih =>
      intro t hrep hI
      unfold reserveColdList
      cases hback : t.list.getLast? with
      | none => exact ⟨hrep, hI⟩
      | some c =>
          obtain ⟨it, n⟩ := c
          have hmem : (it, n) ∈ t.list := List.mem_of_getLast? hback
          dsimp only
          split
          · rw [hrep.dropBack_eq hback]
            exact ih _ (hrep.take hmem) (hround t it n hrep hmem hI)
          · exact ⟨hrep, hI⟩

theorem reserveColdList_sublist {m : Nat} {t : Tier K V} (hrep : t.Rep m)
    (maxSize valueSize : BitVec 64) (fuel : Nat) :
    (reserveColdList maxSize valueSize fuel t).Rep m ∧
      (reserveColdList maxSize valueSize fuel t).list.Sublist t.list := by
  apply reserveColdList_keeps maxSize valueSize (fun u => u.list.Sublist t.list) _ fuel t hrep
    (List.Sublist.refl _)
  intro u it n _ _ hsub
  exact (erase_sublist u.list it).trans hsub

/-- The loop ends for the reason the source gives: nothing is left to evict, or
the new value fits. -/
theorem reserveColdList_done (maxSize valueSize : BitVec 64) :
    ∀ (fuel : Nat) (t : Tier K V), t.list.length ≤ fuel →
      (reserveColdList maxSize valueSize fuel t).list = [] ∨
        (reserveColdList maxSize valueSize fuel t).size + valueSize ≤ maxSize := by
  intro fuel
  induction fuel with
  | zero =>
      intro t hlen
      exact Or.inl (List.length_eq_zero_iff.mp (Nat.le_zero.mp hlen))
  | succ fuel ih =>
      intro t hlen
      unfold reserveColdList
      cases hback : t.list.getLast? with
      | none => exact Or.inl (List.getLast?_eq_none_iff.mp hback)
      | some c =>
          dsimp only
          split
          · refine ih _ ?_
            have hdrop : (t.dropBack c.2).list.length = t.list.length - 1 := List.length_dropLast
            omega
          · rename_i hfits
            exact Or.inr (BitVec.not_lt.mp hfits)

/-- What one round of `ReserveHotList` does. -/
theorem Rep.demote {c : LruCache K V} {it : Nat} {n : LruNode K V} (h : c.Rep)
    (hback : c.hot.list.getLast? = some (it, n)) :
    ∃ d, c.demote n = some d ∧ d.Rep ∧ d.hot = c.hot.take it n ∧
      (∀ k, d.cold.Holds k ↔ c.cold.Holds k ∨ k = n.key) ∧
      (c.cold.Counted → d.cold.Counted) ∧
      (n.valueSize = 0#64 → c.cold.Exact → d.cold.Exact) := by
  have hmem : (it, n) ∈ c.hot.list := List.mem_of_getLast? hback
  have hhot : (c.hot.take it n).Rep (c.nextNode + 1) := (h.hot.take hmem).mono (Nat.le_succ _)
  have htake : c.hot.dropBack n = c.hot.take it n := h.hot.dropBack_eq hback
  cases hk : c.cold.map n.key with
  | none =>
      have hn : ¬ c.cold.Holds n.key := (h.cold.map_eq_none_iff n.key).mp hk
      refine ⟨{ c with
        hot := c.hot.take it n
        cold := (c.cold.credit n.valueSize).push c.nextNode n
        nextNode := c.nextNode + 1 }, ?_, ⟨hhot, (h.cold.credit _).push hn⟩, rfl,
        Tier.holds_push (c.cold.credit n.valueSize) c.nextNode n,
        fun hcount => Tier.counted_push_credit hcount c.nextNode n, ?_⟩
      · simp only [LruCache.demote, htake, Tier.credit, hk]
      · intro hz he
        refine Tier.exact_push_credit he c.nextNode n ?_
        have hlt := c.cold.size.isLt
        rw [he.1] at hlt
        simpa [hz] using hlt
  | some it' =>
      obtain ⟨old, hder, hold, hkey⟩ := h.cold.indexed.deref hk
      have hne : c.nextNode ≠ it' := (h.cold.fresh _ hold).ne'
      have htotal := h.cold.total_renew (n := n) hold n.key c.nextNode
      refine ⟨{ c with
        hot := c.hot.take it n
        cold := { c.cold.renew n.key it' c.nextNode n with
          size := c.cold.size + n.valueSize - old.valueSize
          borrowed := c.cold.borrowed || decide (c.cold.size + n.valueSize < old.valueSize) }
        nextNode := c.nextNode + 1 }, ?_, ⟨hhot, ?_⟩, rfl, ?_, ?_, ?_⟩
      · simp only [LruCache.demote, htake, Tier.credit, hk, deref, hne, if_false, hder, Tier.debit,
          Tier.renew, erase_cons_ne c.cold.list (c := (c.nextNode, n)) hne]
        rfl
      · obtain ⟨hindexed, hfresh⟩ := h.cold.renew hold hkey
        exact ⟨hindexed, hfresh⟩
      · intro k
        have hrenew := h.cold.holds_renew hold hkey c.nextNode k
        refine (show _ ↔ (c.cold.renew n.key it' c.nextNode n).Holds k from Iff.rfl).trans
          (hrenew.trans ⟨Or.inl, ?_⟩)
        rintro (hk | rfl)
        · exact hk
        · exact ⟨(it', old), hold, hkey⟩
      · intro hcount
        show c.cold.size + n.valueSize - old.valueSize =
          BitVec.ofNat 64 (c.cold.renew n.key it' c.nextNode n).total
        rw [hcount, BitVec.sub_eq_iff_eq_add]
        have hcast := congrArg (BitVec.ofNat 64) htotal
        simpa [BitVec.ofNat_add, BitVec.add_comm] using hcast.symm
      · intro hz he
        have hle : old.valueSize ≤ c.cold.size := by
          rw [BitVec.le_def, he.1]
          exact h.cold.valueSize_le_total hold
        have hzero : n.valueSize.toNat = 0 := by simp [hz]
        constructor
        · show (c.cold.size + n.valueSize - old.valueSize).toNat =
            (c.cold.renew n.key it' c.nextNode n).total
          rw [hz, BitVec.add_zero, BitVec.toNat_sub_of_le hle, he.1]
          omega
        · show (c.cold.borrowed || decide (c.cold.size + n.valueSize < old.valueSize)) = false
          simpa [he.2, hz] using BitVec.not_lt.mpr hle

/-- The same for the cache that a round leaves. -/
theorem Rep.demote_spec {c d : LruCache K V} {it : Nat} {n : LruNode K V} (h : c.Rep)
    (hback : c.hot.list.getLast? = some (it, n)) (hd : c.demote n = some d) :
    d.Rep ∧ d.hot = c.hot.take it n ∧ (∀ k, d.cold.Holds k ↔ c.cold.Holds k ∨ k = n.key) ∧
      (c.cold.Counted → d.cold.Counted) ∧
      (n.valueSize = 0#64 → c.cold.Exact → d.cold.Exact) := by
  obtain ⟨d', hd', hspec⟩ := h.demote hback
  obtain rfl : d' = d := Option.some.inj (hd'.symm.trans hd)
  exact hspec

/-- The rule for `ReserveHotList`: a property that every round keeps holds after
the loop, which uses only valid iterators. -/
theorem reserveHotList_keeps (valueSize : BitVec 64) (I : LruCache K V → Prop)
    (hround : ∀ c it n d, c.Rep → c.hot.list.getLast? = some (it, n) → I c →
      c.demote n = some d → I d) :
    ∀ (fuel : Nat) (c : LruCache K V), c.Rep → I c →
      ∃ d, reserveHotList valueSize fuel c = some d ∧ d.Rep ∧ I d := by
  intro fuel
  induction fuel with
  | zero => exact fun c hrep hI => ⟨c, rfl, hrep, hI⟩
  | succ fuel ih =>
      intro c hrep hI
      unfold reserveHotList
      cases hback : c.hot.list.getLast? with
      | none => exact ⟨c, rfl, hrep, hI⟩
      | some b =>
          obtain ⟨it, n⟩ := b
          dsimp only
          split
          · obtain ⟨d, hd, hdrep, -⟩ := hrep.demote hback
            simp only [hd]
            exact ih d hdrep (hround c it n d hrep hback hI hd)
          · exact ⟨c, rfl, hrep, hI⟩

/-- The same for the cache that the loop leaves. -/
theorem reserveHotList_invariant {valueSize : BitVec 64} (I : LruCache K V → Prop)
    (hround : ∀ c it n d, c.Rep → c.hot.list.getLast? = some (it, n) → I c →
      c.demote n = some d → I d) {fuel : Nat} {c d : LruCache K V} (hrep : c.Rep) (hI : I c)
    (hd : reserveHotList valueSize fuel c = some d) : I d := by
  obtain ⟨d', hd', -, hI'⟩ := reserveHotList_keeps valueSize I hround fuel c hrep hI
  obtain rfl : d' = d := Option.some.inj (hd'.symm.trans hd)
  exact hI'

/-! ## The calls -/

theorem Rep.add {c : LruCache K V} (h : c.Rep) (k : K) (v : V) (valueSize : BitVec 64) :
    (c.add k v valueSize).Rep := by
  obtain ⟨hcold, -⟩ := reserveColdList_sublist h.cold c.maxColdSize valueSize c.cold.list.length
  unfold LruCache.add
  dsimp only
  split
  · exact ⟨h.hot, hcold⟩
  · rename_i hk
    exact ⟨h.hot.mono (Nat.le_succ _),
      (hcold.push (n := ⟨k, v, valueSize⟩) ((hcold.map_eq_none_iff k).mp hk)).credit _⟩

/-- `Get` renews a hot node, promotes a cold one, or counts a miss. -/
theorem Rep.get_cases {c : LruCache K V} (h : c.Rep) (k : K) :
    (∃ it n, (it, n) ∈ c.hot.list ∧ n.key = k ∧
      c.get k = some ({ c with
        hitCount := c.hitCount + 1
        hot := c.hot.renew k it c.nextNode n
        nextNode := c.nextNode + 1 }, some n.value)) ∨
    (¬ c.hot.Holds k ∧ ∃ it n d, (it, n) ∈ c.cold.list ∧ n.key = k ∧
      reserveHotList n.valueSize c.hot.list.length
        { c with hitCount := c.hitCount + 1, cold := c.cold.take it n } = some d ∧
      d.Rep ∧ ¬ d.hot.Holds k ∧
      c.get k = some ({ d with
        hot := d.hot.push d.nextNode n
        nextNode := d.nextNode + 1 }, some n.value)) ∨
    (¬ c.hot.Holds k ∧ ¬ c.cold.Holds k ∧
      c.get k = some ({ c with missCount := c.missCount + 1 }, none)) := by
  cases hhot : c.hot.map k with
  | some it =>
      obtain ⟨n, hder, hmem, hkey⟩ := h.hot.indexed.deref hhot
      exact Or.inl ⟨it, n, hmem, hkey, by simp only [LruCache.get, hhot, hder]⟩
  | none =>
      have habs : ¬ c.hot.Holds k := (h.hot.map_eq_none_iff k).mp hhot
      refine Or.inr ?_
      cases hcold : c.cold.map k with
      | some it =>
          obtain ⟨n, hmem, hkey, hremove⟩ := h.cold.remove_eq hcold
          -- The rounds only take nodes out of the hot tier, so `k` stays out of it.
          have hround : ∀ (c : LruCache K V) it n d, c.Rep → c.hot.list.getLast? = some (it, n) →
              ¬ c.hot.Holds k → c.demote n = some d → ¬ d.hot.Holds k := by
            intro c it n d hrep hback hk hd
            obtain ⟨-, htake, -⟩ := hrep.demote_spec hback hd
            rw [htake, hrep.hot.holds_take (List.mem_of_getLast? hback)]
            exact fun hold => hk hold.1
          obtain ⟨d, hd, hrep, hk⟩ := reserveHotList_keeps n.valueSize
            (fun d => ¬ d.hot.Holds k) hround c.hot.list.length
            { c with hitCount := c.hitCount + 1, cold := c.cold.take it n }
            ⟨h.hot, h.cold.take hmem⟩ habs
          exact Or.inl ⟨habs, it, n, d, hmem, hkey, hd, hrep, hk,
            by simp only [LruCache.get, hhot, hcold, hremove, hd]⟩
      | none =>
          exact Or.inr ⟨habs, (h.cold.map_eq_none_iff k).mp hcold,
            by simp only [LruCache.get, hhot, hcold]⟩

/-- `Delete` takes out a hot node, or else a cold one, or finds nothing. -/
theorem Rep.delete_cases {c : LruCache K V} (h : c.Rep) (k : K) :
    (∃ it n, (it, n) ∈ c.hot.list ∧ n.key = k ∧
      c.delete k = some ({ c with hot := c.hot.take it n }, true)) ∨
    (¬ c.hot.Holds k ∧ ∃ it n, (it, n) ∈ c.cold.list ∧ n.key = k ∧
      c.delete k = some ({ c with cold := c.cold.take it n }, true)) ∨
    (¬ c.hot.Holds k ∧ ¬ c.cold.Holds k ∧ c.delete k = some (c, false)) := by
  cases hhot : c.hot.map k with
  | some it =>
      obtain ⟨n, hmem, hkey, hremove⟩ := h.hot.remove_eq hhot
      exact Or.inl ⟨it, n, hmem, hkey, by simp [LruCache.delete, hhot, hremove]⟩
  | none =>
      have habs : ¬ c.hot.Holds k := (h.hot.map_eq_none_iff k).mp hhot
      refine Or.inr ?_
      cases hcold : c.cold.map k with
      | some it =>
          obtain ⟨n, hmem, hkey, hremove⟩ := h.cold.remove_eq hcold
          exact Or.inl ⟨habs, it, n, hmem, hkey, by simp [LruCache.delete, hhot, hcold, hremove]⟩
      | none =>
          exact Or.inr ⟨habs, (h.cold.map_eq_none_iff k).mp hcold,
            by simp [LruCache.delete, hhot, hcold]⟩

theorem step_get {c : LruCache K V} {k : K} {r : LruCache K V × Option V}
    (h : c.get k = some r) : step c (.get k) = some r.1 := by
  rw [step, h, Option.map_some]

theorem step_delete {c : LruCache K V} {k : K} {r : LruCache K V × Bool}
    (h : c.delete k = some r) : step c (.delete k) = some r.1 := by
  rw [step, h, Option.map_some]

/-- The caches that a `Get` can leave. -/
theorem Rep.step_get_cases {c d : LruCache K V} (h : c.Rep) {k : K}
    (hd : LruCache.step c (.get k) = some d) :
    (∃ it n, (it, n) ∈ c.hot.list ∧ n.key = k ∧
      d = { c with
        hitCount := c.hitCount + 1
        hot := c.hot.renew k it c.nextNode n
        nextNode := c.nextNode + 1 }) ∨
    (¬ c.hot.Holds k ∧ ∃ it n e, (it, n) ∈ c.cold.list ∧ n.key = k ∧
      reserveHotList n.valueSize c.hot.list.length
        { c with hitCount := c.hitCount + 1, cold := c.cold.take it n } = some e ∧
      e.Rep ∧ ¬ e.hot.Holds k ∧
      d = { e with
        hot := e.hot.push e.nextNode n
        nextNode := e.nextNode + 1 }) ∨
    (¬ c.hot.Holds k ∧ ¬ c.cold.Holds k ∧ d = { c with missCount := c.missCount + 1 }) := by
  have hleft : ∀ {r : LruCache K V × Option V}, c.get k = some r → d = r.1 := fun hget =>
    Option.some.inj (hd.symm.trans (step_get hget))
  rcases h.get_cases k with ⟨it, n, hmem, hkey, hget⟩ |
    ⟨hno, it, n, e, hmem, hkey, hloop, hrep, hk, hget⟩ | ⟨hno, hno', hget⟩
  · exact Or.inl ⟨it, n, hmem, hkey, hleft hget⟩
  · exact Or.inr (Or.inl ⟨hno, it, n, e, hmem, hkey, hloop, hrep, hk, hleft hget⟩)
  · exact Or.inr (Or.inr ⟨hno, hno', hleft hget⟩)

/-- The caches that a `Delete` can leave. -/
theorem Rep.step_delete_cases {c d : LruCache K V} (h : c.Rep) {k : K}
    (hd : LruCache.step c (.delete k) = some d) :
    (∃ it n, (it, n) ∈ c.hot.list ∧ n.key = k ∧ d = { c with hot := c.hot.take it n }) ∨
    (¬ c.hot.Holds k ∧ ∃ it n, (it, n) ∈ c.cold.list ∧ n.key = k ∧
      d = { c with cold := c.cold.take it n }) ∨
    (¬ c.hot.Holds k ∧ ¬ c.cold.Holds k ∧ d = c) := by
  have hleft : ∀ {r : LruCache K V × Bool}, c.delete k = some r → d = r.1 := fun hdel =>
    Option.some.inj (hd.symm.trans (step_delete hdel))
  rcases h.delete_cases k with ⟨it, n, hmem, hkey, hdel⟩ |
    ⟨hno, it, n, hmem, hkey, hdel⟩ | ⟨hno, hno', hdel⟩
  · exact Or.inl ⟨it, n, hmem, hkey, hleft hdel⟩
  · exact Or.inr (Or.inl ⟨hno, it, n, hmem, hkey, hleft hdel⟩)
  · exact Or.inr (Or.inr ⟨hno, hno', hleft hdel⟩)

/-- From a well-formed cache every call runs to its end and leaves one. -/
theorem Rep.step {c : LruCache K V} (h : c.Rep) (op : Op K V) :
    ∃ d, LruCache.step c op = some d ∧ d.Rep := by
  cases op with
  | add k v valueSize => exact ⟨_, rfl, h.add k v valueSize⟩
  | get k =>
      rcases h.get_cases k with ⟨it, n, hmem, rfl, hget⟩ |
        ⟨-, it, n, d, -, rfl, -, hrep, hk, hget⟩ | ⟨-, -, hget⟩
      · exact ⟨_, step_get hget, h.hot.renew hmem rfl, h.cold.mono (Nat.le_succ _)⟩
      · exact ⟨_, step_get hget, hrep.hot.push hk, hrep.cold.mono (Nat.le_succ _)⟩
      · exact ⟨_, step_get hget, h.hot, h.cold⟩
  | delete k =>
      rcases h.delete_cases k with ⟨it, n, hmem, -, hdel⟩ | ⟨-, it, n, hmem, -, hdel⟩ |
        ⟨-, -, hdel⟩
      · exact ⟨_, step_delete hdel, h.hot.take hmem, h.cold⟩
      · exact ⟨_, step_delete hdel, h.hot, h.cold.take hmem⟩
      · exact ⟨_, step_delete hdel, h⟩

theorem Rep.step_keeps {c d : LruCache K V} {op : Op K V} (h : c.Rep)
    (hd : LruCache.step c op = some d) : d.Rep := by
  obtain ⟨d', hd', hrep⟩ := h.step op
  obtain rfl : d' = d := Option.some.inj (hd'.symm.trans hd)
  exact hrep

/-- Every sequence of calls on a well-formed cache runs to its end. -/
theorem Rep.run {c : LruCache K V} (h : c.Rep) (ops : List (Op K V)) :
    ∃ d, Machine.run LruCache.step c ops = some d ∧ d.Rep := by
  induction ops generalizing c with
  | nil => exact ⟨c, rfl, h⟩
  | cons op ops ih =>
      obtain ⟨d, hd, hrep⟩ := h.step op
      obtain ⟨e, he, hrep'⟩ := ih hrep
      exact ⟨e, by rw [Machine.run_cons, hd, Option.bind_some, he], hrep'⟩

end LruCache

end XfUtil
