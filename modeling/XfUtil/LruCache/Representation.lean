import XfUtil.Base.Loop
import XfUtil.LruCache.Accounting

/-!
# What the tiers of the LRU cache represent

The map and the list of a tier stay in step whatever the counters say, the cold
counter is right modulo `2 ^ 64`, values come from the calls that added them,
and the reserve loops end because every round shortens a list.
-/

namespace XfUtil

open IndexedList

variable {K V : Type*}

namespace Tier

/-- The map designates the one node of each key, and the list holds no key twice. -/
structure OneToOne (t : Tier K V) : Prop where
  designates : ∀ k it, t.map k = some it ↔ ∃ n, (it, n) ∈ t.list ∧ n.key = k
  keys : (t.list.map fun c => c.2.key).Nodup
  nodes : (t.list.map Prod.fst).Nodup

theorem Rep.oneToOne {t : Tier K V} {m : Nat} (h : t.Rep m) : t.OneToOne := by
  refine ⟨fun k it => ⟨h.indexed.sound k it, ?_⟩, ?_, h.indexed.ids⟩
  · rintro ⟨n, hmem, rfl⟩
    exact h.indexed.complete (it, n) hmem
  · apply List.Nodup.map_on
    · intro c hc d hd hkey
      exact h.indexed.key_inj hc hd hkey
    · exact List.Nodup.of_map Prod.fst h.indexed.ids

end Tier

namespace LruCache

variable [DecidableEq K]

/-! ## The eviction loops end -/

/-- The body of `ReserveColdList`'s loop, behind its condition. -/
def coldRound (maxSize valueSize : BitVec 64) (t : Tier K V) : Option (Tier K V) :=
  t.list.getLast?.bind fun c =>
    if t.size + valueSize > maxSize then some (t.dropBack c.2) else none

/-- The body of `ReserveHotList`'s loop, behind its condition. -/
def hotRound (valueSize : BitVec 64) (c : LruCache K V) : Option (LruCache K V) :=
  c.hot.list.getLast?.bind fun b =>
    if c.hot.size + valueSize > c.maxHotSize then c.demote b.2 else none

theorem reserveColdList_endsIn (maxSize valueSize : BitVec 64) (fuel : Nat) (t : Tier K V)
    (hlen : t.list.length ≤ fuel) :
    ∃ n, n ≤ t.list.length ∧ Loop.EndsIn (coldRound maxSize valueSize) n t
      (reserveColdList maxSize valueSize fuel t) := by
  induction fuel generalizing t with
  | zero =>
      have hnil : t.list = [] := List.length_eq_zero_iff.mp (Nat.le_zero.mp hlen)
      exact ⟨0, Nat.zero_le _, rfl, by simp [reserveColdList, coldRound, hnil]⟩
  | succ fuel ih =>
      unfold reserveColdList
      cases hback : t.list.getLast? with
      | none => exact ⟨0, Nat.zero_le _, rfl, by simp [coldRound, hback]⟩
      | some c =>
          dsimp only
          split
          · rename_i hcond
            have hround : coldRound maxSize valueSize t = some (t.dropBack c.2) := by
              rw [coldRound, hback, Option.bind_some, if_pos hcond]
            have hpos := List.length_pos_of_mem (List.mem_of_getLast? hback)
            have hdrop : (t.dropBack c.2).list.length = t.list.length - 1 := List.length_dropLast
            obtain ⟨n, hn, hrun, hend⟩ := ih (t.dropBack c.2) (by omega)
            exact ⟨n + 1, by omega, Loop.rounds_succ_eq_some.mpr ⟨_, hround, hrun⟩, hend⟩
          · rename_i hcond
            exact ⟨0, Nat.zero_le _, rfl, by rw [coldRound, hback, Option.bind_some, if_neg hcond]⟩

/-- The loop ends with every round made in full, as its condition has become false. -/
structure HotLoopEnds (valueSize : BitVec 64) (c d : LruCache K V) : Prop where
  ends : ∃ n, n ≤ c.hot.list.length ∧ Loop.EndsIn (hotRound valueSize) n c d
  done : d.hot.list = [] ∨ ¬ d.hot.size + valueSize > d.maxHotSize

theorem reserveHotList_endsIn (valueSize : BitVec 64) (fuel : Nat) (c : LruCache K V)
    (hrep : c.Rep) (hlen : c.hot.list.length ≤ fuel) :
    ∃ d, reserveHotList valueSize fuel c = some d ∧ HotLoopEnds valueSize c d := by
  induction fuel generalizing c with
  | zero =>
      have hnil : c.hot.list = [] := List.length_eq_zero_iff.mp (Nat.le_zero.mp hlen)
      exact ⟨c, rfl, ⟨0, Nat.zero_le _, rfl, by simp [hotRound, hnil]⟩, Or.inl hnil⟩
  | succ fuel ih =>
      unfold reserveHotList
      cases hback : c.hot.list.getLast? with
      | none =>
          exact ⟨c, rfl, ⟨0, Nat.zero_le _, rfl, by simp [hotRound, hback]⟩,
            Or.inl (List.getLast?_eq_none_iff.mp hback)⟩
      | some b =>
          dsimp only
          split
          · rename_i hcond
            obtain ⟨e, he, herep, hhot, -⟩ := hrep.demote hback
            have hround : hotRound valueSize c = some e := by
              rw [hotRound, hback, Option.bind_some, if_pos hcond, he]
            have hpos := List.length_pos_of_mem (List.mem_of_getLast? hback)
            have hdrop : e.hot.list.length = c.hot.list.length - 1 := by
              rw [hhot, ← hrep.hot.dropBack_eq hback]
              exact List.length_dropLast
            obtain ⟨d, hd, ⟨n, hn, hrun, hend⟩, hdone⟩ := ih e herep (by omega)
            simp only [he]
            exact ⟨d, hd, ⟨n + 1, by omega, Loop.rounds_succ_eq_some.mpr ⟨e, hround, hrun⟩, hend⟩,
              hdone⟩
          · rename_i hcond
            exact ⟨c, rfl, ⟨0, Nat.zero_le _, rfl,
              by rw [hotRound, hback, Option.bind_some, if_neg hcond]⟩, Or.inr hcond⟩

/-! ## Where the entries come from -/

/-- Every entry held in either tier satisfies `P`. -/
structure All (P : LruNode K V → Prop) (c : LruCache K V) : Prop where
  hot : ∀ b ∈ c.hot.list, P b.2
  cold : ∀ b ∈ c.cold.list, P b.2

theorem All.demote {P : LruNode K V → Prop} {c d : LruCache K V} {n : LruNode K V}
    (h : All P c) (hn : P n) (hd : c.demote n = some d) : All P d := by
  have hhot : ∀ b ∈ (c.hot.dropBack n).list, P b.2 :=
    fun b hb => h.hot b (List.mem_of_mem_dropLast hb)
  have hcold : ∀ b ∈ (c.nextNode, n) :: c.cold.list, P b.2 := by
    intro b hb
    rcases List.mem_cons.mp hb with rfl | hb
    · exact hn
    · exact h.cold b hb
  unfold LruCache.demote at hd
  dsimp only at hd
  split at hd
  · cases hd
    exact ⟨hhot, hcold⟩
  · split at hd
    · cases hd
    · cases hd
      exact ⟨hhot, fun b hb => hcold b (mem_erase.mp hb).1⟩

theorem All.reserveHotList {P : LruNode K V → Prop} {c d : LruCache K V} {valueSize : BitVec 64}
    {fuel : Nat} (h : All P c) (hrep : c.Rep)
    (hd : LruCache.reserveHotList valueSize fuel c = some d) : All P d := by
  apply reserveHotList_invariant (All P) _ hrep h hd
  intro c it n d _ hback hc hd
  exact hc.demote (hc.hot _ (List.mem_of_getLast? hback)) hd

theorem All.step {P : LruNode K V → Prop} {c d : LruCache K V} {op : Op K V} (h : All P c)
    (hrep : c.Rep) (hadd : ∀ k v valueSize, op = .add k v valueSize → P ⟨k, v, valueSize⟩)
    (hd : LruCache.step c op = some d) : All P d := by
  have htake : ∀ {t : Tier K V} {it : Nat} {n : LruNode K V}, (∀ b ∈ t.list, P b.2) →
      ∀ b ∈ (t.take it n).list, P b.2 := fun ht b hb => ht b (mem_erase.mp hb).1
  cases op with
  | add k v valueSize =>
      cases hd
      have hsub := (reserveColdList_sublist hrep.cold c.maxColdSize valueSize
        c.cold.list.length).2
      unfold add
      dsimp only
      split
      · exact ⟨h.hot, fun b hb => h.cold b (hsub.subset hb)⟩
      · refine ⟨h.hot, fun b hb => ?_⟩
        rcases List.mem_cons.mp hb with rfl | hb
        · exact hadd k v valueSize rfl
        · exact h.cold b (hsub.subset hb)
  | get k =>
      rcases hrep.step_get_cases hd with ⟨it, n, hmem, -, rfl⟩ |
        ⟨-, it, n, e, hmem, -, hloop, -, -, rfl⟩ | ⟨-, -, rfl⟩
      · refine ⟨fun b hb => ?_, h.cold⟩
        rcases List.mem_cons.mp hb with rfl | hb
        · exact h.hot (it, n) hmem
        · exact h.hot b (mem_erase.mp hb).1
      · have hall := All.reserveHotList
          (c := { c with hitCount := c.hitCount + 1, cold := c.cold.take it n })
          ⟨h.hot, htake h.cold⟩ ⟨hrep.hot, hrep.cold.take hmem⟩ hloop
        refine ⟨fun b hb => ?_, hall.cold⟩
        rcases List.mem_cons.mp hb with rfl | hb
        · exact h.cold (it, n) hmem
        · exact hall.hot b hb
      · exact ⟨h.hot, h.cold⟩
  | delete k =>
      rcases hrep.step_delete_cases hd with ⟨it, n, -, -, rfl⟩ | ⟨-, it, n, -, -, rfl⟩ | ⟨-, -, rfl⟩
      · exact ⟨htake h.hot, h.cold⟩
      · exact ⟨h.hot, htake h.cold⟩
      · exact h

/-- The entry is one that some call of `ops` adds. -/
def AddedBy (ops : List (Op K V)) (n : LruNode K V) : Prop := Op.add n.key n.value n.valueSize ∈ ops

/-! ## The cold counter -/

theorem coldCounted_step {c d : LruCache K V} {op : Op K V} (hrep : c.Rep) (h : c.cold.Counted)
    (hd : step c op = some d) : d.cold.Counted := by
  cases op with
  | add k v valueSize =>
      cases hd
      exact counted_add hrep h k v valueSize
  | get k =>
      rcases hrep.step_get_cases hd with ⟨it, n, -, -, rfl⟩ |
        ⟨-, it, n, e, hmem, -, hloop, -, -, rfl⟩ | ⟨-, -, rfl⟩
      · exact h
      · have hround : ∀ (c : LruCache K V) it n d, c.Rep → c.hot.list.getLast? = some (it, n) →
            c.cold.Counted → c.demote n = some d → d.cold.Counted := by
          intro c it n d hrep hback hc hd
          obtain ⟨-, -, -, hcold, -⟩ := hrep.demote_spec hback hd
          exact hcold hc
        have hcount : e.cold.Counted := reserveHotList_invariant (fun c => c.cold.Counted) hround
          (c := { c with hitCount := c.hitCount + 1, cold := c.cold.take it n })
          ⟨hrep.hot, hrep.cold.take hmem⟩ (hrep.cold.counted_take hmem h) hloop
        exact hcount
      · exact h
  | delete k =>
      rcases hrep.step_delete_cases hd with ⟨it, n, -, -, rfl⟩ | ⟨-, it, n, hmem, -, rfl⟩ |
        ⟨-, -, rfl⟩
      · exact h
      · exact hrep.cold.counted_take hmem h
      · exact h

/-! ## Whole runs -/

/-- What every state of a cache that has served `ops` satisfies. -/
structure Represents (ops : List (Op K V)) (c : LruCache K V) : Prop where
  hot : c.hot.OneToOne
  cold : c.cold.OneToOne
  coldSize : c.cold.size = BitVec.ofNat 64 c.cold.total
  /-- A value that `Get(k)` returns was passed to an `Add(k)`. -/
  added : ∀ k d v, c.get k = some (d, some v) → ∃ valueSize, Op.add k v valueSize ∈ ops
  /-- The loop of an `Add` in this state ends. -/
  coldLoop : ∀ valueSize, ∃ n, n ≤ c.cold.list.length ∧
    Loop.EndsIn (coldRound c.maxColdSize valueSize) n c.cold
      (reserveColdList c.maxColdSize valueSize c.cold.list.length c.cold)
  /-- The loop of a `Get` that promotes an entry in this state ends. -/
  hotLoop : ∀ k it n cold, c.cold.map k = some it → c.cold.remove k it = some (n, cold) →
    ∃ d, reserveHotList n.valueSize c.hot.list.length
        { c with hitCount := c.hitCount + 1, cold := cold } = some d ∧
      HotLoopEnds n.valueSize { c with hitCount := c.hitCount + 1, cold := cold } d

theorem Represents.of_rep {ops : List (Op K V)} {c : LruCache K V} (hrep : c.Rep)
    (hcount : c.cold.Counted) (hall : All (AddedBy ops) c) : Represents ops c where
  hot := hrep.hot.oneToOne
  cold := hrep.cold.oneToOne
  coldSize := hcount
  added k d v hv := by
    rcases hrep.get_cases k with ⟨it, n, hmem, rfl, hget⟩ |
      ⟨-, it, n, e, hmem, rfl, -, -, -, hget⟩ | ⟨-, -, hget⟩
    · cases hget.symm.trans hv
      exact ⟨n.valueSize, hall.hot (it, n) hmem⟩
    · cases hget.symm.trans hv
      exact ⟨n.valueSize, hall.cold (it, n) hmem⟩
    · cases hget.symm.trans hv
  coldLoop valueSize := reserveColdList_endsIn c.maxColdSize valueSize _ c.cold le_rfl
  hotLoop k it n cold hk hremove := by
    obtain ⟨n', hmem, -, hremove'⟩ := hrep.cold.remove_eq hk
    cases hremove'.symm.trans hremove
    exact reserveHotList_endsIn n.valueSize _ _ ⟨hrep.hot, hrep.cold.take hmem⟩ le_rfl

/-- Over any sequence of calls on a new cache, whatever the sizes: the sequence runs to
its end, and in every state reached the tiers represent what they should. -/
theorem represents_throughout (maxSize : BitVec 64) (ops : List (Op K V)) :
    ∃ c, Machine.run step (new maxSize) ops = some c ∧ Represents ops c := by
  suffices h : ∃ c, Machine.run step (new maxSize) ops = some c ∧ c.Rep ∧ c.cold.Counted ∧
      All (AddedBy ops) c by
    obtain ⟨c, hc, hrep, hcount, hall⟩ := h
    exact ⟨c, hc, Represents.of_rep hrep hcount hall⟩
  induction ops using List.reverseRecOn with
  | nil =>
      exact ⟨_, rfl, new_rep maxSize, Tier.empty_counted, by simp [new, Tier.empty],
        by simp [new, Tier.empty]⟩
  | append_singleton ops op ih =>
      obtain ⟨c, hc, hrep, hcount, hall⟩ := ih
      obtain ⟨d, hd, hrep'⟩ := hrep.step op
      have hmono : All (AddedBy (ops ++ [op])) c :=
        ⟨fun b hb => List.mem_append_left _ (hall.hot b hb),
          fun b hb => List.mem_append_left _ (hall.cold b hb)⟩
      refine ⟨d, by rw [Machine.run_snoc, hc, Option.bind_some, hd], hrep',
        coldCounted_step hrep hcount hd, hmono.step hrep ?_ hd⟩
      rintro k v valueSize rfl
      exact List.mem_append_right _ (List.mem_singleton_self _)

end LruCache

end XfUtil
