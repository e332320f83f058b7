import XfUtil.Base.Recency
import XfUtil.LruCache.Invariants

/-!
# The order of the tiers

Beside the cache two logs are kept: the keys of the successful calls of `Get`, and
the keys that entered the cold tier, by an `Add` or by a demotion. The hot list
follows the first, the cold list the second, so the reserve loops, which take nodes
from the back, take the oldest.
-/

namespace XfUtil

open IndexedList

variable {K V : Type*}

namespace LruCache

variable [DecidableEq K]

/-! ## What leaves a tier, and when -/

/-- The nodes that `ReserveColdList` drops, each with the tier before. -/
def evictions (maxSize valueSize : BitVec 64) :
    Nat → Tier K V → List (Tier K V × LruNode K V)
  | 0, _ => []
  | fuel + 1, t =>
      match t.list.getLast? with
      | none => []
      | some (_, n) =>
          if t.size + valueSize > maxSize then
            (t, n) :: evictions maxSize valueSize fuel (t.dropBack n)
          else []

/-- The nodes that `ReserveHotList` moves, each with the cache before. -/
def demotions (valueSize : BitVec 64) : Nat → LruCache K V → List (LruCache K V × LruNode K V)
  | 0, _ => []
  | fuel + 1, c =>
      match c.hot.list.getLast? with
      | none => []
      | some (_, n) =>
          if c.hot.size + valueSize > c.maxHotSize then
            (c, n) :: match c.demote n with
              | none => []
              | some d => demotions valueSize fuel d
          else []

/-- The loop is nothing but these evictions. -/
theorem reserveColdList_eq_foldl (maxSize valueSize : BitVec 64) (fuel : Nat) (t : Tier K V) :
    reserveColdList maxSize valueSize fuel t =
      (evictions maxSize valueSize fuel t).foldl (fun t p => t.dropBack p.2) t := by
  induction fuel generalizing t with
  | zero => rfl
  | succ fuel ih =>
      unfold reserveColdList evictions
      cases t.list.getLast? with
      | none => rfl
      | some b =>
          dsimp only
          split
          · exact ih (t.dropBack b.2)
          · rfl

/-- The loop is nothing but these demotions. -/
theorem reserveHotList_eq_foldlM (valueSize : BitVec 64) (fuel : Nat) (c : LruCache K V) :
    reserveHotList valueSize fuel c =
      (demotions valueSize fuel c).foldlM (fun c p => c.demote p.2) c := by
  induction fuel generalizing c with
  | zero => rfl
  | succ fuel ih =>
      unfold reserveHotList demotions
      cases c.hot.list.getLast? with
      | none => rfl
      | some b =>
          dsimp only
          split
          · cases hd : c.demote b.2 with
            | none => simp [hd]
            | some d => simp [hd, ih d]
          · rfl

/-- The evictions of one call. -/
def evicted (c : LruCache K V) : Op K V → List (Tier K V × LruNode K V)
  | .add _ _ valueSize => evictions c.maxColdSize valueSize c.cold.list.length c.cold
  | _ => []

/-- The demotions of one call: those of a `Get` that finds its key in the cold tier. -/
def demoted (c : LruCache K V) : Op K V → List (LruCache K V × LruNode K V)
  | .get k =>
      match c.hot.map k, (c.cold.map k).bind (c.cold.remove k) with
      | none, some (n, cold) =>
          demotions n.valueSize c.hot.list.length
            { c with hitCount := c.hitCount + 1, cold := cold }
      | _, _ => []
  | _ => []

/-- The reserve loops of a call do what these evictions and demotions do, and nothing else. -/
structure LoopsTake (c : LruCache K V) : Prop where
  cold : ∀ k v valueSize,
    reserveColdList c.maxColdSize valueSize c.cold.list.length c.cold =
      (evicted c (.add k v valueSize)).foldl (fun t p => t.dropBack p.2) c.cold
  hot : ∀ k n cold, c.hot.map k = none → (c.cold.map k).bind (c.cold.remove k) = some (n, cold) →
    reserveHotList n.valueSize c.hot.list.length
        { c with hitCount := c.hitCount + 1, cold := cold } =
      (demoted c (.get k)).foldlM (fun c p => c.demote p.2)
        { c with hitCount := c.hitCount + 1, cold := cold }

theorem loopsTake (c : LruCache K V) : c.LoopsTake where
  cold _ _ valueSize := reserveColdList_eq_foldl c.maxColdSize valueSize c.cold.list.length c.cold
  hot k n cold hhot hcold := by
    simp only [demoted, hhot, hcold]
    exact reserveHotList_eq_foldlM n.valueSize c.hot.list.length _

/-! ## The logs -/

/-- A cache with the keys read, and those that entered the cold tier, the newest first. -/
structure Recorded (K V : Type*) where
  cache : LruCache K V
  reads : List K
  entries : List K

/-- The key that a call reads. -/
def readBy (c : LruCache K V) : Op K V → List K
  | .get k =>
      match c.get k with
      | some (_, some _) => [k]
      | _ => []
  | _ => []

/-- The keys that enter the cold tier in a call, the newest first. -/
def enteredBy (c : LruCache K V) : Op K V → List K
  | .add k _ valueSize =>
      match (reserveColdList c.maxColdSize valueSize c.cold.list.length c.cold).map k with
      | some _ => []
      | none => [k]
  | op => ((demoted c op).map fun p => p.2.key).reverse

/-- One call, and what it adds to the logs. -/
def record : Machine.Step (Recorded K V) (Op K V) := fun s op =>
  (step s.cache op).map fun c =>
    ⟨c, readBy s.cache op ++ s.reads, enteredBy s.cache op ++ s.entries⟩

end LruCache

namespace Tier

variable [DecidableEq K]

/-- The list of a tier follows the log. -/
def Follows (t : Tier K V) (log : List K) : Prop :=
  Recency.Ordered (fun c => c.2.key) log t.list

/-- `n` is in the tier, and all the other nodes are newer. -/
def Oldest (t : Tier K V) (log : List K) (n : LruNode K V) : Prop :=
  ∃ it, (it, n) ∈ t.list ∧
    ∀ c ∈ t.list, c ≠ (it, n) → Recency.time log n.key < Recency.time log c.2.key

variable {t u : Tier K V} {log : List K}

theorem Follows.sublist (h : t.Follows log) (hsub : u.list.Sublist t.list) : u.Follows log :=
  Recency.Ordered.sublist h hsub

theorem Follows.take (h : t.Follows log) (it : Nat) (n : LruNode K V) :
    (t.take it n).Follows log :=
  h.sublist (erase_sublist t.list it)

theorem Follows.front (h : t.Follows log) {m : Nat} (hrep : u.Rep m) {id : Nat} {n : LruNode K V}
    {nodes : Cells (LruNode K V)} (hu : u.list = (id, n) :: nodes) (hsub : nodes.Sublist t.list) :
    u.Follows (n.key :: log) := by
  have hindexed := hrep.indexed
  rw [hu] at hindexed
  have hfront := (Recency.Ordered.sublist h hsub).front (n := (id, n)) hindexed.front_ne
  rwa [Follows, hu]

theorem Follows.oldest (h : t.Follows log) {it : Nat} {n : LruNode K V}
    (hback : t.list.getLast? = some (it, n)) : t.Oldest log n :=
  ⟨it, List.mem_of_getLast? hback, fun _ hc hne => Recency.Ordered.last_lt h hback hc hne⟩

end Tier

namespace LruCache

variable [DecidableEq K]

/-! ## The reserve loops -/

theorem oldest_of_evictions {m : Nat} {log : List K} (maxSize valueSize : BitVec 64) (fuel : Nat)
    (t : Tier K V) (hrep : t.Rep m) (h : t.Follows log) :
    ∀ p ∈ evictions maxSize valueSize fuel t, p.1.Oldest log p.2 := by
  induction fuel generalizing t with
  | zero => simp [evictions]
  | succ fuel ih =>
      unfold evictions
      cases hback : t.list.getLast? with
      | none => simp
      | some b =>
          obtain ⟨it, n⟩ := b
          dsimp only
          split
          · intro p hp
            rcases List.mem_cons.mp hp with rfl | hp
            · exact h.oldest hback
            · rw [hrep.dropBack_eq hback] at hp
              exact ih _ (hrep.take (List.mem_of_getLast? hback)) (h.take it n) p hp
          · simp

/-- A demoted node becomes the front of the cold list; at most the node of the same key
is missing behind it. -/
theorem Rep.cold_list_demote {c d : LruCache K V} {n : LruNode K V} (h : c.Rep)
    (hd : c.demote n = some d) :
    ∃ nodes, d.cold.list = (c.nextNode, n) :: nodes ∧ nodes.Sublist c.cold.list := by
  unfold LruCache.demote at hd
  dsimp only at hd
  split at hd
  · cases hd
    exact ⟨c.cold.list, rfl, List.Sublist.refl _⟩
  · rename_i it hit
    split at hd
    · cases hd
    · obtain ⟨old, -, hold, -⟩ := h.cold.indexed.deref hit
      cases hd
      exact ⟨IndexedList.erase c.cold.list it, erase_cons_ne _ (h.cold.fresh _ hold).ne',
        erase_sublist c.cold.list it⟩

/-- Every round of `ReserveHotList` keeps both orders; it takes the node read longest
ago. -/
theorem follows_reserveHotList {reads entries : List K} (valueSize : BitVec 64) (fuel : Nat)
    (c : LruCache K V) (hrep : c.Rep) (hhot : c.hot.Follows reads)
    (hcold : c.cold.Follows entries) :
    (∀ d, reserveHotList valueSize fuel c = some d → d.hot.Follows reads ∧
      d.cold.Follows (((demotions valueSize fuel c).map fun p => p.2.key).reverse ++ entries)) ∧
    ∀ p ∈ demotions valueSize fuel c, p.1.hot.Oldest reads p.2 := by
  induction fuel generalizing c entries with
  | zero =>
      refine ⟨fun d hd => ?_, by simp [demotions]⟩
      cases hd
      exact ⟨hhot, hcold⟩
  | succ fuel ih =>
      unfold reserveHotList demotions
      cases hback : c.hot.list.getLast? with
      | none =>
          refine ⟨fun d hd => ?_, by simp⟩
          cases hd
          exact ⟨hhot, hcold⟩
      | some b =>
          obtain ⟨it, n⟩ := b
          dsimp only
          split
          · obtain ⟨e, he, herep, hehot, -⟩ := hrep.demote hback
            obtain ⟨nodes, hlist, hsub⟩ := hrep.cold_list_demote he
            have hecold : e.cold.Follows (n.key :: entries) := hcold.front herep.cold hlist hsub
            obtain ⟨hend, holdest⟩ := ih e herep (hehot ▸ hhot.take it n) hecold
            simp only [he, List.map_cons, List.reverse_cons, List.append_assoc,
              List.singleton_append]
            refine ⟨hend, fun p hp => ?_⟩
            rcases List.mem_cons.mp hp with rfl | hp
            · exact hhot.oldest hback
            · exact holdest p hp
          · refine ⟨fun d hd => ?_, by simp⟩
            cases hd
            exact ⟨hhot, hcold⟩

/-! ## One call -/

/-- The hot list follows the reads, the cold list the entries. -/
structure Recorded.InOrder (s : Recorded K V) : Prop where
  rep : s.cache.Rep
  hot : s.cache.hot.Follows s.reads
  cold : s.cache.cold.Follows s.entries

theorem demoted_of_hot {c : LruCache K V} (h : c.Rep) {it : Nat} {n : LruNode K V}
    (hmem : (it, n) ∈ c.hot.list) : demoted c (.get n.key) = [] := by
  have hmap : c.hot.map n.key = some it := h.hot.indexed.complete (it, n) hmem
  simp only [demoted, hmap]

theorem demoted_of_cold {c : LruCache K V} (h : c.Rep) {it : Nat} {n : LruNode K V}
    (hhot : ¬ c.hot.Holds n.key) (hmem : (it, n) ∈ c.cold.list) :
    demoted c (.get n.key) = demotions n.valueSize c.hot.list.length
      { c with hitCount := c.hitCount + 1, cold := c.cold.take it n } := by
  have hnone : c.hot.map n.key = none := (h.hot.map_eq_none_iff n.key).mpr hhot
  have hmap : c.cold.map n.key = some it := h.cold.indexed.complete (it, n) hmem
  have hremove : c.cold.remove n.key it = some (n, c.cold.take it n) := by
    simp only [Tier.remove, deref_of_mem h.cold.indexed.ids hmem, Tier.take]
  simp only [demoted, hnone, hmap, Option.bind_some, hremove]

theorem demoted_of_absent {c : LruCache K V} (h : c.Rep) {k : K} (hcold : ¬ c.cold.Holds k) :
    demoted c (.get k) = [] := by
  have hmap : c.cold.map k = none := (h.cold.map_eq_none_iff k).mpr hcold
  cases hhot : c.hot.map k <;> simp only [demoted, hhot, hmap, Option.bind_none]

theorem Recorded.InOrder.add {s : Recorded K V} (h : s.InOrder) (k : K) (v : V)
    (valueSize : BitVec 64) :
    (s.cache.add k v valueSize).hot.Follows s.reads ∧
      (s.cache.add k v valueSize).cold.Follows
        (enteredBy s.cache (.add k v valueSize) ++ s.entries) := by
  obtain ⟨hrep, hsub⟩ := reserveColdList_sublist h.rep.cold s.cache.maxColdSize valueSize
    s.cache.cold.list.length
  have hadded := (h.rep.add k v valueSize).cold
  cases hk : (reserveColdList s.cache.maxColdSize valueSize s.cache.cold.list.length
      s.cache.cold).map k with
  | some it =>
      simp only [LruCache.add, enteredBy, hk]
      exact ⟨h.hot, h.cold.sublist hsub⟩
  | none =>
      simp only [LruCache.add, enteredBy, hk] at hadded ⊢
      exact ⟨h.hot, h.cold.front hadded rfl hsub⟩

/-- The loop of a `Get` that finds its key in the cold tier. -/
theorem Recorded.InOrder.promotion {s : Recorded K V} (h : s.InOrder) {it : Nat}
    {n : LruNode K V} (hno : ¬ s.cache.hot.Holds n.key) (hmem : (it, n) ∈ s.cache.cold.list) :
    (∀ d, reserveHotList n.valueSize s.cache.hot.list.length
        { s.cache with hitCount := s.cache.hitCount + 1, cold := s.cache.cold.take it n } = some d →
      d.hot.Follows s.reads ∧ d.cold.Follows (enteredBy s.cache (.get n.key) ++ s.entries)) ∧
    ∀ p ∈ demoted s.cache (.get n.key), p.1.hot.Oldest s.reads p.2 := by
  rw [enteredBy, demoted_of_cold h.rep hno hmem]
  · exact follows_reserveHotList n.valueSize s.cache.hot.list.length
      { s.cache with hitCount := s.cache.hitCount + 1, cold := s.cache.cold.take it n }
      ⟨h.rep.hot, h.rep.cold.take hmem⟩ h.hot (h.cold.take it n)
  · simp

theorem Recorded.InOrder.step {s u : Recorded K V} {op : Op K V} (h : s.InOrder)
    (hu : record s op = some u) : u.InOrder := by
  obtain ⟨d, hd, rfl⟩ := Option.map_eq_some_iff.mp hu
  have hrep : d.Rep := h.rep.step_keeps hd
  cases op with
  | add k v valueSize =>
      cases hd
      obtain ⟨hhot, hcold⟩ := h.add k v valueSize
      exact ⟨hrep, hhot, hcold⟩
  | get k =>
      rcases h.rep.get_cases k with ⟨it, n, hmem, rfl, hget⟩ |
        ⟨hno, it, n, e, hmem, rfl, hloop, -, -, hget⟩ | ⟨hno, hno', hget⟩
      · obtain rfl := Option.some.inj ((step_get hget).symm.trans hd)
        refine ⟨hrep, ?_, ?_⟩
        · simp only [readBy, hget]
          exact h.hot.front hrep.hot rfl (erase_sublist s.cache.hot.list it)
        · simp only [enteredBy, demoted_of_hot h.rep hmem]
          exact h.cold
      · obtain rfl := Option.some.inj ((step_get hget).symm.trans hd)
        obtain ⟨hhot, hcold⟩ := (h.promotion hno hmem).1 e hloop
        refine ⟨hrep, ?_, ?_⟩
        · simp only [readBy, hget]
          exact hhot.front hrep.hot rfl (List.Sublist.refl _)
        · exact hcold
      · obtain rfl := Option.some.inj ((step_get hget).symm.trans hd)
        refine ⟨hrep, ?_, ?_⟩
        · simp only [readBy, hget]
          exact h.hot
        · simp only [enteredBy, demoted_of_absent h.rep hno']
          exact h.cold
  | delete k =>
      rcases h.rep.step_delete_cases hd with ⟨it, n, -, -, rfl⟩ | ⟨-, it, n, -, -, rfl⟩ |
        ⟨-, -, rfl⟩
      · exact ⟨hrep, h.hot.take it n, h.cold⟩
      · exact ⟨hrep, h.hot, h.cold.take it n⟩
      · exact ⟨hrep, h.hot, h.cold⟩

theorem Recorded.InOrder.oldest_demoted {s : Recorded K V} (h : s.InOrder) (op : Op K V) :
    ∀ p ∈ demoted s.cache op, p.1.hot.Oldest s.reads p.2 := by
  cases op with
  | add k v valueSize => simp [demoted]
  | get k =>
      rcases h.rep.get_cases k with ⟨it, n, hmem, rfl, -⟩ |
        ⟨hno, it, n, e, hmem, rfl, hloop, -⟩ | ⟨-, hno, -⟩
      · simp [demoted_of_hot h.rep hmem]
      · exact (h.promotion hno hmem).2
      · simp [demoted_of_absent h.rep hno]
  | delete k => simp [demoted]

theorem Recorded.InOrder.oldest_evicted {s : Recorded K V} (h : s.InOrder) (op : Op K V) :
    ∀ p ∈ evicted s.cache op, p.1.Oldest s.entries p.2 := by
  cases op with
  | add k v valueSize =>
      exact oldest_of_evictions s.cache.maxColdSize valueSize s.cache.cold.list.length
        s.cache.cold h.rep.cold h.cold
  | get k => simp [evicted]
  | delete k => simp [evicted]

/-! ## Whole runs -/

/-- A new cache with empty logs. -/
def recorded (maxSize : BitVec 64) : Recorded K V := ⟨new maxSize, [], []⟩

theorem recorded_inOrder (maxSize : BitVec 64) : (recorded maxSize : Recorded K V).InOrder :=
  ⟨new_rep maxSize, Recency.Ordered.nil _ [], Recency.Ordered.nil _ []⟩

/-- The logs do not get in the way: a run of the cache is a run with logs. -/
theorem Recorded.InOrder.run {s : Recorded K V} (h : s.InOrder) (ops : List (Op K V)) :
    ∃ u, Machine.run record s ops = some u ∧ Machine.run LruCache.step s.cache ops = some u.cache ∧
      u.InOrder := by
  induction ops generalizing s with
  | nil => exact ⟨s, rfl, rfl, h⟩
  | cons op ops ih =>
      obtain ⟨d, hd, -⟩ := h.rep.step op
      have hrecord : record s op =
          some ⟨d, readBy s.cache op ++ s.reads, enteredBy s.cache op ++ s.entries⟩ := by
        rw [record, hd, Option.map_some]
      obtain ⟨u, hu, hcache, hend⟩ := ih (h.step hrecord)
      refine ⟨u, ?_, ?_, hend⟩
      · rw [Machine.run_cons, hrecord, Option.bind_some, hu]
      · rw [Machine.run_cons, hd, Option.bind_some, hcache]

/-- After any sequence of calls the hot list is in the order of the last reads of its
keys, the cold list in that of their last entries; what the loops of the next call take is
demoted or evicted one by one, each node the oldest of its tier. -/
theorem recency_throughout (maxSize : BitVec 64) (ops : List (Op K V)) :
    ∃ s, Machine.run record (recorded maxSize) ops = some s ∧
      Machine.run step (new maxSize) ops = some s.cache ∧
      s.cache.hot.Follows s.reads ∧ s.cache.cold.Follows s.entries ∧
      s.cache.LoopsTake ∧
      ∀ op, (∀ p ∈ demoted s.cache op, p.1.hot.Oldest s.reads p.2) ∧
        ∀ p ∈ evicted s.cache op, p.1.Oldest s.entries p.2 := by
  obtain ⟨s, hs, hcache, h⟩ := (recorded_inOrder maxSize).run ops
  exact ⟨s, hs, hcache, h.hot, h.cold, loopsTake s.cache,
    fun op => ⟨h.oldest_demoted op, h.oldest_evicted op⟩⟩

end LruCache

end XfUtil
