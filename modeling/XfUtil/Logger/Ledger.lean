import XfUtil.BlockPool.Safety
import XfUtil.Logger.Threads

/-!
# The pool of the logger and its accounts

What the calls of `m_pool` do to the blocks in use, with the answers of `Alloc` and
the arguments of `Free` kept in step. The pool may be new or one that an earlier
`Close` has left.
-/

namespace XfUtil.LoggerImpl

open FlatMemory

/-! ## The pool between sessions -/

/-- All blocks of the arena, if there is one, are free. -/
structure Rested (p : BlockPool) : Prop where
  size : p.cacheStart ≠ 0 → p.blockSize = blockSize
  arena : ∃ count, p.cacheEnd = p.cacheStart + count * blockSize.toNat ∧
    p.freeBlocks.Perm (slots p.cacheStart blockSize.toNat count) ∧ (p.cacheStart = 0 → count = 0)

theorem rested_new : Rested BlockPool.new :=
  ⟨fun h => absurd rfl h, 0, rfl, List.Perm.refl _, fun _ => rfl⟩

theorem rested_arena {buf : Nat} (h : buf ≠ 0) (count : Nat) :
    Rested ⟨blockSize, buf, buf + count * blockSize.toNat, slots buf blockSize.toNat count⟩ :=
  ⟨fun _ => rfl, count, rfl, List.Perm.refl _, fun hzero => absurd hzero h⟩

theorem Rested.init {p : BlockPool} (h : Rested p) (buf : Nat) :
    Rested (p.init blockSize cacheNum buf).1 ∧
      (p.init blockSize cacheNum buf).1.blockSize = blockSize := by
  have haccepts : BlockPool.accepts blockSize = true := by decide
  obtain ⟨count, hend, hfree, hcount⟩ := h.arena
  by_cases hstart : p.cacheStart = 0
  · obtain rfl := hcount hstart
    have hempty : p.freeBlocks = [] := by simpa using hfree
    by_cases hbuf : buf = 0
    · have hinit : (p.init blockSize cacheNum buf).1 = { p with blockSize := blockSize } := by
        simp [BlockPool.init, haccepts, hstart, hbuf]
      rw [hinit]
      exact ⟨⟨fun _ => rfl, 0, hend, hfree, fun _ => rfl⟩, rfl⟩
    · have hinit : (p.init blockSize cacheNum buf).1 =
          ⟨blockSize, buf, buf + cacheNum.toNat * blockSize.toNat,
            slots buf blockSize.toNat cacheNum.toNat⟩ := by
        simp [BlockPool.init, haccepts, hstart, hbuf, BlockPool.pushBlocks_eq, hempty,
          Nat.mul_comm]
      rw [hinit]
      exact ⟨rested_arena hbuf _, rfl⟩
  · have hinit : (p.init blockSize cacheNum buf).1 = p := by
      simp [BlockPool.init, haccepts, hstart]
    rw [hinit]
    exact ⟨h, h.size hstart⟩

/-! ## Accounts -/

/-- The pool with `count` cache blocks from `base` on, after `Alloc` has answered `took`
and `Free` has been given `freed`. -/
structure Ledger {Tid : Type*} (base count : Nat) (pool : BlockPool.Shared Tid)
    (took freed : List Nat) : Prop where
  inv : pool.Inv base blockSize.toNat count
  base_ne : base = 0 → count = 0
  heap_ne : ∀ b ∈ pool.heap, b ≠ 0
  freed_eq : pool.frees.map BlockPool.FreeCall.block = freed
  took_perm : took.Perm (freed ++ pool.live.map Prod.fst)

variable {Tid : Type*} {base count : Nat} {pool pool' : BlockPool.Shared Tid}
  {took freed : List Nat}

theorem Rested.ledger (Tid : Type*) {p : BlockPool} (h : Rested p)
    (hsize : p.blockSize = blockSize) :
    ∃ base count, Ledger base count (BlockPool.Shared.start Tid p) [] [] := by
  obtain ⟨count, hend, hfree, hcount⟩ := h.arena
  refine ⟨p.cacheStart, count, ?_, hcount, by simp [BlockPool.Shared.start], rfl,
    List.Perm.refl _⟩
  refine ⟨by decide, by rw [← hsize]; rfl, ⟨rfl, hend⟩, ?_, List.Pairwise.nil, ?_, ?_,
    List.Pairwise.nil, ?_, ?_, ?_⟩
  · simpa [BlockPool.Shared.start, BlockPool.Shared.liveFrom] using hfree
  all_goals simp [BlockPool.Shared.start]

/-- With no block in use the pool is at rest again. -/
theorem Ledger.rested (h : Ledger base count pool took freed) (hlive : pool.live = []) :
    Rested pool.pool := by
  obtain ⟨hstart, hend⟩ := h.inv.arena
  refine ⟨fun _ => BitVec.eq_of_toNat_eq h.inv.size, count, by rw [hend, hstart], ?_, ?_⟩
  · have hconserve := h.inv.conserve
    rw [BlockPool.Shared.liveFrom, hlive] at hconserve
    rw [hstart]
    simpa using hconserve
  · rw [hstart]
    exact h.base_ne

theorem Ledger.live_ne (h : Ledger base count pool took freed) {b : Nat}
    (hb : b ∈ pool.live.map Prod.fst) : b ≠ 0 := by
  obtain ⟨held, hmem, rfl⟩ := List.mem_map.mp hb
  rcases h.inv.live_inside hmem with ⟨hin, -⟩ | ⟨hin, -⟩
  · intro hzero
    obtain ⟨hle, -⟩ := slots_inside hin
    rw [h.base_ne (by omega)] at hin
    simp at hin
  · exact h.heap_ne held.1 hin

/-- Blocks in use do not overlap. -/
theorem Ledger.apart (h : Ledger base count pool took freed) {a b : Nat}
    (ha : a ∈ pool.live.map Prod.fst) (hb : b ∈ pool.live.map Prod.fst) (hne : a ≠ b) :
    Apart a blockSize.toNat b blockSize.toNat := by
  have hpairs : (pool.live.map Prod.fst).Pairwise fun a b =>
      Apart a blockSize.toNat b blockSize.toNat := List.pairwise_map.mpr h.inv.liveApart
  exact hpairs.forall ha hb hne

theorem perm_concat {xs ys zs : List Nat} (h : xs.Perm (ys ++ zs)) (b : Nat) :
    (xs ++ [b]).Perm (ys ++ b :: zs) :=
  ((List.perm_append_singleton b xs).trans (h.cons b)).trans List.perm_middle.symm

theorem not_mem_of_liveApart {b : Nat} {source : BlockPool.Source}
    {live : List (Nat × BlockPool.Source)} {n : Nat} (hpos : 0 < n)
    (h : ((b, source) :: live).Pairwise fun x y => Apart x.1 n y.1 n) : b ∉ live.map Prod.fst := by
  intro hb
  obtain ⟨held, hmem, heq⟩ := List.mem_map.mp hb
  exact ((List.pairwise_cons.mp h).1 held hmem).ne hpos heq.symm

variable [DecidableEq Tid]

/-- The locked section of `Alloc`: a block that was not in use, or on to `xmalloc`. -/
theorem Ledger.alloc (h : Ledger base count pool took freed) {t : Tid}
    (hstep : pool.stepAlloc t = some pool') :
    pool.threads t = .idle ∧
      ((∃ block p, pool.pool.takeFree = some (block, p) ∧ block ∉ pool.live.map Prod.fst ∧
          pool'.live.map Prod.fst = block :: pool.live.map Prod.fst ∧
          pool'.threads = pool.threads ∧ Ledger base count pool' (took ++ [block]) freed) ∨
        (pool.pool.takeFree = none ∧ pool'.live = pool.live ∧
          pool'.threads = Function.update pool.threads t .allocHeap ∧
          Ledger base count pool' took freed)) := by
  have hinv : pool'.Inv base blockSize.toNat count := h.inv.step (l := .alloc t) hstep
  unfold BlockPool.Shared.stepAlloc at hstep
  split at hstep
  · cases hstep
  · rename_i hidle
    refine ⟨by simpa using hidle, ?_⟩
    cases htake : pool.pool.takeFree with
    | none =>
        rw [htake] at hstep
        cases hstep
        exact Or.inr ⟨rfl, rfl, rfl, hinv, h.base_ne, h.heap_ne, h.freed_eq, h.took_perm⟩
    | some taken =>
        rw [htake] at hstep
        cases hstep
        refine Or.inl ⟨taken.1, taken.2, rfl, not_mem_of_liveApart (by decide) hinv.liveApart, rfl,
          rfl, hinv, h.base_ne, h.heap_ne, h.freed_eq, ?_⟩
        exact perm_concat h.took_perm taken.1

theorem Ledger.xmalloc (h : Ledger base count pool took freed) {t : Tid} {buf : Nat}
    (hbuf : buf ≠ 0) (hstep : pool.stepXmalloc t buf = some pool') :
    pool.threads t = .allocHeap ∧ buf ∉ pool.live.map Prod.fst ∧
      pool'.live.map Prod.fst = buf :: pool.live.map Prod.fst ∧
      pool'.threads = Function.update pool.threads t .idle ∧
      Ledger base count pool' (took ++ [buf]) freed := by
  have hinv : pool'.Inv base blockSize.toNat count := h.inv.step (l := .xmalloc t buf) hstep
  unfold BlockPool.Shared.stepXmalloc at hstep
  split at hstep
  · cases hstep
  · rename_i hpc
    split at hstep
    · cases hstep
      refine ⟨by simpa using hpc, not_mem_of_liveApart (by decide) hinv.liveApart, rfl, rfl, hinv,
        h.base_ne, ?_, h.freed_eq, ?_⟩
      · intro b hb
        rcases List.mem_cons.mp hb with rfl | hb
        · exact hbuf
        · exact h.heap_ne b hb
      · exact perm_concat h.took_perm buf
    · cases hstep

/-- The locked section of `Free`, for a block in use. -/
theorem Ledger.free (h : Ledger base count pool took freed) {t : Tid} {block : Nat}
    (hidle : pool.threads t = .idle) (hblock : block ∈ pool.live.map Prod.fst) :
    ∃ pool', pool.stepFree t block = some pool' ∧
      (∀ b, b ∈ pool'.live.map Prod.fst ↔ b ∈ pool.live.map Prod.fst ∧ b ≠ block) ∧
      (∀ u, u ≠ t → pool'.threads u = pool.threads u) ∧ pool'.threads t ≠ .allocHeap ∧
      Ledger base count pool' took (freed ++ [block]) := by
  obtain ⟨held, hfind⟩ : ∃ held, pool.live.find? (fun held => held.1 = block) = some held := by
    obtain ⟨held, hmem, rfl⟩ := List.mem_map.mp hblock
    exact Option.isSome_iff_exists.mp (List.find?_isSome.mpr ⟨held, hmem, by simp⟩)
  have hmem := List.mem_of_find?_eq_some hfind
  obtain rfl : held.1 = block := by simpa using List.find?_some hfind
  have hlive : ∀ b, b ∈ (pool.live.erase held).map Prod.fst ↔
      b ∈ pool.live.map Prod.fst ∧ b ≠ held.1 := by
    intro b
    constructor
    · intro hb
      obtain ⟨other, hother, rfl⟩ := List.mem_map.mp hb
      exact ⟨List.mem_map_of_mem (List.mem_of_mem_erase hother), h.inv.erase_ne hmem hother⟩
    · rintro ⟨hb, hne⟩
      obtain ⟨other, hother, rfl⟩ := List.mem_map.mp hb
      exact List.mem_map_of_mem ((List.mem_erase_of_ne fun heq => hne (congrArg _ heq)).mpr hother)
  have htook : took.Perm (freed ++ [held.1] ++ (pool.live.erase held).map Prod.fst) := by
    rw [List.append_assoc]
    exact h.took_perm.trans (((List.perm_cons_erase hmem).map Prod.fst).append_left freed)
  rcases h.inv.putFree_eq hmem with ⟨-, hput⟩ | ⟨-, -, hput⟩
  · have hstep : pool.stepFree t held.1 = some { pool with
        pool := { pool.pool with freeBlocks := held.1 :: pool.pool.freeBlocks }
        live := pool.live.erase held
        frees := pool.frees ++ [BlockPool.FreeCall.mk held.1 held.2 [.cache]] } := by
      simp [BlockPool.Shared.stepFree, hidle, hfind, hput]
    refine ⟨_, hstep, hlive, fun _ _ => rfl, ?_, h.inv.step (l := .free t held.1) hstep, h.base_ne,
      h.heap_ne, by simp [h.freed_eq], htook⟩
    simp [hidle]
  · have hstep : pool.stepFree t held.1 = some ({ pool with
        live := pool.live.erase held
        frees := pool.frees ++ [BlockPool.FreeCall.mk held.1 held.2 []] }.goto t
          (.freeHeap held.1 pool.frees.length)) := by
      simp [BlockPool.Shared.stepFree, hidle, hfind, hput]
    refine ⟨_, hstep, hlive, ?_, ?_, h.inv.step (l := .free t held.1) hstep, h.base_ne,
      h.heap_ne, by simp [BlockPool.Shared.goto, h.freed_eq], htook⟩
    · intro u hu
      rw [BlockPool.Shared.goto_threads, if_neg hu]
    · rw [BlockPool.Shared.goto_threads, if_pos rfl]
      simp

theorem Ledger.xfree (h : Ledger base count pool took freed) {t : Tid}
    (hstep : pool.stepXfree t = some pool') :
    (∃ block call, pool.threads t = .freeHeap block call) ∧ pool'.live = pool.live ∧
      pool'.threads = Function.update pool.threads t .idle ∧
      Ledger base count pool' took freed := by
  have hinv : pool'.Inv base blockSize.toNat count := h.inv.step (l := .xfree t) hstep
  unfold BlockPool.Shared.stepXfree at hstep
  split at hstep
  · rename_i block call hpc
    cases hstep
    refine ⟨⟨block, call, hpc⟩, rfl, rfl, hinv, h.base_ne, ?_, ?_, h.took_perm⟩
    · intro b hb
      exact h.heap_ne b (List.mem_of_mem_erase hb)
    · rw [← h.freed_eq]
      apply List.ext_getElem?
      intro i
      simp only [BlockPool.Shared.goto, List.getElem?_map, List.getElem?_modify]
      cases pool.frees[i]? with
      | none => simp
      | some c => by_cases hi : call = i <;> simp [hi]
  · cases hstep

end XfUtil.LoggerImpl
