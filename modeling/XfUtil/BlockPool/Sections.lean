import XfUtil.Base.Sections
import XfUtil.BlockPool.Threads

/-!
# The sections of `BlockPool`, statement by statement

A section under `m_lock` is several statements, and while one thread is between two of them the
others go on outside the lock. Here the sections are taken apart, and it is shown that this makes
no difference: with the lock free, the pool is in a state that whole sections lead to.
-/

namespace XfUtil.BlockPool

/-- The calls that have a section. -/
inductive Call where
  | alloc
  | free (block : Nat)
deriving Repr, DecidableEq

/-- How a section ends: it returns from the call, or the call goes on outside the lock. -/
inductive Result where
  | taken (buf : Nat)
  | missed
  | kept
  | foreign
deriving Repr, DecidableEq

/-- The statement that comes next. `unlock` is the end of the scope of the `SpinLockGuard`. -/
inductive Statement where
  | empty
  | front
  | popFront (buf : Nat)
  | inCache (block : Nat)
  | pushFront (block : Nat)
  | unlock (result : Result)
deriving Repr, DecidableEq

/-- What the callers hold, and what happens outside the lock. -/
structure World where
  heap : List Nat
  live : List (Nat × Source)
  frees : List FreeCall

inductive Outside where
  | xmalloc (buf : Nat)
  | xfree
deriving Repr, DecidableEq

/-- `front` and `pop_front` of an empty deque are undefined. -/
def Statement.exec : Statement → BlockPool → Option (BlockPool × (Statement ⊕ Result))
  | .empty, p => some (p, .inl (if p.freeBlocks.isEmpty then .unlock .missed else .front))
  | .front, p =>
      match p.freeBlocks with
      | [] => none
      | buf :: _ => some (p, .inl (.popFront buf))
  | .popFront buf, p =>
      match p.freeBlocks with
      | [] => none
      | _ :: rest => some ({ p with freeBlocks := rest }, .inl (.unlock (.taken buf)))
  | .inCache block, p =>
      some (p, .inl (if p.cacheStart ≤ block ∧ block < p.cacheEnd then .pushFront block
        else .unlock .foreign))
  | .pushFront block, p =>
      some ({ p with freeBlocks := block :: p.freeBlocks }, .inl (.unlock .kept))
  | .unlock result, p => some (p, .inr result)

def Call.start : Call → Statement
  | .alloc => .empty
  | .free block => .inCache block

def Call.whole : Call → BlockPool → BlockPool × Result
  | .alloc, p =>
      match p.takeFree with
      | some (buf, p') => (p', .taken buf)
      | none => (p, .missed)
  | .free block, p =>
      match p.putFree block with
      | some p' => (p', .kept)
      | none => (p, .foreign)

/-- A thread calls `Free` with a block that a caller holds. -/
def Call.may (world : World) (pc : Pc) : Call → Bool
  | .alloc => pc = .idle
  | .free block => pc = .idle ∧ (world.live.find? fun held => held.1 = block).isSome

/-- Ghost: what the callers hold when the section is over. -/
def Call.finish (world : World) (pc : Pc) : Call → Result → World × Pc
  | .alloc, .taken buf => ({ world with live := (buf, .cache) :: world.live }, .idle)
  | .alloc, .missed => (world, .allocHeap)
  | .free block, result =>
      match world.live.find? fun held => held.1 = block with
      | none => (world, pc)
      | some held =>
          let frees := fun returned => world.frees ++ [FreeCall.mk block held.2 returned]
          if result = .kept then
            ({ world with live := world.live.erase held, frees := frees [.cache] }, .idle)
          else
            ({ world with live := world.live.erase held, frees := frees [] },
              .freeHeap block world.frees.length)
  | .alloc, _ => (world, pc)

/-- The state with nobody in a section; `p` is only asked for its configuration. -/
def World.shared (world : World) (p : BlockPool) : Shared Unit :=
  ⟨p, fun _ => .idle, world.heap, world.live, world.frees⟩

def Outside.run : Outside → BlockPool → World → Pc → Option (World × Pc)
  | .xmalloc buf, p, world, .allocHeap =>
      if buf = 0 then some (world, .idle)
      else if (world.shared p).FreshBlock buf then
        some ({ world with heap := buf :: world.heap, live := (buf, .heap) :: world.live }, .idle)
      else none
  | .xfree, _, world, .freeHeap block call =>
      some ({ world with
        heap := world.heap.erase block
        frees := world.frees.modify call fun c =>
          { c with returned := c.returned ++ [Source.heap] } }, .idle)
  | _, _, _, _ => none

/-- `Alloc` and `Free` under `m_lock`. -/
def sections : Sections BlockPool BlockPool World Pc Call Statement Result Outside where
  view p := { p with freeBlocks := [] }
  may := Call.may
  start := Call.start
  micro := Statement.exec
  whole := Call.whole
  finish world pc c r := c.finish world pc r
  outside := Outside.run

/-! ## The sections left alone -/

theorem alloc_completes (p : BlockPool) :
    sections.Completes .empty p (Call.alloc.whole p) := by
  obtain ⟨blockSize, cacheStart, cacheEnd, freeBlocks⟩ := p
  cases freeBlocks with
  | nil => exact .next rfl rfl (.last rfl rfl)
  | cons buf rest => exact .next rfl rfl (.next rfl rfl (.next rfl rfl (.last rfl rfl)))

theorem free_completes (block : Nat) (p : BlockPool) :
    sections.Completes (.inCache block) p ((Call.free block).whole p) := by
  by_cases hin : p.cacheStart ≤ block ∧ block < p.cacheEnd
  · have hmicro : sections.micro (.inCache block) p = some (p, .inl (.pushFront block)) := by
      simp [sections, Statement.exec, hin]
    have hwhole : (Call.free block).whole p =
        ({ p with freeBlocks := block :: p.freeBlocks }, .kept) := by
      simp [Call.whole, putFree, hin]
    rw [hwhole]
    exact .next hmicro rfl (.next rfl rfl (.last rfl rfl))
  · have hmicro : sections.micro (.inCache block) p = some (p, .inl (.unlock .foreign)) := by
      simp only [sections, Statement.exec, if_neg hin]
    have hwhole : (Call.free block).whole p = (p, .foreign) := by
      simp only [Call.whole, putFree, if_neg hin]
    rw [hwhole]
    exact .next hmicro rfl (.last rfl rfl)

/-- Nothing outside the lock takes a block away from its holder. -/
theorem Outside.run_may {o : Outside} {v : BlockPool} {world world' : World} {pc pc' pc₁ : Pc}
    {c : Call} (h : o.run v world pc = some (world', pc')) (hmay : c.may world pc₁ = true) :
    c.may world' pc₁ = true := by
  cases c with
  | alloc => exact hmay
  | free block =>
      simp only [Call.may, decide_eq_true_eq] at hmay ⊢
      refine ⟨hmay.1, ?_⟩
      unfold Outside.run at h
      split at h
      · split at h
        · cases h
          exact hmay.2
        · split at h
          · cases h
            rw [List.find?_cons]
            split
            · rfl
            · exact hmay.2
          · cases h
      · cases h
        exact hmay.2
      · cases h

theorem sections_lawful : sections.Lawful := by
  refine ⟨fun c p => ?_, fun h hmay => Outside.run_may h hmay⟩
  cases c with
  | alloc => exact alloc_completes p
  | free block => exact free_completes block p

/-! ## Whole sections -/

namespace Shared

variable {Tid : Type*}

/-- The same state, as one of the sections. -/
def toOpen (s : Shared Tid) : Sections.Open BlockPool World Pc Tid :=
  ⟨s.pool, ⟨s.heap, s.live, s.frees⟩, s.threads⟩

/-- Nobody has `m_lock`. -/
def unlocked (s : Shared Tid) : Sections.Locked BlockPool World Pc Call Statement Tid :=
  s.toOpen.unlocked Call Statement

theorem toOpen_injective {s s' : Shared Tid} (h : s.toOpen = s'.toOpen) : s = s' := by
  cases s
  cases s'
  cases h
  rfl

end Shared

/-- The step of the pool that a whole step is. -/
def label {Tid : Type*} : Sections.WholeLabel Call Outside Tid → Label Tid
  | .call t .alloc => .alloc t
  | .call t (.free block) => .free t block
  | .outside t (.xmalloc buf) => .xmalloc t buf
  | .outside t .xfree => .xfree t

theorem label_surjective {Tid : Type*} (l : Label Tid) : ∃ l', label l' = l := by
  cases l with
  | alloc t => exact ⟨.call t .alloc, rfl⟩
  | xmalloc t buf => exact ⟨.outside t (.xmalloc buf), rfl⟩
  | free t block => exact ⟨.call t (.free block), rfl⟩
  | xfree t => exact ⟨.outside t .xfree, rfl⟩

variable {Tid : Type*} [DecidableEq Tid]

theorem alloc_eq (s : Shared Tid) (t : Tid) :
    sections.wholeStep s.toOpen (.call t .alloc) = (s.stepAlloc t).map Shared.toOpen := by
  by_cases hidle : s.threads t = .idle
  · have hmay : Call.may ⟨s.heap, s.live, s.frees⟩ .idle .alloc = true := rfl
    have hsame : Function.update s.threads t .idle = s.threads := by
      rw [← hidle, Function.update_eq_self]
    simp only [Sections.wholeStep, Shared.toOpen, sections, hidle, hmay, if_true,
      Shared.stepAlloc, ne_eq, not_true_eq_false, if_false, Sections.leave, Call.whole]
    cases s.pool.takeFree with
    | none => rfl
    | some taken => simp [Call.finish, hsame, Shared.toOpen]
  · simp [Sections.wholeStep, Shared.toOpen, sections, Call.may, hidle, Shared.stepAlloc]

theorem free_eq (s : Shared Tid) (t : Tid) (block : Nat) :
    sections.wholeStep s.toOpen (.call t (.free block)) =
      (s.stepFree t block).map Shared.toOpen := by
  by_cases hidle : s.threads t = .idle
  · have hsame : Function.update s.threads t .idle = s.threads := by
      rw [← hidle, Function.update_eq_self]
    cases hfind : s.live.find? fun held => held.1 = block with
    | none =>
        simp [Sections.wholeStep, Shared.toOpen, sections, Call.may, hfind, Shared.stepFree]
    | some held =>
        have hmay : Call.may ⟨s.heap, s.live, s.frees⟩ .idle (.free block) = true := by
          simp [Call.may, hfind]
        simp only [Sections.wholeStep, Shared.toOpen, sections, hidle, hmay, if_true,
          Shared.stepFree, ne_eq, not_true_eq_false, if_false, Sections.leave, Call.whole, hfind]
        cases s.pool.putFree block with
        | none => simp [Call.finish, hfind, Shared.toOpen, Shared.goto]
        | some pool => simp [Call.finish, hfind, hsame, Shared.toOpen]
  · simp [Sections.wholeStep, Shared.toOpen, sections, Call.may, hidle, Shared.stepFree]

theorem outside_eq (s : Shared Tid) (t : Tid) (o : Outside) :
    sections.stepOutside s.toOpen t o =
      (Shared.step s (label (.outside t o))).map Shared.toOpen := by
  cases hpc : s.threads t with
  | idle => cases o <;> simp [Sections.stepOutside, Shared.toOpen, sections, Outside.run, label,
      Shared.step, Shared.stepXmalloc, Shared.stepXfree, hpc]
  | allocHeap =>
      cases o with
      | xfree => simp [Sections.stepOutside, Shared.toOpen, sections, Outside.run, label,
          Shared.step, Shared.stepXfree, hpc]
      | xmalloc buf =>
          have hfresh : (World.shared ⟨s.heap, s.live, s.frees⟩
              { s.pool with freeBlocks := [] }).FreshBlock buf ↔ s.FreshBlock buf := Iff.rfl
          simp only [Sections.stepOutside, Shared.toOpen, sections, Outside.run, label,
            Shared.step, Shared.stepXmalloc, hpc, ne_eq, not_true_eq_false, if_false, hfresh]
          by_cases hbuf : buf = 0
          · simp [hbuf, Shared.goto, Shared.toOpen]
          · by_cases hf : s.FreshBlock buf <;> simp [hbuf, hf, Shared.goto, Shared.toOpen]
  | freeHeap block call =>
      cases o <;> simp [Sections.stepOutside, Shared.toOpen, sections, Outside.run, label,
        Shared.step, Shared.stepXmalloc, Shared.stepXfree, hpc, Shared.goto]

theorem wholeStep_eq (s : Shared Tid) (l : Sections.WholeLabel Call Outside Tid) :
    sections.wholeStep s.toOpen l = (Shared.step s (label l)).map Shared.toOpen := by
  cases l with
  | call t c =>
      cases c with
      | alloc => exact alloc_eq s t
      | free block => exact free_eq s t block
  | outside t o =>
      exact outside_eq s t o

/-- Whole sections lead where the steps of the pool do. -/
theorem reachable_wholeStep_iff {s₀ s : Shared Tid} :
    Machine.Reachable sections.wholeStep s₀.toOpen s.toOpen ↔
      Machine.Reachable Shared.step s₀ s := by
  constructor
  · intro hreach
    obtain ⟨s', ⟨ls, hls⟩, heq⟩ := hreach.invariant
      (fun o => ∃ s', Machine.Reachable Shared.step s₀ s' ∧ s'.toOpen = o) ⟨s₀, ⟨[], rfl⟩, rfl⟩ (by
        rintro o l o' ⟨s', ⟨ls, hls⟩, rfl⟩ hstep
        rw [wholeStep_eq] at hstep
        obtain ⟨s'', hs'', rfl⟩ := Option.map_eq_some_iff.mp hstep
        exact ⟨s'', ⟨ls ++ [label l], by rw [Machine.run_snoc, hls]; exact hs''⟩, rfl⟩)
    rw [← Shared.toOpen_injective heq]
    exact ⟨ls, hls⟩
  · intro hreach
    refine hreach.invariant
      (fun s => Machine.Reachable sections.wholeStep s₀.toOpen s.toOpen) ⟨[], rfl⟩ ?_
    rintro s l s' ⟨ls, hls⟩ hstep
    obtain ⟨l', rfl⟩ := label_surjective l
    refine ⟨ls ++ [l'], ?_⟩
    rw [Machine.run_snoc, hls]
    show sections.wholeStep s.toOpen l' = some s'.toOpen
    rw [wholeStep_eq, hstep]
    rfl

/-- Under any number of threads, with the statements of the sections in any order that `m_lock`
allows: where the lock is free, the state is one that whole sections lead to, and all of those
come about; and a thread that has the lock never takes from an empty deque and comes to release
it. -/
theorem sections_atomic (p : BlockPool) :
    (∀ s : Shared Tid,
        Machine.Reachable sections.step (Shared.start Tid p).unlocked s.unlocked ↔
          Machine.Reachable Shared.step (Shared.start Tid p) s) ∧
      ∀ f, Machine.Reachable sections.step (Shared.start Tid p).unlocked f →
        ∃ n s, Machine.run sections.step f (List.replicate n .micro) = some (Shared.unlocked s) ∧
          Machine.Reachable Shared.step (Shared.start Tid p) s := by
  refine ⟨fun s => (Sections.unlocked_iff sections_lawful).trans reachable_wholeStep_iff,
    fun f hreach => ?_⟩
  obtain ⟨n, o, hn, ho⟩ := Sections.releases sections_lawful hreach
  have hs : ∃ s : Shared Tid, s.toOpen = o := ⟨⟨o.shared, o.threads, o.world.heap, o.world.live,
    o.world.frees⟩, rfl⟩
  obtain ⟨s, rfl⟩ := hs
  exact ⟨n, s, hn, reachable_wholeStep_iff.mp ho⟩

end XfUtil.BlockPool
