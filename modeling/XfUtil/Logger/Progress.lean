import XfUtil.Base.WorkLeft
import XfUtil.Logger.Delivery
import Mathlib.Algebra.Order.BigOperators.Group.List
import Mathlib.Algebra.Order.Group.Nat

/-!
# Calls of the logger come back

`LogMsg` waits for the pool and for room in the queue, `Close` for the log thread, and the log
thread for a line. No two of them wait for each other: as long as a call is under way some
thread can go on, and what is left to do gets less with every step.
-/

namespace XfUtil.LoggerImpl

open FlatMemory

/-- Steps with which a call begins. -/
def Label.begins {Tid : Type*} : Label Tid → Bool
  | .logMsg _ _ | .close => true
  | _ => false

variable {Tid : Type*} {s u : LoggerImpl Tid}

/-! ## The log file does not matter -/

def onFile (s : LoggerImpl Tid) (file : LogFile) (rolled : Nat) : LoggerImpl Tid :=
  { s with file := file, rolled := rolled }

/-- All steps but two of the log thread leave the file alone. -/
theorem step_onFile_of_ne [DecidableEq Tid] {l : Label Tid} (happend : l ≠ .append)
    (hreopen : l ≠ .reopen) (file : LogFile) (rolled : Nat) :
    step (s.onFile file rolled) l = (step s l).map fun u => u.onFile file rolled := by
  cases l with
  | append => exact absurd rfl happend
  | reopen => exact absurd rfl hreopen
  | alloc t =>
      dsimp only [step, stepAlloc, onFile]
      split
      · rfl
      · split
        · rfl
        · split <;> rfl
  | xmalloc t buf =>
      dsimp only [step, stepXmalloc, onFile]
      split
      · rfl
      · split <;> rfl
  | push t =>
      dsimp only [step, stepPush, atRest, onFile]
      split
      · by_cases hrest : s.pool.threads (some t) = .idle
        · simp only [hrest, decide_true, Bool.not_true, Bool.false_eq_true, if_false]
          split <;> rfl
        · simp only [hrest, decide_false, Bool.not_false, if_true, Option.map_none]
      · rfl
  | pop =>
      dsimp only [step, stepPop, onFile]
      split
      · split
        · rfl
        · split <;> rfl
      · rfl
  | pushMark =>
      dsimp only [step, stepPushMark, onFile]
      split
      · split <;> rfl
      · rfl
  | join =>
      dsimp only [step, stepJoin, onFile]
      split
      · split <;> rfl
      · rfl
  | logMsg | format | free | xfree | logFree | close =>
      dsimp only [step, stepLogMsg, stepFormat, stepFree, stepXfree, stepLogFree, stepClose, onFile]
      split <;> rfl

/-- With another log file the same steps are possible. -/
theorem step_onFile [DecidableEq Tid] {l : Label Tid} (h : step s l = some u) (file : LogFile)
    (rolled : Nat) :
    ∃ file' rolled', step (s.onFile file rolled) l = some (u.onFile file' rolled') := by
  by_cases happend : l = .append
  · subst happend
    cases hpc : s.logThread <;> simp only [step, stepAppend, onFile, hpc] at h ⊢ <;> cases h
    exact ⟨_, _, rfl⟩
  by_cases hreopen : l = .reopen
  · subst hreopen
    cases hpc : s.logThread <;> by_cases hrest : s.pool.threads none = .idle <;>
      simp [step, stepReopen, atRest, hpc, hrest] at h
    cases h
    exact ⟨_, _, by simp [step, stepReopen, atRest, onFile, hpc, hrest]; exact ⟨rfl, rfl⟩⟩
  exact ⟨file, rolled, by rw [step_onFile_of_ne happend hreopen, h, Option.map_some]⟩

theorem oneBackup_fits : oneBackup.Fits := by
  unfold LogConfig.Fits
  decide

/-- What holds along an orderly run, whatever becomes of the log file. -/
structure Lasting (s : LoggerImpl Tid) : Prop where
  inv : ∃ file rolled old base count, (s.onFile file rolled).Inv oneBackup old base count ∧
    old ≠ []
  room : s.dataQueue.capacity = queueCapacity

theorem start_lasting {conf : LogConfig} {files : FileMap.Files FilePath Byte} {opens : Bool}
    {pool : BlockPool} {buf : Nat} {mem : Mem}
    (h : start Tid conf files opens pool buf mem = some s) (hpool : Rested pool) :
    s.Lasting := by
  unfold start at h
  cases hfile : LogFile.start conf files opens with
  | none => simp [hfile] at h
  | some file =>
      rw [hfile] at h
      cases h
      have hother : start Tid oneBackup (fun _ => none) true pool buf mem = some _ := rfl
      obtain ⟨base, count, hinv⟩ := start_inv hother hpool
      exact ⟨⟨_, _, _, base, count, hinv, oneBackup.contents_ne_nil _⟩, rfl⟩

variable [DecidableEq Tid]

theorem step_capacity {l : Label Tid} (h : step s l = some u) :
    u.dataQueue.capacity = s.dataQueue.capacity := by
  cases l with
  | push t =>
      simp only [step, stepPush] at h
      split at h
      · split at h
        · cases h
        · split at h
          · cases h
          · rename_i q hq
            cases h
            exact BlockingQueue.push_capacity hq
      · cases h
  | pop =>
      simp only [step, stepPop] at h
      split at h
      · split at h
        · cases h
        · rename_i data q hq
          split at h <;> cases h <;> exact BlockingQueue.pop_capacity hq
      · cases h
  | pushMark =>
      simp only [step, stepPushMark] at h
      split at h
      · split at h
        · cases h
        · rename_i q hq
          cases h
          exact BlockingQueue.push_capacity hq
      · cases h
  | alloc t =>
      simp only [step, stepAlloc] at h
      split at h
      · cases h
      · split at h
        · cases h
        · split at h <;> cases h <;> rfl
  | reopen =>
      simp only [step, stepReopen] at h
      split at h
      · split at h <;> cases h
        rfl
      · cases h
  | join =>
      simp only [step, stepJoin] at h
      split at h
      · split at h <;> cases h
        rfl
      · cases h
  | xmalloc t buf =>
      simp only [step, stepXmalloc] at h
      split at h
      · cases h
      · split at h <;> cases h
        rfl
  | logMsg | format | free | xfree | append | logFree | close =>
      simp only [step, stepLogMsg, stepFormat, stepFree, stepXfree, stepAppend, stepLogFree,
        stepClose] at h
      split at h <;> cases h <;> rfl

theorem Lasting.step (h : s.Lasting) {l : Label Tid} (horderly : s.Orderly l)
    (hstep : step s l = some u) : u.Lasting := by
  obtain ⟨⟨file, rolled, old, base, count, hinv, hold⟩, hroom⟩ := h
  constructor
  · obtain ⟨file', rolled', hstep'⟩ := step_onFile hstep file rolled
    have horderly' : (s.onFile file rolled).Orderly l := by
      cases l <;> exact horderly
    exact ⟨file', rolled', old, base, count,
      hinv.step oneBackup_fits (by decide) hold horderly' hstep', hold⟩
  · rw [step_capacity hstep]
    exact hroom

/-! ## What is left to do -/

/-- The steps that a thread in `LogMsg` has before it, and those that its line will cost the log
thread, when it is at `place` in the pool. -/
def Pc.left (place : BlockPool.Pc) : Pc → Nat
  | idle => 0
  | allocMsg _ => if place = .idle then 15 else 14
  | formatMsg _ _ => 13
  | allocBuf _ _ => if place = .idle then 12 else 11
  | formatLine _ _ _ => 10
  | freeMsg _ _ _ => 9
  | push _ _ => if place = .idle then 7 else 8

def LogPc.left (place : BlockPool.Pc) : LogPc → Nat
  | pop => 0
  | append _ => 5
  | free _ => 4
  | reopen => if place = .idle then 1 else 2
  | exited => 0

def Closing.left : Closing → Nat
  | started => 0
  | pushing => 8
  | joining => 1
  | closed => 0

def threadLeft (s : LoggerImpl Tid) (t : Tid) : Nat :=
  (s.threads t).left (s.pool.threads (some t))

def logLeft (s : LoggerImpl Tid) : Nat := s.logThread.left (s.pool.threads none)

def left [Fintype Tid] (s : LoggerImpl Tid) : Nat :=
  (∑ t, s.threadLeft t) + s.logLeft + 6 * s.dataQueue.queue.length + s.closing.left

/-- One thread moves. -/
theorem left_lt_of_thread [Fintype Tid] (t : Tid)
    (hother : ∀ v, v ≠ t → u.threadLeft v = s.threadLeft v) (hlog : u.logLeft = s.logLeft)
    (hclosing : u.closing = s.closing)
    (hlt : u.threadLeft t + 6 * u.dataQueue.queue.length <
      s.threadLeft t + 6 * s.dataQueue.queue.length) : u.left < s.left := by
  have hsum := WorkLeft.sum_except t hother
  unfold left
  rw [hlog, hclosing]
  omega

omit [DecidableEq Tid] in
/-- The log thread moves, or the one in `Close`. -/
theorem left_lt_of_log [Fintype Tid] (hthreads : ∀ t, u.threadLeft t = s.threadLeft t)
    (hlt : u.logLeft + 6 * u.dataQueue.queue.length + u.closing.left <
      s.logLeft + 6 * s.dataQueue.queue.length + s.closing.left) : u.left < s.left := by
  have hsum : ∑ t, u.threadLeft t = ∑ t, s.threadLeft t :=
    Finset.sum_congr rfl fun t _ => hthreads t
  unfold left
  omega

theorem threadLeft_goto_ne {t v : Tid} (hne : v ≠ t) (pc : Pc) :
    (s.goto t pc).threadLeft v = s.threadLeft v := by
  simp [threadLeft, goto, hne]

theorem release_threads_ne {t v : Option Tid} (hne : v ≠ t) (block : Nat) :
    (s.release t block).pool.threads v = s.pool.threads v := by
  unfold release BlockPool.Shared.stepFree
  dsimp only
  split
  · rfl
  · split
    · rfl
    · split
      · rfl
      · rw [Option.getD_some, BlockPool.Shared.goto_threads, if_neg hne]

theorem received_left {pc : Pc} (h : pc.allocating = true) (block : Nat)
    (place place' : BlockPool.Pc) : (pc.received block).left place' < pc.left place := by
  cases pc <;> simp [Pc.allocating] at h <;> simp [Pc.received, Pc.left] <;> split <;> omega

theorem Lasting.alloc_left [Fintype Tid] (h : s.Lasting) {t : Tid}
    (hstep : s.stepAlloc t = some u) : u.left < s.left := by
  obtain ⟨⟨file, rolled, old, base, count, hinv, -⟩, -⟩ := h
  have hledger : Ledger base count s.pool s.took s.freed := hinv.ledger
  unfold stepAlloc at hstep
  split at hstep
  · cases hstep
  · rename_i halloc
    have halloc : (s.threads t).allocating = true := by simpa using halloc
    split at hstep
    · cases hstep
    · rename_i pool hpool
      obtain ⟨hrest, ⟨block, p, htake, -, -, hthreads, -⟩ | ⟨htake, -, hthreads, -⟩⟩ :=
        hledger.alloc hpool
      · rw [htake] at hstep
        cases hstep
        apply left_lt_of_thread t
        · intro v hv
          simp [threadLeft, receive, goto, hv, hthreads]
        · simp [logLeft, receive, goto, hthreads]
        · rfl
        · have hlt := received_left halloc block (s.pool.threads (some t)) (pool.threads (some t))
          simpa [threadLeft, receive, goto] using hlt
      · rw [htake] at hstep
        cases hstep
        apply left_lt_of_thread t
        · intro v hv
          simp [threadLeft, hthreads, hv]
        · simp [logLeft, hthreads]
        · rfl
        · cases hpc : s.threads t <;> simp [hpc, Pc.allocating] at halloc
          all_goals simp [threadLeft, hpc, hthreads, hrest, Pc.left]

theorem Lasting.xmalloc_left [Fintype Tid] (h : s.Lasting) {t : Tid} {buf : Nat}
    (hstep : s.stepXmalloc t buf = some u) : u.left < s.left := by
  obtain ⟨⟨file, rolled, old, base, count, hinv, -⟩, -⟩ := h
  have hledger : Ledger base count s.pool s.took s.freed := hinv.ledger
  unfold stepXmalloc at hstep
  split at hstep
  · cases hstep
  · rename_i hbuf
    split at hstep
    · cases hstep
    · rename_i pool hpool
      cases hstep
      obtain ⟨hpc, -, -, hthreads, -⟩ := hledger.xmalloc hbuf hpool
      have halloc : (s.threads t).allocating = true := by
        have hsuits : (s.threads t).Suits (s.pool.threads (some t)) := hinv.suits t
        rwa [hpc] at hsuits
      apply left_lt_of_thread t
      · intro v hv
        simp [threadLeft, receive, goto, hv, hthreads]
      · simp [logLeft, receive, goto, hthreads]
      · rfl
      · have hlt := received_left halloc buf (s.pool.threads (some t)) (pool.threads (some t))
        simpa [threadLeft, receive, goto] using hlt

theorem format_left [Fintype Tid] {t : Tid} (hstep : s.stepFormat t = some u) :
    u.left < s.left := by
  unfold stepFormat at hstep
  split at hstep
  · rename_i hpc
    cases hstep
    apply left_lt_of_thread t (fun v hv => threadLeft_goto_ne hv _) rfl rfl
    by_cases hp : s.pool.threads (some t) = .idle <;>
      simp [threadLeft, goto, print, hpc, Pc.left, hp]
  · rename_i hpc
    cases hstep
    apply left_lt_of_thread t (fun v hv => threadLeft_goto_ne hv _) rfl rfl
    simp [threadLeft, goto, print, hpc, Pc.left]
  · cases hstep

theorem free_left [Fintype Tid] {t : Tid} (hstep : s.stepFree t = some u) : u.left < s.left := by
  unfold stepFree at hstep
  split at hstep
  · rename_i call msg data hpc
    cases hstep
    apply left_lt_of_thread t
    · intro v hv
      have hplace := release_threads_ne (s := s) (t := some t) (v := some v) (by simpa using hv) msg
      rw [threadLeft_goto_ne hv, threadLeft, hplace]
      rfl
    · have hplace := release_threads_ne (s := s) (t := some t) (v := none) (by simp) msg
      show s.logThread.left ((s.release (some t) msg).pool.threads none) = _
      rw [hplace]
      rfl
    · rfl
    · by_cases hp : (s.release (some t) msg).pool.threads (some t) = .idle <;>
        simp only [release] at hp <;> simp [threadLeft, goto, hpc, Pc.left, release, hp]
  · cases hstep

theorem Lasting.xfree_left [Fintype Tid] (h : s.Lasting) {t : Option Tid}
    (hstep : s.stepXfree t = some u) : u.left < s.left := by
  obtain ⟨⟨file, rolled, old, base, count, hinv, -⟩, -⟩ := h
  have hledger : Ledger base count s.pool s.took s.freed := hinv.ledger
  unfold stepXfree at hstep
  split at hstep
  · cases hstep
  · rename_i pool hpool
    cases hstep
    obtain ⟨⟨block, call, hplace⟩, -, hthreads, -⟩ := hledger.xfree hpool
    cases t with
    | none =>
        have hlog : s.logThread.Suits (s.pool.threads none) := hinv.logSuits
        rw [hplace] at hlog
        have hpc : s.logThread = .reopen := hlog
        apply left_lt_of_log
        · intro v
          simp [threadLeft, hthreads]
        · simp [logLeft, hthreads, hpc, hplace, LogPc.left]
    | some t =>
        have hsuits : (s.threads t).Suits (s.pool.threads (some t)) := hinv.suits t
        rw [hplace] at hsuits
        obtain ⟨call', data, hpc⟩ : ∃ call data, s.threads t = .push call data := hsuits
        apply left_lt_of_thread t
        · intro v hv
          simp [threadLeft, hthreads, hv]
        · simp [logLeft, hthreads]
        · rfl
        · simp [threadLeft, hthreads, hpc, hplace, Pc.left]

theorem push_left [Fintype Tid] {t : Tid} (hstep : s.stepPush t = some u) : u.left < s.left := by
  unfold stepPush at hstep
  split at hstep
  · rename_i call data hpc
    split at hstep
    · cases hstep
    · rename_i hrest
      split at hstep
      · cases hstep
      · rename_i q hq
        cases hstep
        have hqueue := BlockingQueue.push_eq_some hq
        have hidle : s.pool.threads (some t) = .idle := by simpa [atRest] using hrest
        apply left_lt_of_thread t
        · intro v hv
          rw [threadLeft_goto_ne hv]
          rfl
        · rfl
        · rfl
        · simp [threadLeft, goto, hpc, Pc.left, hidle, hqueue]
          omega
  · cases hstep

omit [DecidableEq Tid] in
theorem pop_left [Fintype Tid] (hstep : s.stepPop = some u) : u.left < s.left := by
  unfold stepPop at hstep
  split at hstep
  · rename_i hpc
    split at hstep
    · cases hstep
    · rename_i data q hq
      have hqueue := BlockingQueue.pop_eq_some hq
      split at hstep <;> cases hstep
      all_goals
        refine left_lt_of_log (fun _ => rfl) ?_
        simp [logLeft, hpc, LogPc.left, hqueue] <;> omega
  · cases hstep

omit [DecidableEq Tid] in
theorem append_left [Fintype Tid] (hstep : s.stepAppend = some u) : u.left < s.left := by
  unfold stepAppend at hstep
  split at hstep
  · rename_i hpc
    cases hstep
    refine left_lt_of_log (fun _ => rfl) ?_
    simp [logLeft, hpc, LogPc.left]
  · cases hstep

theorem logFree_left [Fintype Tid] (hstep : s.stepLogFree = some u) : u.left < s.left := by
  unfold stepLogFree at hstep
  split at hstep
  · rename_i data hpc
    cases hstep
    apply left_lt_of_log
    · intro t
      have hplace := release_threads_ne (s := s) (t := none) (v := some t) (by simp) data.buf
      show (s.threads t).left ((s.release none data.buf).pool.threads (some t)) = _
      rw [hplace]
      rfl
    · by_cases hp : (s.release none data.buf).pool.threads none = .idle <;>
        simp only [release] at hp <;> simp [logLeft, hpc, LogPc.left, release, hp]
  · cases hstep

omit [DecidableEq Tid] in
theorem reopen_left [Fintype Tid] (hstep : s.stepReopen = some u) : u.left < s.left := by
  unfold stepReopen at hstep
  split at hstep
  · rename_i hpc
    split at hstep
    · cases hstep
    · rename_i hrest
      cases hstep
      have hidle : s.pool.threads none = .idle := by simpa [atRest] using hrest
      refine left_lt_of_log (fun _ => rfl) ?_
      simp [logLeft, hpc, LogPc.left, hidle]
  · cases hstep

omit [DecidableEq Tid] in
theorem pushMark_left [Fintype Tid] (hstep : s.stepPushMark = some u) : u.left < s.left := by
  unfold stepPushMark at hstep
  split at hstep
  · rename_i hclosing
    split at hstep
    · cases hstep
    · rename_i q hq
      cases hstep
      have hqueue := BlockingQueue.push_eq_some hq
      refine left_lt_of_log (fun _ => rfl) ?_
      simp [logLeft, hclosing, Closing.left, hqueue]
      omega
  · cases hstep

omit [DecidableEq Tid] in
theorem join_left [Fintype Tid] (hstep : s.stepJoin = some u) : u.left < s.left := by
  unfold stepJoin at hstep
  split at hstep
  · rename_i hclosing
    split at hstep
    · cases hstep
      refine left_lt_of_log (fun _ => rfl) ?_
      simp [logLeft, hclosing, Closing.left]
    · cases hstep
  · cases hstep

theorem Lasting.left_lt [Fintype Tid] (h : s.Lasting) {l : Label Tid} (hl : l.begins = false)
    (hstep : LoggerImpl.step s l = some u) : u.left < s.left := by
  cases l with
  | logMsg | close => simp [Label.begins] at hl
  | alloc t => exact h.alloc_left hstep
  | xmalloc t buf => exact h.xmalloc_left hstep
  | format t => exact format_left hstep
  | free t => exact free_left hstep
  | xfree t => exact h.xfree_left hstep
  | push t => exact push_left hstep
  | pop => exact pop_left hstep
  | append => exact append_left hstep
  | logFree => exact logFree_left hstep
  | reopen => exact reopen_left hstep
  | pushMark => exact pushMark_left hstep
  | join => exact join_left hstep

/-! ## Somebody can go on -/

/-- All calls have come back, and what they have logged has been written. -/
structure Drained (s : LoggerImpl Tid) : Prop where
  threads : ∀ t, s.threads t = .idle
  closing : s.closing = .started ∨ s.closing = .closed
  queue : s.dataQueue.queue = []
  written : s.written = s.entered
  /-- Every block that `LogMsg` took has been freed. -/
  freed : s.freed.Perm s.took

def CanGo (s : LoggerImpl Tid) : Prop :=
  ∃ l u, Machine.only step (fun l => !l.begins) s l = some u

theorem canGo_of_step {l : Label Tid} (hl : l.begins = false) (hstep : step s l = some u) :
    s.CanGo :=
  ⟨l, u, Machine.only_eq_some.mpr ⟨by simp [hl], hstep⟩⟩

omit [DecidableEq Tid] in
/-- `xmalloc` finds a place for a block. -/
theorem exists_freshBlock (p : BlockPool.Shared Tid) : ∃ buf, buf ≠ 0 ∧ p.FreshBlock buf := by
  obtain ⟨top, htop⟩ : ∃ top, ∀ b ∈ p.heap, b + p.pool.blockSize.toNat ≤ top :=
    ⟨(p.heap.map fun b => b + p.pool.blockSize.toNat).sum,
      fun b hb => List.le_sum_of_mem (List.mem_map_of_mem hb)⟩
  refine ⟨top + p.pool.cacheStart + p.pool.cacheEnd + 1, by omega, Or.inr (by omega), ?_⟩
  intro b hb
  have hle := htop b hb
  exact Or.inr (by omega)

omit [DecidableEq Tid] in
theorem Lasting.drained (h : s.Lasting) (hthreads : ∀ t, s.threads t = .idle)
    (hclosing : s.closing = .started ∨ s.closing = .closed)
    (hpc : s.logThread = .pop ∨ s.logThread = .exited) (hqueue : s.dataQueue.queue = []) :
    s.Drained := by
  obtain ⟨⟨file, rolled, old, base, count, hinv, -⟩, -⟩ := h
  have hledger : Ledger base count s.pool s.took s.freed := hinv.ledger
  have hitems : s.items = [] := by
    rw [items, hqueue]
    rfl
  have hnone : s.logThread.blocks = [] ∧ s.logThread.current = [] := by
    rcases hpc with hpc | hpc <;> simp [hpc, LogPc.blocks, LogPc.current]
  have hlive : s.pool.live = [] := by
    apply List.map_eq_nil_iff.mp
    apply Ownership.Owned.eq_nil (show Ownership.Owned _ s.own from hinv.owned)
    intro k
    cases k with
    | none => simp [own, hnone.1, hitems]
    | some t => simp [own, hthreads t, Pc.blocks]
  refine ⟨hthreads, hclosing, hqueue, ?_, ?_⟩
  · obtain ⟨lines, hlines, hentered⟩ :
        ∃ lines, List.Forall₂ (Carries s.mem) (s.logThread.current ++ s.items) lines ∧
          s.entered = s.written ++ lines := hinv.order
    rw [hnone.2, hitems] at hlines
    obtain rfl := List.forall₂_nil_left_iff.mp hlines
    simpa using hentered.symm
  · have htook := hledger.took_perm
    rw [hlive] at htook
    simpa using htook.symm

/-- The log thread has something to do. -/
theorem Lasting.log_goes (h : s.Lasting) (hexit : s.logThread ≠ .exited)
    (hbusy : s.logThread = .pop → s.dataQueue.queue ≠ []) : s.CanGo := by
  obtain ⟨⟨file, rolled, old, base, count, hinv, -⟩, -⟩ := h
  have hlog : s.logThread.Suits (s.pool.threads none) := hinv.logSuits
  cases hpc : s.logThread with
  | pop =>
      obtain ⟨data, q, hq⟩ := BlockingQueue.pop_isSome (hbusy hpc)
      by_cases hbuf : data.buf = 0
      · exact canGo_of_step (l := .pop) rfl (by simp [LoggerImpl.step, stepPop, hpc, hq, hbuf]; rfl)
      · exact canGo_of_step (l := .pop) rfl (by simp [LoggerImpl.step, stepPop, hpc, hq, hbuf]; rfl)
  | append data =>
      exact canGo_of_step (l := .append) rfl (by simp [LoggerImpl.step, stepAppend, hpc]; rfl)
  | free data =>
      exact canGo_of_step (l := .logFree) rfl (by simp [LoggerImpl.step, stepLogFree, hpc]; rfl)
  | reopen =>
      rw [hpc] at hlog
      cases hplace : s.pool.threads none with
      | idle =>
          exact canGo_of_step (l := .reopen) rfl
            (by simp [LoggerImpl.step, stepReopen, atRest, hpc, hplace]; rfl)
      | allocHeap =>
          rw [hplace] at hlog
          exact hlog.elim
      | freeHeap block call =>
          exact canGo_of_step (l := .xfree none) rfl
            (by simp [LoggerImpl.step, stepXfree, BlockPool.Shared.stepXfree, hplace]; rfl)
  | exited => exact absurd hpc hexit

/-- A thread in `LogMsg` can go on, or the log thread can. -/
theorem Lasting.thread_goes (h : s.Lasting) {t : Tid} (hpc : s.threads t ≠ .idle) : s.CanGo := by
  obtain ⟨⟨file, rolled, old, base, count, hinv, -⟩, hroom⟩ := id h
  have hsuits : (s.threads t).Suits (s.pool.threads (some t)) := hinv.suits t
  -- `Alloc` and `xmalloc` always have an answer.
  have halloc : (s.threads t).allocating = true → s.CanGo := by
    intro halloc
    cases hplace : s.pool.threads (some t) with
    | idle =>
        cases htake : s.pool.pool.takeFree with
        | none =>
            exact canGo_of_step (l := .alloc t) rfl (by
              simp [LoggerImpl.step, stepAlloc, BlockPool.Shared.stepAlloc, halloc, hplace, htake]
              rfl)
        | some taken =>
            exact canGo_of_step (l := .alloc t) rfl (by
              simp [LoggerImpl.step, stepAlloc, BlockPool.Shared.stepAlloc, halloc, hplace, htake]
              rfl)
    | allocHeap =>
        obtain ⟨buf, hbuf, hfresh⟩ := exists_freshBlock s.pool
        exact canGo_of_step (l := .xmalloc t buf) rfl (by
          simp [LoggerImpl.step, stepXmalloc, BlockPool.Shared.stepXmalloc, hplace, hbuf, hfresh]
          rfl)
    | freeHeap block call =>
        rw [hplace] at hsuits
        obtain ⟨call', data, hpush⟩ : ∃ call data, s.threads t = .push call data := hsuits
        simp [hpush, Pc.allocating] at halloc
  cases hp : s.threads t with
  | idle => exact absurd hp hpc
  | allocMsg call => exact halloc (by rw [hp]; rfl)
  | allocBuf call msg => exact halloc (by rw [hp]; rfl)
  | formatMsg call msg =>
      exact canGo_of_step (l := .format t) rfl (by simp [LoggerImpl.step, stepFormat, hp]; rfl)
  | formatLine call msg buf =>
      exact canGo_of_step (l := .format t) rfl (by simp [LoggerImpl.step, stepFormat, hp]; rfl)
  | freeMsg call msg data =>
      exact canGo_of_step (l := .free t) rfl (by simp [LoggerImpl.step, stepFree, hp]; rfl)
  | push call data =>
      rw [hp] at hsuits
      cases hplace : s.pool.threads (some t) with
      | idle =>
          by_cases hlen : s.dataQueue.queue.length < s.dataQueue.capacity.toNat
          · obtain ⟨q, hq⟩ := BlockingQueue.push_isSome hlen data
            exact canGo_of_step (l := .push t) rfl
              (by simp [LoggerImpl.step, stepPush, atRest, hp, hplace, hq]; rfl)
          · -- The queue is full, so the log thread has not left and has something to take.
            have hne : s.dataQueue.queue ≠ [] := by
              intro hnil
              rw [hnil, hroom] at hlen
              exact hlen (by decide)
            refine h.log_goes (fun hexit => hne ?_) fun _ => hne
            have hmarked := hinv.marked
            rw [if_pos (show (s.onFile file rolled).logThread = .exited from hexit)] at hmarked
            exact hmarked.1
      | allocHeap =>
          rw [hplace] at hsuits
          simp [Pc.Suits, Pc.allocating] at hsuits
      | freeHeap block n =>
          exact canGo_of_step (l := .xfree (some t)) rfl
            (by simp [LoggerImpl.step, stepXfree, BlockPool.Shared.stepXfree, hplace]; rfl)

/-- As long as a call is under way, or a line is not written, somebody can go on. -/
theorem Lasting.goes (h : s.Lasting) : s.Drained ∨ s.CanGo := by
  obtain ⟨⟨file, rolled, old, base, count, hinv, -⟩, hroom⟩ := id h
  have hmarked : if s.logThread = .exited then
      s.dataQueue.queue = [] ∧ s.closing.sent = [.exitMark]
    else s.dataQueue.queue = s.items ++ s.closing.sent := hinv.marked
  by_cases hthreads : ∀ t, s.threads t = .idle
  · by_cases hexit : s.logThread = .exited
    · rw [if_pos hexit] at hmarked
      cases hclosing : s.closing with
      | started | pushing => simp [hclosing, Closing.sent] at hmarked
      | joining =>
          exact Or.inr (canGo_of_step (l := .join) rfl
            (by simp [LoggerImpl.step, stepJoin, hclosing, hexit]; rfl))
      | closed =>
          exact Or.inl (h.drained hthreads (Or.inr hclosing) (Or.inr hexit) hmarked.1)
    · rw [if_neg hexit] at hmarked
      by_cases hrest : s.logThread = .pop ∧ s.dataQueue.queue = []
      · obtain ⟨hpop, hqueue⟩ := hrest
        cases hclosing : s.closing with
        | started => exact Or.inl (h.drained hthreads (Or.inl hclosing) (Or.inl hpop) hqueue)
        | pushing =>
            have hlen : s.dataQueue.queue.length < s.dataQueue.capacity.toNat := by
              rw [hqueue, hroom]
              decide
            obtain ⟨q, hq⟩ := BlockingQueue.push_isSome hlen .exitMark
            exact Or.inr (canGo_of_step (l := .pushMark) rfl
              (by simp [LoggerImpl.step, stepPushMark, hclosing, hq]; rfl))
        | joining | closed => simp [hqueue, hclosing, Closing.sent] at hmarked
      · exact Or.inr (h.log_goes hexit fun hpop hqueue => hrest ⟨hpop, hqueue⟩)
  · obtain ⟨t, ht⟩ := not_forall.mp hthreads
    exact Or.inr (h.thread_goes ht)

/-- Wherever the logger is in an orderly run: if no more calls begin, it comes to rest after a
bounded number of steps, whatever their order, and then all calls of `LogMsg` and `Close` have
come back and every line has been written. -/
theorem calls_return [Fintype Tid] {conf : LogConfig} {files : FileMap.Files FilePath Byte}
    {opens : Bool} {pool : BlockPool} {buf : Nat} {mem : Mem} {s₀ : LoggerImpl Tid}
    {ls : List (Label Tid)} (hstart : start Tid conf files opens pool buf mem = some s₀)
    (hpool : Rested pool) (horderly : Machine.StepsMeet step Orderly s₀ ls)
    (hrun : Machine.run step s₀ ls = some s) :
    Machine.Ends (Machine.only step fun l => !l.begins) s Drained := by
  have hs : s.Lasting := Machine.run_invariant_of_stepsMeet Lasting (start_lasting hstart hpool)
    (fun _ _ _ ht hl hstep => ht.step hl hstep) horderly hrun
  refine Machine.Ends.of_measure Lasting left hs ?_ fun t ht => ht.goes
  intro t l u ht hstep
  obtain ⟨hl, hstep⟩ := Machine.only_eq_some.mp hstep
  have hl : l.begins = false := by simpa using hl
  refine ⟨ht.step ?_ hstep, ht.left_lt hl hstep⟩
  cases l <;> simp [Label.begins, Orderly] at hl ⊢

/-- Two calls are under way, and the log thread is in the middle of the line of one of them. -/
theorem calls_return_two_calls : ∃ s : LoggerImpl Bool,
    Machine.run step quietLogger (twoCalls.take 21) = some s ∧
      s.logThread = .append ⟨32768, 2#32⟩ ∧
      Machine.Ends (Machine.only step fun l => !l.begins) s Drained := by
  have hstart : start Bool oneBackup (fun _ => none) true BlockPool.new 0 (fun _ => 0#8) =
      some quietLogger := rfl
  have houtcome : (Machine.run step quietLogger (twoCalls.take 21)).map LoggerImpl.logThread =
      some (.append ⟨32768, 2#32⟩) := by
    decide +kernel
  obtain ⟨s, hrun, hs⟩ := Option.map_eq_some_iff.mp houtcome
  exact ⟨s, hrun, hs, calls_return hstart rested_new
    (Machine.StepsMeet.of_meets (by decide +kernel)) hrun⟩

end XfUtil.LoggerImpl
