import XfUtil.Logger.Invariant

/-!
# Each step of the logger keeps its invariant

First the steps of a thread in `LogMsg`, then those of the log thread, then those of
`Close`.
-/

namespace XfUtil.LoggerImpl

open FlatMemory Ownership

variable {Tid : Type*} {conf : LogConfig} {old : List (List Byte)} {base count : Nat}
  {s s' : LoggerImpl Tid}

/-! ## What moves change -/

theorem received_blocks {pc : Pc} (h : pc.allocating = true) (block : Nat) :
    (pc.received block).blocks = block :: pc.blocks := by
  cases pc with
  | allocMsg call => rfl
  | allocBuf call msg => rfl
  | idle | formatMsg | formatLine | freeMsg | push => simp [Pc.allocating] at h

theorem Pc.Good.received {pc : Pc} {mem : Mem} (h : pc.Good mem) (halloc : pc.allocating = true)
    (block : Nat) : (pc.received block).Good mem := by
  cases pc with
  | allocMsg call => exact h
  | allocBuf call msg => exact h
  | idle | formatMsg | formatLine | freeMsg | push => simp [Pc.allocating] at halloc

/-- A thread that is logging does so before `Close` has been called. -/
theorem Inv.started (h : s.Inv conf old base count) {t : Tid} (hpc : s.threads t ≠ .idle) :
    s.closing = .started := by
  by_contra hne
  exact hpc (h.quiet hne t)

theorem Inv.queue_eq (h : s.Inv conf old base count) (hpc : s.logThread ≠ .exited) :
    s.dataQueue.queue = s.items ++ s.closing.sent := by
  have hmarked := h.marked
  rwa [if_neg hpc] at hmarked

theorem Inv.not_closed (h : s.Inv conf old base count) (hpc : s.logThread ≠ .exited) :
    s.closing ≠ .closed :=
  fun hclosed => hpc (h.joined hclosed)

theorem mem_own_of_pending {data : LogData} (h : data ∈ s.logThread.current ++ s.items) :
    data.buf ∈ s.own none := by
  rcases List.mem_append.mp h with h | h
  · cases hpc : s.logThread with
    | append d =>
        rw [hpc] at h
        obtain rfl : data = d := by simpa [LogPc.current] using h
        simp [own, hpc, LogPc.blocks]
    | pop | free | reopen | exited => simp [hpc, LogPc.current] at h
  · exact List.mem_append_right _ (List.mem_map_of_mem h)

variable [DecidableEq Tid]

theorem own_of_threads_eq (s s' : LoggerImpl Tid) (h : s'.threads = s.threads) :
    s'.own = Function.update s.own none (s'.own none) := by
  funext k
  cases k with
  | none => simp
  | some t => simp [own, h]

theorem own_goto (s : LoggerImpl Tid) (t : Tid) (pc : Pc) :
    (s.goto t pc).own = Function.update s.own (some t) pc.blocks := by
  funext k
  cases k with
  | none => simp [own, goto, items]
  | some u =>
      by_cases hu : u = t
      · subst hu
        simp [own, goto]
      · simp [own, goto, hu]

theorem own_goto_of_blocks {t : Tid} {pc : Pc} (h : pc.blocks = (s.threads t).blocks) :
    (s.goto t pc).own = s.own := by
  rw [own_goto, h]
  exact Function.update_eq_self (some t) s.own

theorem own_congr (hthreads : s'.threads = s.threads) (hnone : s'.own none = s.own none) :
    s'.own = s.own := by
  rw [own_of_threads_eq s s' hthreads, hnone]
  exact Function.update_eq_self none s.own

/-- What holds at the new place of one thread and at the places of the others. -/
theorem forall_goto {P : Tid → Pc → Prop} {t : Tid} {pc : Pc} (hpc : P t pc)
    (hother : ∀ u, u ≠ t → P u (s.threads u)) : ∀ u, P u ((s.goto t pc).threads u) := by
  intro u
  by_cases hu : u = t
  · subst hu
    simpa [goto] using hpc
  · simpa [goto, hu] using hother u hu

/-! ## `LogMsg` -/

theorem Inv.logMsg (h : s.Inv conf old base count) {t : Tid} {call : Call}
    (hpc : s.threads t = .idle) (hstarted : s.closing = .started)
    (hshort : call.line.length < blockSize.toNat) :
    (s.goto t (.allocMsg call)).Inv conf old base count := by
  have hrest : s.pool.threads (some t) = .idle := by
    apply (h.suits t).atRest <;> simp [hpc, Pc.allocating]
  refine { h with
    owned := ?_
    suits := ?_
    good := ?_
    quiet := fun hne => absurd hstarted hne }
  · rw [own_goto_of_blocks (by rw [hpc]; rfl)]
    exact h.owned
  · apply forall_goto (P := fun u pc => pc.Suits (s.pool.threads (some u)))
    · rw [hrest]
      trivial
    · exact fun u _ => h.suits u
  · exact forall_goto (P := fun _ pc => pc.Good s.mem) hshort fun u _ => h.good u

/-- `Alloc` returns with a block that nobody else holds. -/
theorem Inv.receive (h : s.Inv conf old base count) {t : Tid} {block : Nat}
    {pool : BlockPool.Shared (Option Tid)} (halloc : (s.threads t).allocating = true)
    (hfresh : block ∉ s.pool.live.map Prod.fst)
    (hlive : pool.live.map Prod.fst = block :: s.pool.live.map Prod.fst)
    (hrest : pool.threads (some t) = .idle)
    (hother : ∀ u, u ≠ some t → pool.threads u = s.pool.threads u)
    (hledger : Ledger base count pool (s.took ++ [block]) s.freed) :
    ({ s with pool := pool }.receive t block).Inv conf old base count := by
  have hne : s.threads t ≠ .idle := by
    intro hidle
    simp [hidle, Pc.allocating] at halloc
  refine { h with
    ledger := hledger
    owned := ?_
    suits := ?_
    logSuits := ?_
    good := ?_
    quiet := fun hclosing => absurd (h.started hne) hclosing }
  · show Owned (pool.live.map Prod.fst) _
    rw [hlive]
    have hown := own_goto { s with pool := pool, took := s.took ++ [block] } t
      ((s.threads t).received block)
    rw [received_blocks halloc] at hown
    exact hown ▸ h.owned.take hfresh (List.Perm.refl _)
  · apply forall_goto (P := fun u pc => pc.Suits (pool.threads (some u)))
    · rw [hrest]
      trivial
    · intro u hu
      rw [hother (some u) (by simpa using hu)]
      exact h.suits u
  · show s.logThread.Suits (pool.threads none)
    rw [hother none (by simp)]
    exact h.logSuits
  · exact forall_goto (P := fun _ pc => pc.Good s.mem) ((h.good t).received halloc block)
      fun u _ => h.good u

theorem Inv.alloc (h : s.Inv conf old base count) {t : Tid} (hstep : s.stepAlloc t = some s') :
    s'.Inv conf old base count := by
  unfold stepAlloc at hstep
  split at hstep
  · cases hstep
  · rename_i halloc
    have halloc : (s.threads t).allocating = true := by simpa using halloc
    split at hstep
    · cases hstep
    · rename_i pool hpool
      obtain ⟨hrest, halloc'⟩ := h.ledger.alloc hpool
      rcases halloc' with ⟨block, p, htake, hfresh, hlive, hthreads, hledger⟩ |
        ⟨htake, hlive, hthreads, hledger⟩
      · rw [htake] at hstep
        cases hstep
        refine h.receive halloc hfresh hlive ?_ ?_ hledger
        · rw [hthreads, hrest]
        · exact fun u _ => congrFun hthreads u
      · rw [htake] at hstep
        cases hstep
        refine { h with ledger := hledger, owned := ?_, suits := ?_, logSuits := ?_ }
        · show Owned (pool.live.map Prod.fst) _
          rw [hlive]
          exact h.owned
        · intro u
          show (s.threads u).Suits (pool.threads (some u))
          rw [hthreads]
          by_cases hu : u = t
          · subst hu
            rw [Function.update_self]
            exact halloc
          · rw [Function.update_of_ne (by simpa using hu)]
            exact h.suits u
        · show s.logThread.Suits (pool.threads none)
          rw [hthreads, Function.update_of_ne (by simp)]
          exact h.logSuits

theorem Inv.xmalloc (h : s.Inv conf old base count) {t : Tid} {buf : Nat}
    (hstep : s.stepXmalloc t buf = some s') : s'.Inv conf old base count := by
  unfold stepXmalloc at hstep
  split at hstep
  · cases hstep
  · rename_i hbuf
    split at hstep
    · cases hstep
    · rename_i pool hpool
      cases hstep
      obtain ⟨hpc, hfresh, hlive, hthreads, hledger⟩ := h.ledger.xmalloc hbuf hpool
      have halloc : (s.threads t).allocating = true := by
        have hsuits := h.suits t
        rwa [hpc] at hsuits
      refine h.receive halloc hfresh hlive ?_ ?_ hledger
      · rw [hthreads, Function.update_self]
      · intro u hu
        rw [hthreads, Function.update_of_ne hu]

/-- Formatting into a block of one's own. -/
theorem Inv.print (h : s.Inv conf old base count) {t : Tid} {block : Nat} {bytes : List Byte}
    {pc : Pc} (hblock : block ∈ (s.threads t).blocks) (hblocks : pc.blocks = (s.threads t).blocks)
    (halloc : (s.threads t).allocating = false)
    (hpush : ∀ call data, s.threads t ≠ .push call data)
    (hgood : pc.Good (s.print block bytes).mem) :
    ((s.print block bytes).goto t pc).Inv conf old base count := by
  have hrest := (h.suits t).atRest halloc hpush
  have hne : s.threads t ≠ .idle := by
    intro hidle
    rw [hidle] at hblock
    simp [Pc.blocks] at hblock
  have hapart : ∀ k, k ≠ some t → ∀ b ∈ s.own k, Apart block blockSize.toNat b blockSize.toNat :=
    fun k hk b hb => h.apart hk.symm hblock hb
  refine { h with
    owned := ?_
    suits := ?_
    good := ?_
    order := ?_
    quiet := fun hclosing => absurd (h.started hne) hclosing }
  · have hown : ((s.print block bytes).goto t pc).own = s.own :=
      own_goto_of_blocks (s := s.print block bytes) hblocks
    rw [hown]
    exact h.owned
  · apply forall_goto (s := s.print block bytes)
      (P := fun u pc => pc.Suits (s.pool.threads (some u)))
    · rw [hrest]
      trivial
    · exact fun u _ => h.suits u
  · apply forall_goto (s := s.print block bytes)
      (P := fun _ pc => pc.Good (s.print block bytes).mem) hgood
    intro u hu
    exact (h.good u).print (hapart (some u) (by simpa using hu)) bytes
  · obtain ⟨lines, hlines, hentered⟩ := h.order
    refine ⟨lines, ?_, hentered⟩
    have hpending : ∀ data ∈ s.logThread.current ++ s.items,
        Apart block blockSize.toNat data.buf blockSize.toNat := by
      intro data hdata
      exact hapart none (by simp) data.buf (mem_own_of_pending hdata)
    have hboth := (List.forall₂_and_left _ _).mpr ⟨hpending, hlines⟩
    exact hboth.imp fun data line hline => hline.2.print hline.1 bytes

theorem Inv.format (h : s.Inv conf old base count) {t : Tid} (hstep : s.stepFormat t = some s') :
    s'.Inv conf old base count := by
  unfold stepFormat at hstep
  split at hstep
  · rename_i call msg hpc
    cases hstep
    have hshort : call.line.length < blockSize.toNat := by
      have hgood := h.good t
      rwa [hpc] at hgood
    apply h.print
    · simp [hpc, Pc.blocks]
    · simp [hpc, Pc.blocks]
    · simp [hpc, Pc.allocating]
    · simp [hpc]
    · exact ⟨hshort, text_printed s.mem msg call.message⟩
  · rename_i call msg buf hpc
    cases hstep
    obtain ⟨hshort, htext⟩ : call.line.length < blockSize.toNat ∧
        text (read s.mem msg blockSize.toNat) = call.msg := by
      have hgood := h.good t
      rwa [hpc] at hgood
    have hline : s.formatted call msg = call.line := by
      rw [formatted, htext]
      rfl
    rw [hline]
    apply h.print
    · simp [hpc, Pc.blocks]
    · simp [hpc, Pc.blocks]
    · simp [hpc, Pc.allocating]
    · simp [hpc]
    · exact carries_printed s.mem buf hshort
  · cases hstep

theorem Inv.free (h : s.Inv conf old base count) {t : Tid} (hstep : s.stepFree t = some s') :
    s'.Inv conf old base count := by
  unfold stepFree at hstep
  split at hstep
  · rename_i call msg data hpc
    cases hstep
    have hown : s.own (some t) = [data.buf, msg] := by simp [own, hpc, Pc.blocks]
    have hrest : s.pool.threads (some t) = .idle := by
      apply (h.suits t).atRest <;> simp [hpc, Pc.allocating]
    have hblock : msg ∈ s.pool.live.map Prod.fst :=
      (h.owned.live msg).mpr ⟨some t, by simp [hown]⟩
    obtain ⟨pool, hpool, hlive, hother, hplace, hledger⟩ := h.ledger.free hrest hblock
    have hrelease : s.release (some t) msg =
        { s with pool := pool, freed := s.freed ++ [msg] } := by
      rw [release, hpool, Option.getD_some]
    rw [hrelease]
    refine { h with
      ledger := hledger
      owned := ?_
      suits := ?_
      logSuits := ?_
      good := ?_
      quiet := fun hclosing => absurd (h.started (t := t) (by simp [hpc])) hclosing }
    · have hgoto := own_goto { s with pool := pool, freed := s.freed ++ [msg] } t (.push call data)
      rw [hgoto]
      apply h.owned.giveBack _ hlive
      rw [hown]
      exact List.Perm.swap ..
    · apply forall_goto (P := fun u pc => pc.Suits (pool.threads (some u)))
      · cases hp : pool.threads (some t) with
        | idle => trivial
        | allocHeap => exact absurd hp hplace
        | freeHeap block n => exact ⟨call, data, rfl⟩
      · intro u hu
        rw [hother (some u) (by simpa using hu)]
        exact h.suits u
    · show s.logThread.Suits (pool.threads none)
      rw [hother none (by simp)]
      exact h.logSuits
    · have hgood : Carries s.mem data call.line := by
        have hgood := h.good t
        rwa [hpc] at hgood
      exact forall_goto (P := fun _ pc => pc.Good s.mem) hgood fun u _ => h.good u
  · cases hstep

theorem Inv.xfree (h : s.Inv conf old base count) {t : Option Tid}
    (hstep : s.stepXfree t = some s') : s'.Inv conf old base count := by
  unfold stepXfree at hstep
  split at hstep
  · cases hstep
  · rename_i pool hpool
    cases hstep
    obtain ⟨-, hlive, hthreads, hledger⟩ := h.ledger.xfree hpool
    have hplace : ∀ u, pool.threads u = .idle ∨ pool.threads u = s.pool.threads u := by
      intro u
      rw [hthreads]
      by_cases hu : u = t
      · exact Or.inl (by simp [hu])
      · exact Or.inr (by simp [hu])
    refine { h with ledger := hledger, owned := ?_, suits := ?_, logSuits := ?_ }
    · show Owned (pool.live.map Prod.fst) _
      rw [hlive]
      exact h.owned
    · intro u
      show (s.threads u).Suits (pool.threads (some u))
      rcases hplace (some u) with hp | hp
      · rw [hp]
        trivial
      · rw [hp]
        exact h.suits u
    · show s.logThread.Suits (pool.threads none)
      rcases hplace none with hp | hp
      · rw [hp]
        trivial
      · rw [hp]
        exact h.logSuits

/-- The queue takes over the line and its block. -/
theorem Inv.push (h : s.Inv conf old base count) {t : Tid} (hstep : s.stepPush t = some s') :
    s'.Inv conf old base count := by
  unfold stepPush at hstep
  split at hstep
  · rename_i call data hpc
    split at hstep
    · cases hstep
    · rename_i hrest
      split at hstep
      · cases hstep
      · rename_i q hq
        cases hstep
        have hstarted := h.started (t := t) (by simp [hpc])
        have hqueue := BlockingQueue.push_eq_some hq
        have hown : s.own (some t) = [data.buf] := by simp [own, hpc, Pc.blocks]
        have hbuf : data.buf ≠ 0 :=
          h.ledger.live_ne ((h.owned.live data.buf).mpr ⟨some t, by simp [hown]⟩)
        have hgood : Carries s.mem data call.line := by
          have hgood := h.good t
          rwa [hpc] at hgood
        have hitems : q.queue.filter (fun data => data.buf ≠ 0) = s.items ++ [data] := by
          simp [hqueue, items, hbuf]
        refine { h with
          owned := ?_
          suits := ?_
          good := ?_
          order := ?_
          marked := ?_
          quiet := fun hclosing => absurd hstarted hclosing }
        · have htail : own { s with dataQueue := q, entered := s.entered ++ [call.line] } none =
              s.own none ++ [data.buf] := by
            show s.logThread.blocks ++ (q.queue.filter _).map LogData.buf = _
            rw [hitems]
            simp [own]
          have hmove := own_of_threads_eq s
            { s with dataQueue := q, entered := s.entered ++ [call.line] } rfl
          rw [own_goto, hmove, htail, Function.update_comm (by simp)]
          apply h.owned.handOver (by simp)
          · rw [hown]
            exact List.Perm.refl _
          · exact List.perm_append_singleton ..
        · apply forall_goto (P := fun u pc => pc.Suits (s.pool.threads (some u)))
          · simp only [atRest, Bool.not_eq_true', decide_eq_false_iff_not, not_not] at hrest
            rw [hrest]
            trivial
          · exact fun u _ => h.suits u
        · exact forall_goto (P := fun _ pc => pc.Good s.mem) trivial fun u _ => h.good u
        · obtain ⟨lines, hlines, hentered⟩ := h.order
          refine ⟨lines ++ [call.line], ?_, ?_⟩
          · show List.Forall₂ _ (s.logThread.current ++ q.queue.filter _) _
            rw [hitems, ← List.append_assoc]
            exact List.rel_append hlines (.cons hgood .nil)
          · show s.entered ++ [call.line] = _
            rw [hentered, List.append_assoc]
            rfl
        · have hmarked := h.marked
          show if s.logThread = .exited then q.queue = [] ∧ s.closing.sent = [.exitMark]
            else q.queue = q.queue.filter _ ++ s.closing.sent
          split at hmarked
          · rw [hstarted] at hmarked
            simp [Closing.sent] at hmarked
          · rename_i hne
            rw [if_neg hne, hitems, hqueue, hmarked, hstarted]
            simp [Closing.sent]
  · cases hstep

/-! ## The log thread -/

/-- A move of the log thread that neither takes a block nor gives one back. -/
theorem Inv.logMove (h : s.Inv conf old base count) {q : BlockingQueue LogData} {file : LogFile}
    {written : List (List Byte)} {rolled : Nat} {pc : LogPc} (hrest : s.pool.threads none = .idle)
    (hown : pc.blocks ++ (q.queue.filter fun data => data.buf ≠ 0).map LogData.buf = s.own none)
    (horder : ∃ lines, List.Forall₂ (Carries s.mem)
      (pc.current ++ q.queue.filter fun data => data.buf ≠ 0) lines ∧ s.entered = written ++ lines)
    (hfile : file.Rolls conf old written rolled)
    (hmarked : if pc = .exited then q.queue = [] ∧ s.closing.sent = [.exitMark]
      else q.queue = (q.queue.filter fun data => data.buf ≠ 0) ++ s.closing.sent)
    (hjoined : s.closing = .closed → pc = .exited) :
    Inv conf old base count { s with
      dataQueue := q, file := file, written := written, rolled := rolled, logThread := pc } := by
  refine { h with
    owned := ?_
    logSuits := ?_
    order := horder
    file := hfile
    marked := hmarked
    joined := hjoined }
  · have hsame : own { s with
        dataQueue := q, file := file, written := written, rolled := rolled, logThread := pc } =
          s.own := own_congr rfl hown
    rw [hsame]
    exact h.owned
  · show pc.Suits (s.pool.threads none)
    rw [hrest]
    trivial

theorem Inv.pop (h : s.Inv conf old base count) (hstep : s.stepPop = some s') :
    s'.Inv conf old base count := by
  unfold stepPop at hstep
  split at hstep
  · rename_i hpc
    split at hstep
    · cases hstep
    · rename_i data q hq
      have hqueue := BlockingQueue.pop_eq_some hq
      have hmarked : data :: q.queue = s.items ++ s.closing.sent := by
        rw [← hqueue]
        exact h.queue_eq (by simp [hpc])
      have hitems : s.items = (data :: q.queue).filter fun data => data.buf ≠ 0 := by
        rw [items, hqueue]
      have hrest := h.logSuits.atRest (by simp [hpc])
      have horder := h.order
      split at hstep
      · rename_i hbuf
        cases hstep
        rw [List.filter_cons_of_neg (by simpa using hbuf)] at hitems
        -- Nothing is queued behind the exit mark.
        obtain ⟨hnone, hlast⟩ : s.items = [] ∧ s.closing.sent = data :: q.queue := by
          cases hfirst : s.items with
          | nil => exact ⟨rfl, by simpa [hfirst] using hmarked.symm⟩
          | cons first rest =>
              rw [hfirst] at hmarked
              obtain rfl := (List.cons.inj hmarked).1
              have hmem : data ∈ s.items := by simp [hfirst]
              simp [items, hbuf] at hmem
        have hsent : q.queue = [] ∧ s.closing.sent = [.exitMark] := by
          cases hclosing : s.closing <;> simp [hclosing, Closing.sent] at hlast ⊢
          all_goals exact hlast.2
        apply h.logMove hrest
        · rw [own, hpc, hitems]
          rfl
        · rw [hpc, hitems] at horder
          exact horder
        · exact h.file
        · rw [if_pos rfl]
          exact hsent
        · exact fun _ => rfl
      · rename_i hbuf
        cases hstep
        rw [List.filter_cons_of_pos (by simpa using hbuf)] at hitems
        apply h.logMove hrest
        · rw [own, hpc, hitems]
          rfl
        · rw [hpc, hitems] at horder
          exact horder
        · exact h.file
        · rw [if_neg (by simp)]
          rw [hitems] at hmarked
          exact (List.cons.inj hmarked).2
        · exact fun hclosed => absurd hclosed (h.not_closed (by simp [hpc]))
  · cases hstep

/-- What is written is the next line that entered the queue. -/
theorem Inv.append (h : s.Inv conf old base count) (hfits : conf.Fits) (hold : old ≠ [])
    (hstep : s.stepAppend = some s') : s'.Inv conf old base count := by
  unfold stepAppend at hstep
  split at hstep
  · rename_i data hpc
    cases hstep
    obtain ⟨lines, hlines, hentered⟩ := h.order
    rw [hpc] at hlines
    obtain ⟨line, rest, hline, hrest, rfl⟩ := List.forall₂_cons_left_iff.mp hlines
    have hread : read s.mem data.buf data.len.toNat = line := by rw [hline.len, hline.bytes]
    have htake : line.take data.len.toNat = line := by rw [hline.len, List.take_length]
    apply h.logMove (h.logSuits.atRest (by simp [hpc]))
    · rw [own, hpc]
      rfl
    · refine ⟨rest, hrest, ?_⟩
      rw [hread, hentered, List.append_assoc]
      rfl
    · have happend := h.file.append hfits hold ⟨line, data.len⟩
      rw [htake] at happend
      rw [hread]
      exact happend
    · rw [if_neg (by simp)]
      exact h.queue_eq (by simp [hpc])
    · exact fun hclosed => absurd hclosed (h.not_closed (by simp [hpc]))
  · cases hstep

theorem Inv.logFree (h : s.Inv conf old base count) (hstep : s.stepLogFree = some s') :
    s'.Inv conf old base count := by
  unfold stepLogFree at hstep
  split at hstep
  · rename_i data hpc
    cases hstep
    have hown : s.own none = data.buf :: s.items.map LogData.buf := by
      rw [own, hpc]
      rfl
    have hblock : data.buf ∈ s.pool.live.map Prod.fst :=
      (h.owned.live data.buf).mpr ⟨none, by simp [hown]⟩
    obtain ⟨pool, hpool, hlive, hother, hplace, hledger⟩ :=
      h.ledger.free (h.logSuits.atRest (by simp [hpc])) hblock
    have hrelease : s.release none data.buf =
        { s with pool := pool, freed := s.freed ++ [data.buf] } := by
      rw [release, hpool, Option.getD_some]
    rw [hrelease]
    refine { h with
      ledger := hledger
      owned := ?_
      suits := ?_
      logSuits := ?_
      order := ?_
      marked := ?_
      joined := ?_ }
    · have hmove := own_of_threads_eq s
        { s with pool := pool, freed := s.freed ++ [data.buf], logThread := .reopen } rfl
      rw [hmove]
      apply h.owned.giveBack _ hlive
      rw [hown]
      exact List.Perm.refl _
    · intro u
      show (s.threads u).Suits (pool.threads (some u))
      rw [hother (some u) (by simp)]
      exact h.suits u
    · show LogPc.Suits .reopen (pool.threads none)
      cases hp : pool.threads none with
      | idle => trivial
      | allocHeap => exact absurd hp hplace
      | freeHeap block n => rfl
    · have horder := h.order
      rw [hpc] at horder
      exact horder
    · rw [if_neg (by simp)]
      exact h.queue_eq (by simp [hpc])
    · exact fun hclosed => absurd hclosed (h.not_closed (by simp [hpc]))
  · cases hstep

theorem Inv.reopen (h : s.Inv conf old base count) (hfits : conf.Fits)
    (hnum : 1 ≤ conf.maxFileNum.toNat) (hold : old ≠ []) (hstep : s.stepReopen = some s') :
    s'.Inv conf old base count := by
  unfold stepReopen at hstep
  split at hstep
  · rename_i hpc
    split at hstep
    · cases hstep
    · rename_i hrest
      cases hstep
      have hrest : s.pool.threads none = .idle := by simpa [atRest] using hrest
      apply h.logMove hrest
      · rw [own, hpc]
        rfl
      · have horder := h.order
        rw [hpc] at horder
        exact horder
      · show s.file.reopenIfFull.Rolls conf old s.written _
        unfold LogFile.reopenIfFull
        split
        · exact h.file.reopen hfits hnum hold
        · exact h.file
      · rw [if_neg (by simp)]
        exact h.queue_eq (by simp [hpc])
      · exact fun hclosed => absurd hclosed (h.not_closed (by simp [hpc]))
  · cases hstep

/-! ## `Close` -/

omit [DecidableEq Tid] in
theorem Inv.close (h : s.Inv conf old base count) (hidle : ∀ t, s.threads t = .idle)
    (hstep : s.stepClose = some s') : s'.Inv conf old base count := by
  unfold stepClose at hstep
  split at hstep
  · rename_i hclosing
    cases hstep
    have hmarked := h.marked
    rw [hclosing] at hmarked
    exact { h with
      marked := hmarked
      quiet := fun _ => hidle
      joined := fun hclosed => by simp at hclosed }
  · cases hstep

theorem Inv.pushMark (h : s.Inv conf old base count) (hstep : s.stepPushMark = some s') :
    s'.Inv conf old base count := by
  unfold stepPushMark at hstep
  split at hstep
  · rename_i hclosing
    split at hstep
    · cases hstep
    · rename_i q hq
      cases hstep
      have hqueue := BlockingQueue.push_eq_some hq
      have hne : s.logThread ≠ .exited := by
        intro hpc
        have hmarked := h.marked
        rw [if_pos hpc, hclosing] at hmarked
        simp [Closing.sent] at hmarked
      have hitems : q.queue.filter (fun data => data.buf ≠ 0) = s.items := by
        simp [hqueue, items, LogData.exitMark]
      refine { h with
        owned := ?_
        order := ?_
        marked := ?_
        quiet := fun _ => h.quiet (by simp [hclosing])
        joined := fun hclosed => by simp at hclosed }
      · have hown : own { s with dataQueue := q, closing := .joining } = s.own := by
          refine own_congr rfl ?_
          show s.logThread.blocks ++ (q.queue.filter _).map LogData.buf = _
          rw [hitems]
          rfl
        rw [hown]
        exact h.owned
      · obtain ⟨lines, hlines, hentered⟩ := h.order
        refine ⟨lines, ?_, hentered⟩
        show List.Forall₂ _ (s.logThread.current ++ q.queue.filter _) lines
        rw [hitems]
        exact hlines
      · rw [if_neg hne]
        show q.queue = q.queue.filter _ ++ [.exitMark]
        rw [hitems, hqueue, h.queue_eq hne, hclosing]
        simp [Closing.sent]
  · cases hstep

omit [DecidableEq Tid] in
theorem Inv.join (h : s.Inv conf old base count) (hstep : s.stepJoin = some s') :
    s'.Inv conf old base count := by
  unfold stepJoin at hstep
  split at hstep
  · rename_i hclosing
    split at hstep
    · rename_i hpc
      cases hstep
      have hmarked := h.marked
      rw [hclosing] at hmarked
      exact { h with
        marked := hmarked
        quiet := fun _ => h.quiet (by simp [hclosing])
        joined := fun _ => hpc }
    · cases hstep
  · cases hstep

/-! ## All steps -/

theorem Inv.step (h : s.Inv conf old base count) (hfits : conf.Fits)
    (hnum : 1 ≤ conf.maxFileNum.toNat) (hold : old ≠ []) {l : Label Tid} (horderly : s.Orderly l)
    (hstep : step s l = some s') : s'.Inv conf old base count := by
  cases l with
  | logMsg t call =>
      simp only [LoggerImpl.step, stepLogMsg] at hstep
      split at hstep
      · rename_i hpc
        cases hstep
        exact h.logMsg hpc horderly.1 horderly.2
      · cases hstep
  | alloc t => exact h.alloc hstep
  | xmalloc t buf => exact h.xmalloc hstep
  | format t => exact h.format hstep
  | free t => exact h.free hstep
  | xfree t => exact h.xfree hstep
  | push t => exact h.push hstep
  | pop => exact h.pop hstep
  | append => exact h.append hfits hold hstep
  | logFree => exact h.logFree hstep
  | reopen => exact h.reopen hfits hnum hold hstep
  | close => exact h.close horderly hstep
  | pushMark => exact h.pushMark hstep
  | join => exact h.join hstep

end XfUtil.LoggerImpl
