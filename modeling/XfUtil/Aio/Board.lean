import XfUtil.Aio.Threads

/-!
# The board: what the AIO is for

The abstract model. Senders put the commands of their requests into queues, each
command once and in order; workers take them out, carry them through the stages
of their execution, and finish them. A board has no thread groups, no end
markers and no counters. `Sound` is what makes "exactly once" true: `life` says
where each command is, and queues, workers and lists agree with it.
-/

namespace XfUtil.Aio

/-- `ProcessRequest` goes through these stages in this order. -/
inductive Stage.Next : Stage → Stage → Prop where
  | fail (lastError : BitVec 32) : Stage.Next .popped (.failed lastError)
  | succeed : Stage.Next .popped .settled
  | countFail (lastError : BitVec 32) : Stage.Next (.failed lastError) .settled
  | count (prevCnt : BitVec 32) : Stage.Next .settled (.counted prevCnt)

@[ext]
structure Board (Tid : Type*) where
  /-- The numbers of commands of the requests. -/
  sizes : List Nat
  /-- The next command of a thread that is sending its request. -/
  sending : Tid → Option RequestEx
  jobs : QueueId → List RequestEx
  job : WorkerId → Option (RequestEx × Stage)
  life : RequestEx → Life
  finished : List RequestEx
  dropped : List RequestEx

namespace Board

variable {Tid : Type*}

/-- The io queues are gone. -/
def dropJobs (jobs : QueueId → List RequestEx) : QueueId → List RequestEx
  | .io _ => []
  | .pio => jobs .pio

section Step

variable [DecidableEq Tid]

inductive Step (b : Board Tid) : Board Tid → Prop where
  | accept {t} (n : Nat) (h : b.sending t = none) :
      Step b { b with
        sizes := b.sizes ++ [n]
        sending := Function.update b.sending t (some ⟨b.sizes.length, 0⟩) }
  | send {t e n} (q : QueueId) (h : b.sending t = some e) (hn : b.sizes[e.request]? = some n)
      (hlt : e.cmdIdx < n) :
      Step b { b with
        sending := Function.update b.sending t (some ⟨e.request, e.cmdIdx + 1⟩)
        jobs := Function.update b.jobs q (b.jobs q ++ [e])
        life := Function.update b.life e (.queued q) }
  | retire {t e n} (h : b.sending t = some e) (hn : b.sizes[e.request]? = some n)
      (hle : n ≤ e.cmdIdx) :
      Step b { b with sending := Function.update b.sending t none }
  | take {w q e rest} (hw : b.job w = none) (hq : b.jobs q = e :: rest) :
      Step b { b with
        jobs := Function.update b.jobs q rest
        job := Function.update b.job w (some (e, .popped))
        life := Function.update b.life e (.held w .popped) }
  | reach {w e stage stage'} (hw : b.job w = some (e, stage)) (hnext : stage.Next stage') :
      Step b { b with
        job := Function.update b.job w (some (e, stage'))
        life := Function.update b.life e (.held w stage') }
  | finish {w e stage} (hw : b.job w = some (e, stage)) :
      Step b { b with
        job := Function.update b.job w none
        life := Function.update b.life e .done
        finished := b.finished ++ [e] }
  | drop {lost} (hlost : ∀ e, e ∈ lost ↔ ∃ idx, e ∈ b.jobs (.io idx)) :
      Step b { b with
        jobs := dropJobs b.jobs
        life := fun e => (b.life e).dropIo
        dropped := b.dropped ++ lost }

end Step

/-! ## The invariant -/

/-- `e` is found in the place `life` names. -/
def At (b : Board Tid) (e : RequestEx) : Life → Prop
  | .unsent => b.life e = .unsent
  | .queued q => e ∈ b.jobs q
  | .held w stage => b.job w = some (e, stage)
  | .done => e ∈ b.finished
  | .lost => e ∈ b.dropped

/-- Queues, workers and lists agree with `life`, and hold a command once. -/
structure Placed (b : Board Tid) : Prop where
  agree : ∀ e l, b.life e = l ↔ b.At e l
  once : ∀ q, (b.jobs q).Nodup
  doneOnce : b.finished.Nodup

/-- The commands not sent yet are those that some thread is still going to send. -/
structure Sent (b : Board Tid) : Prop where
  known : ∀ e, b.life e ≠ .unsent → ∃ n, b.sizes[e.request]? = some n ∧ e.cmdIdx < n
  inside : ∀ t e, b.sending t = some e → ∃ n, b.sizes[e.request]? = some n ∧ e.cmdIdx ≤ n
  next : ∀ t e, b.sending t = some e → ∀ i, b.life ⟨e.request, i⟩ = .unsent ↔ e.cmdIdx ≤ i
  alone : ∀ t t' e e', b.sending t = some e → b.sending t' = some e' →
    e.request = e'.request → t = t'
  complete : ∀ r n i, b.sizes[r]? = some n → i < n → b.life ⟨r, i⟩ = .unsent →
    ∃ t e, b.sending t = some e ∧ e.request = r

structure Sound (b : Board Tid) : Prop where
  placed : b.Placed
  sent : b.Sent

variable {b : Board Tid}

/-- Before the first request. -/
def start (Tid : Type*) : Board Tid :=
  ⟨[], fun _ => none, fun _ => [], fun _ => none, fun _ => .unsent, [], []⟩

theorem start_sound : (start Tid).Sound := by
  refine ⟨⟨fun e l => ?_, by simp [start], by simp [start]⟩, by constructor <;> simp [start]⟩
  cases l <;> simp [start, At]

/-! ## Where commands are -/

theorem Placed.not_at (h : b.Placed) {e : RequestEx} {l l' : Life} (hl : b.life e = l)
    (hne : l ≠ l') : ¬ b.At e l' := fun hat => hne (hl.symm.trans ((h.agree e l').mpr hat))

/-- One command moves from `l` to `l'`: the places of the others stay as they were. -/
theorem Placed.agree_move (h : b.Placed) {b' : Board Tid} {e : RequestEx} {l l' : Life}
    (hl : b.life e = l) (hlife : b'.life = Function.update b.life e l')
    (hto : b'.At e l') (hfrom : l ≠ l' → ¬ b'.At e l)
    (hsame : ∀ y, y ≠ l → y ≠ l' → (b'.At e y ↔ b.At e y))
    (hother : ∀ x, x ≠ e → ∀ y, b'.At x y ↔ b.At x y) (x : RequestEx) (y : Life) :
    b'.life x = y ↔ b'.At x y := by
  rw [hlife]
  by_cases hx : x = e
  · subst hx
    rw [Function.update_self]
    by_cases hy' : y = l'
    · subst hy'
      exact iff_of_true rfl hto
    · refine iff_of_false (fun heq => hy' heq.symm) ?_
      by_cases hy : y = l
      · subst hy
        exact hfrom hy'
      · rw [hsame y hy hy']
        exact h.not_at hl fun heq => hy heq.symm
  · rw [Function.update_of_ne hx, hother x hx y]
    exact h.agree x y

theorem Placed.send (h : b.Placed) {e : RequestEx} (he : b.life e = .unsent) (q : QueueId) :
    { b with
      jobs := Function.update b.jobs q (b.jobs q ++ [e])
      life := Function.update b.life e (.queued q) }.Placed := by
  have hat : ¬ b.At e (.queued q) := h.not_at he (by simp)
  have hnot : e ∉ b.jobs q := hat
  refine ⟨h.agree_move he rfl ?_ ?_ ?_ ?_, fun q' => ?_, h.doneOnce⟩
  · simp [At]
  · simp [At]
  · intro y hy hy'
    cases y with
    | unsent => exact absurd rfl hy
    | queued q' =>
        have hq : q' ≠ q := fun heq => hy' (by rw [heq])
        simp [At, hq]
    | held | done | lost => rfl
  · intro x hx y
    cases y with
    | queued q' =>
        by_cases hq : q' = q
        · subst hq
          simp [At, hx]
        · simp [At, hq]
    | unsent => simp [At, hx]
    | held | done | lost => rfl
  · by_cases hq : q' = q
    · subst hq
      simp only [Function.update_self]
      exact (h.once q').append (List.nodup_singleton e) (by simpa using hnot)
    · simp only [Function.update_of_ne hq]
      exact h.once q'

theorem Placed.take (h : b.Placed) {w : WorkerId} {q : QueueId} {e : RequestEx}
    {rest : List RequestEx} (hw : b.job w = none) (hq : b.jobs q = e :: rest) :
    { b with
      jobs := Function.update b.jobs q rest
      job := Function.update b.job w (some (e, .popped))
      life := Function.update b.life e (.held w .popped) }.Placed := by
  have he : b.life e = .queued q := (h.agree e _).mpr (by simp [At, hq])
  have hnd : (e :: rest).Nodup := hq ▸ h.once q
  refine ⟨h.agree_move he rfl ?_ ?_ ?_ ?_, fun q' => ?_, h.doneOnce⟩
  · simp [At]
  · intro _
    simpa [At] using (List.nodup_cons.mp hnd).1
  · intro y hy hy'
    cases y with
    | queued q' =>
        have hq' : q' ≠ q := fun heq => hy (by rw [heq])
        simp [At, hq']
    | held w' stage =>
        by_cases hw' : w' = w
        · subst hw'
          have hst : Stage.popped ≠ stage := fun heq => hy' (by rw [heq])
          simp [At, hw, hst]
        · simp [At, hw']
    | unsent => simp [At, he]
    | done | lost => rfl
  · intro x hx y
    cases y with
    | queued q' =>
        by_cases hq' : q' = q
        · subst hq'
          simp [At, hq, hx]
        · simp [At, hq']
    | held w' stage =>
        by_cases hw' : w' = w
        · subst hw'
          simp [At, hw, hx.symm]
        · simp [At, hw']
    | unsent => simp [At, hx]
    | done | lost => rfl
  · by_cases hq' : q' = q
    · subst hq'
      simpa using (List.nodup_cons.mp hnd).2
    · simp only [Function.update_of_ne hq']
      exact h.once q'

theorem Placed.reach (h : b.Placed) {w : WorkerId} {e : RequestEx} {stage stage' : Stage}
    (hw : b.job w = some (e, stage)) :
    { b with
      job := Function.update b.job w (some (e, stage'))
      life := Function.update b.life e (.held w stage') }.Placed := by
  have he : b.life e = .held w stage := (h.agree e _).mpr hw
  refine ⟨h.agree_move he rfl ?_ ?_ ?_ ?_, h.once, h.doneOnce⟩
  · simp [At]
  · intro hne
    have hst : stage' ≠ stage := fun heq => hne (by rw [heq])
    simpa [At] using hst
  · intro y hy hy'
    cases y with
    | held w' st =>
        by_cases hw' : w' = w
        · subst hw'
          have hst : stage' ≠ st := fun heq => hy' (by rw [heq])
          have hst' : stage ≠ st := fun heq => hy (by rw [heq])
          simp [At, hw, hst, hst']
        · simp [At, hw']
    | unsent => simp [At, he]
    | queued | done | lost => rfl
  · intro x hx y
    cases y with
    | held w' st =>
        by_cases hw' : w' = w
        · subst hw'
          simp [At, hw, hx.symm]
        · simp [At, hw']
    | unsent => simp [At, hx]
    | queued | done | lost => rfl

theorem Placed.finish (h : b.Placed) {w : WorkerId} {e : RequestEx} {stage : Stage}
    (hw : b.job w = some (e, stage)) :
    { b with
      job := Function.update b.job w none
      life := Function.update b.life e .done
      finished := b.finished ++ [e] }.Placed := by
  have he : b.life e = .held w stage := (h.agree e _).mpr hw
  have hat : ¬ b.At e .done := h.not_at he (by simp)
  have hnot : e ∉ b.finished := hat
  refine ⟨h.agree_move he rfl ?_ ?_ ?_ ?_, h.once, ?_⟩
  · simp [At]
  · simp [At]
  · intro y hy hy'
    cases y with
    | held w' st =>
        by_cases hw' : w' = w
        · subst hw'
          have hst : stage ≠ st := fun heq => hy (by rw [heq])
          simp [At, hw, hst]
        · simp [At, hw']
    | done => exact absurd rfl hy'
    | unsent => simp [At, he]
    | queued | lost => rfl
  · intro x hx y
    cases y with
    | held w' st =>
        by_cases hw' : w' = w
        · subst hw'
          simp [At, hw, hx.symm]
        · simp [At, hw']
    | done => simp [At, hx]
    | unsent => simp [At, hx]
    | queued | lost => rfl
  · exact h.doneOnce.append (List.nodup_singleton e) (by simpa using hnot)

theorem Placed.drop (h : b.Placed) {lost : List RequestEx}
    (hlost : ∀ e, e ∈ lost ↔ ∃ idx, e ∈ b.jobs (.io idx)) :
    { b with
      jobs := dropJobs b.jobs
      life := fun e => (b.life e).dropIo
      dropped := b.dropped ++ lost }.Placed := by
  refine ⟨fun x y => ?_, fun q => ?_, h.doneOnce⟩
  · by_cases hio : ∃ idx, b.life x = .queued (.io idx)
    · obtain ⟨idx, hx⟩ := hio
      have hmem : x ∈ lost := (hlost x).mpr ⟨idx, (h.agree x _).mp hx⟩
      have hnot : ∀ l, l ≠ .queued (.io idx) → ¬ b.At x l := fun l hl =>
        h.not_at hx fun heq => hl heq.symm
      cases y with
      | unsent => simp [At, Life.dropIo, hx]
      | queued q =>
          cases q with
          | io idx' => simp [At, dropJobs, Life.dropIo, hx]
          | pio => simpa [At, dropJobs, Life.dropIo, hx] using hnot (.queued .pio) (by simp)
      | held w stage => simpa [At, dropJobs, Life.dropIo, hx] using hnot (.held w stage) (by simp)
      | done => simpa [At, dropJobs, Life.dropIo, hx] using hnot .done (by simp)
      | lost => simp [At, Life.dropIo, hx, hmem]
    · have hkeep : (b.life x).dropIo = b.life x := by
        unfold Life.dropIo
        split
        · rename_i idx hx
          exact absurd ⟨idx, hx⟩ hio
        · rfl
      have hmem : x ∉ lost := fun hmem => by
        obtain ⟨idx, hx⟩ := (hlost x).mp hmem
        exact hio ⟨idx, (h.agree x _).mpr hx⟩
      show (b.life x).dropIo = y ↔ _
      rw [hkeep, h.agree x y]
      cases y with
      | unsent => simp [At, hkeep]
      | queued q =>
          cases q with
          | io idx =>
              refine iff_of_false (fun hx => hio ⟨idx, (h.agree x _).mpr hx⟩) List.not_mem_nil
          | pio => rfl
      | lost => simp [At, hmem]
      | held | done => rfl
  · cases q with
    | io idx => exact List.nodup_nil
    | pio => exact h.once .pio

/-! ## What has been sent -/

theorem Sent.of_life (h : b.Sent) {b' : Board Tid} (hsizes : b'.sizes = b.sizes)
    (hsending : b'.sending = b.sending)
    (hlife : ∀ e, b'.life e = .unsent ↔ b.life e = .unsent) : b'.Sent := by
  refine ⟨fun e he => ?_, fun t e => ?_, fun t e he i => ?_, fun t t' e e' => ?_,
    fun r n i hn hi hu => ?_⟩
  · rw [hsizes]
    exact h.known e fun hu => he ((hlife e).mpr hu)
  · rw [hsizes, hsending]
    exact h.inside t e
  · rw [hsending] at he
    rw [hlife]
    exact h.next t e he i
  · rw [hsending]
    exact h.alone t t' e e'
  · rw [hsizes] at hn
    rw [hsending]
    exact h.complete r n i hn hi ((hlife _).mp hu)

theorem Sent.unsent (h : b.Sent) {t : Tid} {e : RequestEx} (he : b.sending t = some e) :
    b.life e = .unsent :=
  (h.next t e he e.cmdIdx).mpr le_rfl

/-- Moving a command on does not make anything sent or unsent. -/
theorem unsent_update_iff {life : RequestEx → Life} {e : RequestEx} {l : Life}
    (he : life e ≠ .unsent) (hl : l ≠ .unsent) (x : RequestEx) :
    Function.update life e l x = .unsent ↔ life x = .unsent := by
  by_cases hx : x = e
  · subst hx
    simp [he, hl]
  · simp [hx]

variable [DecidableEq Tid]

theorem Sent.accept (h : b.Sent) {t : Tid} (ht : b.sending t = none) (n : Nat) :
    { b with
      sizes := b.sizes ++ [n]
      sending := Function.update b.sending t (some ⟨b.sizes.length, 0⟩) }.Sent := by
  have hlt : ∀ {r m : Nat}, b.sizes[r]? = some m → r < b.sizes.length :=
    fun hr => (List.getElem?_eq_some_iff.mp hr).1
  have hleft : ∀ {r m : Nat}, b.sizes[r]? = some m → (b.sizes ++ [n])[r]? = some m := fun hr => by
    rw [List.getElem?_append_left (hlt hr)]
    exact hr
  have hfresh : ∀ i, b.life ⟨b.sizes.length, i⟩ = .unsent := by
    intro i
    by_contra hu
    obtain ⟨m, hm, -⟩ := h.known _ hu
    exact absurd (hlt hm) (Nat.lt_irrefl _)
  -- A thread that was sending before is another thread, with another request.
  have hold : ∀ {u : Tid} {e : RequestEx}, u ≠ t →
      Function.update b.sending t (some ⟨b.sizes.length, 0⟩) u = some e → b.sending u = some e :=
    fun hu he => by rwa [Function.update_of_ne hu] at he
  have hrequest : ∀ {u : Tid} {e : RequestEx}, b.sending u = some e →
      e.request ≠ b.sizes.length := by
    intro u e he heq
    obtain ⟨m, hm, -⟩ := h.inside u e he
    have hlt' := hlt hm
    omega
  refine ⟨fun e he => ?_, fun u e he => ?_, fun u e he i => ?_, fun u u' e e' he he' hr => ?_,
    fun r m i hm hi hu => ?_⟩
  · obtain ⟨m, hm, hi⟩ := h.known e he
    exact ⟨m, hleft hm, hi⟩
  · by_cases hu : u = t
    · subst hu
      simp only [Function.update_self, Option.some.injEq] at he
      subst he
      exact ⟨n, by simp, Nat.zero_le n⟩
    · obtain ⟨m, hm, hi⟩ := h.inside u e (hold hu he)
      exact ⟨m, hleft hm, hi⟩
  · by_cases hu : u = t
    · subst hu
      simp only [Function.update_self, Option.some.injEq] at he
      subst he
      exact iff_of_true (hfresh i) (Nat.zero_le i)
    · exact h.next u e (hold hu he) i
  · by_cases hu : u = t <;> by_cases hu' : u' = t
    · exact hu.trans hu'.symm
    · subst hu
      simp only [Function.update_self, Option.some.injEq] at he
      subst he
      exact absurd hr.symm (hrequest (hold hu' he'))
    · subst hu'
      simp only [Function.update_self, Option.some.injEq] at he'
      subst he'
      exact absurd hr (hrequest (hold hu he))
    · exact h.alone u u' e e' (hold hu he) (hold hu' he') hr
  · by_cases hr : r = b.sizes.length
    · exact ⟨t, _, Function.update_self .., hr.symm⟩
    · have hr' : r < b.sizes.length := by
        have hlt' := (List.getElem?_eq_some_iff.mp hm).1
        simp only [List.length_append, List.length_singleton] at hlt'
        omega
      rw [List.getElem?_append_left hr'] at hm
      obtain ⟨u, e, he, her⟩ := h.complete r m i hm hi hu
      have hut : u ≠ t := by
        rintro rfl
        rw [ht] at he
        cases he
      exact ⟨u, e, (Function.update_of_ne hut _ _).trans he, her⟩

theorem Sent.send (h : b.Sent) {t : Tid} {e : RequestEx} {n : Nat} (q : QueueId)
    (he : b.sending t = some e) (hn : b.sizes[e.request]? = some n) (hlt : e.cmdIdx < n) :
    { b with
      sending := Function.update b.sending t (some ⟨e.request, e.cmdIdx + 1⟩)
      jobs := Function.update b.jobs q (b.jobs q ++ [e])
      life := Function.update b.life e (.queued q) }.Sent := by
  have hother : ∀ x, Function.update b.life e (.queued q) x = .unsent ↔
      x ≠ e ∧ b.life x = .unsent := by
    intro x
    by_cases hx : x = e
    · simp [hx]
    · simp [hx]
  refine ⟨fun x hx => ?_, fun u x hx => ?_, fun u x hx i => ?_, fun u u' x x' hx hx' hr => ?_,
    fun r m i hm hi hu => ?_⟩
  · by_cases hxe : x = e
    · subst hxe
      exact ⟨n, hn, hlt⟩
    · exact h.known x fun hu => hx ((hother x).mpr ⟨hxe, hu⟩)
  · by_cases hu : u = t
    · subst hu
      simp only [Function.update_self, Option.some.injEq] at hx
      subst hx
      exact ⟨n, hn, hlt⟩
    · exact h.inside u x ((Function.update_of_ne hu _ _).symm.trans hx)
  · rw [hother]
    by_cases hu : u = t
    · subst hu
      simp only [Function.update_self, Option.some.injEq] at hx
      subst hx
      have hnext := h.next u e he i
      by_cases hi : i = e.cmdIdx
      · subst hi
        simp
      · have hne : (⟨e.request, i⟩ : RequestEx) ≠ e := fun heq => hi (congrArg RequestEx.cmdIdx heq)
        simp only [hne, ne_eq, not_false_eq_true, true_and, hnext]
        omega
    · have hx' : b.sending u = some x := (Function.update_of_ne hu _ _).symm.trans hx
      have hne : (⟨x.request, i⟩ : RequestEx) ≠ e := fun heq =>
        hu (h.alone u t x e hx' he (show x.request = e.request from heq ▸ rfl))
      simp only [hne, ne_eq, not_false_eq_true, true_and]
      exact h.next u x hx' i
  · -- The request of `t` is the one it had.
    have hback : ∀ {v : Tid} {y : RequestEx},
        Function.update b.sending t (some ⟨e.request, e.cmdIdx + 1⟩) v = some y →
          ∃ z, b.sending v = some z ∧ z.request = y.request := by
      intro v y hy
      by_cases hv : v = t
      · subst hv
        simp only [Function.update_self, Option.some.injEq] at hy
        subst hy
        exact ⟨e, he, rfl⟩
      · exact ⟨y, by rwa [Function.update_of_ne hv] at hy, rfl⟩
    obtain ⟨z, hz, hzr⟩ := hback hx
    obtain ⟨z', hz', hzr'⟩ := hback hx'
    exact h.alone u u' z z' hz hz' (hzr.trans (hr.trans hzr'.symm))
  · obtain ⟨hne, hu⟩ := (hother _).mp hu
    obtain ⟨u, x, hx, hxr⟩ := h.complete r m i hm hi hu
    by_cases hut : u = t
    · subst hut
      rw [he] at hx
      cases hx
      exact ⟨u, _, Function.update_self .., hxr⟩
    · exact ⟨u, x, (Function.update_of_ne hut _ _).trans hx, hxr⟩

theorem Sent.retire (h : b.Sent) {t : Tid} {e : RequestEx} {n : Nat}
    (he : b.sending t = some e) (hn : b.sizes[e.request]? = some n) (hle : n ≤ e.cmdIdx) :
    { b with sending := Function.update b.sending t none }.Sent := by
  have hback : ∀ {u : Tid} {x : RequestEx},
      Function.update b.sending t none u = some x → b.sending u = some x := by
    intro u x hx
    by_cases hu : u = t
    · subst hu
      simp at hx
    · rwa [Function.update_of_ne hu] at hx
  refine ⟨h.known, fun u x hx => h.inside u x (hback hx), fun u x hx => h.next u x (hback hx),
    fun u u' x x' hx hx' => h.alone u u' x x' (hback hx) (hback hx'), fun r m i hm hi hu => ?_⟩
  obtain ⟨u, x, hx, rfl⟩ := h.complete r m i hm hi hu
  by_cases hut : u = t
  · subst hut
    rw [he] at hx
    cases hx
    have hle' := (h.next u e he i).mp hu
    rw [hn] at hm
    cases hm
    omega
  · exact ⟨u, x, (Function.update_of_ne hut _ _).trans hx, rfl⟩

/-! ## Steps keep the invariant -/

theorem Sound.step (h : b.Sound) {b' : Board Tid} (hs : b.Step b') : b'.Sound := by
  cases hs with
  | accept n ht => exact ⟨⟨h.placed.agree, h.placed.once, h.placed.doneOnce⟩, h.sent.accept ht n⟩
  | send q he hn hlt =>
      have hplaced := h.placed.send (h.sent.unsent he) q
      exact ⟨⟨hplaced.agree, hplaced.once, hplaced.doneOnce⟩, h.sent.send q he hn hlt⟩
  | retire he hn hle =>
      exact ⟨⟨h.placed.agree, h.placed.once, h.placed.doneOnce⟩, h.sent.retire he hn hle⟩
  | @take w q e rest hw hq =>
      have hplaced := h.placed.take hw hq
      have he : b.life e = .queued q := (h.placed.agree e _).mpr (by simp [At, hq])
      refine ⟨hplaced, h.sent.of_life rfl rfl fun x => ?_⟩
      exact unsent_update_iff (by simp [he]) (by simp) x
  | @reach w e stage stage' hw hnext =>
      have he : b.life e = .held w stage := (h.placed.agree e _).mpr hw
      refine ⟨h.placed.reach hw, h.sent.of_life rfl rfl fun x => ?_⟩
      exact unsent_update_iff (by simp [he]) (by simp) x
  | @finish w e stage hw =>
      have he : b.life e = .held w stage := (h.placed.agree e _).mpr hw
      refine ⟨h.placed.finish hw, h.sent.of_life rfl rfl fun x => ?_⟩
      exact unsent_update_iff (by simp [he]) (by simp) x
  | drop hlost =>
      refine ⟨h.placed.drop hlost, h.sent.of_life rfl rfl fun x => ?_⟩
      exact (b.life x).dropIo_eq_unsent

end Board

end XfUtil.Aio
