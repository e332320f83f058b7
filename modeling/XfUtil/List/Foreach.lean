import XfUtil.List.Sequences

/-!
# Walking a list

`ListForeach` goes on through the link that a node has when the body is done with it. A node
that is taken out of its list keeps its links, so the walk goes on; one that is put on another
list leads the walk there, and it does not come back.
-/

namespace XfUtil

open Links

/-- The loop at `node`: the nodes visited and the heap at the end; `none` if `rounds` rounds do
not end it. -/
def foreachLoop (body : Heap → Nat → Heap) (list : Nat) :
    Nat → Heap → Nat → Option (List Nat × Heap)
  | rounds, l, node =>
      if node = list then some ([], l)
      else
        match rounds with
        | 0 => none
        | rounds + 1 =>
            let l := body l node
            (foreachLoop body list rounds l (l.next node)).map fun r => (node :: r.1, r.2)

/-- `ListForeach` with a body. -/
def listForeach (body : Heap → Nat → Heap) (list rounds : Nat) (l : Heap) :
    Option (List Nat × Heap) :=
  foreachLoop body list rounds l (l.next list)

/-- A body that deletes some nodes. -/
def deleting (p : Nat → Bool) (l : Heap) (node : Nat) : Heap :=
  if p node then listDelete l node else l

/-- A body that moves some nodes to the tail of another list. -/
def moving (p : Nat → Bool) (other : Nat) (l : Heap) (node : Nat) : Heap :=
  if p node then listAddTail (listDelete l node) node other else l

/-! ## Links -/

variable {l : Heap} {h n : Nat} {xs ys : List Nat}

theorem foreachLoop_end (body : Heap → Nat → Heap) (list rounds : Nat) (l : Heap) :
    foreachLoop body list rounds l list = some ([], l) := by
  cases rounds <;> simp [foreachLoop]

theorem foreachLoop_step (body : Heap → Nat → Heap) {list node : Nat} (hne : node ≠ list)
    (rounds : Nat) (l : Heap) :
    foreachLoop body list (rounds + 1) l node =
      (foreachLoop body list rounds (body l node) ((body l node).next node)).map fun r =>
        (node :: r.1, r.2) := by
  rw [foreachLoop, if_neg hne]

theorem segment_next {a b : Nat} (hs : Segment l a xs b) : l.next a = xs.headD b := by
  cases xs with
  | nil => exact hs.1
  | cons x xs => exact hs.1

theorem ring_next (hr : Ring l h (xs ++ n :: ys)) : l.next n = ys.headD h :=
  segment_next (segment_append.mp hr.segment).2

theorem ring_ne (hr : Ring l h (xs ++ n :: ys)) : n ≠ h := by
  rintro rfl
  exact (List.nodup_cons.mp hr.nodup).1 (by simp)

/-- A deleted node keeps its own link. -/
theorem listDelete_next_self (hr : Ring l h (xs ++ n :: ys)) :
    (listDelete l n).next n = l.next n := by
  have hmem : n ∈ h :: (xs ++ n :: ys) := by simp
  have hne : n ≠ l.prev n := by
    intro heq
    have hself : l.next n = n := by
      have hinverse := (hr.inverse hmem).2
      rwa [← heq] at hinverse
    rw [ring_next hr] at hself
    have hnd : (h :: (xs ++ n :: ys)).Nodup := hr.nodup
    cases ys with
    | nil => exact ring_ne hr hself.symm
    | cons y ys =>
        obtain rfl : y = n := hself
        have htail := (List.nodup_append.mp (List.nodup_cons.mp hnd).2).2.1
        exact (List.nodup_cons.mp htail).1 List.mem_cons_self
  simp [listDelete, listDelete_, hne]

/-! ## Deleting on the way -/

variable {ι : Type*} [DecidableEq ι] {head : ι → Nat} {seq : ι → List Nat} {i j : ι}

/-- The walk from the first of `rest` on; the nodes of `done` are those it has left behind. -/
theorem foreachLoop_deletes {body : Heap → Nat → Heap} {p : Nat → Bool} {done rest : List Nat}
    (hs : Lists l head (Function.update seq i (done ++ rest)))
    (hbody : ∀ n ∈ rest, ∀ l, body l n = deleting p l n) :
    ∃ l', foreachLoop body (head i) rest.length l (rest.headD (head i)) = some (rest, l') ∧
      Lists l' head (Function.update seq i (done ++ rest.filter fun n => !p n)) := by
  induction rest generalizing l done with
  | nil =>
      refine ⟨l, foreachLoop_end .., ?_⟩
      exact hs
  | cons n rest ih =>
      have hr : Ring l (head i) (done ++ n :: rest) := by
        have hring := hs.ring i
        rwa [Function.update_self] at hring
      have hnext : (deleting p l n).next n = rest.headD (head i) := by
        unfold deleting
        split
        · rw [listDelete_next_self hr, ring_next hr]
        · exact ring_next hr
      have hrest : ∃ kept, Lists (deleting p l n) head (Function.update seq i (kept ++ rest)) ∧
          kept ++ rest.filter (fun n => !p n) =
            done ++ (n :: rest).filter fun n => !p n := by
        cases hp : p n with
        | true =>
            have hmem : n ∈ Function.update seq i (done ++ n :: rest) i := by simp
            have hdelete := hs.delete hmem
            have hnot : n ∉ done := fun hd =>
              (List.nodup_append.mp (List.nodup_cons.mp hr.nodup).2).2.2 n hd n (by simp) rfl
            rw [Function.update_idem, Function.update_self, List.erase_append_right _ hnot,
              List.erase_cons_head] at hdelete
            refine ⟨done, ?_, by simp [hp]⟩
            rwa [deleting, if_pos hp]
        | false =>
            refine ⟨done ++ [n], ?_, by simp [hp]⟩
            rw [deleting, hp]
            simpa using hs
      obtain ⟨kept, hkept, hfilter⟩ := hrest
      obtain ⟨l', hloop, hl'⟩ := ih hkept fun m hm => hbody m (by simp [hm])
      refine ⟨l', ?_, by rwa [← hfilter]⟩
      rw [List.length_cons, List.headD_cons, foreachLoop_step body (ring_ne hr),
        hbody n List.mem_cons_self, hnext, hloop]
      rfl

/-- A body that deletes any nodes it visits leaves the walk as it is: every node is visited
once, in order. The list has the other nodes then, and no other list has changed. -/
theorem foreach_deletes (hs : Lists l head seq) (p : Nat → Bool) (i : ι) :
    ∃ l', listForeach (deleting p) (head i) (seq i).length l = some (seq i, l') ∧
      Lists l' head (Function.update seq i ((seq i).filter fun n => !p n)) := by
  have hstart : Lists l head (Function.update seq i ([] ++ seq i)) := by
    rwa [List.nil_append, Function.update_eq_self]
  obtain ⟨l', hloop, hl'⟩ := foreachLoop_deletes hstart fun _ _ _ => rfl
  refine ⟨l', ?_, hl'⟩
  rw [listForeach, segment_next (hs.ring i).segment, hloop]

theorem foreach_deletes_first :
    ∃ l', listForeach (deleting (· = 1)) 10 2 twoLists = some ([1, 2], l') ∧
      Lists l' twoLists.head (Function.update twoLists.seq false [2]) :=
  foreach_deletes twoLists_lists (· = 1) false

/-! ## Moving on the way -/

/-- A moved node links to the head of its new list. -/
theorem moving_next {p : Nat → Bool} (hs : Lists l head seq) (hn : n ∈ seq i)
    (hmove : p n = true) (j : ι) :
    ∃ seq', Lists (moving p (head j) l n) head seq' ∧ (moving p (head j) l n).next n = head j := by
  have hmoved := hs.move hn j
  have hring := hmoved.ring j
  rw [Function.update_self] at hring
  rw [moving, if_pos hmove]
  exact ⟨_, hmoved, ring_next hring⟩

/-- The walk does not come back from another list. -/
theorem foreachLoop_other {p : Nat → Bool} (hij : i ≠ j) (hp : p (head j) = false)
    (hs : Lists l head seq) {node : Nat} (hnode : node ∈ head j :: seq j) (rounds : Nat) :
    foreachLoop (moving p (head j)) (head i) rounds l node = none := by
  induction rounds generalizing l seq node with
  | zero =>
      have hne : node ≠ head i := fun heq => hs.not_mem hij hnode (heq ▸ List.mem_cons_self)
      rw [foreachLoop, if_neg hne]
  | succ rounds ih =>
      have hne : node ≠ head i := fun heq => hs.not_mem hij hnode (heq ▸ List.mem_cons_self)
      rw [foreachLoop_step _ hne]
      cases hmove : p node with
      | false =>
          have hsame : moving p (head j) l node = l := by simp [moving, hmove]
          rw [hsame, ih hs ((hs.ring j).neighbours_mem hnode).1]
          rfl
      | true =>
          have hmem : node ∈ seq j := by
            rcases List.mem_cons.mp hnode with rfl | hmem
            · rw [hp] at hmove
              cases hmove
            · exact hmem
          obtain ⟨seq', hmoved, hnext⟩ := moving_next hs hmem hmove j
          rw [hnext, ih hmoved List.mem_cons_self]
          rfl

/-- A walk that moves a node it has still to visit does not end. -/
theorem foreachLoop_moves {p : Nat → Bool} (hij : i ≠ j) (hp : p (head j) = false)
    (hs : Lists l head seq) (done : List Nat) {rest : List Nat} (hseq : seq i = done ++ rest)
    (hmoves : ∃ n ∈ rest, p n = true) (rounds : Nat) :
    foreachLoop (moving p (head j)) (head i) rounds l (rest.headD (head i)) = none := by
  induction rest generalizing done rounds with
  | nil => simp at hmoves
  | cons n rest ih =>
      have hr := hs.ring i
      rw [hseq] at hr
      cases rounds with
      | zero => rw [List.headD_cons, foreachLoop, if_neg (ring_ne hr)]
      | succ rounds =>
          rw [List.headD_cons, foreachLoop_step _ (ring_ne hr)]
          cases hmove : p n with
          | false =>
              have hsame : moving p (head j) l n = l := by simp [moving, hmove]
              have hrest : ∃ m ∈ rest, p m = true := by simpa [hmove] using hmoves
              rw [hsame, ring_next hr, ih (done ++ [n]) (by simp [hseq]) hrest]
              rfl
          | true =>
              have hmem : n ∈ seq i := by simp [hseq]
              obtain ⟨seq', hmoved, hnext⟩ := moving_next hs hmem hmove j
              rw [hnext, foreachLoop_other hij hp hmoved List.mem_cons_self]
              rfl

/-- A walk whose body moves nodes to another list ends exactly if it moves none of the list's. -/
theorem foreach_moves_ends_iff (hs : Lists l head seq) (hij : i ≠ j) {p : Nat → Bool}
    (hp : p (head j) = false) :
    (∃ rounds r, listForeach (moving p (head j)) (head i) rounds l = some r) ↔
      ∀ n ∈ seq i, p n = false := by
  unfold listForeach
  rw [segment_next (hs.ring i).segment]
  constructor
  · rintro ⟨rounds, r, hloop⟩ n hn
    by_contra hmoves
    have hnone := foreachLoop_moves hij hp hs [] rfl
      ⟨n, hn, by simpa using hmoves⟩ rounds
    rw [hnone] at hloop
    cases hloop
  · intro hkeeps
    have hstart : Lists l head (Function.update seq i ([] ++ seq i)) := by
      rwa [List.nil_append, Function.update_eq_self]
    have hbody : ∀ n ∈ seq i, ∀ l, moving p (head j) l n = deleting (fun _ => false) l n := by
      intro n hn l
      simp [moving, deleting, hkeeps n hn]
    obtain ⟨l', hloop, -⟩ := foreachLoop_deletes hstart hbody
    exact ⟨_, _, hloop⟩

theorem foreach_moves_ends_second :
    ¬∃ rounds r, listForeach (moving (· = 2) 20) 10 rounds twoLists = some r := by
  have hne : false ≠ true := by decide
  have hends := foreach_moves_ends_iff (p := (· = 2)) twoLists_lists hne (by decide)
  intro hloop
  have hkept := hends.mp hloop 2 (by decide)
  cases hkept

end XfUtil
