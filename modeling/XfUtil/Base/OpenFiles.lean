import Mathlib.Data.List.Basic
import Mathlib.Logic.Function.Basic

/-!
# Open files

Files by their identity, and a table of descriptors, each with an offset into its file.
What the environment does to a call is an answer: the call fails, or it moves so many
bytes as far as it can. A call that is interrupted has no effect.
-/

namespace OpenFiles

abbrev Errno := BitVec 32

abbrev enoent : Errno := 2#32
abbrev eintr : Errno := 4#32
abbrev ebadf : Errno := 9#32
abbrev efault : Errno := 14#32

theorem ebadf_ne_eintr : ebadf ≠ eintr := by decide

theorem efault_ne_eintr : efault ≠ eintr := by decide

inductive Answer where
  | error (e : Errno)
  | count (n : Nat)
deriving Repr, DecidableEq

/-- How a file is opened. -/
structure Access where
  readable : Bool
  writable : Bool
  create : Bool
  truncate : Bool
  append : Bool
deriving Repr, DecidableEq

/-- An open file. -/
structure Description (ι : Type*) where
  file : ι
  access : Access
  offset : Nat
deriving Repr, DecidableEq

structure Kernel (ι β : Type*) where
  /-- What the files hold that exist. -/
  content : ι → Option (List β)
  mode : ι → BitVec 32
  umask : BitVec 32
  /-- By descriptor. -/
  table : List (Option (Description ι))

/-! ## The table -/

section

variable {δ : Type*}

/-- What stands at an index, if anything does. -/
def lookup (table : List (Option δ)) (fd : Nat) : Option δ := table[fd]?.join

/-- The lowest free index. -/
def lowest (table : List (Option δ)) : Nat := table.findIdx Option.isNone

/-- Put an element at the lowest free index. -/
def install (table : List (Option δ)) (d : δ) : List (Option δ) :=
  if lowest table < table.length then table.set (lowest table) (some d) else table ++ [some d]

theorem lowest_le (table : List (Option δ)) : lowest table ≤ table.length :=
  List.findIdx_le_length

theorem lookup_lowest (table : List (Option δ)) : lookup table (lowest table) = none := by
  by_cases h : lowest table < table.length
  · have hnone : table[lowest table].isNone = true := List.findIdx_getElem (w := h)
    rw [lookup, List.getElem?_eq_getElem h]
    simpa using hnone
  · rw [lookup, List.getElem?_eq_none (by omega)]
    rfl

theorem lookup_install (table : List (Option δ)) (d : δ) (fd : Nat) :
    lookup (install table d) fd = if fd = lowest table then some d else lookup table fd := by
  unfold install lookup
  split
  · rename_i hlt
    rw [List.getElem?_set]
    by_cases h : lowest table = fd
    · subst h
      simp [hlt]
    · simp [h, Ne.symm h]
  · have heq : lowest table = table.length := by
      have hle := lowest_le table
      omega
    rw [heq]
    by_cases h : fd = table.length
    · subst h
      simp
    · by_cases hlt : fd < table.length
      · simp [h, List.getElem?_append_left hlt]
      · rw [List.getElem?_eq_none (by simp; omega), List.getElem?_eq_none (by omega)]
        simp [h]

theorem lookup_set (table : List (Option δ)) (i : Nat) (d : Option δ) (fd : Nat) :
    lookup (table.set i d) fd = if fd = i ∧ i < table.length then d else lookup table fd := by
  unfold lookup
  rw [List.getElem?_set]
  by_cases h : i = fd
  · subst h
    by_cases hlt : i < table.length
    · simp [hlt]
    · simp [hlt]
  · simp [h, Ne.symm h]

theorem lt_length_of_lookup {table : List (Option δ)} {fd : Nat} {d : δ}
    (h : lookup table fd = some d) : fd < table.length := by
  by_contra hge
  rw [lookup, List.getElem?_eq_none (by omega)] at h
  cases h

/-- Clearing an index. -/
theorem lookup_clear (table : List (Option δ)) (i fd : Nat) :
    lookup (table.set i none) fd = if fd = i then none else lookup table fd := by
  rw [lookup_set]
  by_cases h : fd = i
  · subst h
    by_cases hlt : fd < table.length
    · simp [hlt]
    · have hnone : lookup table fd = none := by
        rw [lookup, List.getElem?_eq_none (by omega)]
        rfl
      simp [hlt, hnone]
  · simp [h]

end

/-! ## Calls -/

namespace Kernel

variable {ι β : Type*}

/-- The open file of a descriptor; `none` is a descriptor that no file ever has. -/
def description (k : Kernel ι β) (fd : Option Nat) : Option (Description ι) :=
  fd.bind (lookup k.table)

/-- The bytes of a file, none if it does not exist. -/
def bytes (k : Kernel ι β) (i : ι) : List β := (k.content i).getD []

/-- The descriptors in use. -/
def inUse (k : Kernel ι β) : List Nat :=
  (List.range k.table.length).filter fun fd => (lookup k.table fd).isSome

/-- Set what a descriptor stands for. -/
def assign (k : Kernel ι β) (fd : Option Nat) (d : Option (Description ι)) : Kernel ι β :=
  match fd with
  | none => k
  | some fd => { k with table := k.table.set fd d }

/-- `close`. -/
def close (k : Kernel ι β) (fd : Option Nat) : Kernel ι β := k.assign fd none

/-- `read`. It stops short of what is there if the environment says so, but is only empty at
the end of the file; `valid` says whether there is memory for the bytes. -/
def read (k : Kernel ι β) (fd : Option Nat) (size : Nat) (valid : Bool) :
    Answer → Except Errno (List β) × Kernel ι β
  | .error e => (.error e, k)
  | .count n =>
      match k.description fd with
      | none => (.error ebadf, k)
      | some d =>
          let moved := ((k.bytes d.file).drop d.offset).take (min size (max 1 n))
          if !d.access.readable then (.error ebadf, k)
          else if !valid && !moved.isEmpty then (.error efault, k)
          else (.ok moved, k.assign fd (some { d with offset := d.offset + moved.length }))

variable [DecidableEq ι]

def setContent (k : Kernel ι β) (i : ι) (bytes : List β) : Kernel ι β :=
  { k with content := Function.update k.content i (some bytes) }

/-- `open`, with what it does to the file, but not to the table. -/
def prepare (k : Kernel ι β) (i : ι) (access : Access) (mode : BitVec 32) :
    Option (Kernel ι β) :=
  match k.content i with
  | none =>
      if access.create then
        some { k.setContent i [] with mode := Function.update k.mode i (mode &&& ~~~k.umask) }
      else none
  | some _ => some (if access.truncate && access.writable then k.setContent i [] else k)

/-- `open`, which takes the lowest descriptor that is free. -/
def «open» (k : Kernel ι β) (i : ι) (access : Access) (mode : BitVec 32) :
    Answer → Except Errno Nat × Kernel ι β
  | .error e => (.error e, k)
  | .count _ =>
      match k.prepare i access mode with
      | none => (.error enoent, k)
      | some k' => (.ok (lowest k.table), { k' with table := install k.table ⟨i, access, 0⟩ })

variable [Inhabited β]

/-- Bytes put at an offset; a gap before it is filled. -/
def overwrite (content : List β) (offset : Nat) (bytes : List β) : List β :=
  content.take offset ++ List.replicate (offset - content.length) default ++ bytes ++
    content.drop (offset + bytes.length)

/-- `write`, of as many of the bytes as the environment says. -/
def write (k : Kernel ι β) (fd : Option Nat) (data : List β) :
    Answer → Except Errno Nat × Kernel ι β
  | .error e => (.error e, k)
  | .count n =>
      match k.description fd with
      | none => (.error ebadf, k)
      | some d =>
          if !d.access.writable then (.error ebadf, k)
          else
            let moved := data.take n
            let offset := if d.access.append then (k.bytes d.file).length else d.offset
            (.ok moved.length,
              (k.setContent d.file (overwrite (k.bytes d.file) offset moved)).assign fd
                (some { d with offset := offset + moved.length }))

end Kernel

/-! ## Interrupted calls -/

section

variable {σ ρ : Type*}

/-- Make a call again as long as it is interrupted; `none` if the answers run out. -/
def retry (call : σ → Answer → Except Errno ρ × σ) :
    σ → List Answer → Option (Except Errno ρ × σ × List Answer)
  | _, [] => none
  | s, a :: as =>
      match call s a with
      | (.error e, s) => if e = eintr then retry call s as else some (.error e, s, as)
      | (.ok r, s) => some (.ok r, s, as)

/-- A call that fails has no effect, and one that nothing is in the way of is not interrupted. -/
structure Restartable (call : σ → Answer → Except Errno ρ × σ) : Prop where
  error : ∀ s e, call s (.error e) = (.error e, s)
  count : ∀ s n, (call s (.count n)).1 ≠ .error eintr

/-- The number of calls that are not interrupted. -/
def uninterrupted (as : List Answer) : Nat := as.countP fun a => a != .error eintr

@[simp] theorem uninterrupted_nil : uninterrupted [] = 0 := rfl

variable {call : σ → Answer → Except Errno ρ × σ} {s t : σ} {as rest : List Answer}
  {r : Except Errno ρ}

theorem Restartable.retry_interrupted (h : Restartable call) (s : σ) (as : List Answer) :
    retry call s (.error eintr :: as) = retry call s as := by
  rw [retry, h.error]
  simp

theorem Restartable.retry_of_ne (h : Restartable call) (s : σ) {a : Answer}
    (ha : a ≠ .error eintr) (as : List Answer) :
    retry call s (a :: as) = some ((call s a).1, (call s a).2, as) := by
  cases a with
  | error e =>
      have he : e ≠ eintr := fun heq => ha (heq ▸ rfl)
      simp [retry, h.error, he]
  | count n =>
      have hne := h.count s n
      rw [retry]
      cases hcall : call s (.count n) with
      | mk r t =>
          rw [hcall] at hne
          cases r with
          | ok r => rfl
          | error e =>
              have he : e ≠ eintr := fun heq => hne (heq ▸ rfl)
              simp [he]

/-- What comes back is the answer to the first call that is not interrupted. -/
theorem Restartable.retry_eq_some (h : Restartable call)
    (hretry : retry call s as = some (r, t, rest)) :
    ∃ n a, as = List.replicate n (.error eintr) ++ a :: rest ∧ a ≠ .error eintr ∧
      call s a = (r, t) := by
  induction as with
  | nil => cases hretry
  | cons a as ih =>
      by_cases ha : a = .error eintr
      · subst ha
        rw [h.retry_interrupted] at hretry
        obtain ⟨n, b, rfl, hb, hcall⟩ := ih hretry
        exact ⟨n + 1, b, rfl, hb, hcall⟩
      · rw [h.retry_of_ne s ha] at hretry
        obtain ⟨rfl, rfl, rfl⟩ : (call s a).1 = r ∧ (call s a).2 = t ∧ as = rest := by
          simpa using hretry
        exact ⟨0, a, rfl, ha, rfl⟩

/-- It comes back if not all calls are interrupted. -/
theorem Restartable.exists_retry (h : Restartable call) (s : σ) (has : 0 < uninterrupted as) :
    ∃ r t rest, retry call s as = some (r, t, rest) ∧
      uninterrupted rest + 1 = uninterrupted as ∧ rest.length < as.length := by
  induction as with
  | nil => simp at has
  | cons a as ih =>
      by_cases ha : a = .error eintr
      · subst ha
        have heq : uninterrupted (.error eintr :: as) = uninterrupted as := by simp [uninterrupted]
        rw [heq] at has ⊢
        obtain ⟨r, t, rest, hretry, hcount, hlen⟩ := ih has
        rw [h.retry_interrupted]
        exact ⟨r, t, rest, hretry, hcount, by rw [List.length_cons]; omega⟩
      · rw [h.retry_of_ne s ha]
        exact ⟨_, _, as, rfl, by simp [uninterrupted, ha], by simp⟩

end

namespace Kernel

/-! ## What the calls do -/

section

variable {ι β : Type*} {k : Kernel ι β} {fd fd' : Option Nat} {d : Description ι}

@[simp] theorem assign_content (k : Kernel ι β) (fd : Option Nat) (d : Option (Description ι)) :
    (k.assign fd d).content = k.content := by
  cases fd <;> rfl

@[simp] theorem assign_mode (k : Kernel ι β) (fd : Option Nat) (d : Option (Description ι)) :
    (k.assign fd d).mode = k.mode := by
  cases fd <;> rfl

@[simp] theorem assign_umask (k : Kernel ι β) (fd : Option Nat) (d : Option (Description ι)) :
    (k.assign fd d).umask = k.umask := by
  cases fd <;> rfl

/-- Only the descriptor itself stands for something else. -/
theorem description_assign (h : k.description fd = some d) (d' : Description ι) :
    (k.assign fd (some d')).description fd' =
      if fd' = fd then some d' else k.description fd' := by
  cases fd with
  | none => cases h
  | some n =>
      have hlt : n < k.table.length := lt_length_of_lookup h
      cases fd' with
      | none => rfl
      | some m =>
          have hlookup := lookup_set k.table n (some d') m
          simpa [assign, description, hlt] using hlookup

theorem description_close (k : Kernel ι β) (fd fd' : Option Nat) :
    (k.close fd).description fd' = if fd' = fd then none else k.description fd' := by
  cases fd' with
  | none => simp [description]
  | some m =>
      cases fd with
      | none => simp [close, assign]
      | some n =>
          have hlookup := lookup_clear k.table n m
          simpa [close, assign, description] using hlookup

theorem mem_inUse {n : Nat} : n ∈ k.inUse ↔ k.description (some n) ≠ none := by
  unfold inUse
  rw [List.mem_filter, List.mem_range]
  constructor
  · rintro ⟨-, h⟩
    exact Option.isSome_iff_ne_none.mp h
  · intro h
    obtain ⟨d, hd⟩ := Option.ne_none_iff_exists'.mp h
    exact ⟨lt_length_of_lookup hd, Option.isSome_iff_ne_none.mpr h⟩

/-- The offset does not matter to whether a descriptor is in use. -/
theorem mem_inUse_assign (h : k.description fd = some d) (d' : Description ι) {n : Nat} :
    n ∈ (k.assign fd (some d')).inUse ↔ n ∈ k.inUse := by
  rw [mem_inUse, mem_inUse, description_assign h]
  by_cases hn : some n = fd
  · subst hn
    simp [h]
  · rw [if_neg hn]

theorem mem_inUse_close {n m : Nat} : n ∈ (k.close (some m)).inUse ↔ n ∈ k.inUse ∧ n ≠ m := by
  rw [mem_inUse, mem_inUse, description_close]
  by_cases hn : n = m
  · simp [hn]
  · simp [hn]

theorem read_eq {r : Except Errno (List β)} {k' : Kernel ι β} {size : Nat} {valid : Bool}
    {a : Answer} (h : k.read fd size valid a = (r, k')) :
    (∃ e, r = .error e ∧ k' = k) ∨
      ∃ d n, k.description fd = some d ∧ 0 < n ∧
        r = .ok (((k.bytes d.file).drop d.offset).take (min size n)) ∧
        k' = k.assign fd (some { d with
          offset :=
            d.offset + (((k.bytes d.file).drop d.offset).take (min size n)).length }) := by
  cases a with
  | error e =>
      obtain ⟨rfl, rfl⟩ := Prod.mk.inj h
      exact Or.inl ⟨e, rfl, rfl⟩
  | count n =>
      rw [read] at h
      cases hd : k.description fd with
      | none =>
          rw [hd] at h
          obtain ⟨rfl, rfl⟩ := Prod.mk.inj h
          exact Or.inl ⟨ebadf, rfl, rfl⟩
      | some d =>
          rw [hd] at h
          dsimp only at h
          split at h
          · obtain ⟨rfl, rfl⟩ := Prod.mk.inj h
            exact Or.inl ⟨ebadf, rfl, rfl⟩
          · split at h
            · obtain ⟨rfl, rfl⟩ := Prod.mk.inj h
              exact Or.inl ⟨efault, rfl, rfl⟩
            · obtain ⟨rfl, rfl⟩ := Prod.mk.inj h
              exact Or.inr ⟨d, max 1 n, rfl, by omega, rfl, rfl⟩

theorem read_inUse {r : Except Errno (List β)} {k' : Kernel ι β} {size : Nat} {valid : Bool}
    {a : Answer} (h : k.read fd size valid a = (r, k')) {n : Nat} : n ∈ k'.inUse ↔ n ∈ k.inUse := by
  rcases read_eq h with ⟨e, -, rfl⟩ | ⟨d, m, hd, -, -, rfl⟩
  · rfl
  · exact mem_inUse_assign hd _

theorem read_restartable (fd : Option Nat) (size : Nat) (valid : Bool) :
    Restartable fun (k : Kernel ι β) a => k.read fd size valid a := by
  refine ⟨fun _ _ => rfl, fun k n => ?_⟩
  unfold read
  dsimp only
  split
  · simpa using ebadf_ne_eintr
  · split
    · simpa using ebadf_ne_eintr
    · split
      · simpa using efault_ne_eintr
      · simp

end

section

variable {ι β : Type*} [DecidableEq ι]

@[simp] theorem setContent_self (k : Kernel ι β) (i : ι) (bytes : List β) :
    (k.setContent i bytes).content i = some bytes :=
  Function.update_self ..

theorem setContent_of_ne (k : Kernel ι β) {i j : ι} (h : j ≠ i) (bytes : List β) :
    (k.setContent i bytes).content j = k.content j :=
  Function.update_of_ne h ..

variable [Inhabited β] {k : Kernel ι β} {fd : Option Nat}

theorem write_eq {r : Except Errno Nat} {k' : Kernel ι β} {data : List β} {a : Answer}
    (h : k.write fd data a = (r, k')) :
    (∃ e, r = .error e ∧ k' = k) ∨
      ∃ d n, k.description fd = some d ∧ r = .ok (data.take n).length ∧
        let offset := if d.access.append then (k.bytes d.file).length else d.offset
        k' = (k.setContent d.file (overwrite (k.bytes d.file) offset (data.take n))).assign fd
          (some { d with offset := offset + (data.take n).length }) := by
  cases a with
  | error e =>
      obtain ⟨rfl, rfl⟩ := Prod.mk.inj h
      exact Or.inl ⟨e, rfl, rfl⟩
  | count n =>
      rw [write] at h
      cases hd : k.description fd with
      | none =>
          rw [hd] at h
          obtain ⟨rfl, rfl⟩ := Prod.mk.inj h
          exact Or.inl ⟨ebadf, rfl, rfl⟩
      | some d =>
          rw [hd] at h
          dsimp only at h
          split at h
          · obtain ⟨rfl, rfl⟩ := Prod.mk.inj h
            exact Or.inl ⟨ebadf, rfl, rfl⟩
          · obtain ⟨rfl, rfl⟩ := Prod.mk.inj h
            exact Or.inr ⟨d, n, rfl, rfl, rfl⟩

theorem write_inUse {r : Except Errno Nat} {k' : Kernel ι β} {data : List β} {a : Answer}
    (h : k.write fd data a = (r, k')) {n : Nat} : n ∈ k'.inUse ↔ n ∈ k.inUse := by
  rcases write_eq h with ⟨e, -, rfl⟩ | ⟨d, m, hd, -, rfl⟩
  · rfl
  · exact mem_inUse_assign (k := k.setContent d.file _) hd _

theorem write_restartable (fd : Option Nat) (data : List β) :
    Restartable fun (k : Kernel ι β) a => k.write fd data a := by
  refine ⟨fun _ _ => rfl, fun k n => ?_⟩
  unfold write
  dsimp only
  split
  · simpa using ebadf_ne_eintr
  · split
    · simpa using ebadf_ne_eintr
    · simp

/-- Bytes that go to the end of a file. -/
theorem overwrite_length (content bytes : List β) :
    overwrite content content.length bytes = content ++ bytes := by
  simp [overwrite]

end

end Kernel

end OpenFiles
