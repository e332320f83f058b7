import Mathlib.Data.List.Basic

/-!
# Flat byte memory

Memory is a total map from addresses to bytes. Encoders write a list of bytes
at a cursor, decoders read windows; the frame lemma below says that a window
that the written range does not meet reads as before.
-/

namespace FlatMemory

abbrev Byte := BitVec 8

abbrev Mem := Nat → Byte

/-- Store one byte. -/
def store (m : Mem) (a : Nat) (b : Byte) : Mem := fun x => if x = a then b else m x

/-- Store consecutive bytes from address `a` on. -/
def write (m : Mem) (a : Nat) : List Byte → Mem
  | [] => m
  | b :: bs => write (store m a b) (a + 1) bs

/-- The `n` bytes from address `a` on. -/
def read (m : Mem) (a : Nat) : Nat → List Byte
  | 0 => []
  | n + 1 => m a :: read m (a + 1) n

@[simp] theorem store_same (m : Mem) (a : Nat) (b : Byte) : store m a b a = b := by
  simp [store]

theorem store_other (m : Mem) {a x : Nat} (b : Byte) (h : x ≠ a) : store m a b x = m x := by
  simp [store, h]

@[simp] theorem write_nil (m : Mem) (a : Nat) : write m a [] = m := rfl

@[simp] theorem write_cons (m : Mem) (a : Nat) (b : Byte) (bs : List Byte) :
    write m a (b :: bs) = write (store m a b) (a + 1) bs := rfl

theorem write_append (m : Mem) (a : Nat) (xs ys : List Byte) :
    write m a (xs ++ ys) = write (write m a xs) (a + xs.length) ys := by
  induction xs generalizing m a with
  | nil => simp
  | cons x xs ih => simp [ih, Nat.add_assoc, Nat.add_comm 1]

theorem write_outside (m : Mem) (bs : List Byte) {a x : Nat}
    (h : x < a ∨ a + bs.length ≤ x) : write m a bs x = m x := by
  induction bs generalizing m a with
  | nil => rfl
  | cons b bs ih =>
      simp only [List.length_cons] at h
      rw [write_cons, ih (store m a b) (by omega), store_other m b (by omega)]

@[simp] theorem read_zero (m : Mem) (a : Nat) : read m a 0 = [] := rfl

@[simp] theorem read_length (m : Mem) (a n : Nat) : (read m a n).length = n := by
  induction n generalizing a with
  | zero => rfl
  | succ n ih => simp [read, ih]

theorem read_eq_map (m : Mem) (a n : Nat) :
    read m a n = (List.range n).map fun i => m (a + i) := by
  induction n generalizing a with
  | zero => rfl
  | succ n ih =>
      rw [read, ih, List.range_succ_eq_map, List.map_cons, List.map_map]
      simp [Function.comp_def, Nat.add_assoc, Nat.add_comm 1]

theorem read_add (m : Mem) (a n k : Nat) : read m a (n + k) = read m a n ++ read m (a + n) k := by
  induction n generalizing a with
  | zero => simp
  | succ n ih =>
      rw [show n + 1 + k = n + k + 1 by omega]
      simp [read, ih, Nat.add_assoc, Nat.add_comm 1]

theorem read_split (m : Mem) (a : Nat) {k n : Nat} (h : k ≤ n) :
    read m a n = read m a k ++ read m (a + k) (n - k) := by
  rw [← read_add, Nat.add_sub_cancel' h]

theorem read_take (m : Mem) (a : Nat) {k n : Nat} (h : k ≤ n) :
    (read m a n).take k = read m a k := by
  rw [read_split m a h, List.take_left' (read_length m a k)]

theorem read_congr {m m' : Mem} {a n : Nat} (h : ∀ x, a ≤ x → x < a + n → m x = m' x) :
    read m a n = read m' a n := by
  induction n generalizing a with
  | zero => rfl
  | succ n ih =>
      simp only [read]
      rw [h a (by omega) (by omega), ih fun x hx hx' => h x (by omega) (by omega)]

theorem read_write_same (m : Mem) (a : Nat) (bs : List Byte) :
    read (write m a bs) a bs.length = bs := by
  induction bs generalizing m a with
  | nil => rfl
  | cons b bs ih =>
      simp only [List.length_cons, read, write_cons, ih]
      rw [write_outside _ bs (Or.inl (Nat.lt_succ_self a)), store_same]

/-- The frame rule: a write does not change a window it does not meet. -/
theorem read_write_disjoint (m : Mem) (bs : List Byte) {a b n : Nat}
    (h : b + n ≤ a ∨ a + bs.length ≤ b) : read (write m a bs) b n = read m b n :=
  read_congr fun x hx hx' => write_outside m bs (by omega)

/-- A window split by its contents: the byte lists found are found in place. -/
theorem read_eq_append {m : Mem} {a n : Nat} {xs ys : List Byte} (h : read m a n = xs ++ ys) :
    read m a xs.length = xs ∧ read m (a + xs.length) ys.length = ys := by
  have hn : n = xs.length + ys.length := by
    have := congrArg List.length h
    simpa using this
  subst hn
  rw [read_add] at h
  exact List.append_inj h (by simp)

theorem read_eq_cons {m : Mem} {a n : Nat} {x : Byte} {xs : List Byte}
    (h : read m a n = x :: xs) : m a = x ∧ read m (a + 1) xs.length = xs := by
  cases n with
  | zero => simp at h
  | succ n =>
      simp only [read, List.cons.injEq] at h
      have hn : n = xs.length := by rw [← h.2, read_length]
      exact ⟨h.1, hn ▸ h.2⟩

/-! ## Disjoint windows -/

/-- The half-open windows `[a, a + n)` and `[b, b + k)` have no address in common. -/
def Apart (a n b k : Nat) : Prop := a + n ≤ b ∨ b + k ≤ a

theorem Apart.symm {a n b k : Nat} (h : Apart a n b k) : Apart b k a n := Or.symm h

instance (n : Nat) : Std.Symm fun a b => Apart a n b n := ⟨fun _ _ h => h.symm⟩

theorem Apart.mono {a n b k a' n' b' k' : Nat} (h : Apart a n b k) (ha : a ≤ a')
    (hn : a' + n' ≤ a + n) (hb : b ≤ b') (hk : b' + k' ≤ b + k) : Apart a' n' b' k' := by
  unfold Apart at *
  omega

theorem Apart.ne {a b n : Nat} (h : Apart a n b n) (hn : 0 < n) : a ≠ b := by
  unfold Apart at h
  omega

instance (a n b k : Nat) : Decidable (Apart a n b k) :=
  inferInstanceAs (Decidable (_ ∨ _))

end FlatMemory
