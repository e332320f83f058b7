import XfUtil.Base.Format
import XfUtil.Base.Heap

/-!
# `StrCpy`

Both overloads copy a string into a buffer and put a terminator. The first puts it at the
last byte of the buffer, behind the one that was copied; the second puts it over the last
byte that it has copied, wherever that is.
-/

namespace XfUtil

open FlatMemory Format

namespace StrCpy

/-- Memory, and ghost: where it was written. -/
structure Image where
  mem : Mem
  writes : List Region

namespace Image

def put (t : Image) (a : Nat) (bs : List Byte) : Image :=
  ⟨write t.mem a bs, (a, bs.length) :: t.writes⟩

/-- Up to the first `c`, which is included. -/
def through (c : Byte) : List Byte → List Byte
  | [] => []
  | b :: bs => if b = c then [b] else b :: through c bs

/-- `memccpy(dst, src, c, n);` -/
def memccpy (t : Image) (dst src : BitVec 64) (c : Byte) (n : BitVec 64) : Image :=
  t.put dst.toNat (through c (read t.mem src.toNat n.toNat))

/-- `memcpy(dst, src, n);` -/
def memcpy (t : Image) (dst src n : BitVec 64) : Image :=
  t.put dst.toNat (read t.mem src.toNat n.toNat)

/-- `p[i] = '\0';` -/
def terminate (t : Image) (p i : BitVec 64) : Image := t.put (p + i).toNat [0#8]

/-- `StrCpy` of a string that ends at its terminator. -/
def strCpy (t : Image) (dst dstLen src : BitVec 64) : Image :=
  (t.memccpy dst src 0#8 dstLen).terminate dst (dstLen - 1)

/-- `StrCpy` of a string whose length is given. -/
def strCpyLen (t : Image) (dst dstLen src srcLen : BitVec 64) : Image :=
  let minLen := if dstLen < srcLen then dstLen else srcLen
  (t.memcpy dst src minLen).terminate dst (minLen - 1)

theorem strCpyLen_eq {dstLen srcLen n : BitVec 64} (t : Image) (dst src : BitVec 64)
    (h : (if dstLen < srcLen then dstLen else srcLen) = n) :
    t.strCpyLen dst dstLen src srcLen =
      (t.put dst.toNat (read t.mem src.toNat n.toNat)).put (dst + (n - 1)).toNat [0#8] := by
  subst h
  rfl

end Image

open Image

/-- The buffer of `dstLen` bytes holds what it has room for, and nothing else was written. -/
structure Copied (dst dstLen : Nat) (s : List Byte) (t : Image) : Prop where
  text : StringAt t.mem dst (s.take (min s.length (dstLen - 1)))
  inside : ∀ r ∈ t.writes, Region.Within r (dst, dstLen)

/-- A string and a buffer that have no byte in common. -/
structure Given (m : Mem) (dst dstLen src : BitVec 64) (s : List Byte) : Prop where
  source : StringAt m src.toNat s
  source_end : src.toNat + s.length < 2 ^ 64
  room : 1 ≤ dstLen.toNat
  buffer_end : dst.toNat + dstLen.toNat ≤ 2 ^ 64
  apart : Region.Apart (dst.toNat, dstLen.toNat) (src.toNat, s.length + 1)

/-! ## What is copied -/

theorem through_append {c : Byte} {xs : List Byte} (h : c ∉ xs) (ys : List Byte) :
    through c (xs ++ ys) = xs ++ through c ys := by
  induction xs with
  | nil => rfl
  | cons x xs ih =>
      obtain ⟨hx, hxs⟩ := List.ne_and_not_mem_of_not_mem_cons h
      rw [List.cons_append, through, if_neg (Ne.symm hx), ih hxs, List.cons_append]

theorem through_of_not_mem {c : Byte} {xs : List Byte} (h : c ∉ xs) : through c xs = xs := by
  have hnil := through_append h []
  rwa [List.append_nil, through, List.append_nil] at hnil

theorem read_of_le {m : Mem} {a n : Nat} {s : List Byte} (h : StringAt m a s)
    (hn : n ≤ s.length) : read m a n = s.take n := by
  have htake := read_take m a hn
  rw [← htake, h.1]

/-- The terminator is copied as well if the count reaches it. -/
theorem through_read_of_lt {m : Mem} {a n : Nat} {s : List Byte} (h : StringAt m a s)
    (hn : s.length < n) : through 0#8 (read m a n) = s ++ [0#8] := by
  obtain ⟨k, rfl⟩ : ∃ k, n = s.length + (k + 1) := ⟨n - s.length - 1, by omega⟩
  rw [read_add, h.1, through_append h.2.2, FlatMemory.read, h.2.1, through, if_pos rfl]

theorem through_read_of_le {m : Mem} {a n : Nat} {s : List Byte} (h : StringAt m a s)
    (hn : n ≤ s.length) : through 0#8 (read m a n) = s.take n := by
  rw [read_of_le h hn, through_of_not_mem fun hmem => h.2.2 (List.mem_of_mem_take hmem)]

/-! ## The terminator -/

/-- A zero behind the text, or one that was copied with it and a zero further on. -/
theorem stringAt_of_terminate (m : Mem) (a : Nat) {text more : List Byte} {k : Nat}
    (hfree : 0#8 ∉ text) (hk : text.length ≤ k)
    (hend : text.length = k ∨ more.head? = some 0#8) :
    StringAt (write (write m a (text ++ more)) (a + k) [0#8]) a text := by
  obtain ⟨htext, hmore⟩ := read_eq_append (read_write_same m a (text ++ more))
  refine ⟨?_, ?_, hfree⟩
  · rw [read_write_disjoint _ _ (Or.inl (Nat.add_le_add_left hk a)), htext]
  · by_cases heq : text.length = k
    · rw [heq, write_cons, write_nil, store_same]
    · rw [write_outside _ _ (Or.inl (by omega))]
      obtain ⟨rest, rfl⟩ := List.head?_eq_some_iff.mp (hend.resolve_left heq)
      exact (read_eq_cons hmore).1

theorem stringAt_of_take (m : Mem) (a : Nat) {s : List Byte} {k : Nat} (hfree : 0#8 ∉ s)
    (hk : k ≤ s.length) (h0 : 0 < k) :
    StringAt (write (write m a (s.take k)) (a + (k - 1)) [0#8]) a (s.take (k - 1)) := by
  have hsplit : s.take k = s.take (k - 1) ++ (s.take k).drop (k - 1) := by
    have hboth := List.take_append_drop (k - 1) (s.take k)
    rwa [List.take_take, Nat.min_eq_left (Nat.sub_le k 1), eq_comm] at hboth
  have hlen : (s.take (k - 1)).length = k - 1 := List.length_take_of_le (by omega)
  rw [hsplit]
  exact stringAt_of_terminate m a (fun hmem => hfree (List.mem_of_mem_take hmem)) hlen.le
    (Or.inl hlen)

section

variable {m : Mem} {dst dstLen src : BitVec 64} {s : List Byte}

theorem Given.toNat_last (h : Given m dst dstLen src s) {n : BitVec 64} (h0 : 0 < n.toNat)
    (hn : n.toNat ≤ dstLen.toNat) : (dst + (n - 1)).toNat = dst.toNat + (n.toNat - 1) := by
  have hend := h.buffer_end
  have hpred : (n - 1).toNat = n.toNat - 1 :=
    BitVec.toNat_sub_of_le (BitVec.le_def.mpr h0)
  rw [BitVec.toNat_add, hpred, Nat.mod_eq_of_lt (by omega)]

theorem put_inside (m : Mem) (dst : BitVec 64) {dstLen : BitVec 64} {bs : List Byte} {k : Nat}
    (hbs : bs.length ≤ dstLen.toNat) (hk : k < dstLen.toNat) :
    ∀ r ∈ (((Image.mk m []).put dst.toNat bs).put (dst.toNat + k) [0#8]).writes,
      Region.Within r (dst.toNat, dstLen.toNat) := by
  intro r hr
  rcases List.mem_cons.mp hr with rfl | hr
  · exact ⟨Nat.le_add_right _ _, Nat.add_le_add_left hk dst.toNat⟩
  · obtain rfl := List.mem_singleton.mp hr
    exact ⟨le_rfl, Nat.add_le_add_left hbs _⟩

theorem Given.strCpy_copied (h : Given m dst dstLen src s) :
    Copied dst.toNat dstLen.toNat s ((Image.mk m []).strCpy dst dstLen src) := by
  have hroom := h.room
  have hlast := h.toNat_last hroom le_rfl
  unfold strCpy memccpy terminate
  rw [hlast]
  by_cases hlong : dstLen.toNat ≤ s.length
  · rw [through_read_of_le h.source hlong]
    refine ⟨?_, put_inside m dst (by rw [List.length_take]; omega) (by omega)⟩
    rw [Nat.min_eq_right (by omega)]
    exact stringAt_of_take m dst.toNat h.source.2.2 hlong hroom
  · rw [through_read_of_lt h.source (by omega)]
    have hput : (s ++ [0#8]).length ≤ dstLen.toNat := by
      rw [List.length_append, List.length_singleton]
      omega
    refine ⟨?_, put_inside m dst hput (by omega)⟩
    rw [Nat.min_eq_left (by omega), List.take_length]
    exact stringAt_of_terminate m dst.toNat h.source.2.2 (by omega) (Or.inr rfl)

theorem Given.toNat_length (h : Given m dst dstLen src s) :
    (BitVec.ofNat 64 s.length).toNat = s.length := by
  have hend := h.source_end
  rw [BitVec.toNat_ofNat, Nat.mod_eq_of_lt (by omega)]

/-- The buffer is the limit: the terminator goes to its last byte. -/
theorem Given.strCpyLen_copied (h : Given m dst dstLen src s) (hlong : dstLen.toNat ≤ s.length) :
    Copied dst.toNat dstLen.toNat s
      ((Image.mk m []).strCpyLen dst dstLen src (BitVec.ofNat 64 s.length)) := by
  have hroom := h.room
  have hmin : (if dstLen < BitVec.ofNat 64 s.length then dstLen
      else BitVec.ofNat 64 s.length) = dstLen := by
    split
    · rfl
    · rename_i hnot
      apply BitVec.eq_of_toNat_eq
      rw [BitVec.lt_def, h.toNat_length] at hnot
      rw [h.toNat_length]
      omega
  rw [strCpyLen_eq _ dst src hmin, h.toNat_last hroom le_rfl, read_of_le h.source hlong]
  refine ⟨?_, put_inside m dst (by rw [List.length_take]; omega) (by omega)⟩
  rw [Nat.min_eq_right (by omega)]
  exact stringAt_of_take m dst.toNat h.source.2.2 hlong hroom

/-- The index `0 - 1` is that of the byte in front of the buffer. -/
theorem not_within_before (dst dstLen : BitVec 64) :
    ¬ Region.Within ((dst + (0#64 - 1)).toNat, [0#8].length) (dst.toNat, dstLen.toNat) := by
  rintro ⟨hlow, hhigh⟩
  have hpred : (0#64 - 1).toNat = 2 ^ 64 - 1 := by decide
  have hsum : (dst + (0#64 - 1)).toNat = (dst.toNat + (2 ^ 64 - 1)) % 2 ^ 64 := by
    rw [BitVec.toNat_add, hpred]
  rw [List.length_singleton] at hhigh
  rw [hsum] at hlow hhigh
  dsimp only at hlow hhigh
  omega

/-- The string is the limit: its last character goes, or the byte in front of the buffer. -/
theorem Given.not_copied_strCpyLen (h : Given m dst dstLen src s)
    (hshort : s.length < dstLen.toNat) :
    ¬ Copied dst.toNat dstLen.toNat s
      ((Image.mk m []).strCpyLen dst dstLen src (BitVec.ofNat 64 s.length)) := by
  intro hcopied
  have hlen := h.toNat_length
  have hmin : ¬ dstLen < BitVec.ofNat 64 s.length := by
    rw [BitVec.lt_def, hlen]
    omega
  rw [strCpyLen_eq _ dst src (if_neg hmin), hlen, read_of_le h.source le_rfl,
    List.take_length] at hcopied
  by_cases hempty : s.length = 0
  · rw [hempty] at hcopied
    exact not_within_before dst dstLen (hcopied.inside _ List.mem_cons_self)
  · have hlast := h.toNat_last (n := BitVec.ofNat 64 s.length) (by omega) (by omega)
    have hcut := stringAt_of_take m dst.toNat h.source.2.2 le_rfl (Nat.pos_of_ne_zero hempty)
    have htext := hcopied.text
    rw [hlast, hlen, Nat.min_eq_left (by omega), List.take_length] at htext
    rw [List.take_length] at hcut
    have heq := congrArg List.length (htext.unique hcut)
    rw [List.length_take] at heq
    omega

/-- Both overloads leave what the buffer has room for exactly when the string is at least as
long as the buffer. -/
theorem both_copied_iff (h : Given m dst dstLen src s) :
    (Copied dst.toNat dstLen.toNat s ((Image.mk m []).strCpy dst dstLen src) ∧
        Copied dst.toNat dstLen.toNat s
          ((Image.mk m []).strCpyLen dst dstLen src (BitVec.ofNat 64 s.length))) ↔
      dstLen.toNat ≤ s.length := by
  constructor
  · intro hboth
    by_contra hlt
    exact h.not_copied_strCpyLen (Nat.lt_of_not_le hlt) hboth.2
  · exact fun hlong => ⟨h.strCpy_copied, h.strCpyLen_copied hlong⟩

end

/-- Five characters at 64, where a buffer stands at 16. -/
def fiveAt64 : Mem := write (fun _ => 9#8) 64 [104#8, 101#8, 108#8, 108#8, 111#8, 0#8]

theorem given_fiveAt64 (dstLen : BitVec 64) (h : 1 ≤ dstLen.toNat) (h' : dstLen.toNat ≤ 32) :
    Given fiveAt64 16 dstLen 64 [104#8, 101#8, 108#8, 108#8, 111#8] := by
  refine ⟨⟨by decide, by decide, by decide⟩, by decide, h, ?_, ?_⟩
  · have h16 : (16 : BitVec 64).toNat = 16 := rfl
    omega
  · left
    have h16 : (16 : BitVec 64).toNat = 16 := rfl
    have h64 : (64 : BitVec 64).toNat = 64 := rfl
    dsimp only
    omega

theorem both_copied_iff_sample :
    (Copied 16 4 [104#8, 101#8, 108#8, 108#8, 111#8] ((Image.mk fiveAt64 []).strCpy 16 4 64) ∧
        Copied 16 4 [104#8, 101#8, 108#8, 108#8, 111#8]
          ((Image.mk fiveAt64 []).strCpyLen 16 4 64 5)) ↔ 4 ≤ 5 :=
  both_copied_iff (given_fiveAt64 4 (by decide) (by decide))

/-- Eight bytes are room for all five; the second overload leaves four. -/
theorem strCpyLen_cuts :
    ¬ ∀ (m : Mem) (dst dstLen src : BitVec 64) (s : List Byte), Given m dst dstLen src s →
      Copied dst.toNat dstLen.toNat s ((Image.mk m []).strCpy dst dstLen src) ∧
        Copied dst.toNat dstLen.toNat s
          ((Image.mk m []).strCpyLen dst dstLen src (BitVec.ofNat 64 s.length)) := by
  intro hall
  have hboth := hall fiveAt64 16 8 64 _ (given_fiveAt64 8 (by decide) (by decide))
  have htext : FlatMemory.read _ 16 5 = [104#8, 101#8, 108#8, 108#8] ++ [111#8] :=
    hboth.2.text.1
  have hlast := (read_eq_append htext).2
  exact absurd hlast (by decide)

end StrCpy

end XfUtil
