import XfUtil.IniFile.Quoted
import XfUtil.StrView.Model

/-!
# What trimming removes

The loops compare signed characters, so that bytes from 0x80 on count as blanks. They
remove more than the blanks just when the first byte above a blank, seen from the end
that is trimmed, is one of these.
-/

namespace XfUtil

open FlatMemory Ascii

/-! ## Blanks -/

/-- A byte that is a blank or below, as a number. -/
def isLow (c : Byte) : Bool := c.toNat ≤ 0x20

theorem isLow_eq_true_iff (c : Byte) : isLow c = true ↔ c.toNat ≤ 0x20 := by
  rw [isLow, decide_eq_true_iff]

theorem isBlank_of_isLow {c : Byte} (h : isLow c = true) : isBlank c = true := by
  rw [IniFile.isBlank_eq_true_iff]
  exact Or.inl ((isLow_eq_true_iff c).mp h)

theorem isLow_eq_false {c : Byte} (h : 0x20 < c.toNat) : isLow c = false := by
  rw [Bool.eq_false_iff, ne_eq, isLow_eq_true_iff]
  omega

/-- A character that is above the blanks is taken for one if it is not ASCII. -/
theorem not_isBlank_iff {c : Byte} (h : isLow c = false) : ¬ isBlank c = true ↔ c.toNat < 0x80 := by
  rw [Bool.eq_false_iff, ne_eq, isLow_eq_true_iff] at h
  rw [IniFile.isBlank_eq_true_iff]
  omega

/-- From the left end the first byte above the blanks is ASCII, if there is one. -/
def LeftAscii (s : Bytes) : Prop := ∀ c ∈ (s.dropWhile isLow).head?, c.toNat < 0x80

/-- From the right end the first byte above the blanks is ASCII, if there is one. -/
def RightAscii (s : Bytes) : Prop := ∀ c ∈ (s.rdropWhile isLow).getLast?, c.toNat < 0x80

/-! ## Strings -/

theorem dropWhile_eq_dropWhile_iff {α : Type*} {p q : α → Bool} (h : ∀ x, q x = true → p x = true)
    (s : List α) :
    s.dropWhile p = s.dropWhile q ↔ ∀ c ∈ (s.dropWhile q).head?, ¬ p c = true := by
  induction s with
  | nil => simp
  | cons x s ih =>
      by_cases hq : q x = true
      · rw [List.dropWhile_cons_of_pos (h x hq), List.dropWhile_cons_of_pos hq, ih]
      · rw [List.dropWhile_cons_of_neg hq]
        by_cases hp : p x = true
        · refine iff_of_false (fun heq => ?_) (by simp [hp])
          have hlength := congrArg List.length heq
          have hle := (List.dropWhile_suffix (l := s) p).length_le
          rw [List.dropWhile_cons_of_pos hp, List.length_cons] at hlength
          omega
        · exact iff_of_true (List.dropWhile_cons_of_neg hp) (by simpa using hp)

theorem head_dropWhile_isLow {s : Bytes} {c : Byte} (h : c ∈ (s.dropWhile isLow).head?) :
    isLow c = false := by
  cases hs : s.dropWhile isLow with
  | nil => simp [hs] at h
  | cons x rest =>
      obtain rfl : x = c := by simpa [hs] using h
      have hne : s.dropWhile isLow ≠ [] := by simp [hs]
      have hhead := List.head_dropWhile_not isLow hne
      simpa [hs] using hhead

theorem trimLeft_eq_iff (s : Bytes) : trimLeft s = s.dropWhile isLow ↔ LeftAscii s := by
  rw [trimLeft, dropWhile_eq_dropWhile_iff fun c => isBlank_of_isLow]
  exact forall_congr' fun c => forall_congr' fun hc => not_isBlank_iff (head_dropWhile_isLow hc)

theorem trimRight_eq_iff (s : Bytes) : trimRight s = s.rdropWhile isLow ↔ RightAscii s := by
  rw [trimRight_eq, List.rdropWhile, List.rdropWhile, List.reverse_inj,
    dropWhile_eq_dropWhile_iff fun c => isBlank_of_isLow, RightAscii, List.rdropWhile,
    List.getLast?_reverse]
  exact forall_congr' fun c => forall_congr' fun hc => not_isBlank_iff (head_dropWhile_isLow hc)

/-! ## Views -/

namespace StrView

/-- The loop counts the blanks that it comes by first. -/
theorem skipLoop_eq (m : Mem) (place : Nat → Nat) (skip rounds : Nat) :
    skipLoop m place skip rounds = skip +
      (((List.range rounds).map fun i => m (place (skip + i))).takeWhile isBlank).length := by
  induction rounds generalizing skip with
  | zero => rfl
  | succ rounds ih =>
      have hrange : (List.range (rounds + 1)).map (fun i => m (place (skip + i))) =
          m (place skip) :: (List.range rounds).map fun i => m (place (skip + 1 + i)) := by
        rw [List.range_succ_eq_map, List.map_cons, List.map_map]
        simp [Function.comp_def, Nat.add_assoc, Nat.add_comm 1]
      rw [skipLoop, hrange, ih]
      by_cases hstop : blank.slt (m (place skip)) = true
      · have hblank : ¬ isBlank (m (place skip)) = true := by
          rw [isBlank, Bool.not_eq_true', Bool.not_eq_false]
          exact hstop
        rw [if_pos hstop, List.takeWhile_cons_of_neg hblank]
        rfl
      · have hblank : isBlank (m (place skip)) = true := by
          rw [isBlank, Bool.not_eq_true', Bool.eq_false_iff]
          exact hstop
        rw [if_neg hstop, List.takeWhile_cons_of_pos hblank, List.length_cons]
        omega

theorem toNat_size_sub {v : StrView} {skip : Nat} (h : skip ≤ v.size.toNat) :
    (v.size - BitVec.ofNat 64 skip).toNat = v.size.toNat - skip := by
  have hlt := v.size.isLt
  rw [BitVec.toNat_sub, BitVec.toNat_ofNat]
  omega

/-- A view is trimmed as the string of its bytes is. -/
theorem bytes_trimLeft (m : Mem) (v : StrView) :
    (v.trimLeft m).bytes m = XfUtil.trimLeft (v.bytes m) := by
  have hplaces : (List.range v.size.toNat).map (fun i => m (v.data + (0 + i))) = v.bytes m := by
    simp only [bytes, read_eq_map, Nat.zero_add]
  have hskip := skipLoop_eq m (fun i => v.data + i) 0 v.size.toNat
  rw [hplaces, Nat.zero_add] at hskip
  have hle : ((v.bytes m).takeWhile isBlank).length ≤ v.size.toNat := by
    have hprefix := (List.takeWhile_prefix isBlank (l := v.bytes m)).length_le
    rwa [bytes, read_length] at hprefix
  have hsplit := read_split m v.data hle
  have hparts := List.takeWhile_append_dropWhile (p := isBlank) (l := v.bytes m)
  have hdrop := (List.append_inj (hparts.trans hsplit) (by rw [read_length])).2
  rw [trimLeft, hskip, bytes, toNat_size_sub hle, XfUtil.trimLeft, hdrop]

theorem bytes_trimRight (m : Mem) (v : StrView) :
    (v.trimRight m).bytes m = XfUtil.trimRight (v.bytes m) := by
  have hplaces : (List.range v.size.toNat).map
      (fun i => m (v.data + v.size.toNat - 1 - (0 + i))) = (v.bytes m).reverse := by
    rw [bytes, read_eq_map, ← List.map_reverse, List.range_eq_range', List.reverse_range',
      List.map_map, List.range_eq_range']
    apply List.map_congr_left
    intro i hi
    have hlt : i < v.size.toNat := by simpa [List.mem_range'] using hi
    simp only [Function.comp_apply]
    congr 1
    omega
  have hskip := skipLoop_eq m (fun i => v.data + v.size.toNat - 1 - i) 0 v.size.toNat
  rw [hplaces, Nat.zero_add] at hskip
  have hle : ((v.bytes m).reverse.takeWhile isBlank).length ≤ v.size.toNat := by
    have hprefix := (List.takeWhile_prefix isBlank (l := (v.bytes m).reverse)).length_le
    rwa [List.length_reverse, bytes, read_length] at hprefix
  rw [trimRight, hskip, bytes, toNat_size_sub hle, XfUtil.trimRight,
    show (v.bytes m).length = v.size.toNat from read_length ..]
  exact (read_take m v.data (Nat.sub_le ..)).symm

end StrView

/-! ## Values without quotes -/

/-- A value without quotes, comment characters and blanks around it. -/
structure Unquoted (s : Bytes) : Prop where
  one_line : newline ∉ s
  no_comment : ∀ c ∈ s, c ≠ semicolon ∧ c ≠ sharp
  head_high : ∀ c ∈ s.head?, 0x20 < c.toNat
  last_high : ∀ c ∈ s.getLast?, 0x20 < c.toNat
  no_quote : ∀ c ∈ s.head?, c ≠ doubleQuote ∧ c ≠ singleQuote

/-- The value is stored for the key as it is written. -/
def StoredAsWritten (key : IniFile.Key) (s : Bytes) : Prop :=
  (IniFileReader.new.parse (some (key.chars ++ equals :: s))).1.lookup [] key.chars = some s

/-- What is stored is the value after `TrimValue`. -/
theorem storedAsWritten_iff (key : IniFile.Key) {s : Bytes} (hs : newline ∉ s) :
    StoredAsWritten key s ↔ IniFileReader.trimValue s = s := by
  have hline : newline ∉ key.chars ++ equals :: s := by
    have hequals : newline ≠ equals := by decide
    simp [key.one_line, hs, hequals]
  have hparse : (IniFileReader.new.parse (some (key.chars ++ equals :: s))).1 =
      IniFileReader.new.apply (.entry key.chars (IniFileReader.trimValue s)) := by
    rw [IniFileReader.parse, IniFile.readLines_one [] hline]
    exact IniFileReader.parseLine_reads (IniFile.reads_pair key s) IniFileReader.new
  have hlookup := (IniFileReader.apply_spec IniFileReader.new
    (.entry key.chars (IniFileReader.trimValue s))).2 [] key.chars
  have hvalue : Headings.value IniFileReader.new.currentName ([] : Bytes) key.chars
      [.entry key.chars (IniFileReader.trimValue s)] = some (IniFileReader.trimValue s) := by
    rw [Headings.value, Headings.value, Option.none_or]
    exact if_pos ⟨rfl, rfl⟩
  rw [StoredAsWritten, hparse, hlookup, hvalue, Option.some_or, Option.some.injEq]

theorem length_trimRight_le (s : Bytes) : (trimRight s).length ≤ s.length := by
  rw [trimRight, List.length_take]
  exact Nat.min_le_right ..

theorem length_substr_le (s : Bytes) (pos n : Nat) : (substr s pos n).length ≤ s.length := by
  rw [substr, List.length_take, List.length_drop]
  omega

/-- A value does not become longer than what is left of it at first. -/
theorem length_trimValue_le (s : Bytes) :
    (IniFileReader.trimValue s).length ≤ (trimLeft s).length := by
  rw [IniFileReader.trimValue]
  split
  · exact Nat.zero_le _
  · rename_i c rest h
    dsimp only
    rw [h]
    split
    · split
      · exact length_substr_le ..
      · exact length_trimRight_le _
    · split
      · split
        · exact length_substr_le ..
        · exact length_trimRight_le _
      · split
        · exact Nat.le_trans (length_trimRight_le _) (length_substr_le ..)
        · exact length_trimRight_le _

/-- An unquoted value that does not begin with a blank is trimmed on the right only. -/
theorem trimValue_unquoted {c : Byte} {rest : Bytes} (h : Unquoted (c :: rest))
    (hblank : isBlank c = false) :
    IniFileReader.trimValue (c :: rest) = trimRight (c :: rest) := by
  have hplain := trimValue_plain AllBlank.nil (c :: rest)
    (by simpa using ⟨hblank, not_or.mpr (h.no_quote c rfl)⟩)
  rw [List.nil_append, findComment_none fun x hx => not_or.mpr (h.no_comment x hx)] at hplain
  exact hplain

theorem trimValue_ne_of_blank {c : Byte} {rest : Bytes} (hblank : isBlank c = true) :
    IniFileReader.trimValue (c :: rest) ≠ c :: rest := by
  intro heq
  have hle := length_trimValue_le (c :: rest)
  have hdrop := (List.dropWhile_suffix (l := rest) isBlank).length_le
  rw [heq, trimLeft, List.dropWhile_cons_of_pos hblank, List.length_cons] at hle
  omega

/-- An unquoted value is only trimmed, and not if it begins and ends with ASCII. -/
theorem trimValue_unquoted_iff {s : Bytes} (h : Unquoted s) :
    IniFileReader.trimValue s = s ↔
      (∀ c ∈ s.head?, c.toNat < 0x80) ∧ ∀ c ∈ s.getLast?, c.toNat < 0x80 := by
  cases s with
  | nil => exact iff_of_true rfl (by simp)
  | cons c rest =>
      have hhead := not_isBlank_iff (isLow_eq_false (h.head_high c rfl))
      by_cases hascii : c.toNat < 0x80
      · have hblank : isBlank c = false := Bool.eq_false_iff.mpr (hhead.mpr hascii)
        rw [trimValue_unquoted h hblank, trimRight_eq_self_iff,
          and_iff_right (by simpa using hascii)]
        exact forall_congr' fun x => forall_congr' fun hx =>
          not_isBlank_iff (isLow_eq_false (h.last_high x hx))
      · have hblank : isBlank c = true := not_not.mp (mt hhead.mp hascii)
        exact iff_of_false (trimValue_ne_of_blank hblank) fun hall => hascii (hall.1 c rfl)

/-! ## All trimming -/

/-- Strings and views lose the blanks at an end and nothing else just when the first byte
above the blanks from that end is ASCII; an unquoted value is stored as it is written just
when its first and its last character are. -/
theorem trimming_exact_iff (s : Bytes) (m : Mem) (v : StrView) (key : IniFile.Key) :
    ((trimLeft s = s.dropWhile isLow ↔ LeftAscii s) ∧
      (trimRight s = s.rdropWhile isLow ↔ RightAscii s)) ∧
    (((v.trimLeft m).bytes m = (v.bytes m).dropWhile isLow ↔ LeftAscii (v.bytes m)) ∧
      ((v.trimRight m).bytes m = (v.bytes m).rdropWhile isLow ↔ RightAscii (v.bytes m))) ∧
    (Unquoted s →
      (StoredAsWritten key s ↔
        (∀ c ∈ s.head?, c.toNat < 0x80) ∧ ∀ c ∈ s.getLast?, c.toNat < 0x80)) := by
  refine ⟨⟨trimLeft_eq_iff s, trimRight_eq_iff s⟩, ?_, fun h => ?_⟩
  · rw [StrView.bytes_trimLeft, StrView.bytes_trimRight]
    exact ⟨trimLeft_eq_iff (v.bytes m), trimRight_eq_iff (v.bytes m)⟩
  · rw [storedAsWritten_iff key h.one_line]
    exact trimValue_unquoted_iff h

def sampleKey : IniFile.Key where
  chars := [0x6B]
  ne_nil := by decide
  one_line := by decide
  no_equals := by decide
  head_visible := by decide
  last_visible := by decide
  head_plain := by decide

/-- An n with a tilde inside a word stays. -/
theorem trimming_exact_word :
    let s : Bytes := [0x61, 0xC3, 0xB1, 0x6F]
    (trimLeft s = s.dropWhile isLow ∧ trimRight s = s.rdropWhile isLow) ∧
      StoredAsWritten sampleKey s :=
  have h := trimming_exact_iff [0x61, 0xC3, 0xB1, 0x6F] (fun _ => 0) ⟨0, 0⟩ sampleKey
  ⟨⟨h.1.1.mpr (by unfold LeftAscii; decide), h.1.2.mpr (by unfold RightAscii; decide)⟩,
    (h.2.2 ⟨by decide, by decide, by decide, by decide, by decide⟩).mpr ⟨by decide, by decide⟩⟩

/-- An e with an acute accent, in UTF-8, is trimmed away on either side, as a string, as a
view and as a value. -/
theorem trimming_takes_letters :
    let s : Bytes := [0xC3, 0xA9]
    trimLeft s = [] ∧ trimRight s = [] ∧ s.dropWhile isLow = s ∧ s.rdropWhile isLow = s ∧
      (let m := write (fun _ => 0) 64 s
       (StrView.trimLeft m ⟨64, 2⟩).bytes m = [] ∧ (StrView.trimRight m ⟨64, 2⟩).bytes m = []) ∧
      Unquoted s ∧ ¬ StoredAsWritten sampleKey s := by
  dsimp only
  refine ⟨by decide, by decide, by decide, by decide, ⟨by decide, by decide⟩,
    ⟨by decide, by decide, by decide, by decide, by decide⟩, ?_⟩
  rw [storedAsWritten_iff sampleKey (by decide)]
  decide

end XfUtil
