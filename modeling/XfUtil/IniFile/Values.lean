import Mathlib.Data.List.DropRight
import Mathlib.Data.List.TakeWhile
import XfUtil.IniFile.Model

/-!
# What a value is

`Trims` says what `TrimValue` leaves of the text behind an equals sign, without the code: the
characters between quotes, or else those before a comment, and no blanks around them.
-/

namespace XfUtil

open FlatMemory Ascii

/-! ## Strings -/

def AllBlank (s : Bytes) : Prop := ∀ c ∈ s, isBlank c = true

theorem AllBlank.nil : AllBlank [] := by
  intro c hc
  cases hc

theorem AllBlank.append {s t : Bytes} (hs : AllBlank s) (ht : AllBlank t) : AllBlank (s ++ t) :=
  fun c hc => (List.mem_append.mp hc).elim (hs c) (ht c)

theorem AllBlank.not_mem {sp : Bytes} (hsp : AllBlank sp) {c : Byte} (hc : isBlank c = false) :
    c ∉ sp := by
  intro hmem
  rw [hsp c hmem] at hc
  cases hc

theorem trimLeft_append {sp rest : Bytes} (hsp : AllBlank sp)
    (hrest : ∀ c ∈ rest.head?, isBlank c = false) : trimLeft (sp ++ rest) = rest := by
  have hstop : rest.dropWhile isBlank = rest := by
    cases rest with
    | nil => rfl
    | cons c rest => rw [List.dropWhile_cons_of_neg (by simp [hrest c rfl])]
  rw [trimLeft, List.dropWhile_append_of_pos hsp, hstop]

theorem trimLeft_cons {sp : Bytes} {c : Byte} (hsp : AllBlank sp) (hc : isBlank c = false)
    (rest : Bytes) : trimLeft (sp ++ c :: rest) = c :: rest :=
  trimLeft_append hsp (by simpa using hc)

theorem trimRight_eq (s : Bytes) : trimRight s = s.rdropWhile isBlank := by
  have hsplit := List.rdropWhile_append_rtakeWhile (p := isBlank) (l := s)
  have hlength := congrArg List.length hsplit
  have htake : (s.rtakeWhile isBlank).length = (s.reverse.takeWhile isBlank).length := by
    rw [List.rtakeWhile, List.length_reverse]
  rw [List.length_append, htake] at hlength
  rw [trimRight, ← hlength, Nat.add_sub_cancel]
  exact (List.prefix_iff_eq_take.mp (List.rdropWhile_prefix isBlank s)).symm

theorem trimRight_eq_self_iff (s : Bytes) :
    trimRight s = s ↔ ∀ c ∈ s.getLast?, ¬ isBlank c = true := by
  rw [trimRight_eq, List.rdropWhile_eq_self_iff]
  cases s with
  | nil => simp
  | cons c rest =>
      rw [List.getLast?_eq_some_getLast (List.cons_ne_nil c rest)]
      simp

/-- A line is blanks and then what `TrimLeft` leaves. -/
theorem trimLeft_split (line : Bytes) : ∃ sp, AllBlank sp ∧ line = sp ++ trimLeft line ∧
    ∀ c ∈ (trimLeft line).head?, isBlank c = false := by
  refine ⟨line.takeWhile isBlank, ?_, (List.takeWhile_append_dropWhile ..).symm, ?_⟩
  · intro c hc
    exact List.mem_takeWhile_imp hc
  · intro c hc
    cases h : trimLeft line with
    | nil => simp [h] at hc
    | cons a rest =>
        obtain rfl : a = c := by simpa [h] using hc
        have hne : line.dropWhile isBlank ≠ [] := by
          rw [show line.dropWhile isBlank = a :: rest from h]
          simp
        have hhead := List.head_dropWhile_not isBlank hne
        simpa [show line.dropWhile isBlank = a :: rest from h] using hhead

theorem find_append {s rest : Bytes} {c : Byte} (hs : c ∉ s) :
    findFrom (s ++ c :: rest) c 0 = some s.length := by
  induction s with
  | nil => simp [findFrom, List.findIdx?_cons]
  | cons x s ih =>
      obtain ⟨hx, hs⟩ : x ≠ c ∧ c ∉ s := by
        simpa [eq_comm] using hs
      have ih := ih hs
      simp only [findFrom, List.drop_zero, Nat.zero_add, Option.map_id'] at ih ⊢
      simp [List.findIdx?_cons, hx, ih]

theorem find_none {s : Bytes} {c : Byte} (hs : c ∉ s) : findFrom s c 0 = none := by
  have hnone : s.findIdx? (fun x => decide (x = c)) = none := by
    rw [List.findIdx?_eq_none_iff]
    intro x hx
    simp only [decide_eq_false_iff_not]
    rintro rfl
    exact hs hx
  simp [findFrom, hnone]

/-- A string contains a byte at the end of a part without it, or not at all. -/
theorem split_at (s : Bytes) (c : Byte) :
    c ∉ s ∨ ∃ pre post, s = pre ++ c :: post ∧ c ∉ pre := by
  induction s with
  | nil => exact Or.inl List.not_mem_nil
  | cons x s ih =>
      by_cases hx : x = c
      · exact Or.inr ⟨[], s, by rw [hx, List.nil_append], List.not_mem_nil⟩
      · rcases ih with hs | ⟨pre, post, rfl, hpre⟩
        · exact Or.inl (by simp [hs, Ne.symm hx])
        · exact Or.inr ⟨x :: pre, post, rfl, by simp [hpre, Ne.symm hx]⟩

theorem findFrom_cons (c' : Byte) (s : Bytes) (c : Byte) :
    findFrom (c' :: s) c 1 = (findFrom s c 0).map (· + 1) := by
  simp only [findFrom, List.drop_succ_cons, List.drop_zero, Option.map_map]
  congr 1
  funext i
  simp [Nat.add_comm 1]

theorem trimRight_append {chars sp : Bytes} (hsp : AllBlank sp)
    (hlast : ∀ c ∈ chars.getLast?, isBlank c = false) : trimRight (chars ++ sp) = chars := by
  have hself : trimRight chars = chars :=
    (trimRight_eq_self_iff chars).mpr fun c hc => Bool.eq_false_iff.mp (hlast c hc)
  have hreverse : ∀ c ∈ sp.reverse, isBlank c = true := fun c hc => hsp c (List.mem_reverse.mp hc)
  rw [trimRight_eq, List.rdropWhile, List.reverse_append, List.dropWhile_append_of_pos hreverse,
    ← List.rdropWhile, ← trimRight_eq, hself]

/-- A string is what `TrimRight` leaves and then blanks. -/
theorem trimRight_split (s : Bytes) : ∃ sp, AllBlank sp ∧ s = trimRight s ++ sp ∧
    ∀ c ∈ (trimRight s).getLast?, isBlank c = false := by
  refine ⟨s.rtakeWhile isBlank, fun c hc => List.mem_rtakeWhile_imp hc, ?_, fun c hc => ?_⟩
  · rw [trimRight_eq, List.rdropWhile_append_rtakeWhile]
  · have hself : trimRight (trimRight s) = trimRight s := by
      rw [trimRight_eq, trimRight_eq, List.rdropWhile_idempotent]
    exact Bool.eq_false_iff.mpr ((trimRight_eq_self_iff _).mp hself c hc)

/-- What begins with a character ends with one, and then blanks. -/
theorem split_last {c : Byte} (hc : isBlank c = false) (s : Bytes) : ∃ chars sp, AllBlank sp ∧
    s = chars ++ sp ∧ ∀ x ∈ (c :: chars).getLast?, isBlank x = false := by
  obtain ⟨sp, hsp, hsplit, hlast⟩ := trimRight_split (c :: s)
  cases hs : trimRight (c :: s) with
  | nil =>
      rw [hs, List.nil_append] at hsplit
      exact absurd (hsplit ▸ List.mem_cons_self) (hsp.not_mem hc)
  | cons x chars =>
      rw [hs] at hsplit hlast
      obtain ⟨rfl, rfl⟩ := List.cons.inj hsplit
      exact ⟨chars, sp, hsp, rfl, hlast⟩

/-! ## Values -/

def IsQuote (c : Byte) : Prop := c = doubleQuote ∨ c = singleQuote

def IsComment (c : Byte) : Prop := c = semicolon ∨ c = sharp

/-- What a value is: the characters between quotes, or those before a comment; a quote that is
not closed is a character like others. Outside quotes the blanks at both ends do not belong to
the value. -/
inductive Trims : Bytes → Bytes → Prop where
  | quoted {sp chars rest : Bytes} {q : Byte} (hsp : AllBlank sp) (hq : IsQuote q)
      (hchars : q ∉ chars) : Trims (sp ++ q :: (chars ++ q :: rest)) chars
  | openQuote {sp chars sp' : Bytes} {q : Byte} (hsp : AllBlank sp) (hq : IsQuote q)
      (hchars : q ∉ chars) (hlast : ∀ c ∈ (q :: chars).getLast?, isBlank c = false)
      (hsp' : AllBlank sp') : Trims (sp ++ (q :: chars ++ sp')) (q :: chars)
  | plain {sp chars sp' : Bytes} (hsp : AllBlank sp) (hchars : ∀ c ∈ chars, ¬ IsComment c)
      (hhead : ∀ c ∈ chars.head?, isBlank c = false ∧ ¬ IsQuote c)
      (hlast : ∀ c ∈ chars.getLast?, isBlank c = false) (hsp' : AllBlank sp') :
      Trims (sp ++ (chars ++ sp')) chars
  | commented {sp chars sp' rest : Bytes} {c : Byte} (hsp : AllBlank sp)
      (hchars : ∀ c ∈ chars, ¬ IsComment c)
      (hhead : ∀ c ∈ chars.head?, isBlank c = false ∧ ¬ IsQuote c)
      (hlast : ∀ c ∈ chars.getLast?, isBlank c = false) (hsp' : AllBlank sp') (hc : IsComment c) :
      Trims (sp ++ (chars ++ sp' ++ c :: rest)) chars

theorem IsQuote.not_blank {c : Byte} (h : IsQuote c) : isBlank c = false := by
  rcases h with rfl | rfl
  · decide
  · decide

theorem IsComment.not_blank {c : Byte} (h : IsComment c) : isBlank c = false := by
  rcases h with rfl | rfl
  · decide
  · decide

theorem IsComment.not_quote {c : Byte} (h : IsComment c) : ¬ IsQuote c := by
  unfold IsQuote
  rcases h with rfl | rfl
  · decide
  · decide

theorem AllBlank.free_append {chars sp : Bytes} (hsp : AllBlank sp)
    (hchars : ∀ x ∈ chars, ¬ IsComment x) : ∀ x ∈ chars ++ sp, ¬ IsComment x := by
  intro x hx hcomment
  rcases List.mem_append.mp hx with hx | hx
  · exact hchars x hx hcomment
  · exact hsp.not_mem hcomment.not_blank hx

theorem findComment_append {s rest : Bytes} {c : Byte} (hs : ∀ x ∈ s, ¬ IsComment x)
    (hc : IsComment c) : findComment (s ++ c :: rest) = some s.length := by
  have hskip : s.findIdx? (fun x => decide (x = semicolon ∨ x = sharp)) = none :=
    List.findIdx?_eq_none_iff.mpr fun x hx => decide_eq_false (hs x hx)
  have hfound : decide (c = semicolon ∨ c = sharp) = true := decide_eq_true hc
  rw [findComment, List.findIdx?_append, hskip, List.findIdx?_cons, hfound]
  simp

theorem findComment_none {s : Bytes} (hs : ∀ x ∈ s, ¬ IsComment x) : findComment s = none :=
  List.findIdx?_eq_none_iff.mpr fun x hx => decide_eq_false (hs x hx)

/-- A string has a first comment character, or none. -/
theorem split_at_comment (s : Bytes) : (∀ x ∈ s, ¬ IsComment x) ∨
    ∃ pre c post, s = pre ++ c :: post ∧ IsComment c ∧ ∀ x ∈ pre, ¬ IsComment x := by
  cases h : s.find? fun x => decide (x = semicolon ∨ x = sharp) with
  | none => exact Or.inl fun x hx => by simpa [IsComment] using List.find?_eq_none.mp h x hx
  | some c =>
      obtain ⟨hc, pre, post, hs, hpre⟩ := List.find?_eq_some_iff_append.mp h
      refine Or.inr ⟨pre, c, post, hs, by simpa [IsComment] using hc, fun x hx => ?_⟩
      simpa [IsComment] using hpre x hx

/-- `TrimValue` of what begins with a quote. -/
theorem trimValue_quote {sp rest : Bytes} {q : Byte} (hsp : AllBlank sp) (hq : IsQuote q) :
    IniFileReader.trimValue (sp ++ q :: rest) =
      match findFrom (q :: rest) q 1 with
      | some pos => substr (q :: rest) 1 (pos - 1)
      | none => trimRight (q :: rest) := by
  rw [IniFileReader.trimValue, trimLeft_cons hsp hq.not_blank]
  rcases hq with rfl | rfl
  · rfl
  · rfl

/-- `TrimValue` of what does not. -/
theorem trimValue_plain {sp : Bytes} (hsp : AllBlank sp) (rest : Bytes)
    (hhead : ∀ c ∈ rest.head?, isBlank c = false ∧ ¬ IsQuote c) :
    IniFileReader.trimValue (sp ++ rest) =
      match findComment rest with
      | some pos => trimRight (substr rest 0 pos)
      | none => trimRight rest := by
  rw [IniFileReader.trimValue, trimLeft_append hsp fun c hc => (hhead c hc).1]
  cases rest with
  | nil => rfl
  | cons c rest =>
      obtain ⟨hdouble, hsingle⟩ := not_or.mp (hhead c rfl).2
      exact (if_neg hdouble).trans (if_neg hsingle)

theorem trimValue_blank {s : Bytes} (hs : AllBlank s) : IniFileReader.trimValue s = [] := by
  have htrim : trimLeft (s ++ []) = [] := trimLeft_append hs (by simp)
  rw [List.append_nil] at htrim
  rw [IniFileReader.trimValue, htrim]

theorem Trims.trimValue_eq {s v : Bytes} (h : Trims s v) : IniFileReader.trimValue s = v := by
  cases h with
  | @quoted sp _ rest q hsp hq hchars =>
      rw [trimValue_quote hsp hq, findFrom_cons, find_append hchars]
      simp [substr]
  | @openQuote sp chars sp' q hsp hq hchars hlast hsp' =>
      have hnone : findFrom (chars ++ sp') q 0 = none := by
        refine find_none fun hmem => ?_
        exact (List.mem_append.mp hmem).elim hchars (hsp'.not_mem hq.not_blank)
      rw [List.cons_append, trimValue_quote hsp hq, findFrom_cons, hnone]
      exact trimRight_append hsp' hlast
  | @plain sp _ sp' hsp hchars hhead hlast hsp' =>
      have hfree : ∀ x ∈ v ++ sp', ¬ IsComment x := hsp'.free_append hchars
      cases v with
      | nil => exact trimValue_blank (hsp.append hsp')
      | cons x chars =>
          rw [trimValue_plain hsp (x :: chars ++ sp') hhead, findComment_none hfree]
          exact trimRight_append hsp' hlast
  | @commented sp _ sp' rest c hsp hchars hhead hlast hsp' hc =>
      have hfree : ∀ x ∈ v ++ sp', ¬ IsComment x := hsp'.free_append hchars
      cases v with
      | nil =>
          rw [List.nil_append, ← List.append_assoc,
            trimValue_plain (hsp.append hsp') (c :: rest)
              (by simpa using ⟨hc.not_blank, hc.not_quote⟩)]
          have hfound : findComment (c :: rest) = some 0 := findComment_append hchars hc
          rw [hfound]
          rfl
      | cons x chars =>
          rw [trimValue_plain hsp (x :: chars ++ sp' ++ c :: rest) hhead,
            findComment_append hfree hc]
          dsimp only
          rw [substr, List.drop_zero, List.take_left]
          exact trimRight_append hsp' hlast

/-- Every value is something. -/
theorem trims_exists (s : Bytes) : ∃ v, Trims s v := by
  obtain ⟨sp, hsp, hs, hhead⟩ := trimLeft_split s
  rw [hs]
  generalize trimLeft s = rest at hhead ⊢
  cases rest with
  | nil =>
      have hempty : Trims (sp ++ ([] ++ [])) [] :=
        .plain hsp (by simp) (by simp) (by simp) AllBlank.nil
      exact ⟨[], hempty⟩
  | cons c rest =>
      have hc : isBlank c = false := hhead c rfl
      by_cases hq : IsQuote c
      · rcases split_at rest c with hopen | ⟨chars, post, rfl, hchars⟩
        · obtain ⟨chars, sp', hsp', rfl, hlast⟩ := split_last hc rest
          have hchars : c ∉ chars := fun hmem => hopen (List.mem_append_left sp' hmem)
          exact ⟨c :: chars, .openQuote hsp hq hchars hlast hsp'⟩
        · exact ⟨chars, .quoted hsp hq hchars⟩
      · rcases split_at_comment (c :: rest) with hfree | ⟨pre, d, post, hsplit, hd, hpre⟩
        · obtain ⟨chars, sp', hsp', rfl, hlast⟩ := split_last hc rest
          have hchars : ∀ x ∈ c :: chars, ¬ IsComment x := fun x hx =>
            hfree x (List.mem_append_left sp' hx)
          exact ⟨c :: chars, .plain hsp hchars (by simpa using ⟨hc, hq⟩) hlast hsp'⟩
        · rw [hsplit]
          cases pre with
          | nil =>
              have hempty : Trims (sp ++ ([] ++ [] ++ d :: post)) [] :=
                .commented hsp (by simp) (by simp) (by simp) AllBlank.nil hd
              exact ⟨[], hempty⟩
          | cons x pre =>
              obtain ⟨rfl, -⟩ := List.cons.inj hsplit
              obtain ⟨chars, sp', hsp', rfl, hlast⟩ := split_last hc pre
              have hchars : ∀ x ∈ c :: chars, ¬ IsComment x := fun x hx =>
                hpre x (List.mem_append_left sp' hx)
              exact ⟨c :: chars,
                .commented hsp hchars (by simpa using ⟨hc, hq⟩) hlast hsp' hd⟩

/-- `TrimValue` leaves the value. -/
theorem trims_iff {s v : Bytes} : Trims s v ↔ IniFileReader.trimValue s = v := by
  constructor
  · exact Trims.trimValue_eq
  · rintro rfl
    obtain ⟨v, hv⟩ := trims_exists s
    rwa [hv.trimValue_eq]

end XfUtil
