import XfUtil.IniFile.Lookup

/-!
# Quoted text

A file with headers and with quoted values is rendered line by line and parsed again.
Blanks, comments and further equals signs within the quotes stay where they are.
-/

namespace XfUtil

open FlatMemory Ascii Headings

namespace IniFile

/-! ## Files -/

inductive Quote where
  | single
  | double
deriving DecidableEq, Repr

def Quote.byte : Quote → Byte
  | .single => singleQuote
  | .double => doubleQuote

/-- A character that a key may begin and end with. -/
def Visible (c : Byte) : Prop := 0x21 ≤ c.toNat ∧ c.toNat ≤ 0x7E

instance (c : Byte) : Decidable (Visible c) := inferInstanceAs (Decidable (_ ∧ _))

structure Key where
  chars : Bytes
  ne_nil : chars ≠ []
  one_line : newline ∉ chars
  no_equals : equals ∉ chars
  head_visible : ∀ c ∈ chars.head?, Visible c
  last_visible : ∀ c ∈ chars.getLast?, Visible c
  head_plain : ∀ c ∈ chars.head?, c ≠ sharp ∧ c ≠ semicolon ∧ c ≠ openBracket

/-- A text that does not contain the quote chosen for it. -/
structure Quoted where
  chars : Bytes
  quote : Quote
  one_line : newline ∉ chars
  no_quote : quote.byte ∉ chars

structure Section where
  name : Bytes
  one_line : newline ∉ name
  no_bracket : closeBracket ∉ name
  entries : List (Key × Quoted)

namespace Section

def header (s : Section) : Bytes := openBracket :: (s.name ++ [closeBracket])

def line (e : Key × Quoted) : Bytes :=
  e.1.chars ++ equals :: e.2.quote.byte :: (e.2.chars ++ [e.2.quote.byte])

def lines (s : Section) : List Bytes := s.header :: s.entries.map line

end Section

/-- The lines of all sections, each with a newline behind it. -/
def render (sections : List Section) : Bytes :=
  (sections.flatMap Section.lines).flatMap fun l => l ++ [newline]

/-! ## The last value -/

/-- The values rendered for a key of a section, in their order. -/
def rendered (sections : List Section) (name key : Bytes) : List Bytes :=
  ((sections.filter fun s => s.name = name).flatMap fun s =>
    s.entries.filter fun e => e.1.chars = key).map fun e => e.2.chars

/-! ## Strings -/

theorem isBlank_eq_true_iff (c : Byte) : isBlank c = true ↔ c.toNat ≤ 0x20 ∨ 0x80 ≤ c.toNat := by
  have hspace : space.toInt = 32 := by decide
  have hlt := c.isLt
  rw [isBlank, Bool.not_eq_true', Bool.eq_false_iff, ne_eq, BitVec.slt_iff_toInt_lt, hspace,
    BitVec.toInt_eq_toNat_cond]
  split
  · omega
  · omega

theorem Visible.not_blank {c : Byte} (h : Visible c) : isBlank c = false := by
  rw [Bool.eq_false_iff, ne_eq, isBlank_eq_true_iff]
  unfold Visible at h
  omega

theorem Quote.isQuote (q : Quote) : IsQuote q.byte := by
  cases q with
  | single => exact Or.inr rfl
  | double => exact Or.inl rfl

/-- Between quotes all characters are taken as they are. -/
theorem trimValue_quoted (q : Quoted) (rest : Bytes) :
    IniFileReader.trimValue (q.quote.byte :: (q.chars ++ q.quote.byte :: rest)) = q.chars :=
  trims_iff.mp (.quoted AllBlank.nil q.quote.isQuote q.no_quote)

theorem reads_header (s : Section) : Reads s.header (.heading s.name) :=
  .header AllBlank.nil s.no_bracket

/-- A key and a value, whatever it is. -/
theorem reads_pair (key : Key) (value : Bytes) :
    Reads (key.chars ++ equals :: value)
      (.entry key.chars (IniFileReader.trimValue value)) := by
  have hstart : ∀ c ∈ (key.chars ++ [equals]).head?, StartsPair c := by
    intro c hc
    rw [List.head?_append_of_ne_nil _ key.ne_nil] at hc
    exact ⟨(key.head_visible c hc).not_blank, key.head_plain c hc⟩
  have hreads : Reads (key.chars ++ equals :: value) _ :=
    .pair AllBlank.nil key.no_equals hstart
  have hlast : trimRight key.chars = key.chars := by
    rw [trimRight_eq_self_iff]
    exact fun c hc => Bool.eq_false_iff.mp (key.last_visible c hc).not_blank
  rwa [hlast] at hreads

theorem reads_line (e : Key × Quoted) :
    Reads (Section.line e) (.entry e.1.chars e.2.chars) := by
  have hreads := reads_pair e.1 (e.2.quote.byte :: (e.2.chars ++ [e.2.quote.byte]))
  rwa [trimValue_quoted] at hreads

/-! ## Lines -/

theorem readLines_one (line : Bytes) {l : Bytes} (h : newline ∉ l) :
    IniFileReader.readLines line l = [line ++ l] := by
  induction l generalizing line with
  | nil => simp [IniFileReader.readLines]
  | cons c l ih =>
      obtain ⟨hc, hl⟩ := List.ne_and_not_mem_of_not_mem_cons h
      rw [IniFileReader.readLines, if_neg (Ne.symm hc), ih (line ++ [c]) hl, List.append_assoc,
        List.singleton_append]

theorem readLines_append (line : Bytes) {l : Bytes} (h : newline ∉ l) (text : Bytes) :
    IniFileReader.readLines line (l ++ newline :: text) =
      (line ++ l) :: IniFileReader.readLines [] text := by
  induction l generalizing line with
  | nil => simp [IniFileReader.readLines]
  | cons c l ih =>
      obtain ⟨hc, hl⟩ := List.ne_and_not_mem_of_not_mem_cons h
      rw [List.cons_append, IniFileReader.readLines, if_neg (Ne.symm hc), ih (line ++ [c]) hl,
        List.append_assoc, List.singleton_append]

/-- Behind the last newline there is an empty line. -/
theorem readLines_lines {lines : List Bytes} (h : ∀ l ∈ lines, newline ∉ l) :
    IniFileReader.readLines [] (lines.flatMap fun l => l ++ [newline]) = lines ++ [[]] := by
  induction lines with
  | nil => rfl
  | cons l lines ih =>
      rw [List.flatMap_cons, List.append_assoc, List.singleton_append,
        readLines_append [] (h l List.mem_cons_self),
        ih fun l' hl' => h l' (List.mem_cons_of_mem l hl')]
      rfl

theorem readLines_concat (line text : Bytes) :
    IniFileReader.readLines line (text ++ [newline]) =
      IniFileReader.readLines line text ++ [[]] := by
  induction text generalizing line with
  | nil => simp [IniFileReader.readLines]
  | cons c text ih =>
      rw [List.cons_append, IniFileReader.readLines, IniFileReader.readLines, ih, ih]
      split
      · rfl
      · rfl

theorem one_line_lines (s : Section) : ∀ l ∈ s.lines, newline ∉ l := by
  intro l hl
  rcases List.mem_cons.mp hl with rfl | hl
  · have hopen : newline ≠ openBracket := by decide
    have hclose : newline ≠ closeBracket := by decide
    simp [Section.header, s.one_line, hopen, hclose]
  · obtain ⟨e, -, rfl⟩ := List.mem_map.mp hl
    have hquote : newline ≠ e.2.quote.byte := by
      cases e.2.quote with
      | single => decide
      | double => decide
    have hequals : newline ≠ equals := by decide
    simp [Section.line, e.1.one_line, e.2.one_line, hquote, hequals]

/-- Without the last newline there is no line behind it. -/
theorem readLines_dropLast {lines : List Bytes} (h : ∀ l ∈ lines, newline ∉ l)
    (hne : lines ≠ []) :
    IniFileReader.readLines [] (lines.flatMap fun l => l ++ [newline]).dropLast = lines := by
  rcases List.eq_nil_or_concat lines with rfl | ⟨front, l, rfl⟩
  · exact absurd rfl hne
  · have hread := readLines_lines h
    have htext : ((front.concat l).flatMap fun l => l ++ [newline]) =
        ((front.flatMap fun l => l ++ [newline]) ++ l) ++ [newline] := by
      simp
    rw [htext, readLines_concat] at hread
    rw [htext, List.dropLast_concat]
    exact List.append_cancel_right hread

/-! ## Parsing -/

/-- What the lines of a section read as. -/
def events (s : Section) : List (Event Bytes Bytes Bytes) :=
  .heading s.name :: s.entries.map fun e => .entry e.1.chars e.2.chars

theorem reads_lines (s : Section) : List.Forall₂ Reads s.lines (events s) := by
  refine .cons (reads_header s) ?_
  rw [List.forall₂_map_left_iff, List.forall₂_map_right_iff, List.forall₂_same]
  exact fun e _ => reads_line e

theorem reads_sections (sections : List Section) :
    List.Forall₂ Reads (sections.flatMap Section.lines) (sections.flatMap events) := by
  induction sections with
  | nil => exact .nil
  | cons s sections ih =>
      rw [List.flatMap_cons, List.flatMap_cons]
      exact List.rel_append (reads_lines s) ih

/-- The values of a key among the entries. -/
def valuesOf (entries : List (Key × Quoted)) (key : Bytes) : List Bytes :=
  (entries.filter fun e => e.1.chars = key).map fun e => e.2.chars

theorem value_entries (entries : List (Key × Quoted)) (d name key : Bytes) :
    value d name key (entries.map fun e => .entry e.1.chars e.2.chars) =
      if name = d then (valuesOf entries key).getLast? else none := by
  induction entries with
  | nil =>
      have hnone : (valuesOf [] key).getLast? = none := rfl
      rw [hnone, ite_self]
      rfl
  | cons e entries ih =>
      rw [List.map_cons, value, ih]
      by_cases hname : name = d
      · by_cases hkey : e.1.chars = key
        · have hcons : valuesOf (e :: entries) key = e.2.chars :: valuesOf entries key := by
            simp [valuesOf, hkey]
          rw [if_pos hname, if_pos hname, if_pos ⟨hname, hkey.symm⟩, hcons, List.getLast?_cons]
          cases (valuesOf entries key).getLast? with
          | none => rfl
          | some v => rfl
        · have hcons : valuesOf (e :: entries) key = valuesOf entries key := by
            simp [valuesOf, hkey]
          rw [if_neg (not_and_of_not_right _ (Ne.symm hkey)), hcons, Option.or_none]
      · rw [if_neg hname, if_neg hname, if_neg (not_and_of_not_left _ hname), Option.or_none]

theorem rendered_cons (s : Section) (sections : List Section) (name key : Bytes) :
    rendered (s :: sections) name key =
      (if name = s.name then valuesOf s.entries key else []) ++ rendered sections name key := by
  by_cases h : name = s.name
  · simp [rendered, valuesOf, h]
  · simp [rendered, h, Ne.symm h]

/-- The log of the sections says what was rendered last. -/
theorem value_sections (sections : List Section) (d name key : Bytes) :
    value d name key (sections.flatMap events) = (rendered sections name key).getLast? := by
  induction sections generalizing d with
  | nil => rfl
  | cons s sections ih =>
      have hlast : (if name = s.name then (valuesOf s.entries key).getLast? else none) =
          (if name = s.name then valuesOf s.entries key else []).getLast? := by
        split
        · rfl
        · rfl
      rw [List.flatMap_cons, value_append, ih, rendered_cons, List.getLast?_append, events, value,
        value_entries, hlast]

/-- A reader that parses the lines of the sections, the last one with a newline or without
it, has for each name and key the last value rendered, and no other values. -/
theorem parse_render (sections : List Section) (name key : Bytes) :
    (IniFileReader.new.parse (some (render sections))).1.lookup name key =
        (rendered sections name key).getLast? ∧
      (IniFileReader.new.parse (some (render sections).dropLast)).1.lookup name key =
        (rendered sections name key).getLast? := by
  have hfree : ∀ l ∈ sections.flatMap Section.lines, newline ∉ l := by
    intro l hl
    obtain ⟨s, -, hl⟩ := List.mem_flatMap.mp hl
    exact one_line_lines s l hl
  have hskip : ∀ r : IniFileReader, r.parseLine [] = r := fun r => rfl
  have hnew : IniFileReader.new.lookup name key = none := rfl
  have hlookup := (IniFileReader.foldl_apply (sections.flatMap events) IniFileReader.new).2
    name key
  rw [← IniFileReader.foldl_parseLine (reads_sections sections), value_sections, hnew,
    Option.or_none] at hlookup
  have hread := readLines_lines hfree
  rw [← render] at hread
  constructor
  · rw [IniFileReader.parse, hread, List.foldl_append, List.foldl_cons, hskip]
    exact hlookup
  · by_cases hne : sections.flatMap Section.lines = []
    · rw [hne] at hlookup
      rw [render, hne]
      exact hlookup
    · rw [IniFileReader.parse, render, readLines_dropLast hfree hne]
      exact hlookup

end IniFile

end XfUtil
