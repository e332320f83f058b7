import Mathlib.Data.List.Forall2
import XfUtil.Base.Headings
import XfUtil.IniFile.Values

/-!
# What a lookup answers

`Reads` says what a line is, by its text alone. A file is then a log of headings and
entries, and `GetSection` and `Get` answer what the log says: the sections opened,
and under each heading the latest value of a key.
-/

namespace XfUtil

open FlatMemory Ascii Headings

/-! ## Lines -/

/-- A byte that a `key=value` line may begin with. -/
def StartsPair (c : Byte) : Prop :=
  isBlank c = false ∧ c ≠ sharp ∧ c ≠ semicolon ∧ c ≠ openBracket

inductive Reads : Bytes → Event Bytes Bytes Bytes → Prop where
  | blank {line : Bytes} (hline : AllBlank line) : Reads line .skip
  | comment {sp rest : Bytes} {c : Byte} (hsp : AllBlank sp) (hc : c = sharp ∨ c = semicolon) :
      Reads (sp ++ c :: rest) .skip
  | header {sp name rest : Bytes} (hsp : AllBlank sp) (hname : closeBracket ∉ name) :
      Reads (sp ++ openBracket :: (name ++ closeBracket :: rest)) (.heading name)
  | openHeader {sp rest : Bytes} (hsp : AllBlank sp) (hrest : closeBracket ∉ rest) :
      Reads (sp ++ openBracket :: rest) .skip
  | pair {sp key value : Bytes} (hsp : AllBlank sp) (hkey : equals ∉ key)
      (hfirst : ∀ c ∈ (key ++ [equals]).head?, StartsPair c) :
      Reads (sp ++ (key ++ equals :: value))
        (.entry (trimRight key) (IniFileReader.trimValue value))
  | noEquals {sp rest : Bytes} {c : Byte} (hsp : AllBlank sp) (hc : StartsPair c)
      (hrest : equals ∉ c :: rest) : Reads (sp ++ c :: rest) .skip

theorem head_of_split {pre post rest : Bytes} {b c : Byte} (h : pre ++ b :: post = c :: rest) :
    (pre ++ [b]).head? = some c := by
  cases pre with
  | nil => simpa using (List.cons.inj h).1
  | cons x pre => simpa using (List.cons.inj h).1

/-- Every line is something. -/
theorem reads_exists (line : Bytes) : ∃ e, Reads line e := by
  obtain ⟨sp, hsp, hline, hhead⟩ := trimLeft_split line
  rw [hline]
  generalize trimLeft line = rest at hhead ⊢
  cases rest with
  | nil => exact ⟨.skip, .blank (by rw [List.append_nil]; exact hsp)⟩
  | cons c rest =>
      have hc : isBlank c = false := hhead c rfl
      by_cases hcomment : c = sharp ∨ c = semicolon
      · exact ⟨.skip, .comment hsp hcomment⟩
      · by_cases hopen : c = openBracket
        · subst hopen
          rcases split_at rest closeBracket with hnone | ⟨name, post, rfl, hname⟩
          · exact ⟨.skip, .openHeader hsp hnone⟩
          · exact ⟨.heading name, .header hsp hname⟩
        · obtain ⟨hhash, hsemi⟩ := not_or.mp hcomment
          have hstart : StartsPair c := ⟨hc, hhash, hsemi, hopen⟩
          rcases split_at (c :: rest) equals with hnone | ⟨key, value, heq, hkey⟩
          · exact ⟨.skip, .noEquals hsp hstart hnone⟩
          · rw [heq]
            refine ⟨_, .pair hsp hkey fun x hx => ?_⟩
            obtain rfl : c = x := Option.some.inj ((head_of_split heq.symm).symm.trans hx)
            exact hstart

theorem exists_events (lines : List Bytes) : ∃ events, List.Forall₂ Reads lines events := by
  induction lines with
  | nil => exact ⟨[], .nil⟩
  | cons line lines ih =>
      obtain ⟨e, he⟩ := reads_exists line
      obtain ⟨events, hevents⟩ := ih
      exact ⟨e :: events, .cons he hevents⟩

namespace IniFileReader

/-! ## What a line does -/

/-- The reader after an event. -/
def apply (r : IniFileReader) : Event Bytes Bytes Bytes → IniFileReader
  | .skip => r
  | .heading name => r.openSection name
  | .entry key value =>
      (if r.currSection = none then r.openSection [] else r).setCurrent key value

/-- `ParseLine` does what the line reads as. -/
theorem parseLine_reads {line : Bytes} {e : Event Bytes Bytes Bytes} (h : Reads line e)
    (r : IniFileReader) : r.parseLine line = r.apply e := by
  cases h with
  | blank hline =>
      have htrim : trimLeft line = [] := by
        have h : trimLeft (line ++ []) = [] := trimLeft_append hline (by simp)
        rwa [List.append_nil] at h
      simp [parseLine, htrim, apply]
  | @comment sp rest c hsp hc =>
      have hblank : isBlank c = false := by
        rcases hc with h | h
        · rw [h]
          decide
        · rw [h]
          decide
      have htrim := trimLeft_cons hsp hblank rest
      simp [parseLine, htrim, hc, apply]
  | @header sp name rest hsp hname =>
      have htrim := trimLeft_cons (c := openBracket) hsp (by decide) (name ++ closeBracket :: rest)
      have hnot : ¬ (openBracket = sharp ∨ openBracket = semicolon) := by decide
      have hmem : closeBracket ∉ openBracket :: name := by
        rw [List.mem_cons, not_or]
        exact ⟨by decide, hname⟩
      have hfind : findFrom (openBracket :: (name ++ closeBracket :: rest)) closeBracket 0 =
          some (name.length + 1) := find_append hmem
      simp only [parseLine, htrim, if_neg hnot, if_true, hfind, apply, substr]
      simp
  | @openHeader sp rest hsp hrest =>
      have htrim := trimLeft_cons (c := openBracket) hsp (by decide) rest
      have hnot : ¬ (openBracket = sharp ∨ openBracket = semicolon) := by decide
      have hmem : closeBracket ∉ openBracket :: rest := by
        rw [List.mem_cons, not_or]
        exact ⟨by decide, hrest⟩
      simp only [parseLine, htrim, if_neg hnot, if_true, find_none hmem, apply]
  | @pair sp key value hsp hkey hfirst =>
      obtain ⟨c, rest, hsplit⟩ : ∃ c rest, key ++ equals :: value = c :: rest :=
        List.exists_cons_of_ne_nil (by simp)
      have hc : StartsPair c := hfirst c (head_of_split hsplit)
      have htrim : trimLeft (sp ++ (key ++ equals :: value)) = c :: rest := by
        rw [hsplit]
        exact trimLeft_cons hsp hc.1 rest
      have hnot : ¬ (c = sharp ∨ c = semicolon) := not_or.mpr ⟨hc.2.1, hc.2.2.1⟩
      have hfind : findFrom (c :: rest) equals 0 = some key.length := by
        rw [← hsplit]
        exact find_append hkey
      have hkeyText : substr (c :: rest) 0 key.length = key := by
        rw [← hsplit, substr, List.drop_zero, List.take_left]
      have hvalue : (c :: rest).drop (key.length + 1) = value := by
        rw [← hsplit, ← List.drop_drop, List.drop_left]
        rfl
      have hempty : (if value ≠ [] then trimValue value else value) = trimValue value := by
        by_cases hv : value = []
        · rw [hv]
          rfl
        · rw [if_pos hv]
      simp only [parseLine, htrim, if_neg hnot, if_neg hc.2.2.2, hfind, hkeyText, hvalue, hempty,
        apply]
  | @noEquals sp rest c hsp hc hrest =>
      have htrim := trimLeft_cons hsp hc.1 rest
      have hnot : ¬ (c = sharp ∨ c = semicolon) := not_or.mpr ⟨hc.2.1, hc.2.2.1⟩
      simp only [parseLine, htrim, if_neg hnot, if_neg hc.2.2.2, find_none hrest, apply]

/-! ## Lookups -/

/-- `GetSection(name)->Get(key)`, null if either is. -/
def lookup (r : IniFileReader) (name key : Bytes) : Option Bytes :=
  (r.getSection name).bind fun s => s.get key

theorem openSection_getSection (r : IniFileReader) (name name' : Bytes) :
    ((r.openSection name).getSection name').isSome ↔
      (r.getSection name').isSome ∨ name' = name := by
  by_cases h : name' = name
  · simp [getSection, openSection, h]
  · simp [getSection, openSection, h]

/-- A section that has just been created has no values. -/
theorem openSection_lookup (r : IniFileReader) (name name' key : Bytes) :
    (r.openSection name).lookup name' key = r.lookup name' key := by
  by_cases h : name' = name
  · subst h
    cases hs : r.sections name' with
    | none => simp [lookup, getSection, openSection, hs, IniSection.get, IniSection.new]
    | some s => simp [lookup, getSection, openSection, hs]
  · simp [lookup, getSection, openSection, h]

theorem setCurrent_eq {r : IniFileReader} {name : Bytes} (h : r.currSection = some name)
    (key value : Bytes) : (r.setCurrent key value).currSection = some name ∧
      (r.setCurrent key value).sections =
        Function.update r.sections name ((r.sections name).map fun s => s.set key value) := by
  unfold setCurrent
  split
  · rename_i hnone
    rw [h] at hnone
    cases hnone
  · rename_i name' hsome
    obtain rfl : name = name' := Option.some.inj (h.symm.trans hsome)
    exact ⟨h, rfl⟩

theorem setCurrent_getSection {r : IniFileReader} {name : Bytes} (h : r.currSection = some name)
    (key value name' : Bytes) :
    ((r.setCurrent key value).getSection name').isSome ↔ (r.getSection name').isSome := by
  rw [getSection, (setCurrent_eq h key value).2]
  by_cases hname : name' = name
  · simp [getSection, hname]
  · simp [getSection, hname]

theorem setCurrent_lookup {r : IniFileReader} {name : Bytes} (h : r.currSection = some name)
    (key value name' key' : Bytes) :
    (r.setCurrent key value).lookup name' key' =
      if name' = name ∧ key' = key then some value else r.lookup name' key' := by
  obtain ⟨s, hs⟩ := Option.isSome_iff_exists.mp (r.valid name h)
  rw [lookup, getSection, (setCurrent_eq h key value).2]
  by_cases hname : name' = name
  · by_cases hkey : key' = key
    · simp [hname, hkey, hs, IniSection.get, IniSection.set]
    · simp [hname, hkey, hs, lookup, getSection, IniSection.get, IniSection.set]
  · simp [hname, lookup, getSection]

/-! ## Logs from any reader on -/

/-- The section that the pointer is at, or that an entry would open. -/
def currentName (r : IniFileReader) : Bytes := r.currSection.getD []

theorem apply_spec (r : IniFileReader) (e : Event Bytes Bytes Bytes) :
    (r.apply e).currentName = current r.currentName [e] ∧ ∀ s k,
      (r.apply e).lookup s k = (value r.currentName s k [e]).or (r.lookup s k) := by
  cases e with
  | skip => exact ⟨rfl, fun s k => Option.none_or.symm⟩
  | heading name =>
      exact ⟨rfl, fun s k => (openSection_lookup r name s k).trans Option.none_or.symm⟩
  | entry key v =>
      -- The entry goes to a section that is open, if need be because of it.
      obtain ⟨r', hr', happly, hcurr, hlookup⟩ : ∃ r' : IniFileReader,
          r'.currSection = some r.currentName ∧ r.apply (.entry key v) = r'.setCurrent key v ∧
            r'.currentName = r.currentName ∧ ∀ s k, r'.lookup s k = r.lookup s k := by
        cases h : r.currSection with
        | none =>
            refine ⟨r.openSection [], ?_, ?_, ?_, openSection_lookup r []⟩
            · rw [currentName, h]
              rfl
            · rw [apply, if_pos h]
            · rw [currentName, currentName, h]
              rfl
        | some name =>
            refine ⟨r, ?_, ?_, rfl, fun _ _ => rfl⟩
            · rw [currentName, h]
              rfl
            · rw [apply, if_neg (by simp [h])]
      refine ⟨?_, fun s k => ?_⟩
      · rw [happly, currentName, (setCurrent_eq hr' key v).1]
        rfl
      · rw [happly, setCurrent_lookup hr', hlookup, value, value, Option.none_or]
        by_cases hsk : s = r.currentName ∧ k = key
        · rw [if_pos hsk, if_pos hsk, Option.some_or]
        · rw [if_neg hsk, if_neg hsk, Option.none_or]

/-- Whatever the reader has, a log adds its own values to it, begun under the section
that the pointer is at. -/
theorem foldl_apply (log : List (Event Bytes Bytes Bytes)) (r : IniFileReader) :
    (log.foldl apply r).currentName = current r.currentName log ∧ ∀ s k,
      (log.foldl apply r).lookup s k = (value r.currentName s k log).or (r.lookup s k) := by
  induction log generalizing r with
  | nil => exact ⟨rfl, fun s k => Option.none_or.symm⟩
  | cons e log ih =>
      obtain ⟨hname, hlookup⟩ := apply_spec r e
      obtain ⟨hname', hlookup'⟩ := ih (r.apply e)
      refine ⟨?_, fun s k => ?_⟩
      · rw [List.foldl_cons, hname', hname, ← current_append, List.singleton_append]
      · rw [List.foldl_cons, hlookup', hname, hlookup, ← Option.or_assoc, ← value_append,
          List.singleton_append]

theorem foldl_parseLine {lines : List Bytes} {log : List (Event Bytes Bytes Bytes)}
    (h : List.Forall₂ Reads lines log) (r : IniFileReader) :
    lines.foldl parseLine r = log.foldl apply r := by
  induction h generalizing r with
  | nil => rfl
  | cons hline _ ih =>
      rw [List.foldl_cons, List.foldl_cons, parseLine_reads hline]
      exact ih _

/-! ## The reader and the log -/

/-- The reader answers what the log says. -/
structure Matches (log : List (Event Bytes Bytes Bytes)) (r : IniFileReader) : Prop where
  fresh : r.currSection = none → NoHeading log
  current : ∀ s, Under [] log s ↔ s = r.currSection.getD []
  sections : ∀ s, (r.getSection s).isSome ↔ Opened [] log s
  values : ∀ s k v, r.lookup s k = some v ↔ Latest [] log s k v

/-- An entry opens the nameless section if the pointer is at none. -/
theorem apply_entry_getSection (r : IniFileReader) (key value s : Bytes) :
    ((r.apply (.entry key value)).getSection s).isSome ↔
      (r.getSection s).isSome ∨ s = [] ∧ r.currSection = none := by
  cases hcurr : r.currSection with
  | none =>
      have hopen : (r.openSection []).currSection = some [] := rfl
      rw [apply, if_pos hcurr, setCurrent_getSection hopen, openSection_getSection,
        and_iff_left rfl]
  | some name =>
      rw [apply, if_neg (by simp [hcurr]), setCurrent_getSection hcurr]
      simp

theorem apply_entry_currSection (r : IniFileReader) (key value : Bytes) :
    (r.apply (.entry key value)).currSection ≠ none := by
  cases hcurr : r.currSection with
  | none =>
      have hopen : (r.openSection []).currSection = some [] := rfl
      rw [apply, if_pos hcurr, (setCurrent_eq hopen key value).1]
      simp
  | some name =>
      rw [apply, if_neg (by simp [hcurr]), (setCurrent_eq hcurr key value).1]
      simp

/-- The pointer is at a section from the first heading on, and the sections are those that
the log opens. -/
theorem opened_foldl (log : List (Event Bytes Bytes Bytes)) :
    ((log.foldl apply new).currSection = none → NoHeading log) ∧
      ∀ s, ((log.foldl apply new).getSection s).isSome ↔ Opened [] log s := by
  induction log using List.reverseRecOn with
  | nil =>
      refine ⟨fun _ => noHeading_nil, fun s => ?_⟩
      simpa [new, getSection] using not_opened_nil
  | append_singleton log e ih =>
      obtain ⟨hfresh, hopened⟩ := ih
      have hname := (foldl_apply log new).1
      rw [List.foldl_append, List.foldl_cons, List.foldl_nil]
      cases e with
      | skip =>
          refine ⟨fun hnone => noHeading_concat.mpr ⟨hfresh hnone, by simp⟩, fun s => ?_⟩
          exact (hopened s).trans opened_concat_skip.symm
      | heading name =>
          refine ⟨fun hnone => absurd hnone (Option.some_ne_none name), fun s => ?_⟩
          rw [opened_concat_heading, ← hopened]
          exact openSection_getSection _ name s
      | entry key value =>
          refine ⟨fun hnone => absurd hnone (apply_entry_currSection _ key value), fun s => ?_⟩
          rw [apply_entry_getSection, hopened, opened_concat_entry]
          cases hcurr : (log.foldl apply new).currSection with
          | none => simp [hfresh hcurr]
          | some name =>
              -- Without a heading the pointer is at the nameless section, which is open.
              have hopen : s = [] ∧ NoHeading log → Opened [] log s := by
                intro h
                have hcurrent : s = current [] log := under_iff_current.mp (Or.inr h)
                rw [currentName, hcurr] at hname
                rw [← hopened, hcurrent.trans hname.symm]
                exact (log.foldl apply new).valid name hcurr
              rw [or_iff_left_of_imp hopen]
              simp

theorem matches_foldl (log : List (Event Bytes Bytes Bytes)) :
    Matches log (log.foldl apply new) where
  fresh := (opened_foldl log).1
  current := fun s => by
    rw [under_iff_current, ← currentName, (foldl_apply log new).1]
    rfl
  sections := (opened_foldl log).2
  values := fun s k v => by
    rw [latest_iff_value, (foldl_apply log new).2, show new.lookup s k = none from rfl,
      Option.or_none]
    exact Iff.rfl

/-! ## Files -/

theorem readLines_ne_nil (line text : Bytes) : readLines line text ≠ [] := by
  induction text generalizing line with
  | nil => simp [readLines]
  | cons c text ih =>
      rw [readLines]
      split
      · simp
      · exact ih (line ++ [c])

/-- `getline` cuts a text at its newlines. -/
theorem readLines_split (line text : Bytes) (hline : newline ∉ line) :
    List.intercalate [newline] (readLines line text) = line ++ text ∧
      ∀ l ∈ readLines line text, newline ∉ l := by
  induction text generalizing line with
  | nil => simpa [readLines] using hline
  | cons c text ih =>
      by_cases hc : c = newline
      · obtain ⟨hjoin, hfree⟩ := ih [] List.not_mem_nil
        rw [readLines, if_pos hc]
        refine ⟨?_, fun l hl => ?_⟩
        · rw [List.intercalate_cons_of_ne_nil (readLines_ne_nil [] text), hjoin, hc]
          simp
        · rcases List.mem_cons.mp hl with rfl | hl
          · exact hline
          · exact hfree l hl
      · rw [readLines, if_neg hc]
        have hline' : newline ∉ line ++ [c] := by
          rw [List.mem_append, List.mem_singleton, not_or]
          exact ⟨hline, Ne.symm hc⟩
        obtain ⟨hjoin, hfree⟩ := ih (line ++ [c]) hline'
        exact ⟨by rw [hjoin, List.append_assoc, List.singleton_append], hfree⟩

/-- After `Parse` of any text by a new reader: the text is cut at its newlines, each
line reads as an event, and the reader has the sections that the log opens, with
the latest values under them. A value is what `Trims` says of the text behind the equals sign.
Lines that read as nothing change nothing. -/
theorem parse_lookup (text : Bytes) :
    (List.intercalate [newline] (readLines [] text) = text ∧
        ∀ line ∈ readLines [] text, newline ∉ line) ∧
      (∃ log, List.Forall₂ Reads (readLines [] text) log) ∧
      (∀ log, List.Forall₂ Reads (readLines [] text) log →
        (∀ s, ((new.parse (some text)).1.getSection s).isSome ↔ Opened [] log s) ∧
          ∀ s k v, (new.parse (some text)).1.lookup s k = some v ↔ Latest [] log s k v) ∧
      (∀ value v, trimValue value = v ↔ Trims value v) ∧
      ∀ line, Reads line .skip → ∀ r : IniFileReader, r.parseLine line = r := by
  refine ⟨readLines_split [] text List.not_mem_nil, ?_, fun log hlog => ?_,
    fun value v => trims_iff.symm, fun line h r => ?_⟩
  · exact exists_events (readLines [] text)
  · have hmatch := matches_foldl log
    rw [← foldl_parseLine hlog] at hmatch
    exact ⟨hmatch.sections, hmatch.values⟩
  · exact parseLine_reads h r

end IniFileReader

end XfUtil
