import XfUtil.Base.Loop
import XfUtil.IniFile.Lookup

/-!
# The loop of `Parse`

The loop asks for the end of the file only. A stream that fails to read does not come
there: `getline` gives up at once from then on, and the loop goes round for ever.
-/

namespace XfUtil

open Ascii

namespace IniFileReader

/-! ## Streams -/

/-- What is behind the lines of a stream: a last line up to the end of the file, or part
of a line up to a read error. -/
inductive Ending where
  | endOfFile (last : Bytes)
  | readError (part : Bytes)

/-- A stream that has been opened, with its state bits. -/
structure Stream where
  lines : List Bytes
  ending : Ending
  eofbit : Bool
  failbit : Bool
  badbit : Bool

def Stream.opened (lines : List Bytes) (ending : Ending) : Stream :=
  ⟨lines, ending, false, false, false⟩

/-- `std::getline` into an empty string. -/
def getline (s : Stream) : Bytes × Stream :=
  if s.eofbit ∨ s.failbit ∨ s.badbit then ([], { s with failbit := true })
  else
    match s.lines with
    | line :: rest => (line, { s with lines := rest })
    | [] =>
        match s.ending with
        | .endOfFile last => (last, { s with eofbit := true, failbit := last = [] })
        | .readError part => (part, { s with badbit := true })

/-- A round of `while(!fin.eof())`. -/
def parseRound (s : IniFileReader × Stream) : Option (IniFileReader × Stream) :=
  if s.2.eofbit then none
  else
    let r := getline s.2
    some (s.1.parseLine r.1, r.2)

/-- The loop ends after finitely many rounds. -/
def Ends (r : IniFileReader) (s : Stream) : Prop :=
  ∃ n u, Loop.EndsIn parseRound n (r, s) u

/-! ## The end of the file -/

theorem parseRound_line (r : IniFileReader) (line : Bytes) (lines : List Bytes)
    (ending : Ending) :
    parseRound (r, .opened (line :: lines) ending) =
      some (r.parseLine line, .opened lines ending) :=
  rfl

/-- With the end of the file the loop has parsed every line, the last one too. -/
theorem endsIn_endOfFile (r : IniFileReader) (lines : List Bytes) (last : Bytes) :
    ∃ s, Loop.EndsIn parseRound (lines.length + 1) (r, .opened lines (.endOfFile last))
      ((lines ++ [last]).foldl parseLine r, s) := by
  induction lines generalizing r with
  | nil => exact ⟨_, rfl, rfl⟩
  | cons line lines ih =>
      obtain ⟨s, hs⟩ := ih (r.parseLine line)
      exact ⟨s, hs.head (parseRound_line r line lines (.endOfFile last))⟩

/-- The stream of a file that can be read. -/
def Stream.ofText (text : Bytes) : Stream :=
  .opened (readLines [] text).dropLast
    (.endOfFile ((readLines [] text).getLast (readLines_ne_nil [] text)))

/-- `Parse` is the loop on the stream of a text. -/
theorem parse_endsIn (r : IniFileReader) (text : Bytes) :
    ∃ n s, Loop.EndsIn parseRound n (r, .ofText text) ((r.parse (some text)).1, s) := by
  obtain ⟨s, hs⟩ := endsIn_endOfFile r (readLines [] text).dropLast
    ((readLines [] text).getLast (readLines_ne_nil [] text))
  rw [List.dropLast_append_getLast] at hs
  exact ⟨_, s, hs⟩

/-! ## Read errors -/

/-- The stream is not at the end of the file and will not come there. -/
def Endless (s : IniFileReader × Stream) : Prop :=
  s.2.eofbit = false ∧ ∃ part, s.2.ending = .readError part

theorem Endless.round {s : IniFileReader × Stream} (h : Endless s) :
    ∃ t, parseRound s = some t ∧ Endless t := by
  obtain ⟨heof, part, hending⟩ := h
  have hround : parseRound s = some (s.1.parseLine (getline s.2).1, (getline s.2).2) := by
    rw [parseRound, heof]
    rfl
  refine ⟨_, hround, ?_⟩
  rw [Endless, getline]
  split
  · exact ⟨heof, part, hending⟩
  · split
    · exact ⟨heof, part, hending⟩
    · rw [hending]
      exact ⟨heof, part, rfl⟩

theorem not_ends_readError (r : IniFileReader) (lines : List Bytes) (part : Bytes) :
    ¬ Ends r (.opened lines (.readError part)) := by
  intro h
  obtain ⟨n, u, hend⟩ := h
  exact Loop.not_endsIn_of_invariant (fun s hs => Endless.round hs)
    (show Endless (r, .opened lines (.readError part)) from ⟨rfl, part, rfl⟩) n u hend

/-- The loop ends on streams that come to the end of their file, and on no others; on that of a
text it ends with what `Parse` makes of the text. -/
theorem ends_iff (r : IniFileReader) (lines : List Bytes) (ending : Ending) :
    (Ends r (.opened lines ending) ↔ ∃ last, ending = .endOfFile last) ∧
      ∀ text, ∃ n s, Loop.EndsIn parseRound n (r, .ofText text) ((r.parse (some text)).1, s) := by
  refine ⟨?_, parse_endsIn r⟩
  cases ending with
  | endOfFile last =>
      obtain ⟨s, hs⟩ := endsIn_endOfFile r lines last
      exact iff_of_true ⟨_, _, hs⟩ ⟨last, rfl⟩
  | readError part =>
      exact iff_of_false (not_ends_readError r lines part) (by simp)

/-- A directory can be opened and gives no line. -/
theorem not_ends_directory : ¬ Ends new (.opened [] (.readError [])) :=
  not_ends_readError new [] []

end IniFileReader

end XfUtil
