import Mathlib.Logic.Function.Basic
import XfUtil.Base.Memory

/-!
# `IniFileReader`

A `std::string` is a list of bytes and a `std::map` a function. `m_curr_section`
points at an entry of `m_sections`, so it is the name of one; that the entry is
there is part of the reader.
-/

namespace XfUtil

open FlatMemory

abbrev Bytes := List Byte

/-! ## Bytes that the parser looks for -/

namespace Ascii

def space : Byte := 0x20#8
def newline : Byte := 0x0A#8
def doubleQuote : Byte := 0x22#8
def sharp : Byte := 0x23#8
def singleQuote : Byte := 0x27#8
def semicolon : Byte := 0x3B#8
def equals : Byte := 0x3D#8
def openBracket : Byte := 0x5B#8
def closeBracket : Byte := 0x5D#8

end Ascii

open Ascii

/-! ## Strings -/

/-- Not `c > ' '`. `char` is signed, so this takes in all bytes from 0x80 on. -/
def isBlank (c : Byte) : Bool := !(space.slt c)

/-- `TrimLeft` of `strutil.cpp`. -/
def trimLeft (value : Bytes) : Bytes := value.dropWhile isBlank

/-- `TrimRight` of `strutil.cpp`: the loop counts blanks from the end. -/
def trimRight (value : Bytes) : Bytes :=
  value.take (value.length - (value.reverse.takeWhile isBlank).length)

/-- `find(c, pos)`. -/
def findFrom (s : Bytes) (c : Byte) (pos : Nat) : Option Nat :=
  ((s.drop pos).findIdx? fun x => x = c).map fun i => pos + i

/-- `find_first_of(";#")`. -/
def findComment (s : Bytes) : Option Nat := s.findIdx? fun x => x = semicolon ∨ x = sharp

/-- `substr(pos, n)`. -/
def substr (s : Bytes) (pos n : Nat) : Bytes := (s.drop pos).take n

/-! ## Sections -/

structure IniSection where
  values : Bytes → Option Bytes

namespace IniSection

/-- A section as the map creates it. -/
def new : IniSection := ⟨fun _ => none⟩

def set (s : IniSection) (key value : Bytes) : IniSection :=
  ⟨Function.update s.values key (some value)⟩

def get (s : IniSection) (key : Bytes) : Option Bytes := s.values key

end IniSection

structure IniFileReader where
  sections : Bytes → Option IniSection
  currSection : Option Bytes
  /-- The pointer is null or at an entry of the map. -/
  valid : ∀ name, currSection = some name → (sections name).isSome

namespace IniFileReader

/-- The constructor. -/
def new : IniFileReader := ⟨fun _ => none, none, by simp⟩

def getSection (r : IniFileReader) (name : Bytes) : Option IniSection := r.sections name

/-- `m_curr_section = &m_sections[section];` -/
def openSection (r : IniFileReader) (name : Bytes) : IniFileReader where
  sections := Function.update r.sections name (some ((r.sections name).getD IniSection.new))
  currSection := some name
  valid := by
    intro n hn
    cases hn
    rw [Function.update_self, Option.isSome_some]

/-- `m_curr_section->Set(key, value);` -/
def setCurrent (r : IniFileReader) (key value : Bytes) : IniFileReader :=
  match h : r.currSection with
  | none => r
  | some name =>
      { r with
        sections := Function.update r.sections name ((r.sections name).map fun s => s.set key value)
        valid := by
          intro n hn
          rw [h] at hn
          cases hn
          rw [Function.update_self, Option.isSome_map]
          exact r.valid name h }

def trimValue (value : Bytes) : Bytes :=
  match trimLeft value with
  | [] => []
  | c :: rest =>
      let newValue := c :: rest
      if c = doubleQuote then
        match findFrom newValue doubleQuote 1 with
        | some pos => substr newValue 1 (pos - 1)
        | none => trimRight newValue
      else if c = singleQuote then
        match findFrom newValue singleQuote 1 with
        | some pos => substr newValue 1 (pos - 1)
        | none => trimRight newValue
      else
        match findComment newValue with
        | some pos => trimRight (substr newValue 0 pos)
        | none => trimRight newValue

def parseLine (r : IniFileReader) (line : Bytes) : IniFileReader :=
  match trimLeft line with
  | [] => r
  | c :: rest =>
      let newLine := c :: rest
      if c = sharp ∨ c = semicolon then r
      else if c = openBracket then
        match findFrom newLine closeBracket 0 with
        | some pos => r.openSection (substr newLine 1 (pos - 1))
        | none => r
      else
        match findFrom newLine equals 0 with
        | none => r
        | some pos =>
            let key := trimRight (substr newLine 0 pos)
            let value := newLine.drop (pos + 1)
            let value := if value ≠ [] then trimValue value else value
            let r := if r.currSection = none then r.openSection [] else r
            r.setCurrent key value

/-- The lines that `getline` reads until the end of the file, the last one with or
without a newline; `line` is what has been read of the current one. -/
def readLines (line : Bytes) : Bytes → List Bytes
  | [] => [line]
  | c :: text => if c = newline then line :: readLines [] text else readLines (line ++ [c]) text

/-- `Parse`; `none` is a file that cannot be opened. -/
def parse (r : IniFileReader) : Option Bytes → IniFileReader × Nat
  | none => (r, 1)
  | some text => ((readLines [] text).foldl parseLine r, 0)

end IniFileReader

end XfUtil
