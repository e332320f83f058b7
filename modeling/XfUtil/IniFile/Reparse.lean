import XfUtil.IniFile.Lookup

/-!
# A second file

The pointer to the current section stays where the first file ended. Entries of the
second file before its first header go there, and not to the nameless section.
-/

namespace XfUtil

open Headings

namespace IniFileReader

/-- What the lines of a text read as. -/
def ReadsAs (text : Bytes) (log : List (Event Bytes Bytes Bytes)) : Prop :=
  List.Forall₂ Reads (readLines [] text) log

/-- After both texts a key has its value from the second one, or else from the first. -/
def Independent (a b : Bytes) : Prop :=
  ∀ s k, ((new.parse (some a)).1.parse (some b)).1.lookup s k =
    ((new.parse (some b)).1.lookup s k).or ((new.parse (some a)).1.lookup s k)

theorem parse_spec {text : Bytes} {log : List (Event Bytes Bytes Bytes)} (h : ReadsAs text log)
    (r : IniFileReader) :
    (r.parse (some text)).1.currentName = current r.currentName log ∧ ∀ s k,
      (r.parse (some text)).1.lookup s k = (value r.currentName s k log).or (r.lookup s k) := by
  have hparse : (r.parse (some text)).1 = log.foldl apply r := foldl_parseLine h r
  rw [hparse]
  exact foldl_apply log r

theorem parse_new {text : Bytes} {log : List (Event Bytes Bytes Bytes)} (h : ReadsAs text log) :
    (new.parse (some text)).1.currentName = current [] log ∧ ∀ s k,
      (new.parse (some text)).1.lookup s k = value [] s k log := by
  obtain ⟨hname, hlookup⟩ := parse_spec h new
  exact ⟨hname, fun s k => (hlookup s k).trans Option.or_none⟩

theorem or_or_eq_iff {α : Type*} (back front old : Option α) :
    (back.or front).or old = back.or old ↔
      ∀ v, front = some v → back.isSome ∨ old = some v := by
  cases back with
  | some w => simp
  | none =>
      cases front with
      | none => simp
      | some v => simp [eq_comm]

/-- The second text stands for itself if the first one ends under the nameless section.
Otherwise the values in front of its first header must show neither where they are
missing nor where they are too many: there must be later ones, or the same old ones. -/
theorem independent_iff {a b : Bytes} {la lb : List (Event Bytes Bytes Bytes)}
    (ha : ReadsAs a la) (hb : ReadsAs b lb) :
    Independent a b ↔ current [] la = [] ∨ ∀ k v, frontValue k lb = some v →
      ∀ s, s = [] ∨ s = current [] la →
        (backValue s k lb).isSome ∨ value [] s k la = some v := by
  obtain ⟨hname, hfirst⟩ := parse_new ha
  obtain ⟨-, hsecond⟩ := parse_new hb
  obtain ⟨-, hboth⟩ := parse_spec hb (new.parse (some a)).1
  have hunfold : Independent a b ↔ ∀ s k,
      ((backValue s k lb).or (if s = current [] la then frontValue k lb else none)).or
          (value [] s k la) =
        ((backValue s k lb).or (if s = [] then frontValue k lb else none)).or
          (value [] s k la) := by
    unfold Independent
    refine forall_congr' fun s => forall_congr' fun k => ?_
    rw [hboth, hfirst, hsecond, hname, value_eq (current [] la) s k lb, value_eq [] s k lb]
  rw [hunfold]
  by_cases hnameless : current [] la = []
  · rw [hnameless]
    exact iff_of_true (fun s k => rfl) (Or.inl rfl)
  · rw [or_iff_right hnameless]
    have hplace : ∀ s k,
        ((backValue s k lb).or (if s = current [] la then frontValue k lb else none)).or
            (value [] s k la) =
          ((backValue s k lb).or (if s = [] then frontValue k lb else none)).or
            (value [] s k la) ↔
          ∀ v, frontValue k lb = some v → s = [] ∨ s = current [] la →
            (backValue s k lb).isSome ∨ value [] s k la = some v := by
      intro s k
      by_cases hcurrent : s = current [] la
      · have hnamed : s ≠ [] := hcurrent ▸ hnameless
        rw [if_pos hcurrent, if_neg hnamed, Option.or_none, or_or_eq_iff]
        simp [hcurrent]
      · rw [if_neg hcurrent, Option.or_none]
        by_cases hempty : s = []
        · rw [if_pos hempty, eq_comm, or_or_eq_iff]
          simp [hempty]
        · rw [if_neg hempty, Option.or_none]
          simp [hempty, hcurrent]
    constructor
    · exact fun h k v hv s => (hplace s k).mp (h s k) v hv
    · exact fun h s k => (hplace s k).mpr fun v hv => h k v hv s

/-- Two texts have readings, and by any of them the second parse is independent of the
first just when the first text ends under the nameless section or the entries in front
of the second one's first header show nowhere. -/
theorem reparse_independent_iff (a b : Bytes) :
    (∃ la lb, ReadsAs a la ∧ ReadsAs b lb) ∧ ∀ la lb, ReadsAs a la → ReadsAs b lb →
      (Independent a b ↔ current [] la = [] ∨ ∀ k v, frontValue k lb = some v →
        ∀ s, s = [] ∨ s = current [] la →
          (backValue s k lb).isSome ∨ value [] s k la = some v) := by
  refine ⟨?_, fun la lb ha hb => independent_iff ha hb⟩
  obtain ⟨la, ha⟩ := exists_events (readLines [] a)
  obtain ⟨lb, hb⟩ := exists_events (readLines [] b)
  exact ⟨la, lb, ha, hb⟩

/-- `[s]` and then `k=v`: the key is in section `s`, and nowhere for a fresh reader's
nameless section. -/
theorem reparse_dependent :
    let a : Bytes := [0x5B, 0x73, 0x5D, 0x0A]
    let b : Bytes := [0x6B, 0x3D, 0x76, 0x0A]
    let r := ((new.parse (some a)).1.parse (some b)).1
    (new.parse (some b)).1.lookup [] [0x6B] = some [0x76] ∧ r.lookup [] [0x6B] = none ∧
      r.lookup [0x73] [0x6B] = some [0x76] ∧ ¬ Independent a b := by
  dsimp only
  refine ⟨by decide +kernel, by decide +kernel, by decide +kernel, fun h => ?_⟩
  exact absurd (h [] [0x6B]) (by decide +kernel)

end IniFileReader

end XfUtil
