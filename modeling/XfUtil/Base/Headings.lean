import Mathlib.Data.List.Induction
import Mathlib.Logic.Basic

/-!
# Entries under headings

A log of headings and of entries, each a key with a value. An entry belongs to the
most recent heading before it, or to a default heading, and the latest entry for a
key is the one that counts. The three notions are stated by positions in the log;
the lemmas say how each changes when the log grows by one event.
-/

namespace Headings

variable {S K V : Type*}

inductive Event (S K V : Type*) where
  | skip
  | heading (s : S)
  | entry (k : K) (v : V)
deriving Repr, DecidableEq

/-- There is no heading in the log. -/
def NoHeading (log : List (Event S K V)) : Prop := ∀ s, Event.heading s ∉ log

/-- The most recent heading is `s`; before the first it is `d`. -/
def Under (d : S) (log : List (Event S K V)) (s : S) : Prop :=
  (∃ pre post, log = pre ++ .heading s :: post ∧ NoHeading post) ∨ s = d ∧ NoHeading log

/-- An entry comes before the first heading. -/
def EntryFirst (log : List (Event S K V)) : Prop :=
  ∃ pre k v post, log = pre ++ .entry k v :: post ∧ NoHeading pre

/-- There is a heading `s`, or an entry before the first heading if `s` is `d`. -/
def Opened (d : S) (log : List (Event S K V)) (s : S) : Prop :=
  Event.heading s ∈ log ∨ s = d ∧ EntryFirst log

/-- The latest entry for `k` under the heading `s` has the value `v`. -/
def Latest (d : S) (log : List (Event S K V)) (s : S) (k : K) (v : V) : Prop :=
  ∃ pre post, log = pre ++ .entry k v :: post ∧ Under d pre s ∧
    ∀ pre' v' post', post = pre' ++ .entry k v' :: post' →
      ¬ Under d (pre ++ .entry k v :: pre') s

/-! ## Splitting a log at an event -/

/-- A position in a log that has grown by one is the last one or one from before. -/
theorem concat_eq_split_iff {α : Type*} {xs pre post : List α} {x y : α} :
    xs ++ [y] = pre ++ x :: post ↔
      pre = xs ∧ x = y ∧ post = [] ∨ ∃ post', post = post' ++ [y] ∧ xs = pre ++ x :: post' := by
  constructor
  · intro h
    rcases List.eq_nil_or_concat post with rfl | ⟨post', z, rfl⟩
    · obtain ⟨hpre, hx⟩ := List.append_inj' h rfl
      exact Or.inl ⟨hpre.symm, (List.cons.inj hx).1.symm, rfl⟩
    · have h' : xs ++ [y] = (pre ++ x :: post') ++ [z] := by simpa using h
      obtain ⟨hxs, hy⟩ := List.append_inj' h' rfl
      exact Or.inr ⟨post', by simp [(List.cons.inj hy).1], hxs⟩
  · intro h
    rcases h with ⟨rfl, rfl, rfl⟩ | ⟨post', rfl, rfl⟩
    · rfl
    · simp

theorem noHeading_nil : NoHeading ([] : List (Event S K V)) := fun _ => List.not_mem_nil

theorem noHeading_concat {log : List (Event S K V)} {e : Event S K V} :
    NoHeading (log ++ [e]) ↔ NoHeading log ∧ ∀ s, e ≠ .heading s := by
  simp only [NoHeading, List.mem_append, List.mem_singleton, not_or, forall_and, ne_eq, eq_comm]

/-! ## The most recent heading -/

variable {d s t : S} {k k' : K} {v v' : V} {log : List (Event S K V)} {e : Event S K V}

theorem under_nil : Under d ([] : List (Event S K V)) s ↔ s = d := by
  constructor
  · intro h
    rcases h with ⟨pre, post, h, -⟩ | ⟨h, -⟩
    · simp at h
    · exact h
  · exact fun h => Or.inr ⟨h, noHeading_nil⟩

theorem under_concat_heading : Under d (log ++ [.heading t]) s ↔ s = t := by
  constructor
  · intro h
    rcases h with ⟨pre, post, h, hpost⟩ | ⟨-, hlog⟩
    · rcases concat_eq_split_iff.mp h with ⟨-, heq, -⟩ | ⟨post', rfl, -⟩
      · cases heq
        rfl
      · exact absurd rfl ((noHeading_concat.mp hpost).2 t)
    · exact absurd rfl ((noHeading_concat.mp hlog).2 t)
  · intro h
    rw [h]
    exact Or.inl ⟨log, [], rfl, noHeading_nil⟩

theorem under_concat (he : ∀ t, e ≠ .heading t) : Under d (log ++ [e]) s ↔ Under d log s := by
  constructor
  · intro h
    rcases h with ⟨pre, post, h, hpost⟩ | ⟨heq, hlog⟩
    · rcases concat_eq_split_iff.mp h with ⟨-, heq, -⟩ | ⟨post', rfl, hlog⟩
      · exact absurd heq.symm (he s)
      · exact Or.inl ⟨pre, post', hlog, (noHeading_concat.mp hpost).1⟩
    · exact Or.inr ⟨heq, (noHeading_concat.mp hlog).1⟩
  · intro h
    rcases h with ⟨pre, post, rfl, hpost⟩ | ⟨heq, hlog⟩
    · exact Or.inl ⟨pre, post ++ [e], by simp, noHeading_concat.mpr ⟨hpost, he⟩⟩
    · exact Or.inr ⟨heq, noHeading_concat.mpr ⟨hlog, he⟩⟩

/-! ## Open headings -/

theorem not_opened_nil : ¬ Opened d ([] : List (Event S K V)) s := by
  simp [Opened, EntryFirst]

theorem entryFirst_concat (he : ∀ k v, e ≠ .entry k v) :
    EntryFirst (log ++ [e]) ↔ EntryFirst log := by
  constructor
  · intro h
    obtain ⟨pre, k, v, post, h, hpre⟩ := h
    rcases concat_eq_split_iff.mp h with ⟨-, heq, -⟩ | ⟨post', -, hlog⟩
    · exact absurd heq.symm (he k v)
    · exact ⟨pre, k, v, post', hlog, hpre⟩
  · intro h
    obtain ⟨pre, k, v, post, rfl, hpre⟩ := h
    exact ⟨pre, k, v, post ++ [e], by simp, hpre⟩

theorem entryFirst_concat_entry :
    EntryFirst (log ++ [.entry k v]) ↔ EntryFirst log ∨ NoHeading log := by
  constructor
  · intro h
    obtain ⟨pre, k', v', post, h, hpre⟩ := h
    rcases concat_eq_split_iff.mp h with ⟨rfl, -, -⟩ | ⟨post', -, hlog⟩
    · exact Or.inr hpre
    · exact Or.inl ⟨pre, k', v', post', hlog, hpre⟩
  · intro h
    rcases h with ⟨pre, k', v', post, rfl, hpre⟩ | hlog
    · exact ⟨pre, k', v', post ++ [.entry k v], by simp, hpre⟩
    · exact ⟨log, k, v, [], rfl, hlog⟩

theorem opened_concat_skip : Opened d (log ++ [.skip]) s ↔ Opened d log s := by
  simp [Opened, entryFirst_concat (e := .skip)]

theorem opened_concat_heading :
    Opened d (log ++ [.heading t]) s ↔ Opened d log s ∨ s = t := by
  rw [Opened, Opened, entryFirst_concat (by simp), List.mem_append, List.mem_singleton,
    Event.heading.injEq, or_right_comm]

/-- An entry opens the default if there is no heading yet. -/
theorem opened_concat_entry :
    Opened d (log ++ [.entry k v]) s ↔ Opened d log s ∨ s = d ∧ NoHeading log := by
  simp [Opened, entryFirst_concat_entry, and_or_left, or_assoc]

/-! ## Latest entries -/

theorem not_latest_nil : ¬ Latest d ([] : List (Event S K V)) s k v := by
  intro h
  obtain ⟨pre, post, h, -⟩ := h
  simp at h

/-- An event that is no entry for `k` under `s` leaves the latest one. -/
theorem latest_concat (he : ∀ v', e = .entry k v' → ¬ Under d log s) :
    Latest d (log ++ [e]) s k v ↔ Latest d log s k v := by
  constructor
  · intro h
    obtain ⟨pre, post, h, hunder, hlater⟩ := h
    rcases concat_eq_split_iff.mp h with ⟨rfl, heq, rfl⟩ | ⟨post, rfl, hlog⟩
    · exact absurd hunder (he v heq.symm)
    · refine ⟨pre, post, hlog, hunder, fun pre' v' post' hpost => ?_⟩
      exact hlater pre' v' (post' ++ [e]) (by simp [hpost])
  · intro h
    obtain ⟨pre, post, rfl, hunder, hlater⟩ := h
    refine ⟨pre, post ++ [e], by simp, hunder, fun pre' v' post' hpost => ?_⟩
    rcases concat_eq_split_iff.mp hpost with ⟨rfl, heq, -⟩ | ⟨post', -, hpost'⟩
    · exact he v' heq.symm
    · exact hlater pre' v' post' hpost'

/-- An entry for `k` under `s` is the latest from then on. -/
theorem latest_concat_entry (hunder : Under d log s) :
    Latest d (log ++ [.entry k v']) s k v ↔ v = v' := by
  constructor
  · intro h
    obtain ⟨pre, post, h, -, hlater⟩ := h
    rcases concat_eq_split_iff.mp h with ⟨-, heq, -⟩ | ⟨post, rfl, rfl⟩
    · cases heq
      rfl
    · exact absurd hunder (hlater post v' [] rfl)
  · intro h
    rw [h]
    exact ⟨log, [], rfl, hunder, by simp⟩

/-! ## Logs from any heading on -/

/-- The heading that a log begun under `d` ends under. -/
def current (d : S) : List (Event S K V) → S
  | [] => d
  | .skip :: log => current d log
  | .heading t :: log => current t log
  | .entry _ _ :: log => current d log

theorem current_append (d : S) (log log' : List (Event S K V)) :
    current d (log ++ log') = current (current d log) log' := by
  induction log generalizing d with
  | nil => rfl
  | cons e log ih =>
      cases e with
      | skip => exact ih d
      | heading t => exact ih t
      | entry k v => exact ih d

theorem under_iff_current : Under d log s ↔ s = current d log := by
  induction log using List.reverseRecOn with
  | nil => exact under_nil
  | append_singleton log e ih =>
      rw [current_append]
      cases e with
      | skip => exact (under_concat (by simp)).trans ih
      | heading t => exact under_concat_heading
      | entry k v => exact (under_concat (by simp)).trans ih

section

variable [DecidableEq S] [DecidableEq K]

/-- The value of the latest entry for `k` under `s` in a log begun under `d`. -/
def value (d : S) (s : S) (k : K) : List (Event S K V) → Option V
  | [] => none
  | .skip :: log => value d s k log
  | .heading t :: log => value t s k log
  | .entry k' v :: log => (value d s k log).or (if s = d ∧ k = k' then some v else none)

/-- The value of the latest entry for `k` before the first heading. -/
def frontValue (k : K) : List (Event S K V) → Option V
  | [] => none
  | .skip :: log => frontValue k log
  | .heading _ :: _ => none
  | .entry k' v :: log => (frontValue k log).or (if k = k' then some v else none)

/-- The value of the latest entry for `k` under `s` from the first heading on. -/
def backValue (s : S) (k : K) : List (Event S K V) → Option V
  | [] => none
  | .skip :: log => backValue s k log
  | .heading t :: log => value t s k log
  | .entry _ _ :: log => backValue s k log

theorem value_append (d : S) (s : S) (k : K) (log log' : List (Event S K V)) :
    value d s k (log ++ log') = (value (current d log) s k log').or (value d s k log) := by
  induction log generalizing d with
  | nil => exact (Option.or_none).symm
  | cons e log ih =>
      cases e with
      | skip => exact ih d
      | heading t => exact ih t
      | entry k' v =>
          rw [List.cons_append, value, value, current, ih d, Option.or_assoc]

/-- What a log is begun under matters for the entries before its first heading only. -/
theorem value_eq (d : S) (s : S) (k : K) (log : List (Event S K V)) :
    value d s k log = (backValue s k log).or (if s = d then frontValue k log else none) := by
  induction log with
  | nil => simp [value, backValue, frontValue]
  | cons e log ih =>
      cases e with
      | skip => exact ih
      | heading t => simp [value, backValue, frontValue]
      | entry k' v =>
          rw [value, backValue, frontValue, ih, Option.or_assoc]
          by_cases hs : s = d
          · simp [hs]
          · simp [hs]

theorem latest_iff_value : Latest d log s k v ↔ value d s k log = some v := by
  induction log using List.reverseRecOn with
  | nil => exact iff_of_false not_latest_nil (by simp [value])
  | append_singleton log e ih =>
      rw [value_append]
      cases e with
      | skip => exact (latest_concat (by simp)).trans ih
      | heading t => exact (latest_concat (by simp)).trans ih
      | entry k' v' =>
          rw [value, value, Option.none_or]
          by_cases hlast : s = current d log ∧ k = k'
          · obtain ⟨hunder, rfl⟩ := hlast
            rw [latest_concat_entry (under_iff_current.mpr hunder), if_pos ⟨hunder, rfl⟩,
              Option.some_or, Option.some.injEq, eq_comm]
          · rw [if_neg hlast, Option.none_or, latest_concat, ih]
            intro v'' heq hunder
            cases heq
            exact hlast ⟨under_iff_current.mp hunder, rfl⟩

end

end Headings
