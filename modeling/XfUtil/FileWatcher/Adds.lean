import XfUtil.FileWatcher.Events

/-!
# Calls of `Add`

`Add` goes on only if the descriptor is the invalid one. That is the guard the other way
round: with the descriptor of a successful `inotify_init1` no call adds anything.
-/

namespace XfUtil.FileWatcher

open FlatMemory FilePath

/-- A call of `Add` on a directory that exists, with the answer of `inotify_add_watch`. -/
structure AddCall where
  path : FilePath
  wfd : BitVec 32
  ne_nil : path ≠ []
  free : 0#8 ∉ path
  valid : wfd ≠ invalidFileId

/-- The calls in turn, with what they return. -/
def addAll (debug : Bool) : FileWatcher → List AddCall → Option (FileWatcher × List Bool)
  | w, [] => some (w, [])
  | w, c :: cs =>
      match w.add debug c.path true c.wfd with
      | none => none
      | some (w, ret) => (addAll debug w cs).map fun r => (r.1, ret :: r.2)

/-- The path last added for a descriptor. -/
def lastAdded (calls : List AddCall) (wfd : BitVec 32) : Option FilePath :=
  (calls.reverse.find? fun c => c.wfd = wfd).map AddCall.path

/-- No assertion has failed, every call has returned true, and an event of any descriptor
added is passed on with the path last added for it. -/
def Delivers (debug : Bool) (w : FileWatcher) (calls : List AddCall) : Prop :=
  ∃ w' rets, addAll debug w calls = some (w', rets) ∧ (∀ ret ∈ rets, ret = true) ∧
    ∀ c ∈ calls, ∀ dir, lastAdded calls c.wfd = some dir →
      ∀ (r : Record) (m : Mem) (limit buf : Nat), r.wd = c.wfd → r.len ≠ 0 →
        read m buf r.bytes.length = r.bytes → buf + r.bytes.length ≤ limit →
          (handleEvent debug w' m limit buf (buf + r.bytes.length)).map Handled.calls =
            some [(Format.stored maxPathLen (dir ++ slash :: r.name), r.mask)]

variable {debug : Bool} {w : FileWatcher}

/-- With a valid descriptor the call fails, or ends the program. -/
theorem add_of_valid (h : w.ifd ≠ invalidFileId) (path : FilePath) (exist : Bool)
    (wfd : BitVec 32) :
    w.add debug path exist wfd = if debug then none else some (w, false) := by
  cases debug <;> simp [add, h]

/-- Events are delivered for what was added only if nothing was. -/
theorem delivers_iff (h : w.ifd ≠ invalidFileId) (calls : List AddCall) :
    w.Delivers debug calls ↔ calls = [] := by
  constructor
  · intro hdelivers
    cases calls with
    | nil => rfl
    | cons c cs =>
        obtain ⟨w', rets, hall, htrue, -⟩ := hdelivers
        rw [addAll, add_of_valid h] at hall
        cases debug with
        | true => cases hall
        | false =>
            obtain ⟨r, -, hr⟩ := Option.map_eq_some_iff.mp hall
            cases hr
            exact absurd (htrue false List.mem_cons_self) (by decide)
  · rintro rfl
    exact ⟨w, [], rfl, by simp, by simp⟩

theorem new_delivers_iff {ifd : BitVec 32} (h : ifd ≠ invalidFileId) (calls : List AddCall) :
    (new ifd).Delivers debug calls ↔ calls = [] :=
  delivers_iff (w := new ifd) h calls

/-- The directory `/d`, under the descriptor 1. -/
def addOne : AddCall where
  path := [0x2F#8, 0x64#8]
  wfd := 1#32
  ne_nil := by decide
  free := by decide
  valid := by decide

theorem new_delivers_iff_one : (new 7#32).Delivers true [addOne] ↔ [addOne] = [] :=
  new_delivers_iff (by decide) [addOne]

theorem add_never_delivers :
    ¬ ∀ (debug : Bool) (ifd : BitVec 32) (calls : List AddCall), ifd ≠ invalidFileId →
      (new ifd).Delivers debug calls := by
  intro hall
  have hone := (delivers_iff (w := new 7#32) (by decide) [addOne]).mp
    (hall false 7#32 [addOne] (by decide))
  cases hone

end XfUtil.FileWatcher
