import XfUtil.Coding.Inverse
import XfUtil.FileWatcher.Model

/-!
# The events of a buffer

A record is a header and `len` bytes, which hold a name and at least one zero, or nothing. The
name of an event is read up to a zero. That is in the record if there are such bytes; without
them it is taken from whatever follows.
-/

namespace XfUtil.FileWatcher

open FlatMemory FilePath

structure Record where
  wd : BitVec 32
  mask : BitVec 32
  cookie : BitVec 32
  name : FilePath
  pad : Nat
  free : 0#8 ∉ name
  relative : name.head? ≠ some slash
  padded : name ≠ [] → 0 < pad
  short : name.length + pad < 2 ^ 32
deriving DecidableEq

namespace Record

def len (r : Record) : Nat := r.name.length + r.pad

def bytes (r : Record) : List Byte :=
  fixedBytes r.wd 4 ++ (fixedBytes r.mask 4 ++ (fixedBytes r.cookie 4 ++
    (fixedBytes (BitVec.ofNat 32 r.len) 4 ++ (r.name ++ List.replicate r.pad 0#8))))

/-- The records one after the other. -/
def buffer (records : List Record) : List Byte := (records.map bytes).flatten

theorem length_bytes (r : Record) : r.bytes.length = InotifyEvent.headerSize + r.len := by
  simp only [bytes, List.length_append, fixedBytes_length, List.length_replicate, len,
    InotifyEvent.headerSize]
  omega

theorem toNat_len (r : Record) : (BitVec.ofNat 32 r.len).toNat = r.len := by
  rw [BitVec.toNat_ofNat]
  exact Nat.mod_eq_of_lt r.short

theorem buffer_cons (r : Record) (records : List Record) :
    buffer (r :: records) = r.bytes ++ buffer records := rfl

end Record

/-- The map names directories. -/
def Named (w : FileWatcher) : Prop := ∀ wd dir, w.paths wd = some dir → dir ≠ [] ∧ 0#8 ∉ dir

/-- The record is of a directory that is watched. -/
def Registered (w : FileWatcher) (r : Record) : Prop := (w.paths r.wd).isSome

/-- The calls that the records ask for. -/
def reports (w : FileWatcher) (records : List Record) : List (FilePath × BitVec 32) :=
  records.filterMap fun r =>
    (w.paths r.wd).map fun dir => (Format.stored maxPathLen (dir ++ slash :: r.name), r.mask)

/-- The loop has ended with these calls, and what it has read for a record was in it. -/
def Reported (w : FileWatcher) (records : List Record) (o : Option Handled) : Prop :=
  ∃ h, o = some h ∧ h.aborted = false ∧ h.calls = reports w records ∧
    ∀ v ∈ h.visits, ∀ r ∈ v.used, Region.Within r v.record

/-! ## One record -/

section

variable {m : Mem} {a : Nat}

theorem load_record {r : Record} (h : read m a r.bytes.length = r.bytes) :
    InotifyEvent.load m a = ⟨r.wd, r.mask, r.cookie, BitVec.ofNat 32 r.len⟩ := by
  obtain ⟨hwd, h⟩ := read_eq_append h
  obtain ⟨hmask, h⟩ := read_eq_append h
  obtain ⟨hcookie, h⟩ := read_eq_append h
  obtain ⟨hlen, -⟩ := read_eq_append h
  have hwd' : loadFixed 32 m a 4 = r.wd := loadFixed_eq (by decide) hwd
  have hmask' : loadFixed 32 m (a + 4) 4 = r.mask := loadFixed_eq (by decide) hmask
  have hcookie' : loadFixed 32 m (a + 8) 4 = r.cookie := loadFixed_eq (by decide) hcookie
  have hlen' : loadFixed 32 m (a + 12) 4 = BitVec.ofNat 32 r.len := loadFixed_eq (by decide) hlen
  rw [InotifyEvent.load, hwd', hmask', hcookie', hlen']

theorem read_name {r : Record} (h : read m a r.bytes.length = r.bytes) :
    read m (a + InotifyEvent.headerSize) r.len = r.name ++ List.replicate r.pad 0#8 := by
  obtain ⟨-, h⟩ := read_eq_append h
  obtain ⟨-, h⟩ := read_eq_append h
  obtain ⟨-, h⟩ := read_eq_append h
  obtain ⟨-, h⟩ := read_eq_append h
  rw [List.length_append, List.length_replicate] at h
  exact h

/-- With bytes for a name the string ends among them. -/
theorem stringAt_record {r : Record} (h : read m a r.bytes.length = r.bytes)
    (hlen : r.len ≠ 0) {limit : Nat} (hlimit : a + r.bytes.length ≤ limit) :
    stringAt m limit (a + InotifyEvent.headerSize) = r.name := by
  have hpad : 0 < r.pad := by
    by_cases hname : r.name = []
    · unfold Record.len at hlen
      rw [hname] at hlen
      exact Nat.pos_of_ne_zero (by simpa using hlen)
    · exact r.padded hname
  obtain ⟨k, hk⟩ := Nat.exists_eq_add_of_lt hpad
  rw [r.length_bytes] at hlimit
  unfold stringAt
  rw [read_split m _ (k := r.len) (by omega), read_name h, hk, Nat.zero_add, List.replicate_succ,
    List.append_assoc, List.cons_append]
  exact Format.untilZero_append r.free _

end

/-! ## The records in turn -/

variable {debug : Bool} {w : FileWatcher} {m : Mem} {limit fin a fuel : Nat} {r : Record}
  {records : List Record}

theorem reported_cons_of_missing (h : read m a r.bytes.length = r.bytes) (ha : a < fin)
    (hwd : w.paths r.wd = none) :
    Reported w (r :: records) (handleLoop debug w m limit fin (fuel + 1) a) ↔
      Reported w records (handleLoop debug w m limit fin fuel (a + r.bytes.length)) := by
  have hlookup : ∀ name, getFilePath debug w r.wd name = .missing := by
    intro name
    simp [getFilePath, hwd]
  have hcalls : reports w (r :: records) = reports w records := by
    simp [reports, hwd]
  rw [handleLoop, if_neg (by omega), load_record h, r.length_bytes, Reported, hcalls]
  simp only [hlookup, r.toNat_len]
  constructor
  · rintro ⟨o, ho, haborted, hsame, hvisits⟩
    obtain ⟨h', hh', rfl⟩ := Option.map_eq_some_iff.mp ho
    exact ⟨h', hh', haborted, hsame, fun v hv => hvisits v (List.mem_cons_of_mem _ hv)⟩
  · rintro ⟨h', hh', haborted, hsame, hvisits⟩
    refine ⟨_, Option.map_eq_some_iff.mpr ⟨h', hh', rfl⟩, haborted, hsame, ?_⟩
    refine List.forall_mem_cons.mpr ⟨fun u hu => ?_, hvisits⟩
    obtain rfl := List.mem_singleton.mp hu
    exact ⟨le_rfl, Nat.add_le_add_left (Nat.le_add_right _ _) a⟩

theorem reported_cons_of_named (hw : w.Named) (h : read m a r.bytes.length = r.bytes)
    (ha : a < fin) (hlimit : a + r.bytes.length ≤ limit) (hlen : r.len ≠ 0) {dir : FilePath}
    (hwd : w.paths r.wd = some dir) :
    Reported w (r :: records) (handleLoop debug w m limit fin (fuel + 1) a) ↔
      Reported w records (handleLoop debug w m limit fin fuel (a + r.bytes.length)) := by
  obtain ⟨hne, hfree⟩ := hw r.wd dir hwd
  have hasserts : combineAsserts dir r.name = true := by
    simp [combineAsserts, hne, r.relative]
  have hlookup : getFilePath debug w r.wd r.name = .found (combine maxPathLen dir r.name) := by
    simp [getFilePath, hwd, Format.untilZero_of_free hfree, hasserts]
  have hcalls : reports w (r :: records) =
      (combine maxPathLen dir r.name, r.mask) :: reports w records := by
    simp [reports, hwd, combine]
  have hname := stringAt_record h hlen hlimit
  rw [handleLoop, if_neg (by omega), load_record h, r.length_bytes, Reported, hcalls]
  simp only [hname, hlookup, r.toNat_len]
  constructor
  · rintro ⟨o, ho, haborted, hsame, hvisits⟩
    obtain ⟨h', hh', rfl⟩ := Option.map_eq_some_iff.mp ho
    exact ⟨h', hh', haborted, (List.cons.inj hsame).2,
      fun v hv => hvisits v (List.mem_cons_of_mem _ hv)⟩
  · rintro ⟨h', hh', haborted, hsame, hvisits⟩
    refine ⟨_, Option.map_eq_some_iff.mpr ⟨h', hh', rfl⟩, haborted, congrArg _ hsame, ?_⟩
    refine List.forall_mem_cons.mpr ⟨fun u hu => ?_, hvisits⟩
    have hterminator : r.name.length + 1 ≤ r.len := by
      unfold Record.len at hlen ⊢
      have hpad := r.padded
      by_cases hnil : r.name = []
      · rw [hnil] at hlen ⊢
        simp only [List.length_nil] at hlen ⊢
        omega
      · have := hpad hnil
        omega
    rcases List.mem_cons.mp hu with rfl | hu
    · exact ⟨le_rfl, Nat.add_le_add_left (Nat.le_add_right _ _) a⟩
    · obtain rfl := List.mem_singleton.mp hu
      exact ⟨Nat.le_add_right _ _, by dsimp only; omega⟩

/-- Without such bytes what is read as a name is outside. -/
theorem not_reported_cons (h : read m a r.bytes.length = r.bytes) (ha : a < fin)
    (hlen : r.len = 0) (hwd : Registered w r) :
    ¬ Reported w (r :: records) (handleLoop debug w m limit fin (fuel + 1) a) := by
  obtain ⟨dir, hdir⟩ := Option.isSome_iff_exists.mp hwd
  have houtside : ∀ n, ¬ Region.Within (a + InotifyEvent.headerSize, n + 1)
      (a, InotifyEvent.headerSize + r.len) := by
    rintro n ⟨-, hhigh⟩
    rw [hlen] at hhigh
    dsimp only at hhigh
    omega
  rintro ⟨o, ho, haborted, -, hvisits⟩
  rw [handleLoop, if_neg (by omega), load_record h] at ho
  simp only [getFilePath, hdir, r.toNat_len] at ho
  split at ho
  · rename_i hmissing
    split at hmissing <;> cases hmissing
  · cases ho
    cases haborted
  · obtain ⟨h', -, rfl⟩ := Option.map_eq_some_iff.mp ho
    have hfirst := hvisits _ List.mem_cons_self
    exact houtside _ (hfirst _ (List.mem_cons_of_mem _ List.mem_cons_self))

/-- From any record on: the loop ends and reports what it should exactly when every event of
a directory that is watched has bytes for a name. -/
theorem reported_iff (hw : w.Named) (hread : read m a (Record.buffer records).length =
    Record.buffer records) (hfin : fin = a + (Record.buffer records).length)
    (hlimit : fin ≤ limit) (hfuel : (Record.buffer records).length ≤ fuel) :
    Reported w records (handleLoop debug w m limit fin fuel a) ↔
      ∀ r ∈ records, Registered w r → r.len ≠ 0 := by
  induction records generalizing a fuel with
  | nil =>
      have hend : fin ≤ a := hfin.le
      refine iff_of_true ?_ (by simp)
      cases fuel with
      | zero => exact ⟨_, by rw [handleLoop, if_pos hend], rfl, rfl, by simp⟩
      | succ fuel => exact ⟨_, by rw [handleLoop, if_pos hend], rfl, rfl, by simp⟩
  | cons r records ih =>
      rw [Record.buffer_cons, List.length_append] at hfin hfuel
      rw [Record.buffer_cons] at hread
      obtain ⟨hfirst, hrest⟩ := read_eq_append hread
      have hheader := r.length_bytes
      have hpos : 0 < r.bytes.length := by
        rw [hheader, InotifyEvent.headerSize]
        omega
      obtain ⟨fuel, rfl⟩ : ∃ k, fuel = k + 1 := ⟨fuel - 1, by omega⟩
      have hrestFuel : (Record.buffer records).length ≤ fuel := by omega
      have hnext := ih hrest (by omega) hrestFuel
      rw [List.forall_mem_cons, ← hnext]
      cases hwd : w.paths r.wd with
      | none =>
          have hnot : ¬ Registered w r := by simp [Registered, hwd]
          rw [reported_cons_of_missing hfirst (by omega) hwd]
          exact (and_iff_right fun hreg => absurd hreg hnot).symm
      | some dir =>
          have hreg : Registered w r := by simp [Registered, hwd]
          by_cases hlen : r.len = 0
          · refine iff_of_false (not_reported_cons hfirst (by omega) hlen hreg) ?_
            exact fun hboth => hboth.1 hreg hlen
          · rw [reported_cons_of_named hw hfirst (by omega) (by omega) hlen hwd]
            exact (and_iff_right fun _ => hlen).symm

/-- `HandleEvent` ends and reports each event with its own name exactly when every event of a
directory that is watched has bytes for a name. -/
theorem handleEvent_reported_iff (hw : w.Named) {buf : Nat}
    (hread : read m buf (Record.buffer records).length = Record.buffer records)
    (hlimit : buf + (Record.buffer records).length ≤ limit) :
    Reported w records
        (handleEvent debug w m limit buf (buf + (Record.buffer records).length)) ↔
      ∀ r ∈ records, Registered w r → r.len ≠ 0 :=
  reported_iff hw hread rfl hlimit (by omega)

/-- The directory `/d` under the descriptor 1. -/
def watchingOne : FileWatcher := ⟨7#32, fun wd => if wd = 1#32 then some [0x2F#8, 0x64#8] else none⟩

theorem named_watchingOne : watchingOne.Named := by
  intro wd dir h
  unfold watchingOne at h
  dsimp only at h
  split at h
  · cases h
    decide
  · cases h

/-- The name `f` with three zeros. -/
def recordOfFile : Record where
  wd := 1#32
  mask := 0x100#32
  cookie := 0#32
  name := [0x66#8]
  pad := 3
  free := by decide
  relative := by decide
  padded := by decide
  short := by decide

/-- No name: the directory itself. -/
def recordOfDirectory : Record where
  wd := 1#32
  mask := 0x400#32
  cookie := 0#32
  name := []
  pad := 0
  free := by decide
  relative := by decide
  padded := by decide
  short := by decide

theorem handleEvent_reported_iff_one :
    Reported watchingOne [recordOfFile]
        (handleEvent true watchingOne (write (fun _ => 0x7A#8) 0 (Record.buffer [recordOfFile])) 64
          0 (0 + (Record.buffer [recordOfFile]).length)) ↔
      ∀ r ∈ [recordOfFile], Registered watchingOne r → r.len ≠ 0 :=
  handleEvent_reported_iff named_watchingOne (read_write_same _ _ _) (by decide)

/-- Behind the record stand the letter `z` and a zero, and `/d/z` is reported. -/
theorem nameless_event_borrows :
    ¬ ∀ (debug : Bool) (w : FileWatcher) (m : Mem) (limit buf : Nat) (records : List Record),
      w.Named → read m buf (Record.buffer records).length = Record.buffer records →
      buf + (Record.buffer records).length ≤ limit →
        Reported w records
          (handleEvent debug w m limit buf (buf + (Record.buffer records).length)) := by
  intro hall
  have hreported := hall true watchingOne
    (write (fun _ => 0#8) 0 (Record.buffer [recordOfDirectory] ++ [0x7A#8])) 32 0
    [recordOfDirectory] named_watchingOne (by decide) (by decide)
  obtain ⟨h, hh, -, hcalls, -⟩ := hreported
  have hz : (handleEvent true watchingOne
      (write (fun _ => 0#8) 0 (Record.buffer [recordOfDirectory] ++ [0x7A#8])) 32 0
      (0 + (Record.buffer [recordOfDirectory]).length)).map Handled.calls =
        some [([0x2F#8, 0x64#8, 0x2F#8, 0x7A#8], 0x400#32)] := by
    decide +kernel
  rw [hh, Option.map_some, Option.some.injEq] at hz
  rw [hz] at hcalls
  exact absurd hcalls (by decide)

end XfUtil.FileWatcher
