import XfUtil.Base.Machine
import XfUtil.String.Model

/-!
# A `String` is a byte sequence

`Reserve` takes an allocation that meets nothing in use, so the bytes of the old buffer and
the data that a call is given stay readable while the buffer is exchanged. The invariant
links the three fields with the heap: one allocation, of `m_capacity` bytes, that starts at
`m_buf`, or none.
-/

namespace XfUtil

open FlatMemory

namespace StringBuffer

namespace World

/-- The buffer is the one allocation, with room for `m_size` bytes. -/
structure Sound (w : World) : Prop where
  size_le : w.str.size ≤ w.str.capacity
  null : w.str.buf = 0 → w.str.capacity = 0
  live : ∀ r, r ∈ w.heap.live ↔ w.str.buf ≠ 0 ∧ r = (w.str.buf, w.str.capacity.toNat)
  wf : w.heap.Wf

/-- The rest of the program has these bytes in use. -/
def Readable (w : World) (data n : Nat) : Prop :=
  ∀ i < n, ∃ r ∈ w.heap.reserved, r.1 ≤ data + i ∧ data + i < r.1 + r.2

instance (w : World) (data n : Nat) : Decidable (w.Readable data n) :=
  inferInstanceAs (Decidable (∀ i < n, _))

/-- `fresh` is an answer that `xmalloc(size)` can give. -/
def Answers (w : World) (size : BitVec 64) (fresh : Nat) : Prop :=
  (w.heap.malloc size.toNat fresh).isSome

instance (w : World) (size : BitVec 64) (fresh : Nat) : Decidable (w.Answers size fresh) :=
  inferInstanceAs (Decidable (_ = true))

/-- Capacities and lengths are below `2^62`, data lies outside the buffer, and what a call
asks `xmalloc` for it gets. -/
def Allowed (w : World) (op : Op) : Prop :=
  w.str.capacity.toNat < 2 ^ 62 ∧
    match op with
    | .assign data size fresh =>
        size.toNat < 2 ^ 62 ∧ w.Readable data size.toNat ∧
          (w.str.capacity < size → w.Answers (size + w.str.capacity * 2) fresh)
    | .append data size fresh =>
        size.toNat < 2 ^ 62 ∧ w.Readable data size.toNat ∧
          (w.str.capacity < w.str.size + size → w.Answers (size + w.str.capacity * 2) fresh)
    | .reserve size fresh => size.toNat < 2 ^ 62 ∧ (w.str.capacity < size → w.Answers size fresh)
    | .resize size fresh => size.toNat < 2 ^ 62 ∧ (w.str.capacity < size → w.Answers size fresh)
    | .clear => True
    | .others mem reserved => (w.step (.others mem reserved)).isSome

instance (w : World) (op : Op) : Decidable (w.Allowed op) := by
  cases op <;> unfold Allowed <;> infer_instance

/-- No `memcpy` of the latest call has written past the buffer. -/
def Inside (w : World) : Prop :=
  ∀ r ∈ w.copies, Region.Within r (w.str.buf, w.str.capacity.toNat)

/-- What a call does to a byte sequence; the bytes that `Resize` adds are not determined. -/
def Op.Turns (op : Op) (mem : Mem) (before after : List Byte) : Prop :=
  match op with
  | .assign data size _ => after = read mem data size.toNat
  | .append data size _ => after = before ++ read mem data size.toNat
  | .reserve _ _ => after = before
  | .resize size _ =>
      after.length = size.toNat ∧
        after.take (min before.length size.toNat) = before.take (min before.length size.toNat)
  | .clear => after = []
  | .others _ _ => after = before

theorem new_sound (mem : Mem) (reserved : List Region) : (new mem reserved).Sound := by
  refine ⟨BitVec.le_refl _, fun _ => rfl, ?_, ⟨List.Pairwise.nil, ?_, ?_⟩⟩
  · simp [new, StringBuffer.new]
  · simp [new]
  · simp [new]

@[simp] theorem contents_length (w : World) : w.contents.length = w.str.size.toNat :=
  read_length _ _ _

/-! ## Exchanging the buffer -/

/-- What `Reserve` keeps, and the room it makes. -/
structure Grown (w w' : World) (size : Nat) : Prop where
  sound : w'.Sound
  room : size ≤ w'.str.capacity.toNat
  inside : w'.Inside
  size_eq : w'.str.size = w.str.size
  contents_eq : w'.contents = w.contents
  reserved_eq : w'.heap.reserved = w.heap.reserved
  data_eq : ∀ data n, w.Readable data n → read w'.mem data n = read w.mem data n

theorem Readable.write {w : World} {data n a k : Nat} {bs : List Byte} (h : w.Readable data n)
    (hlen : bs.length ≤ k) (happart : ∀ r ∈ w.heap.reserved, Region.Apart (a, k) r) :
    read (write w.mem a bs) data n = read w.mem data n := by
  apply read_congr
  intro x hlow hhigh
  obtain ⟨r, hr, hrlow, hrhigh⟩ := h (x - data) (by omega)
  have hout := happart r hr
  unfold Region.Apart FlatMemory.Apart at hout
  exact write_outside w.mem bs (by omega)

variable {w : World}

theorem Sound.size_toNat_le (h : w.Sound) : w.str.size.toNat ≤ w.str.capacity.toNat :=
  BitVec.le_def.mp h.size_le

/-- One new allocation, longer than the old one, takes the place of the buffer. -/
theorem Sound.replace (h : w.Sound) {size : BitVec 64} {fresh : Nat}
    (hgrow : w.str.capacity < size) (hpos : 0 < fresh) {heap : Heap} (hwf : heap.Wf)
    (hlive : ∀ r, r ∈ heap.live ↔ r = (fresh, size.toNat)) (mem : Mem) (copies : List Region) :
    Sound ⟨⟨fresh, w.str.size, size⟩, mem, heap, copies⟩ := by
  have hle := h.size_toNat_le
  have hlt := BitVec.lt_def.mp hgrow
  have hne : fresh ≠ 0 := by omega
  refine ⟨BitVec.le_def.mpr ?_, fun hzero => absurd hzero hne, ?_, hwf⟩
  · exact hle.trans hlt.le
  · intro r
    rw [hlive r]
    exact (and_iff_right hne).symm

/-- Nothing is allocated, so there is nothing to copy. -/
theorem Sound.reserve_first (h : w.Sound) (hcopies : w.copies = []) {size : BitVec 64}
    {fresh : Nat} {heap : Heap} (hgrow : w.str.capacity < size) (hbuf : w.str.buf = 0)
    (hmalloc : w.heap.malloc size.toNat fresh = some heap) :
    ∃ w', w.reserve size fresh = some (w', true) ∧ w.Grown w' size.toNat := by
  have hempty : w.str.size.toNat = 0 := by
    have hle := h.size_toNat_le
    rw [h.null hbuf] at hle
    simpa using hle
  have hwf := h.wf.malloc ((Nat.zero_le _).trans_lt (BitVec.lt_def.mp hgrow)) hmalloc
  obtain ⟨hheap, hpos, -, -⟩ := Heap.malloc_eq_some hmalloc
  have hlive : ∀ r, r ∈ heap.live ↔ r = (fresh, size.toNat) := by
    intro r
    have hold := h.live r
    rw [hheap]
    simp [hold, hbuf]
  refine ⟨⟨⟨fresh, w.str.size, size⟩, w.mem, heap, w.copies⟩, ?_,
    h.replace hgrow hpos hwf hlive w.mem w.copies, le_rfl, ?_, rfl, ?_, ?_, fun _ _ _ => rfl⟩
  · rw [World.reserve, if_neg (BitVec.not_le.mpr hgrow), if_neg (by omega), hmalloc,
      Option.bind_some, if_neg (by simpa using hbuf)]
  · simp [Inside, hcopies]
  · simp only [contents, hempty, read_zero]
  · rw [hheap]

/-- The contents are copied into the new allocation before the old one is freed. -/
theorem Sound.reserve_exchange (h : w.Sound) (hcopies : w.copies = []) {size : BitVec 64}
    {fresh : Nat} {heap : Heap} (hgrow : w.str.capacity < size) (hbuf : w.str.buf ≠ 0)
    (hmalloc : w.heap.malloc size.toNat fresh = some heap) :
    ∃ w', w.reserve size fresh = some (w', true) ∧ w.Grown w' size.toNat := by
  have hle := h.size_toNat_le
  have hlt := BitVec.lt_def.mp hgrow
  have hwf := h.wf.malloc (by omega) hmalloc
  obtain ⟨hheap, hpos, -, happart⟩ := Heap.malloc_eq_some hmalloc
  have hmem : (w.str.buf, w.str.capacity.toNat) ∈ heap.live := by
    rw [hheap]
    exact List.mem_cons_of_mem _ ((h.live _).mpr ⟨hbuf, rfl⟩)
  obtain ⟨heap', hfree, hwf', hkept, hleft⟩ := hwf.free hmem
  -- The old buffer is shorter, so it is another allocation.
  have hother : ((fresh, size.toNat) : Region) ≠ (w.str.buf, w.str.capacity.toNat) := by
    intro heq
    exact absurd (Prod.mk.inj heq).2 (by omega)
  have hlive : ∀ r, r ∈ heap'.live ↔ r = (fresh, size.toNat) := by
    intro r
    rw [hleft r, hheap, List.mem_cons, h.live r]
    constructor
    · rintro ⟨rfl | ⟨-, rfl⟩, hr⟩
      · rfl
      · exact absurd rfl hr
    · rintro rfl
      exact ⟨Or.inl rfl, hother⟩
  refine ⟨⟨⟨fresh, w.str.size, size⟩, write w.mem fresh w.contents, heap',
      (fresh, w.str.size.toNat) :: w.copies⟩, ?_,
    h.replace hgrow hpos hwf' hlive _ _, le_rfl, ?_, rfl, ?_, ?_, ?_⟩
  · rw [World.reserve, if_neg (BitVec.not_le.mpr hgrow), if_neg (by omega), hmalloc,
      Option.bind_some, if_pos hbuf, hfree, Option.map_some]
    rfl
  · intro r hr
    obtain rfl : r = (fresh, w.str.size.toNat) := by simpa [hcopies] using hr
    exact ⟨le_rfl, by dsimp only; omega⟩
  · have hread := read_write_same w.mem fresh w.contents
    rwa [contents_length] at hread
  · rw [hkept, hheap]
  · intro data n hdata
    exact hdata.write (by rw [contents_length]; omega)
      fun r hr => happart r (List.mem_append_left _ hr)

theorem Sound.reserve (h : w.Sound) (hcopies : w.copies = []) {size : BitVec 64} {fresh : Nat}
    (hfresh : w.str.capacity < size → w.Answers size fresh) :
    ∃ w', w.reserve size fresh = some (w', true) ∧ w.Grown w' size.toNat := by
  by_cases hle : size ≤ w.str.capacity
  · refine ⟨w, by rw [World.reserve, if_pos hle], h, BitVec.le_def.mp hle, ?_, rfl, rfl, rfl, ?_⟩
    · simp [Inside, hcopies]
    · exact fun _ _ _ => rfl
  · have hgrow := BitVec.not_le.mp hle
    obtain ⟨heap, hmalloc⟩ := Option.isSome_iff_exists.mp (hfresh hgrow)
    by_cases hbuf : w.str.buf = 0
    · exact h.reserve_first hcopies hgrow hbuf hmalloc
    · exact h.reserve_exchange hcopies hgrow hbuf hmalloc

/-! ## The calls -/

/-- What a call should leave: it succeeds, the buffer is as it should be, nothing was
written past it, and the contents are what the call says. -/
def Meets (w : World) (op : Op) (r : Option (World × Bool)) : Prop :=
  ∃ w', r = some (w', true) ∧ w'.Sound ∧ w'.Inside ∧ op.Turns w.mem w.contents w'.contents

theorem Sound.setSize (h : w.Sound) {size : BitVec 64} (hsize : size ≤ w.str.capacity) :
    (w.setSize size).Sound :=
  ⟨hsize, h.null, h.live, h.wf⟩

theorem Sound.setSize_zero (h : w.Sound) : (w.setSize 0).Sound :=
  h.setSize (BitVec.le_def.mpr (Nat.zero_le _))

section

variable {size : BitVec 64} {fresh : Nat}

theorem Sound.toNat_size_add (h : w.Sound) (hcap : w.str.capacity.toNat < 2 ^ 62)
    (hsize : size.toNat < 2 ^ 62) :
    (w.str.size + size).toNat = w.str.size.toNat + size.toNat := by
  have hle := h.size_toNat_le
  rw [BitVec.toNat_add, Nat.mod_eq_of_lt (by omega)]

/-- `Append` reserves what it needs: the sum and the doubling do not overflow. -/
theorem Sound.make_room (h : w.Sound) (hcopies : w.copies = [])
    (hcap : w.str.capacity.toNat < 2 ^ 62) (hsize : size.toNat < 2 ^ 62)
    (hfresh : w.str.capacity < w.str.size + size → w.Answers (size + w.str.capacity * 2) fresh) :
    ∃ t, (if w.str.capacity < w.str.size + size then
        w.reserve (size + w.str.capacity * 2) fresh else some (w, true)) = some (t, true) ∧
      w.Grown t (w.str.size + size).toNat := by
  have hle := h.size_toNat_le
  have hsum := h.toNat_size_add hcap hsize
  by_cases hfull : w.str.capacity < w.str.size + size
  · have htwice : (size + w.str.capacity * 2).toNat = size.toNat + w.str.capacity.toNat * 2 := by
      have htwo : (2 : BitVec 64).toNat = 2 := rfl
      rw [BitVec.toNat_add, BitVec.toNat_mul, htwo, Nat.mod_eq_of_lt (by omega),
        Nat.mod_eq_of_lt (by omega)]
    obtain ⟨t, ht, hgrown⟩ := h.reserve hcopies fun _ => hfresh hfull
    have hroom := hgrown.room
    exact ⟨t, by rw [if_pos hfull, ht], { hgrown with room := by omega }⟩
  · have hfits := BitVec.le_def.mp (BitVec.not_lt.mp hfull)
    refine ⟨w, if_neg hfull, h, hfits, ?_, rfl, rfl, rfl, fun _ _ _ => rfl⟩
    simp [Inside, hcopies]

theorem Sound.append (h : w.Sound) (hcopies : w.copies = []) {data : Nat}
    (hcap : w.str.capacity.toNat < 2 ^ 62) (hsize : size.toNat < 2 ^ 62)
    (hdata : w.Readable data size.toNat)
    (hfresh : w.str.capacity < w.str.size + size → w.Answers (size + w.str.capacity * 2) fresh) :
    ∃ w', w.append data size fresh = some (w', true) ∧ w'.Sound ∧ w'.Inside ∧
      w'.contents = w.contents ++ read w.mem data size.toNat := by
  have hsum := h.toNat_size_add hcap hsize
  obtain ⟨t, ht, hgrown⟩ := h.make_room hcopies hcap hsize hfresh
  have hroom := hgrown.room
  have hread := hgrown.data_eq data size.toNat hdata
  have hold := hgrown.contents_eq
  refine ⟨(t.memcpy (t.str.buf + t.str.size.toNat) data size.toNat).setSize (t.str.size + size),
    by rw [World.append, ht]; rfl, ⟨?_, hgrown.sound.null, hgrown.sound.live, hgrown.sound.wf⟩,
    ?_, ?_⟩
  · rw [hgrown.size_eq]
    exact BitVec.le_def.mpr hroom
  · intro r hr
    rcases List.mem_cons.mp hr with rfl | hr
    · rw [hgrown.size_eq]
      exact ⟨Nat.le_add_right _ _, by dsimp only [World.setSize, memcpy]; omega⟩
    · exact hgrown.inside r hr
  · -- The copy starts behind the old contents and has the length of the data.
    have hcopy := read_write_same t.mem (t.str.buf + t.str.size.toNat) (read t.mem data size.toNat)
    have hkept := read_write_disjoint t.mem (read t.mem data size.toNat)
      (a := t.str.buf + t.str.size.toNat) (b := t.str.buf) (n := t.str.size.toNat) (Or.inl le_rfl)
    rw [read_length] at hcopy
    rw [← hold, ← hread]
    show read _ _ (t.str.size + size).toNat = _
    rw [hgrown.size_eq, hsum, read_add, ← hgrown.size_eq]
    exact congrArg₂ (· ++ ·) hkept hcopy

theorem Sound.resize (h : w.Sound) (hcopies : w.copies = [])
    (hfresh : w.str.capacity < size → w.Answers size fresh) :
    ∃ w', w.resize size fresh = some (w', true) ∧ w'.Sound ∧ w'.Inside ∧
      w'.contents.length = size.toNat ∧
      w'.contents.take (min w.contents.length size.toNat) =
        w.contents.take (min w.contents.length size.toNat) := by
  obtain ⟨t, ht, hgrown⟩ := h.reserve hcopies hfresh
  refine ⟨t.setSize size, by rw [World.resize, ht]; rfl,
    hgrown.sound.setSize (BitVec.le_def.mpr hgrown.room), hgrown.inside, contents_length _, ?_⟩
  -- Both are read from the start of the buffer.
  have hshort : min w.str.size.toNat size.toNat ≤ t.str.size.toNat := by
    rw [hgrown.size_eq]
    exact Nat.min_le_left _ _
  rw [contents_length, ← hgrown.contents_eq, contents, contents, read_take _ _ hshort]
  exact read_take _ _ (Nat.min_le_right _ _)

end

theorem Sound.others (h : w.Sound) (hcopies : w.copies = []) {mem : Mem} {reserved : List Region}
    (hleft : (w.others mem reserved).isSome) :
    ∃ w', w.others mem reserved = some (w', true) ∧ w'.Sound ∧ w'.Inside ∧
      w'.contents = w.contents := by
  unfold World.others at hleft ⊢
  split at hleft
  · rename_i hc
    obtain ⟨hsame, happart⟩ := hc
    refine ⟨_, if_pos ⟨hsame, happart⟩, ⟨h.size_le, h.null, h.live, ?_⟩, ?_, ?_⟩
    · exact ⟨h.wf.apart, happart, h.wf.bounds⟩
    · simp [Inside, hcopies]
    · have htake := congrArg (List.take w.str.size.toNat) hsame
      rwa [read_take _ _ h.size_toNat_le, read_take _ _ h.size_toNat_le] at htake
  · cases hleft

/-- Every call that is allowed does what it says, in every state with a sound buffer. -/
theorem Sound.step (h : w.Sound) {op : Op} (hop : w.Allowed op) : w.Meets op (w.step op) := by
  -- A call starts a new record of the copies.
  obtain ⟨str, mem, heap, copies⟩ := w
  have h : Sound ⟨str, mem, heap, []⟩ := ⟨h.size_le, h.null, h.live, h.wf⟩
  obtain ⟨hcap, hop⟩ := hop
  cases op with
  | assign data size fresh =>
      obtain ⟨hsize, hdata, hfresh⟩ := hop
      have hclear := h.setSize_zero
      have hneed : str.capacity < 0 + size → str.capacity < size := by
        rw [show (0 : BitVec 64) + size = size from BitVec.zero_add size]
        exact id
      obtain ⟨w', hw', hsound, hinside, hcontents⟩ :=
        hclear.append rfl hcap hsize hdata fun hfull => hfresh (hneed hfull)
      exact ⟨w', hw', hsound, hinside, hcontents⟩
  | append data size fresh =>
      obtain ⟨hsize, hdata, hfresh⟩ := hop
      exact h.append rfl hcap hsize hdata hfresh
  | reserve size fresh =>
      obtain ⟨w', hw', hgrown⟩ := h.reserve rfl hop.2
      exact ⟨w', hw', hgrown.sound, hgrown.inside, hgrown.contents_eq⟩
  | resize size fresh => exact h.resize rfl hop.2
  | clear =>
      refine ⟨_, rfl, h.setSize_zero, ?_, rfl⟩
      intro r hr
      cases hr
  | others mem reserved => exact h.others rfl hop

/-! ## Whole runs -/

/-- A call without what it returns. -/
def call (w : World) (op : Op) : Option World := (w.step op).map Prod.fst

/-- Over any sequence of allowed calls, every call finds a sound buffer and does to the byte
sequence what it says. -/
theorem byte_sequence (mem : Mem) (reserved : List Region) {ops : List Op}
    (hallowed : Machine.StepsMeet call Allowed (new mem reserved) ops) :
    ∀ before op after, ops = before ++ op :: after →
      ∃ w, Machine.run call (new mem reserved) before = some w ∧ w.Sound ∧
        w.Meets op (w.step op) := by
  rintro before op after rfl
  obtain ⟨w, hrun, hsound⟩ := Machine.run_of_stepsMeet Sound (new_sound mem reserved)
    (fun t l ht hl => by
      obtain ⟨u, hu, hnext, -⟩ := ht.step hl
      exact ⟨u, by rw [call, hu]; rfl, hnext⟩) hallowed.of_append
  exact ⟨w, hrun, hsound, hsound.step (hallowed before op after rfl w hrun)⟩

/-- Buffers of three, sixteen and forty bytes; the value is short and the last one holds it. -/
theorem byte_sequence_sample :
    ∃ w, Machine.run call (new (fun a => BitVec.ofNat 8 a) [(4096, 64)])
        [.append 4096 3 8192, .append 4099 10 8448,
          .others (fun a => if a < 64 then 7 else BitVec.ofNat 8 a) [(16, 8)], .reserve 40 8704,
          .resize 5 0] = some w ∧
      w.Sound ∧ w.Meets (.assign 20 2 0) (w.step (.assign 20 2 0)) :=
  byte_sequence (fun a => BitVec.ofNat 8 a) [(4096, 64)]
    (Machine.StepsMeet.of_meets (by decide +kernel)) _ _ [.clear] rfl

end World

end StringBuffer

end XfUtil
