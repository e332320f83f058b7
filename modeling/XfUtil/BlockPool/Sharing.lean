import XfUtil.BlockPool.Clients

/-!
# What the buffers on one pool share

No byte is handed out twice, by one buffer or by two. Every buffer can give back what it
has at any time, and when the last one is gone the pool has its blocks again and the heap
is empty.
-/

namespace XfUtil

open FlatMemory

/-! ## One element of a list of buffers -/

section Lists

variable {α β : Type*}

theorem flatMap_perm_eraseIdx (f : α → List β) {xs : List α} {i : Nat} {x : α}
    (h : xs[i]? = some x) : (xs.flatMap f).Perm (f x ++ (xs.eraseIdx i).flatMap f) := by
  obtain ⟨hi, rfl⟩ := List.getElem?_eq_some_iff.mp h
  exact ((List.getElem_cons_eraseIdx_perm hi).flatMap_right f).symm

theorem flatMap_set_perm (f : α → List β) {xs : List α} {i : Nat} {x : α} (y : α)
    (h : xs[i]? = some x) : ((xs.set i y).flatMap f).Perm (f y ++ (xs.eraseIdx i).flatMap f) := by
  obtain ⟨hi, -⟩ := List.getElem?_eq_some_iff.mp h
  have hset := flatMap_perm_eraseIdx f (List.getElem?_set_self hi (a := y))
  rwa [List.eraseIdx_set_eq] at hset

theorem sublist_flatMap (f : α → List β) {xs : List α} {x : α} (h : x ∈ xs) :
    (f x).Sublist (xs.flatMap f) := by
  rw [List.flatMap_def]
  exact List.sublist_flatten_of_mem (List.mem_map_of_mem h)

end Lists

/-! ## The calls of one buffer -/

namespace Client

variable {base count : Nat} {p p' : BlockPool} {h h' : Heap} {users : List Nat}
  {rs : List Region} {c c' : Client}

/-- A `WriteBuffer` is in order. -/
def Sound (p : BlockPool) (h : Heap) : Client → Prop
  | .writeBuffer b rs returned => (p.alone h b rs returned).Backed
  | .blockBuffer _ => True

theorem Sound.other (hc : c.Sound p h) (hsize : p'.blockSize = p.blockSize)
    (hk : BlockPool.Kept base count p' h' users rs)
    (husers : (c.blocks p.blockSize).Sublist users) (hrs : (c.regions p.blockSize).Sublist rs) :
    c.Sound p' h' := by
  cases c with
  | blockBuffer bs => trivial
  | writeBuffer b bufs returned =>
      obtain ⟨q, hq⟩ := System.Backed.pool hc
      obtain rfl := Option.some.inj hq.pool
      have haddresses : b.bufs = bufs.map Prod.fst := hq.holds.bufs.addresses
      have hholds : p'.Holds h' (b.blocks ++ []) b.bufs bufs := by
        rw [List.append_nil, haddresses]
        exact hk.restrict husers hrs
      exact System.Backed.other hc ⟨rfl, hsize.trans hq.size, hholds⟩

theorem write_cases {b : WriteBuffer} {bufs returned : List Region} {size : BitVec 32}
    {fresh : Nat} {t : System} (ht : (p.alone h b bufs returned).write size fresh = some t) :
    ∃ p', t = p'.alone t.heap t.buffer t.bufRegions t.returned ∧
      ((p' = p ∧ t.heap = h ∧ t.buffer.blocks = b.blocks ∧ t.bufRegions = bufs) ∨
        (p' = p ∧ t.buffer.blocks = b.blocks ∧
          ∃ a, h.malloc size.toNat a = some t.heap ∧ t.bufRegions = bufs ++ [(a, size.toNat)]) ∨
        ∃ block, poolAlloc p h fresh = some (block, p', t.heap) ∧
          t.buffer.blocks = b.blocks ++ [block] ∧ t.bufRegions = bufs) := by
  unfold System.write at ht
  split at ht
  · obtain rfl := Option.some.inj ht
    exact ⟨p, rfl, Or.inl ⟨rfl, rfl, rfl, rfl⟩⟩
  · unfold System.largeWrite at ht
    split at ht
    · obtain ⟨heap, hm, rfl⟩ := Option.map_eq_some_iff.mp ht
      exact ⟨p, rfl, Or.inr (Or.inl ⟨rfl, rfl, fresh, hm, rfl⟩)⟩
    · obtain ⟨⟨block, p', heap⟩, ha, rfl⟩ := Option.map_eq_some_iff.mp ht
      exact ⟨p', rfl, Or.inr (Or.inr ⟨block, ha, rfl, rfl⟩)⟩

theorem write_kept {b : WriteBuffer} {bufs returned : List Region} {size : BitVec 32}
    {fresh : Nat} {t : System} (hpos : 1 ≤ size)
    (ht : (p.alone h b bufs returned).write size fresh = some t)
    (hk : BlockPool.Kept base count p h (b.blocks ++ users) (bufs ++ rs)) :
    ∃ p', t = p'.alone t.heap t.buffer t.bufRegions t.returned ∧ p'.blockSize = p.blockSize ∧
      BlockPool.Kept base count p' t.heap (t.buffer.blocks ++ users) (t.bufRegions ++ rs) := by
  have hpos' : 0 < size.toNat := BitVec.le_def.mp hpos
  obtain ⟨p', heq, ⟨rfl, hheap, hblocks, hbufs⟩ | ⟨rfl, hblocks, a, hm, hbufs⟩ |
    ⟨block, ha, hblocks, hbufs⟩⟩ := write_cases ht
  · exact ⟨p', heq, rfl, by rwa [hheap, hblocks, hbufs]⟩
  · refine ⟨p', heq, rfl, ?_⟩
    rw [hblocks, hbufs]
    refine (hk.malloc hpos' hm).perm (List.Perm.refl _) ?_
    have hmiddle : (bufs ++ (a, size.toNat) :: rs).Perm ((a, size.toNat) :: (bufs ++ rs)) :=
      List.perm_middle
    simpa using hmiddle.symm
  · obtain ⟨hsize, hk'⟩ := hk.take ha
    refine ⟨p', heq, hsize, ?_⟩
    rw [hblocks, hbufs]
    refine hk'.perm ?_ (List.Perm.refl _)
    have hmiddle : (b.blocks ++ block :: users).Perm (block :: (b.blocks ++ users)) :=
      List.perm_middle
    simpa using hmiddle.symm

/-- A block of a `BlockBuffer` comes from the pool exactly if it has the size of one. -/
theorem alloc_kept {bs : List Block} {size : BitVec 32} {fresh : Nat} {block : Block}
    (ha : p.allocBlock h size fresh = some (block, p', h'))
    (hk : BlockPool.Kept base count p h ((Client.blockBuffer bs).blocks p.blockSize ++ users)
      ((Client.blockBuffer bs).regions p.blockSize ++ rs)) :
    p'.blockSize = p.blockSize ∧
      BlockPool.Kept base count p' h'
        ((Client.blockBuffer (bs ++ [block])).blocks p.blockSize ++ users)
        ((Client.blockBuffer (bs ++ [block])).regions p.blockSize ++ rs) := by
  unfold BlockPool.allocBlock at ha
  split at ha
  · rename_i hle
    obtain ⟨⟨a, r⟩, htake, heq⟩ := Option.map_eq_some_iff.mp ha
    cases heq
    obtain ⟨hsize, hk'⟩ := hk.take htake
    have hcap : (allocBlock p.blockSize size a).capacity = p.blockSize := by
      rw [allocBlock, if_pos hle]
    refine ⟨hsize, hk'.perm ?_ ?_⟩
    · rw [blocks, blocks, List.filter_append, List.map_append, List.append_assoc]
      simpa [hcap] using List.perm_middle.symm
    · rw [regions, regions, List.filter_append]
      simp [hcap]
  · rename_i hgt
    obtain ⟨heap, hm, heq⟩ := Option.map_eq_some_iff.mp ha
    cases heq
    have hcap := BlockBuffer.allocBlock_capacity_ne hk.holds.accepted fresh hgt
    have hpos : 0 < (allocBlock p.blockSize size fresh).region.2 :=
      lt_of_lt_of_le Nat.one_pos (Nat.le_max_left _ _)
    have hregion : (allocBlock p.blockSize size fresh).region =
        (fresh, (allocBlock p.blockSize size fresh).region.2) := by
      simp [Block.region]
    refine ⟨rfl, (hk.malloc hpos hm).perm ?_ ?_⟩
    · rw [blocks, blocks, List.filter_append]
      simp [hcap]
    · rw [regions, regions, List.filter_append, List.map_append, List.append_assoc, ← hregion]
      simpa [hcap] using List.perm_middle.symm

/-- The loop of `BlockBuffer::Free` hands every block back to where it came from. -/
theorem freeHeld_kept {bs : List Block}
    (hk : BlockPool.Kept base count p h ((Client.blockBuffer bs).blocks p.blockSize ++ users)
      ((Client.blockBuffer bs).regions p.blockSize ++ rs)) :
    ∃ p' h', freeHeld p h bs = some (p', h') ∧ p'.blockSize = p.blockSize ∧
      BlockPool.Kept base count p' h' users rs := by
  induction bs generalizing p h with
  | nil => exact ⟨p, h, rfl, rfl, hk⟩
  | cons block bs ih =>
      by_cases hcap : block.capacity = p.blockSize
      · simp only [blocks, regions, hcap, decide_true, List.filter_cons_of_pos, List.map_cons,
          List.cons_append, ne_eq, not_true_eq_false, decide_false, Bool.false_eq_true,
          not_false_eq_true, List.filter_cons_of_neg] at hk
        obtain ⟨p₁, h₁, hfree, hsize₁, hk₁⟩ := hk.give
        obtain ⟨p', h', hloop, hsize, hk'⟩ := ih (by rw [hsize₁]; exact hk₁)
        refine ⟨p', h', ?_, hsize.trans hsize₁, hk'⟩
        rw [freeHeld, if_pos hcap, hfree, Option.bind_some, hloop]
      · simp only [blocks, regions, hcap, decide_true, List.filter_cons_of_pos, List.map_cons,
          List.cons_append, ne_eq, not_false_eq_true, decide_false, Bool.false_eq_true,
          List.filter_cons_of_neg] at hk
        obtain ⟨h₁, hfree, hk₁⟩ := hk.free
        obtain ⟨p', h', hloop, hsize, hk'⟩ := ih hk₁
        refine ⟨p', h', ?_, hsize, hk'⟩
        have hfree' : h.free block.buf = some h₁ := hfree
        rw [freeHeld, if_neg hcap, hfree', Option.bind_some, hloop]

theorem Sound.release (hc : c.Sound p h)
    (hk : BlockPool.Kept base count p h (c.blocks p.blockSize ++ users)
      (c.regions p.blockSize ++ rs)) :
    ∃ c' p' h', c.release p h = some (c', p', h') ∧ p'.blockSize = p.blockSize ∧
      BlockPool.Kept base count p' h' users rs ∧ c'.blocks p.blockSize = [] ∧
      c'.regions p.blockSize = [] ∧ c'.Sound p' h' := by
  cases c with
  | blockBuffer bs =>
      obtain ⟨p', h', hloop, hsize, hk'⟩ := freeHeld_kept hk
      refine ⟨.blockBuffer [], p', h', ?_, hsize, hk', rfl, rfl, trivial⟩
      rw [Client.release, hloop, Option.map_some]
  | writeBuffer b bufs returned =>
      obtain ⟨q, hq⟩ := System.Backed.pool hc
      obtain ⟨t, hclear, hcleared, q', hq'⟩ := hq.clear
      have hback := System.Backed.of_cleared hcleared hq'
      obtain rfl := Option.some.inj hq.pool
      replace hk : BlockPool.Kept base count p h (b.blocks ++ users) (bufs ++ rs) := hk
      obtain ⟨p', h₁, hblocks, hsize, hk₁⟩ := hk.freeBlocks
      obtain ⟨h', hbufs, hk'⟩ := hk₁.freeBufs
      have haddresses : b.bufs = bufs.map Prod.fst := hq.holds.bufs.addresses
      generalize hb' : ({ b with ptr := 0, size := 0, usage := 0, blocks := [], bufs := [] } :
        WriteBuffer) = b'
      have hclear' : (p.alone h b bufs returned).clear = some (p'.alone h' b' [] []) := by
        rw [System.clear, BlockPool.alone, hblocks, Option.bind_some, haddresses, hbufs,
          Option.map_some, ← hb']
        rfl
      obtain rfl := Option.some.inj (hclear.symm.trans hclear')
      refine ⟨.writeBuffer b' [] [], p', h', ?_, hsize, hk', ?_, rfl, hback⟩
      · rw [Client.release, hclear]
        rfl
      · rw [← hb']
        rfl

/-! ## What a buffer has handed out -/

/-- A block of a `BlockBuffer` with its memory. -/
def extent (blockSize : BitVec 32) (b : Block) : Region :=
  if b.capacity = blockSize then (b.buf, blockSize.toNat) else b.region

theorem extent_perm (blockSize : BitVec 32) (bs : List Block) :
    ((Client.blockBuffer bs).owned blockSize).Perm (bs.map (extent blockSize)) := by
  have hpool : (bs.filter fun b => b.capacity = blockSize).map (extent blockSize) =
      ((Client.blockBuffer bs).blocks blockSize).map fun b => (b, blockSize.toNat) := by
    rw [blocks, List.map_map]
    apply List.map_congr_left
    intro b hb
    rw [extent, if_pos (by simpa using (List.mem_filter.mp hb).2)]
    rfl
  have hheap : (bs.filter fun b => !decide (b.capacity = blockSize)).map (extent blockSize) =
      (Client.blockBuffer bs).regions blockSize := by
    simp only [regions, ne_eq, decide_not]
    apply List.map_congr_left
    intro b hb
    rw [extent, if_neg (by simpa using (List.mem_filter.mp hb).2)]
  rw [owned, ← hpool, ← hheap, ← List.map_append]
  exact (List.filter_append_perm _ bs).map _

theorem within_extent (blockSize : BitVec 32) (b : Block) :
    Region.Within (b.buf, b.capacity.toNat) (extent blockSize b) := by
  unfold extent
  split
  · rename_i hcap
    rw [hcap]
    exact Region.Within.refl _
  · exact ⟨le_rfl, Nat.add_le_add_left (Nat.le_max_right _ _) _⟩

/-- A buffer hands out its own memory only, and none of it twice. -/
theorem Sound.handed (hc : c.Sound p h) (happart : (c.owned p.blockSize).Pairwise Region.Apart) :
    (∀ q ∈ c.handed, ∃ r ∈ c.owned p.blockSize, Region.Within q r) ∧
      c.handed.Pairwise Region.Apart := by
  cases c with
  | writeBuffer b bufs returned =>
      obtain ⟨q, hq⟩ := System.Backed.pool hc
      obtain rfl := Option.some.inj hq.pool
      have howned : (p.alone h b bufs returned).owned =
          (Client.writeBuffer b bufs returned).owned p.blockSize := by
        rw [System.owned, ← hq.size]
        rfl
      have hcarved := System.Backed.carved hc
      rw [howned] at hcarved
      exact ⟨hcarved.inside, hcarved.apart⟩
  | blockBuffer bs =>
      have hperm := extent_perm p.blockSize bs
      rw [List.Perm.pairwise_iff Region.Apart.symm hperm, List.pairwise_map] at happart
      constructor
      · intro q hq
        obtain ⟨b, hb, rfl⟩ := List.mem_map.mp hq
        exact ⟨_, hperm.mem_iff.mpr (List.mem_map_of_mem hb), within_extent _ b⟩
      · rw [Client.handed, List.pairwise_map]
        exact happart.imp fun hab => hab.within (within_extent _ _) (within_extent _ _)

end Client

/-! ## The invariant -/

namespace PoolClients

variable {bs : BitVec 32} {base count : Nat} {w v : PoolClients} {l : Call}

/-- The blocks in use. -/
def blocks (w : PoolClients) : List Nat := w.clients.flatMap (Client.blocks w.pool.blockSize)

/-- The allocations of the heap, but for blocks. -/
def regions (w : PoolClients) : List Region :=
  w.clients.flatMap (Client.regions w.pool.blockSize)

structure Inv (bs : BitVec 32) (base count : Nat) (w : PoolClients) : Prop where
  size : w.pool.blockSize = bs
  kept : BlockPool.Kept base count w.pool w.heap w.blocks w.regions
  sound : ∀ c ∈ w.clients, c.Sound w.pool w.heap

theorem Inv.move (hw : w.Inv bs base count) {i : Nat} {c c' : Client} {p : BlockPool} {h : Heap}
    (hc : w.clients[i]? = some c) (hsize : p.blockSize = w.pool.blockSize)
    (hk : BlockPool.Kept base count p h
      (c'.blocks p.blockSize ++ (w.clients.eraseIdx i).flatMap (Client.blocks p.blockSize))
      (c'.regions p.blockSize ++ (w.clients.eraseIdx i).flatMap (Client.regions p.blockSize)))
    (hsound : c'.Sound p h) : (w.put i c' p h).Inv bs base count := by
  have hblocks : (w.put i c' p h).blocks.Perm _ := flatMap_set_perm _ c' hc
  have hregions : (w.put i c' p h).regions.Perm _ := flatMap_set_perm _ c' hc
  have hkept : BlockPool.Kept base count p h (w.put i c' p h).blocks (w.put i c' p h).regions :=
    hk.perm hblocks.symm hregions.symm
  refine ⟨hsize.trans hw.size, hkept, fun d hd => ?_⟩
  rcases List.mem_or_eq_of_mem_set hd with hmem | rfl
  · refine (hw.sound d hmem).other hsize hkept ?_ ?_
    · rw [← hsize]
      exact sublist_flatMap _ hd
    · rw [← hsize]
      exact sublist_flatMap _ hd
  · exact hsound

/-- The accounts with one buffer in front. -/
theorem Inv.focus (hw : w.Inv bs base count) {i : Nat} {c : Client} (hc : w.clients[i]? = some c) :
    BlockPool.Kept base count w.pool w.heap
      (c.blocks w.pool.blockSize ++
        (w.clients.eraseIdx i).flatMap (Client.blocks w.pool.blockSize))
      (c.regions w.pool.blockSize ++
        (w.clients.eraseIdx i).flatMap (Client.regions w.pool.blockSize)) :=
  hw.kept.perm (flatMap_perm_eraseIdx _ hc) (flatMap_perm_eraseIdx _ hc)

theorem start_inv {blockSize cacheNum : BitVec 32} {buf : Nat} {p : BlockPool}
    (hinit : BlockPool.new.init blockSize cacheNum buf = (p, true)) {reserved : List Region}
    (harena : (buf, blockSize.toNat * cacheNum.toNat) ∈ reserved)
    (hend : buf + blockSize.toNat * cacheNum.toNat < 2 ^ 64) :
    (start p reserved).Inv blockSize buf cacheNum.toNat := by
  obtain ⟨hsize, hk⟩ := BlockPool.kept_init hinit harena hend
  exact ⟨hsize, hk, by simp [start]⟩

theorem Inv.add (hw : w.Inv bs base count) {c : Client} (hblocks : c.blocks w.pool.blockSize = [])
    (hregions : c.regions w.pool.blockSize = []) (hc : c.Sound w.pool w.heap) :
    (w.add c).Inv bs base count := by
  refine ⟨hw.size, ?_, fun d hd => ?_⟩
  · have hblocks' : (w.add c).blocks = w.blocks := by
      rw [blocks, PoolClients.add, List.flatMap_append, List.flatMap_singleton, hblocks,
        List.append_nil]
      rfl
    have hregions' : (w.add c).regions = w.regions := by
      rw [regions, PoolClients.add, List.flatMap_append, List.flatMap_singleton, hregions,
        List.append_nil]
      rfl
    rw [hblocks', hregions']
    exact hw.kept
  · rcases List.mem_append.mp hd with hmem | hmem
    · exact hw.sound d hmem
    · obtain rfl := List.mem_singleton.mp hmem
      exact hc

theorem Inv.release (hw : w.Inv bs base count) {i : Nat} {c : Client}
    (hc : w.clients[i]? = some c) :
    ∃ c' p h, c.release w.pool w.heap = some (c', p, h) ∧ (w.put i c' p h).Inv bs base count ∧
      (⟨p, h, w.clients.eraseIdx i⟩ : PoolClients).Inv bs base count := by
  have hmem : c ∈ w.clients := List.mem_of_getElem? hc
  obtain ⟨c', p, h, hrelease, hsize, hk, hblocks, hregions, hsound⟩ :=
    (hw.sound c hmem).release (hw.focus hc)
  rw [← hsize] at hk hblocks hregions
  refine ⟨c', p, h, hrelease, hw.move hc hsize ?_ hsound, hsize.trans hw.size, hk,
    fun d hd => ?_⟩
  · rw [hblocks, hregions]
    exact hk
  · have hd' : d ∈ w.clients := List.mem_of_mem_eraseIdx hd
    refine (hw.sound d hd').other hsize hk ?_ ?_
    · rw [← hsize]
      exact sublist_flatMap _ hd
    · rw [← hsize]
      exact sublist_flatMap _ hd

/-- A `Write` asks for something. -/
def Call.Positive : Call → Prop
  | .write _ size _ => 1 ≤ size
  | _ => True

theorem Inv.step (hw : w.Inv bs base count) (hl : l.Positive) (hstep : step w l = some v) :
    v.Inv bs base count := by
  cases l with
  | newWriteBuffer =>
      obtain rfl := Option.some.inj hstep
      refine hw.add rfl rfl ?_
      have hholds : w.pool.Holds w.heap [] [] [] :=
        hw.kept.restrict (List.nil_sublist _) (List.nil_sublist _)
      exact ⟨⟨w.pool, rfl, rfl, hholds⟩, Carved.empty 0, rfl, le_rfl, Nat.zero_le _⟩
  | newBlockBuffer =>
      obtain rfl := Option.some.inj hstep
      exact hw.add rfl rfl trivial
  | write i size fresh =>
      rw [PoolClients.step] at hstep
      cases hc : w.clients[i]? with
      | none => simp [hc] at hstep
      | some c =>
          cases c with
          | blockBuffer bs => simp [hc] at hstep
          | writeBuffer b bufs returned =>
              rw [hc] at hstep
              obtain ⟨t, ht, hstep⟩ := Option.bind_eq_some_iff.mp hstep
              obtain ⟨p, heq, hsize, hk⟩ := Client.write_kept hl ht (hw.focus hc)
              have hback : t.Backed := (hw.sound _ (List.mem_of_getElem? hc)).write hl ht
              rw [heq] at hback hstep
              obtain rfl := Option.some.inj hstep
              rw [← hsize] at hk
              exact hw.move hc hsize hk hback
  | alloc i size fresh =>
      rw [PoolClients.step] at hstep
      cases hc : w.clients[i]? with
      | none => simp [hc] at hstep
      | some c =>
          cases c with
          | writeBuffer b bufs returned => simp [hc] at hstep
          | blockBuffer bs =>
              rw [hc] at hstep
              obtain ⟨⟨block, p, h⟩, ha, rfl⟩ := Option.map_eq_some_iff.mp hstep
              obtain ⟨hsize, hk⟩ := Client.alloc_kept ha (hw.focus hc)
              rw [← hsize] at hk
              exact hw.move hc hsize hk trivial
  | release i =>
      obtain ⟨c, hc, hstep⟩ := Option.bind_eq_some_iff.mp hstep
      obtain ⟨r, hr, rfl⟩ := Option.map_eq_some_iff.mp hstep
      obtain ⟨c', p, h, hrelease, hput, -⟩ := hw.release hc
      obtain rfl := Option.some.inj (hrelease.symm.trans hr)
      exact hput
  | destroy i =>
      obtain ⟨c, hc, hstep⟩ := Option.bind_eq_some_iff.mp hstep
      obtain ⟨r, hr, rfl⟩ := Option.map_eq_some_iff.mp hstep
      obtain ⟨c', p, h, hrelease, -, hgone⟩ := hw.release hc
      obtain rfl := Option.some.inj (hrelease.symm.trans hr)
      exact hgone

theorem Inv.run {ls : List Call} (hw : w.Inv bs base count) (hls : ∀ l ∈ ls, l.Positive)
    (hrun : Machine.run PoolClients.step w ls = some v) : v.Inv bs base count := by
  have hstep : ∀ w l v, Inv bs base count w → l.Positive → PoolClients.step w l = some v →
      Inv bs base count v := fun _ _ _ hw hl h => hw.step hl h
  exact Machine.run_invariant_of_stepsMeet (Inv bs base count) hw hstep
    (Machine.StepsMeet.of_forall hls) hrun

/-! ## Safety -/

theorem Inv.owned_apart (hw : w.Inv bs base count) :
    (w.clients.flatMap (Client.owned w.pool.blockSize)).Pairwise Region.Apart := by
  have hall := hw.kept.holds.apart
  rw [List.map_append, List.append_assoc] at hall
  have hperm : (w.blocks.map w.pool.region ++ w.regions).Perm
      (w.clients.flatMap (Client.owned w.pool.blockSize)) := by
    rw [blocks, List.map_flatMap, regions]
    exact List.flatMap_append_perm _ _ _
  exact (List.Perm.pairwise_iff Region.Apart.symm hperm).mp (List.pairwise_append.mp hall).2.1

/-- In every run no byte is handed out twice, neither by one buffer nor by two, and each
buffer hands out memory of its own. -/
theorem run_apart {blockSize cacheNum : BitVec 32} {buf : Nat} {p : BlockPool}
    (hinit : BlockPool.new.init blockSize cacheNum buf = (p, true)) {reserved : List Region}
    (harena : (buf, blockSize.toNat * cacheNum.toNat) ∈ reserved)
    (hend : buf + blockSize.toNat * cacheNum.toNat < 2 ^ 64) {ls : List Call}
    (hls : ∀ l ∈ ls, l.Positive) (hrun : Machine.run step (start p reserved) ls = some w) :
    (w.clients.flatMap Client.handed).Pairwise Region.Apart ∧
      ∀ c ∈ w.clients, ∀ q ∈ c.handed, ∃ r ∈ c.owned w.pool.blockSize, Region.Within q r := by
  have hw := (start_inv hinit harena hend).run hls hrun
  have howned := List.pairwise_flatMap.mp hw.owned_apart
  have hhanded : ∀ c ∈ w.clients, _ := fun c hc => (hw.sound c hc).handed (howned.1 c hc)
  refine ⟨List.pairwise_flatMap.mpr ⟨fun c hc => (hhanded c hc).2, ?_⟩,
    fun c hc => (hhanded c hc).1⟩
  refine howned.2.imp_of_mem fun hc hd happart q hq r hr => ?_
  obtain ⟨q', hq', hin⟩ := (hhanded _ hc).1 q hq
  obtain ⟨r', hr', hin'⟩ := (hhanded _ hd).1 r hr
  exact (happart q' hq' r' hr').within hin hin'

/-- A pool of one block with three buffers on it: a block of the arena, one of the heap, and
two large ones. -/
def threeBuffers : PoolClients :=
  (Machine.run step (start ⟨4096, 4096, 8192, [4096]⟩ [(4096, 4096)])
    [.newWriteBuffer, .newBlockBuffer, .write 0 1500 0, .alloc 1 1 16384, .newWriteBuffer,
      .write 2 3000 32768, .alloc 1 5000 65536, .write 0 2000 0]).get (by decide +kernel)

theorem run_apart_threeBuffers :
    (threeBuffers.clients.flatMap Client.handed).Pairwise Region.Apart ∧
      ∀ c ∈ threeBuffers.clients, ∀ q ∈ c.handed,
        ∃ r ∈ c.owned threeBuffers.pool.blockSize, Region.Within q r := by
  have hinit : BlockPool.new.init 4096 1 4096 = (⟨4096, 4096, 8192, [4096]⟩, true) := rfl
  exact run_apart hinit (List.mem_singleton_self _) (by decide)
    (by simp [Call.Positive, BitVec.le_def]) (Option.some_get _).symm

/-! ## Nothing is lost -/

/-- In every run `Clear`, `Free` and the destructors free only what may be freed; and when no
buffer is left, the deque holds the blocks of the arena, each once, and the heap is empty. -/
theorem run_returns {blockSize cacheNum : BitVec 32} {buf : Nat} {p : BlockPool}
    (hinit : BlockPool.new.init blockSize cacheNum buf = (p, true)) {reserved : List Region}
    (harena : (buf, blockSize.toNat * cacheNum.toNat) ∈ reserved)
    (hend : buf + blockSize.toNat * cacheNum.toNat < 2 ^ 64) {ls : List Call}
    (hls : ∀ l ∈ ls, l.Positive) (hrun : Machine.run step (start p reserved) ls = some w) :
    (∀ i < w.clients.length,
      (step w (.release i)).isSome = true ∧ (step w (.destroy i)).isSome = true) ∧
      (w.clients = [] →
        w.pool.freeBlocks.Perm (slots buf blockSize.toNat cacheNum.toNat) ∧
        w.heap.live = []) := by
  have hw := (start_inv hinit harena hend).run hls hrun
  refine ⟨fun i hi => ?_, fun hnone => ⟨?_, ?_⟩⟩
  · have hc : w.clients[i]? = some w.clients[i] := List.getElem?_eq_getElem hi
    obtain ⟨c', p, h, hrelease, -, -⟩ := hw.release hc
    constructor
    · rw [step, hc, Option.bind_some, hrelease]
      rfl
    · rw [step, hc, Option.bind_some, hrelease]
      rfl
  · have hdeque := hw.kept.deque
    rw [blocks, hnone, hw.size] at hdeque
    simpa using hdeque
  · apply List.eq_nil_iff_forall_not_mem.mpr
    intro q hq
    have hused := (hw.kept.heap q).mp hq
    simp [blocks, regions, hnone] at hused

/-- The last of three buffers is destroyed. -/
theorem run_returns_threeBuffers : ∃ w,
    Machine.run step (start ⟨4096, 4096, 8192, [4096]⟩ [(4096, 4096)])
      [.newWriteBuffer, .newBlockBuffer, .write 0 1500 0, .alloc 1 1 16384, .destroy 0,
        .alloc 0 1 0, .destroy 0] = some w ∧
    w.pool.freeBlocks.Perm [4096] ∧ w.heap.live = [] := by
  have hinit : BlockPool.new.init 4096 1 4096 = (⟨4096, 4096, 8192, [4096]⟩, true) := rfl
  have hrun : Machine.run step (start ⟨4096, 4096, 8192, [4096]⟩ [(4096, 4096)])
      [.newWriteBuffer, .newBlockBuffer, .write 0 1500 0, .alloc 1 1 16384, .destroy 0,
        .alloc 0 1 0, .destroy 0] =
      some ⟨⟨4096, 4096, 8192, [4096]⟩, ⟨[(4096, 4096)], []⟩, []⟩ := by
    decide +kernel
  refine ⟨_, hrun, ?_⟩
  exact (run_returns hinit (List.mem_singleton_self _) (by decide)
    (by simp [Call.Positive, BitVec.le_def]) hrun).2 rfl

end PoolClients

end XfUtil
