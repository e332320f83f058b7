import XfUtil.WriteBuffer.Model

/-!
# The buffers of `m_bufs`

They are live allocations of the heap, no two of them overlap, and so the loop of
`Clear` frees each of them once.
-/

namespace XfUtil

open FlatMemory

namespace System

/-- `bufs` points to the allocations `rs` of the heap. -/
structure Bufs (h : Heap) (bufs : List Nat) (rs : List Region) : Prop where
  wf : h.Wf
  addresses : bufs = rs.map Prod.fst
  live : ∀ r ∈ rs, r ∈ h.live
  apart : rs.Pairwise Region.Apart

namespace Bufs

variable {h : Heap} {bufs : List Nat} {rs : List Region}

theorem none (reserved : List Region) : Bufs ⟨reserved, []⟩ [] [] :=
  ⟨⟨List.Pairwise.nil, by simp, by simp⟩, rfl, by simp, List.Pairwise.nil⟩

theorem bounds (hb : Bufs h bufs rs) {r : Region} (hr : r ∈ rs) :
    0 < r.1 ∧ 0 < r.2 ∧ r.1 + r.2 < 2 ^ 64 :=
  hb.wf.bounds r (hb.live r hr)

theorem push (hb : Bufs h bufs rs) {h' : Heap} {n a : Nat} (hn : 0 < n)
    (hm : h.malloc n a = some h') : Bufs h' (bufs ++ [a]) (rs ++ [(a, n)]) := by
  have hwf := hb.wf.malloc hn hm
  obtain ⟨rfl, -, -, happart⟩ := Heap.malloc_eq_some hm
  refine ⟨hwf, by simp [hb.addresses], ?_, ?_⟩
  · intro r hr
    rcases List.mem_append.mp hr with hr | hr
    · exact List.mem_cons_of_mem _ (hb.live r hr)
    · obtain rfl := List.mem_singleton.mp hr
      exact List.mem_cons_self
  · refine List.pairwise_append.mpr ⟨hb.apart, List.pairwise_singleton _ _, fun r hr r' hr' => ?_⟩
    obtain rfl := List.mem_singleton.mp hr'
    exact (happart r (List.mem_append_right _ (hb.live r hr))).symm

theorem malloc (hb : Bufs h bufs rs) {h' : Heap} {n a : Nat} (hn : 0 < n)
    (hm : h.malloc n a = some h') : Bufs h' bufs rs := by
  have hwf := hb.wf.malloc hn hm
  obtain ⟨rfl, -, -, -⟩ := Heap.malloc_eq_some hm
  exact ⟨hwf, hb.addresses, fun r hr => List.mem_cons_of_mem _ (hb.live r hr), hb.apart⟩

/-- The loop of `Clear` frees these allocations and no others. -/
theorem freeBufs (hb : Bufs h bufs rs) :
    ∃ h', XfUtil.freeBufs h bufs = some h' ∧ h'.Wf ∧ h'.reserved = h.reserved ∧
      ∀ q, q ∈ h'.live ↔ q ∈ h.live ∧ q ∉ rs := by
  induction rs generalizing h bufs with
  | nil =>
      obtain rfl := hb.addresses
      exact ⟨h, rfl, hb.wf, rfl, by simp⟩
  | cons r rs ih =>
      obtain rfl := hb.addresses
      obtain ⟨hr, hrs⟩ := List.pairwise_cons.mp hb.apart
      obtain ⟨h₁, hfree, hwf, hreserved, hlive⟩ := hb.wf.free (hb.live r (by simp))
      have hrest : Bufs h₁ (rs.map Prod.fst) rs := by
        refine ⟨hwf, rfl, fun q hq => (hlive q).mpr ⟨hb.live q (by simp [hq]), ?_⟩, hrs⟩
        exact ((hr q hq).ne (hb.bounds (by simp)).2.1).symm
      obtain ⟨h', hloop, hwf', hreserved', hlive'⟩ := ih hrest
      refine ⟨h', ?_, hwf', hreserved'.trans hreserved, fun q => ?_⟩
      · rw [List.map_cons, XfUtil.freeBufs, hfree, Option.bind_some, hloop]
      · rw [hlive', hlive, List.mem_cons]
        tauto

end Bufs

end System

end XfUtil
