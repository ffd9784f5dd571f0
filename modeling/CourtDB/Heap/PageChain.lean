/-
# The pages of a heap file, seen from outside

A client that fetches the first page of a heap file and follows the links sees the chain
(`pageChain`), and can count the slots that are in use on the way (`slotsInUse`).  If the heap file
is in order, these are its pages and its records (`Ok.pageChain`, `Ok.slotsInUse`).
-/
import CourtDB.Buffer.PoolAccess
import CourtDB.Heap.HeapScan

namespace CourtDB

/-- The pages that a client meets who follows the links from page `id` on, `fuel` of them at
most. -/
def pageChain (b : BufferPoolManager) : Nat → PageId → List PageId
  | 0, _ => []
  | fuel + 1, id =>
    if id = invalidPageId then [] else
      match b.pageOf id with
      | none => []
      | some p => id :: pageChain b fuel p.getNextPageId

/-- The number of slots that are not empty. -/
def Page.slotsInUse (p : Page) : Nat :=
  (p.slots.take p.header.numSlots.toNat).countP fun s => !s.isEmpty

/-- The number of slots that are not empty, over some pages. -/
def slotsInUse (b : BufferPoolManager) (ids : List PageId) : Nat :=
  (ids.map fun id => ((b.pageOf id).map Page.slotsInUse).getD 0).sum

namespace Page

variable {p q : Page}

/-- The slots in use are those that hold a record. -/
theorem slotsInUse_eq (h : p.slots.length = p.header.numSlots.toNat) :
    p.slotsInUse = (p.liveFrom 0).length := by
  have hmap : p.slots.take p.header.numSlots.toNat
      = ((List.range p.header.numSlots.toNat).map UInt16.ofNat).map p.slot := by
    rw [List.take_of_length_le h.le]
    refine List.ext_getElem (by simp [h]) fun i hi hi' => ?_
    have hlt : i < 2 ^ 16 := (h ▸ hi).trans p.header.numSlots.toNat_lt
    rw [List.getElem_map, List.getElem_map, List.getElem_range, slot,
      UInt16.toNat_ofNat_of_lt' hlt, List.getD_eq_getElem?_getD, List.getElem?_eq_getElem hi,
      Option.getD_some]
  rw [slotsInUse, hmap, List.countP_map, liveFrom, List.drop_zero, ← List.countP_eq_length_filter]
  refine List.countP_congr fun slotId hmem => ?_
  obtain ⟨i, hi, rfl⟩ := List.mem_map.mp hmem
  have hlt : i < 2 ^ 16 := (List.mem_range.mp hi).trans p.header.numSlots.toNat_lt
  have hge : ¬ UInt16.ofNat i ≥ p.header.numSlots := fun hle => by
    have hle' := UInt16.le_iff_toNat_le.mp hle
    rw [UInt16.toNat_ofNat_of_lt' hlt] at hle'
    exact absurd (List.mem_range.mp hi) (Nat.not_lt.mpr hle')
  rw [getRecord, if_neg hge]
  cases hempty : (p.slot (UInt16.ofNat i)).isEmpty <;> simp [hempty]

theorem SameContent.slotsInUse (h : p.SameContent q) : p.slotsInUse = q.slotsInUse := by
  rw [Page.slotsInUse, Page.slotsInUse, h.slots, h.header]

end Page

namespace HeapState

variable {s : HeapState} {b : BufferPoolManager}

/-- Following the links visits the chain. -/
theorem pageChain_eq (hb : b.Idle s.pages) {fuel : Nat} : ∀ {l : List PageId} {id : PageId},
    Segment (linkOf s.pages) id l invalidPageId → (∀ i ∈ l, i ≠ invalidPageId) →
      l.length < fuel → pageChain b fuel id = l := by
  induction fuel with
  | zero => exact fun _ _ hlen => absurd hlen (Nat.not_lt_zero _)
  | succ fuel ih =>
    intro l id hseg hne hlen
    cases l with
    | nil =>
      obtain rfl : id = invalidPageId := hseg
      rw [pageChain, if_pos rfl]
    | cons i l =>
      obtain ⟨rfl, next, hnext, hrest⟩ := hseg
      obtain ⟨q, hq, rfl⟩ := Option.map_eq_some_iff.mp hnext
      obtain ⟨p, hp, hsame⟩ := hb.pageOf hq
      rw [pageChain, if_neg (hne id List.mem_cons_self), hp]
      simp only []
      rw [hsame.getNextPageId, ih hrest (fun j hj => hne j (List.mem_cons_of_mem _ hj))
        (Nat.lt_of_succ_lt_succ hlen)]

/-- **A client sees the chain** of a heap file that is in order. -/
theorem Ok.pageChain (h : s.Ok) (hb : b.Idle s.pages)
    (hfirst : s.chain.head? = some s.heap.firstPageId) {fuel : Nat}
    (hfuel : s.chain.length < fuel) :
    CourtDB.pageChain b fuel s.heap.firstPageId = s.chain := by
  have hseg := h.linked
  rw [hfirst, Option.getD_some] at hseg
  exact pageChain_eq hb hseg (fun i hi => (h.ids i hi).2) hfuel

/-- **The slots in use are the records.** -/
theorem Ok.slotsInUse (h : s.Ok) (hb : b.Idle s.pages) :
    CourtDB.slotsInUse b s.chain = s.contents.length := by
  rw [CourtDB.slotsInUse, contents, scanPages, List.length_flatMap]
  refine congrArg List.sum (List.map_congr_left fun id hid => ?_)
  obtain ⟨q, hq, hql⟩ := h.layout id hid
  obtain ⟨p, hp, hsame⟩ := hb.pageOf hq
  rw [hp, hq, Option.map_some, Option.getD_some, Option.map_some, Option.getD_some,
    hsame.slotsInUse, Page.slotsInUse_eq hql.slots_length, Page.scanFrom, List.length_map]

end HeapState

end CourtDB
