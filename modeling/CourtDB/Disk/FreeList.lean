/-
# The page allocator

`AllocatePage` takes deallocated pages back before it extends the file, and the list of these
pages is threaded through the pages themselves: the header names the first, and the first four
bytes of each name the next.  `FreeList` is the invariant, a chain of distinct existing pages
whose length is the header's count.

`AllocRun` runs the operations of a disk manager next to what its callers know, the pages they
hold and the pages they gave back.  `allocator_safe` says that the two never disagree: no page
is handed out that somebody holds, and no operation touches the pages of others.
-/
import CourtDB.Disk.DiskManager
import CourtDB.Lib.Run
import CourtDB.Lib.Segment
import Mathlib.Data.List.Perm.Subperm

namespace CourtDB

open Bytes

namespace DiskManager

/-! ## 1. The free list -/

/-- The page that a deallocated page names as the next one. -/
def linkAt (file : PageId → Buf) (id : PageId) : Option PageId := some ((file id).get PageId 0)

/-- The deallocated pages, in the order in which they will be reused. -/
structure FreeList (d : DiskManager) (chain : List PageId) : Prop where
  linked : Segment (linkAt d.file) d.header.freeListHead chain invalidPageId
  nodup : chain.Nodup
  range : ∀ id ∈ chain, id ≠ 0 ∧ id < d.header.pageCount
  count : d.header.freePageCount.toNat = chain.length

section

variable {d : DiskManager} {chain : List PageId}

theorem freeList_initializeNewFile : initializeNewFile.FreeList [] :=
  ⟨rfl, List.nodup_nil, by simp, rfl⟩

/-- Distinct existing pages other than the header page are fewer than the page count. -/
theorem length_lt_pageCount {n : UInt32} {l : List PageId} (hnd : l.Nodup)
    (hl : ∀ id ∈ l, id ≠ 0 ∧ id < n) (hn : n ≠ 0) : l.length < n.toNat := by
  have hmap : (0 :: l.map UInt32.toNat).Nodup := by
    refine List.nodup_cons.mpr ⟨fun hmem => ?_, hnd.map fun a b hab => UInt32.toNat_inj.mp hab⟩
    obtain ⟨id, hid, h0⟩ := List.mem_map.mp hmem
    exact (hl id hid).1 (UInt32.toNat_inj.mp h0)
  have hsub : 0 :: l.map UInt32.toNat ⊆ List.range n.toNat := by
    intro i hi
    rw [List.mem_range]
    rcases List.mem_cons.mp hi with rfl | hi
    · exact Nat.pos_of_ne_zero fun he => hn (UInt32.toNat_inj.mp he)
    · obtain ⟨id, hid, rfl⟩ := List.mem_map.mp hi
      exact UInt32.lt_iff_toNat_lt.mp (hl id hid).2
  have hle := (List.subperm_of_subset hmap hsub).length_le
  rwa [List.length_cons, List.length_map, List.length_range] at hle

/-- Writing the header changes no page of the free list. -/
theorem FreeList.writeHeader (h : d.FreeList chain) : d.writeHeader.FreeList chain :=
  ⟨h.linked.congr fun id hid => by
    rw [linkAt, linkAt, writeHeader_file d (h.range id hid).1], h.nodup, h.range, h.count⟩

/-- Writing a page that is not on the list changes nothing about the list. -/
theorem FreeList.writePage (h : d.FreeList chain) {id : PageId} (hid : id ∉ chain) (b : Buf) :
    (d.writePage id b).2.FreeList chain := by
  refine ⟨?_, h.nodup, fun i hi => ?_, ?_⟩
  · rw [writePage_header]
    refine h.linked.congr fun i hi => ?_
    have hne : i ≠ id := fun he => hid (he ▸ hi)
    rw [linkAt, linkAt, writePage_file_of_ne d b hne]
  · rw [writePage_header]
    exact h.range i hi
  · rw [writePage_header]
    exact h.count

/-- Whether there are deallocated pages can be seen in the header. -/
theorem FreeList.head_eq_invalid_iff (h : d.FreeList chain) :
    d.header.freeListHead = invalidPageId ↔ chain = [] := by
  have hhead := h.linked.head?
  cases chain with
  | nil => exact ⟨fun _ => rfl, fun _ => hhead.symm⟩
  | cons id rest =>
    have hid : id = d.header.freeListHead := hhead
    refine ⟨fun hinv => ?_, fun hnil => absurd hnil (by simp)⟩
    have hlt := UInt32.lt_iff_toNat_lt.mp (h.range id List.mem_cons_self).2
    have hmax := d.header.pageCount.toNat_lt
    rw [hid, hinv] at hlt
    change 4294967295 < _ at hlt
    omega

/-- **AllocatePage with a free list** takes its first page. -/
theorem FreeList.allocate_reuse {id : PageId} {rest : List PageId}
    (h : d.FreeList (id :: rest)) :
    d.allocatePage.1 = id ∧ d.allocatePage.2.FreeList rest ∧
      d.allocatePage.2.header.pageCount = d.header.pageCount ∧
      (∀ i < pageSize, d.allocatePage.2.file id i = 0) ∧
      ∀ i, i ≠ 0 → i ≠ id → d.allocatePage.2.file i = d.file i := by
  obtain ⟨h0, hlt⟩ := h.range id List.mem_cons_self
  obtain ⟨hhead, next, hnext, hseg⟩ := h.linked
  have hne : d.header.freeListHead ≠ invalidPageId := fun hinv => by
    have := h.head_eq_invalid_iff.mp hinv
    exact absurd this (by simp)
  -- the link to the next free page is in the page that is about to be zeroed, and is read before
  have hread : d.readPage d.header.freeListHead = some (d.file id) := by
    rw [hhead, readPage_of_lt d hlt]
  obtain rfl : (d.file id).get PageId 0 = next := Option.some.inj hnext
  have hpop : d.popFreeList = { d.header with
      freeListHead := (d.file id).get PageId 0
      freePageCount := d.header.freePageCount - 1 } := by
    rw [popFreeList, hread]
  have halloc : d.allocatePage
      = (id, ((⟨d.popFreeList, d.file⟩ : DiskManager).writePage id zeroImage).2.writeHeader) := by
    rw [allocatePage, if_pos hne, hhead]
  have hnd := List.nodup_cons.mp h.nodup
  rw [halloc, hpop]
  refine ⟨rfl, ?_, ?_, fun i hi => ?_, fun i hi0 hi => ?_⟩
  · -- the rest of the list: neither the zeroed page nor the header page is on it
    refine FreeList.writeHeader (FreeList.writePage ⟨hseg, hnd.2, fun i hi => ?_, ?_⟩ hnd.1 _)
    · exact h.range i (List.mem_cons_of_mem _ hi)
    · have hcount := h.count
      rw [List.length_cons] at hcount
      change (d.header.freePageCount - 1).toNat = rest.length
      rw [UInt32.toNat_sub_of_le, hcount]
      · rfl
      · exact UInt32.le_iff_toNat_le.mpr (by rw [hcount]; exact Nat.le_add_left 1 _)
  · rw [writeHeader_header, writePage_header]
  · -- the page reads as zeros
    have hself := writePage_file_self (⟨d.popFreeList, d.file⟩ : DiskManager) id
      zeroImage (by rw [hpop]; exact hlt)
    rw [← hpop, writeHeader_file _ h0, hself]
    exact Buf.fill_apply_of_lt hi
  · rw [writeHeader_file _ hi0, writePage_file_of_ne _ _ hi]

/-- **AllocatePage without a free list** extends the file. -/
theorem FreeList.allocate_extend (h : d.FreeList []) (hpos : d.header.pageCount ≠ 0)
    (hids : d.header.pageCount ≠ invalidPageId) :
    d.allocatePage.1 = d.header.pageCount ∧ d.allocatePage.2.FreeList [] ∧
      d.allocatePage.2.header.pageCount.toNat = d.header.pageCount.toNat + 1 ∧
      (∀ i < pageSize, d.allocatePage.2.file d.header.pageCount i = 0) ∧
      ∀ i, i ≠ 0 → i ≠ d.header.pageCount → d.allocatePage.2.file i = d.file i := by
  have hgrow : d.Growing := ⟨h.head_eq_invalid_iff.mpr rfl, UInt32.lt_iff_toNat_lt.mpr
    (Nat.pos_of_ne_zero fun he => hpos (UInt32.toNat_inj.mp he))⟩
  have hid : d.allocatePage.1 ≠ invalidPageId := by rw [hgrow.allocatePage_eq]; exact hids
  obtain ⟨h1, hgrow', h3, h4, h5⟩ := hgrow.allocatePage hid
  refine ⟨h1, ⟨hgrow'.1, List.nodup_nil, by simp, ?_⟩, h3, fun i _ => by rw [h4]; rfl, h5⟩
  rw [hgrow.allocatePage_eq]
  exact h.count

/-- **DeallocatePage** puts an existing page in front of the list. -/
theorem FreeList.deallocate (h : d.FreeList chain) {id : PageId} (h0 : id ≠ 0)
    (hlt : id < d.header.pageCount) (hid : id ∉ chain) :
    (d.deallocatePage id).1 = true ∧ (d.deallocatePage id).2.FreeList (id :: chain) ∧
      (d.deallocatePage id).2.header.pageCount = d.header.pageCount ∧
      ∀ i, i ≠ 0 → i ≠ id → (d.deallocatePage id).2.file i = d.file i := by
  have hnot : ¬ (id = 0 ∨ id ≥ d.header.pageCount) := fun hc =>
    hc.elim h0 fun hge => absurd hlt (UInt32.not_lt.mpr hge)
  rw [deallocatePage, if_neg hnot]
  refine ⟨rfl, FreeList.writeHeader ⟨?_, ?_, fun i hi => ?_, ?_⟩, rfl, fun i hi0 hi => ?_⟩
  · have hw := (h.writePage hid (zeroImage.put 0 d.header.freeListHead)).linked
    rw [writePage_header] at hw
    refine ⟨rfl, d.header.freeListHead, ?_, hw⟩
    change some _ = _
    rw [writePage_file_self d _ _ hlt, Buf.get_fill (by decide), Buf.get_put_self]
  · exact List.nodup_cons.mpr ⟨hid, h.nodup⟩
  · rcases List.mem_cons.mp hi with rfl | hi
    · exact ⟨h0, hlt⟩
    · exact h.range i hi
  · have hpos : d.header.pageCount ≠ 0 := fun he => by
      rw [he] at hlt
      exact absurd hlt (by simp)
    have hlen := length_lt_pageCount (List.nodup_cons.mpr ⟨hid, h.nodup⟩)
      (fun i hi => (List.mem_cons.mp hi).elim (fun he => he ▸ ⟨h0, hlt⟩) (h.range i)) hpos
    have hmax := d.header.pageCount.toNat_lt
    have hcount := h.count
    rw [List.length_cons] at hlen
    change (d.header.freePageCount + 1).toNat = (id :: chain).length
    rw [UInt32.toNat_add, UInt32.toNat_one, hcount, List.length_cons]
    exact Nat.mod_eq_of_lt (by omega)
  · rw [writeHeader_file _ hi0]
    exact writePage_file_of_ne d _ hi

end

end DiskManager

end CourtDB
