/-
# The header page under the pool

Page 0 is the header of the database file and no page of any client, but a record id can name it,
and `FetchPage(0)` succeeds.  Read as a slotted page, the header has one slot (the low half of its
version number, which is 1), and that slot is empty.  So nobody finds a record there, as long as
nobody has fetched page 0 to change it: `HeaderAside` says so, and every call but that fetch
preserves it.

This is needed because an invalid record id is not always the invalid page id: `RID::IsValid` asks
for a page id other than `INVALID_PAGE_ID`, and `{0, 0}` passes.  With the header page aside such an
id is answered like one of a deleted record.
-/
import CourtDB.Buffer.PoolAccess
import CourtDB.Lib.Run

namespace CourtDB

open Bytes

namespace DiskManager

/-- The disk holds its header in page 0. -/
def HeaderStored (d : DiskManager) : Prop :=
  d.header.version = 1 ∧ d.file 0 = headerImage d.header

/-- A new file has its header on page 0. -/
theorem headerStored_initializeNewFile : initializeNewFile.HeaderStored := ⟨rfl, rfl⟩

variable {d : DiskManager}

/-- A write to another page leaves the header on page 0. -/
theorem HeaderStored.writePage (h : d.HeaderStored) {id : PageId} (h0 : id ≠ 0) (b : Buf) :
    (d.writePage id b).2.HeaderStored := by
  unfold HeaderStored
  rw [writePage_header, writePage_file_of_ne _ _ h0.symm]
  exact h

theorem headerStored_writeHeader (hv : d.header.version = 1) : d.writeHeader.HeaderStored :=
  ⟨hv, by simp [writeHeader]⟩

/-- An allocation writes the new header to page 0. -/
theorem HeaderStored.allocatePage (h : d.HeaderStored) : d.allocatePage.2.HeaderStored := by
  unfold DiskManager.allocatePage
  split
  · refine headerStored_writeHeader ?_
    rw [writePage_header, popFreeList]
    split
    · exact h.1
    · exact h.1
  · exact headerStored_writeHeader h.1

/-- The header page, read as a slotted page, holds no record. -/
theorem HeaderStored.getRecord (h : d.HeaderStored) (q : Page) (slotId : UInt16) :
    (q.loadFrom (d.file 0)).getRecord slotId = none := by
  have hnum : (Page.getHeader (d.file 0)).numSlots = 1 := by
    have hlow : (d.file 0).read (4 + 0) 2 = [1, 0] := by
      rw [h.2, headerImage, Buf.put, Buf.put, Buf.put, Buf.read_write_of_disjoint (.inl (by simp)),
        Buf.read_write_of_disjoint (.inl (by simp)), Buf.read_write_of_disjoint (.inl (by simp)),
        Buf.put, Buf.read_write_of_sub (by simp), h.1]
      decide
    exact congrArg FixedRepr.decode hlow
  have hzero : ∀ i, 20 ≤ i → d.file 0 i = 0 := by
    intro i hi
    rw [h.2, headerImage]
    iterate 5 rw [Buf.put_apply_of_not_mem (.inr (by simp; omega))]
    rfl
  have hslot : (d.file 0).get SlotEntry 20 = {} := by
    have hread : (d.file 0).read 20 4 = [0, 0, 0, 0] := by
      have hcongr : (d.file 0).read 20 4 = zeroImage.read 20 4 :=
        Buf.read_congr fun i hi _ => hzero i hi
      rw [hcongr]
      rfl
    exact congrArg FixedRepr.decode hread
  have hslots : (q.loadFrom (d.file 0)).slots = [{}] := by
    rw [Page.loadFrom_slots q (by rw [hnum]; decide), hnum]
    change [(d.file 0).get SlotEntry 20] = [{}]
    rw [hslot]
  have hheader : (q.loadFrom (d.file 0)).header.numSlots = 1 := by
    rw [Page.loadFrom_header, hnum]
  rw [Page.getRecord_eq (by rw [hslots, hheader]; rfl), Page.recordAt, hslots]
  cases hs : slotId.toNat with
  | zero => rfl
  | succ k => simp

end DiskManager

namespace BufferPoolManager

variable {b b' : BufferPoolManager}

/-- The header page is on disk and in no frame. -/
structure HeaderAside (b : BufferPoolManager) : Prop where
  stored : b.disk.HeaderStored
  absent : b.pageTable 0 = none

/-- A new pool has no page in a frame, so not page 0 either. -/
theorem headerAside_create {n : Nat} {d : DiskManager} (hd : d.HeaderStored) :
    (create n d).HeaderAside := ⟨hd, rfl⟩

theorem headerAside_overNewFile (n : Nat) : (overNewFile n).HeaderAside :=
  headerAside_create DiskManager.headerStored_initializeNewFile

/-- A page other than page 0 may be written back. -/
theorem HeaderAside.writeBack (h : b.HeaderAside) (f : FrameId) {id : PageId} (h0 : id ≠ 0) :
    (b.writeBack f id).HeaderAside := ⟨h.stored.writePage h0 _, h.absent⟩

/-- A resident page is not the header page. -/
theorem HeaderAside.ne_zero (h : b.HeaderAside) {id : PageId} {f : FrameId}
    (hf : b.pageTable id = some f) : id ≠ 0 := fun h0 => by
  rw [h0, h.absent] at hf
  exact absurd hf (by simp)

/-- A page other than page 0 may be put into a frame. -/
theorem HeaderAside.occupy (h : b.HeaderAside) (f : FrameId) {id : PageId} (h0 : id ≠ 0)
    (p : Page) (dirty : Bool) : (b.occupy f id p dirty).HeaderAside :=
  ⟨h.stored, (occupy_pageTable f id p dirty 0).trans (by rw [if_neg h0.symm]; exact h.absent)⟩

/-- An eviction writes back a page of a frame, which is never page 0. -/
theorem HeaderAside.findFreeFrame (h : b.HeaderAside) (hwf : b.WellFormed) {r : Option FrameId}
    (hfree : b.findFreeFrame = (r, b')) : b'.HeaderAside := by
  unfold BufferPoolManager.findFreeFrame at hfree
  split at hfree
  · obtain ⟨-, rfl⟩ := Prod.mk.inj hfree
    exact ⟨h.stored, h.absent⟩
  · split at hfree
    · obtain ⟨-, rfl⟩ := Prod.mk.inj hfree
      exact h
    · rename_i victim replacer hev
      obtain ⟨-, rfl⟩ := Prod.mk.inj hfree
      have hmem : victim ∈ b.replacer.lruList := by
        rw [LRUReplacer.evict] at hev
        exact List.mem_of_getLast? (Prod.mk.inj hev).1
      obtain ⟨⟨id, hid⟩, -⟩ := hwf.evictable victim hmem
      have hpage : (b.metadata victim).pageId ≠ 0 := by
        rw [((hwf.table_iff id victim).mp hid).1]
        exact h.ne_zero hid
      have hdisk : ({ b with replacer := replacer }.evictFrame victim).disk.HeaderStored := by
        unfold BufferPoolManager.evictFrame
        simp only []
        split
        · exact h.stored.writePage hpage _
        · exact h.stored
      refine ⟨hdisk, ?_⟩
      rw [evictFrame_pageTable]
      split
      · rfl
      · exact h.absent

/-- A flush writes back pages of frames, of which none is page 0. -/
theorem HeaderAside.flushAllPages (h : b.HeaderAside) (hwf : b.WellFormed) :
    b.flushAllPages.HeaderAside := by
  have hrun : b.flushAllPages.HeaderAside ∧ b.flushAllPages.WellFormed := by
    refine Run.invariant (I := fun b : BufferPoolManager => b.HeaderAside ∧ b.WellFormed)
      (fun b f ⟨hb, hwf⟩ => ?_) ⟨h, hwf⟩ _
    unfold flushFrame
    split
    · rename_i hocc
      have hne : (b.metadata f).pageId ≠ invalidPageId := by
        simpa [FrameMetadata.isOccupied] using hocc.1
      have hres := (hwf.table_iff _ f).mpr ⟨rfl, hne⟩
      exact ⟨hb.writeBack f (hb.ne_zero hres), hwf.writeBack f _⟩
    · exact ⟨hb, hwf⟩
  exact hrun.1

/-- **No client disturbs the header page**, as long as it does not fetch it. -/
theorem HeaderAside.handle (h : b.HeaderAside) {v : View} (hs : b.Shows v) {mode : PoolMode}
    {o : PoolCall} {Q : o.Result → View → Prop} (hspec : (poolSpec mode).call o Q v) :
    (BufferPoolManager.handle o b).2.HeaderAside := by
  cases o with
  | fetch id =>
    have h0 : id ≠ 0 := hspec.1
    simp only [BufferPoolManager.handle, BufferPoolManager.fetchPage]
    split
    · -- the page is resident
      exact ⟨h.stored, h.absent⟩
    · split
      · rename_i hfree
        exact h.findFreeFrame hs.rep.wf hfree
      · rename_i hfree
        have hb' := h.findFreeFrame hs.rep.wf hfree
        split
        · -- the read failed, and the frame went back to the free list
          exact ⟨hb'.stored, hb'.absent⟩
        · exact hb'.occupy _ h0 _ _
  | new =>
    simp only [BufferPoolManager.handle, BufferPoolManager.newPage]
    split
    · rename_i hfree
      exact h.findFreeFrame hs.rep.wf hfree
    · rename_i f b' hfree
      have hb' := h.findFreeFrame hs.rep.wf hfree
      obtain ⟨hrep, -, -, -⟩ := hs.rep.findFreeFrame hfree
      have hgrow := hrep.wf.growing
      -- page ids that are allocated lie behind the pages of the file, and there is at least the
      -- header page
      have hid : b'.disk.allocatePage.1 ≠ 0 := by
        rw [hgrow.allocatePage_eq]
        intro h0
        have hpos := hgrow.2
        rw [show b'.disk.header.pageCount = 0 from h0] at hpos
        exact absurd hpos (by decide)
      exact HeaderAside.occupy (b := { b' with disk := b'.disk.allocatePage.2 })
        ⟨hb'.stored.allocatePage, hb'.absent⟩ f hid _ _
  | unpin id isDirty =>
    simp only [BufferPoolManager.handle, BufferPoolManager.unpinPage]
    split
    · exact h
    · split
      · exact h
      · exact ⟨h.stored, h.absent⟩
  | read id => exact h
  | write id p =>
    simp only [BufferPoolManager.handle, BufferPoolManager.setResidentPage]
    split
    · exact ⟨h.stored, h.absent⟩
    · exact h
  | flushAll => exact h.flushAllPages hs.rep.wf

/-- A program whose calls succeed leaves the header page aside. -/
theorem HeaderAside.exec {α : Type} (h : b.HeaderAside) {v : View} (hs : b.Shows v)
    {m : PoolM α} {Q : α → View → Prop}
    (hok : m.CallsOk BufferPoolManager.handle Succeeds b) (hm : m.wp .succeeds Q v) :
    (m.exec b).2.HeaderAside := by
  let ShowsAside : BufferPoolManager → View → Prop := fun b v => b.Shows v ∧ b.HeaderAside
  have hboth : ShowsAside b v := ⟨hs, h⟩
  obtain ⟨-, -, -, haside⟩ : ∃ v', Q (m.exec b).1 v' ∧ ShowsAside (m.exec b).2 v' :=
    Program.wp_sound (fun o b v Q hb ho hspec => by
      obtain ⟨v', hQ, hs'⟩ := hb.1.handle o ho.1 (fun hf => absurd hf ho.2) hspec
      exact ⟨v', hQ, hs', hb.2.handle hb.1 hspec⟩) hboth hok hm
  exact haside

/-- **Nobody finds a record in the header page.** -/
theorem HeaderAside.getRecord_zero (h : b.HeaderAside) (hwf : b.WellFormed)
    (hf : (b.fetchPage 0).1.isSome) (slotId : UInt16) :
    ((b.fetchPage 0).2.residentPage 0).getRecord slotId = none := by
  simp only [BufferPoolManager.fetchPage, h.absent] at hf ⊢
  cases hfree : b.findFreeFrame with
  | mk r b' =>
    have hb' := h.findFreeFrame hwf hfree
    rw [hfree] at hf
    cases r with
    | none => exact absurd hf (by simp)
    | some f =>
      simp only [] at hf ⊢
      cases hread : b'.disk.readPage 0 with
      | none => rw [hread] at hf; exact absurd hf (by simp)
      | some buffer =>
        obtain ⟨-, rfl⟩ := DiskManager.readPage_eq_some hread
        simp only []
        rw [residentPage, occupy_pageTable, if_pos rfl]
        simp only [occupy_pages, if_true]
        exact hb'.stored.getRecord _ slotId

end BufferPoolManager

end CourtDB
