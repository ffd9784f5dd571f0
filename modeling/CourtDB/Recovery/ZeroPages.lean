/-
# Pages that never reached the disk

`AllocatePage` leaves a page of zeros in the file, and `NewPage` sets the header up in the frame
only.  A page that no flush or eviction wrote is therefore decoded from zeros after a crash: its
directory has no slots and its data region, from 0 to 0, has no room.  `RedoRecord` does nothing for
a `NEW_PAGE` record, and every insert it repeats on such a page fails (`Blank.redo`), so recovery
restores the page exactly when there was nothing on it (`recover_zero_page`).

That the page had nothing on it is about the state at the crash, not about the log: a page may have
been filled and emptied again.  The runs are of any length, with updates of any size as long as they
write inside their page, and the log has every operation.

`Directory` is the weak invariant that such runs keep: the directory of each page is where its
header says.  It is enough to say what is on a page at the crash.
-/
import CourtDB.Recovery.Replay

namespace CourtDB

namespace Page

variable {p q : Page}

/-! ## 1. Pages decoded from zeros -/

/-- The page that zeros decode to, as far as the record operations look at it. -/
structure Blank (p : Page) : Prop where
  slots : p.slots = []
  numSlots : p.header.numSlots = 0
  freeSpaceOffset : p.header.freeSpaceOffset = 0
  freeSpaceEnd : p.header.freeSpaceEnd = 0

theorem Blank.directoryFits (h : p.Blank) : p.DirectoryFits := by
  rw [DirectoryFits, h.slots, h.numSlots]
  decide

theorem SameContent.blank (h : p.SameContent q) (hq : q.Blank) : p.Blank :=
  ⟨h.slots ▸ hq.slots, h.header ▸ hq.numSlots, h.header ▸ hq.freeSpaceOffset,
    h.header ▸ hq.freeSpaceEnd⟩

theorem Blank.getRecord (h : p.Blank) (slotId : UInt16) : p.getRecord slotId = none := by
  rw [Page.getRecord, h.numSlots]
  exact if_pos (UInt16.le_iff_toNat_le.mpr (Nat.zero_le _))

/-- Nothing fits in a data region from 0 to 0 without slots. -/
theorem Blank.fits (h : p.Blank) (length : UInt16) : p.fits length = false := by
  have hslot : p.findEmptySlot = none := by simp [findEmptySlot, h.slots]
  rw [← Bool.not_eq_true, fits_iff, slotOverhead, hslot, h.freeSpaceOffset, h.freeSpaceEnd]
  simp

/-- **Redo does nothing on a blank page.** -/
theorem Blank.redo (h : p.Blank) (r : LogRecord) : (p.redo r).2 = p := by
  have hins : ∀ arg, (p.insertRecord arg).2 = p := by
    rintro (n | data)
    · rfl
    · simp only [insertRecord, h.fits, Bool.false_eq_true, if_false, ite_self]
  simp only [Page.redo, h.getRecord, Option.isSome_none, Bool.false_eq_true, if_false, hins]
  split <;> rfl

theorem blank_loadFrom (frame : Page) : (frame.loadFrom DiskManager.zeroImage).Blank := by
  have hheader : getHeader DiskManager.zeroImage = ⟨0, 0, 0, 0, 0, 0, 0⟩ := by decide +kernel
  have hslots : (frame.loadFrom DiskManager.zeroImage).slots = [] :=
    List.length_eq_zero_iff.mp ((loadFrom_slots_length frame _).trans
      (by rw [loadFrom_header, hheader]; rfl))
  refine ⟨hslots, ?_, ?_, ?_⟩
  all_goals rw [loadFrom_header, hheader]

/-! ## 2. Pages of a run with updates of any size -/

/-- The directory of the page is where the header says, and the data region ends in the page. -/
structure Directory (p : Page) : Prop where
  fits : p.DirectoryFits
  offset_eq : p.header.freeSpaceOffset.toNat = 20 + 4 * p.header.numSlots.toNat
  end_le : p.header.freeSpaceEnd.toNat ≤ pageSize

theorem directory_ofId (id : PageId) : (Page.ofId id).Directory :=
  ⟨directoryFits_ofId id, rfl, (layout_ofId id).end_le⟩

theorem SameContent.directory (h : p.SameContent q) (hq : q.Directory) : p.Directory :=
  ⟨h.symm.directoryFits hq.fits, h.header ▸ hq.offset_eq, h.header ▸ hq.end_le⟩

theorem Directory.placeRecord (h : p.Directory) {r : RecordData} (hf : p.fits r.length = true) :
    (p.placeRecord r).Directory := by
  have hroom := fits_iff.mp hf
  obtain ⟨hlen, hle⟩ := h.fits
  have hoff := h.offset_eq
  have hend := h.end_le
  have hnew : (p.header.freeSpaceEnd - r.length).toNat
      = p.header.freeSpaceEnd.toNat - r.length.toNat := toNat_sub16 (by omega)
  simp only [pageSize] at hle hend
  unfold slotOverhead at hroom
  unfold Page.placeRecord
  cases hs : p.findEmptySlot with
  | some s =>
    refine ⟨⟨?_, h.fits.2⟩, hoff, ?_⟩
    · simpa using hlen
    · simp only [hnew, pageSize]; omega
  | none =>
    simp only [hs, Option.isSome_none, Bool.false_eq_true, if_false, toNat_slotEntrySize] at hroom
    have h1 : (p.header.freeSpaceOffset + slotEntrySize).toNat
        = p.header.freeSpaceOffset.toNat + 4 := toNat_add16 (by simp; omega)
    have h2 : (p.header.numSlots + 1).toNat = p.header.numSlots.toNat + 1 :=
      toNat_succ16 (by omega)
    refine ⟨⟨?_, ?_⟩, ?_, ?_⟩
    · simp only [List.length_append, List.length_singleton, hlen, h2]
    · simp only [h2, pageSize]; omega
    · simp only [h1, h2]; omega
    · simp only [hnew, pageSize]; omega

theorem Directory.insertRecord (h : p.Directory) (arg : RecordArg) :
    (p.insertRecord arg).2.Directory := by
  rcases insertRecord_cases p arg with heq | ⟨r, -, -, hf, heq⟩
  · rw [heq]; exact h
  · rw [heq]; exact h.placeRecord hf

theorem Directory.deleteRecord (h : p.Directory) (slotId : UInt16) :
    (p.deleteRecord slotId).2.Directory := by
  rcases deleteRecord_cases h.fits.1 slotId with ⟨-, heq⟩ | ⟨s, -, heq⟩
  · rw [heq]; exact h
  · rw [heq]
    exact ⟨⟨by simpa [tombstone] using h.fits.1, h.fits.2⟩, h.offset_eq, h.end_le⟩

theorem Directory.updateRecord (h : p.Directory) {slotId : UInt16} {data : RecordData}
    (hin : p.UpdateInPage slotId data) : (p.updateRecord slotId data).2.Directory := by
  unfold UpdateInPage at hin
  rcases updateRecord_cases h.fits.1 slotId data with
    ⟨-, heq⟩ | ⟨-, -, -, heq⟩ | ⟨-, -, -, heq⟩ | ⟨s, hs, hlt, -, heq⟩ <;> rw [heq] at hin ⊢
  · exact h
  · exact h
  · exact ⟨⟨by simpa [overwrite] using h.fits.1, h.fits.2⟩, h.offset_eq, h.end_le⟩
  · have hend := h.end_le
    have hle : data.length.toNat ≤ p.header.freeSpaceEnd.toNat := by
      rw [hs.slot_eq] at hin
      have := hin rfl
      rw [RecordData.toNat_length]
      omega
    refine ⟨⟨by simpa [relocate] using h.fits.1, h.fits.2⟩, h.offset_eq, ?_⟩
    change (p.header.freeSpaceEnd - data.length).toNat ≤ _
    rw [toNat_sub16 hle]
    omega

end Page

namespace Database

open BufferPoolManager (RedoOk)

variable {d : Database} {m : PageId → Option Page}

theorem stands_directory : Stands (fun _ _ q => q.Directory) Page.UpdateInPage where
  fits h := h.fits
  congr h hsame := hsame.directory h
  other h _ := h
  insert {id _ p} data h := by
    refine ⟨fun r hr => Page.pageId_of_mem_loggedInsert hr, ?_⟩
    have hins := h.insertRecord (.data data)
    rw [Page.loggedInsert]
    split <;> rename_i heq <;> rw [heq] at hins <;> exact hins
  delete slotId h := by
    refine ⟨fun r hr => Page.pageId_of_mem_loggedDelete hr, ?_⟩
    have hdel := h.deleteRecord slotId
    rw [Page.loggedDelete]
    split <;> rename_i heq <;> rw [heq] at hdel <;> exact hdel
  modify slotId data h hin := by
    refine ⟨fun r hr => Page.pageId_of_mem_loggedUpdate hr, ?_⟩
    have hupd := h.updateRecord hin
    rw [Page.loggedUpdate]
    split <;> rename_i heq <;> rw [heq] at hupd <;> exact hupd

theorem pageInvariant_blank : PageInvariant fun _ _ q => q.Blank where
  fits h := h.directoryFits
  congr h hsame := hsame.blank h
  other h _ := h

/-! ## 3. Recovery of pages that were never written -/

/-- What a crash leaves on disk when no page of the pool was ever written: the header, and for
each page the zeros that `AllocatePage` wrote. -/
structure ZeroDisk (d : Database) (disk : DiskManager) : Prop where
  growing : disk.Growing
  pageCount : disk.header.pageCount = d.pool.disk.header.pageCount
  zero : ∀ id, d.OnPage id → disk.file id = DiskManager.zeroImage

/-- **Nothing is recovered on pages that were never written.** -/
theorem Upholds.recover_zero (h : d.Upholds (fun _ _ q => q.Directory) m) {disk : DiskManager}
    (hdisk : ZeroDisk d disk) {n : Nat} (hn : 0 < n) {id : PageId} (hid : d.OnPage id)
    (slotId : UInt16) : (d.crash disk n).recover.pool.recordOf id slotId = none := by
  let blank : Page := (Page.ofId id).loadFrom DiskManager.zeroImage
  let m₀ : PageId → Option Page := fun i => if d.OnPage i then some blank else none
  have hblank : ∀ i q, m₀ i = some q → d.OnPage i ∧ blank = q := by
    intro i q hq
    by_cases hi : d.OnPage i
    · exact ⟨hi, Option.some.inj ((if_pos hi).symm.trans hq)⟩
    · exact absurd ((if_neg hi).symm.trans hq) (by simp)
  have hcov : ∀ i, d.OnPage i → (m₀ i).isSome := fun i hi => by simp [m₀, hi]
  have hidle : (BufferPoolManager.create n disk).Idle m₀ := by
    refine BufferPoolManager.idle_create hn hdisk.growing (fun i q hq => ?_) fun i h0 hlt =>
      hcov i ⟨h0, hdisk.pageCount ▸ hlt⟩
    obtain ⟨hi, rfl⟩ := hblank i q hq
    refine ⟨(Page.blank_loadFrom _).directoryFits, hi.1, hdisk.pageCount ▸ hi.2, fun frame => ?_⟩
    rw [hdisk.zero i hi]
    exact Page.sameContent_loadFrom frame _ (by decide +kernel)
  have hok : Run.StepsOk BufferPoolManager.redoStep (RedoOk fun _ _ => True) (.create n disk)
      d.log := Run.stepsOk_of_forall fun _ _ _ _ _ _ => trivial
  obtain ⟨m', hidle', hsome, hm'⟩ := pageInvariant_blank.replay d.log
    (fun _ r _ p _ _ hp _ => (hp.redo r).symm ▸ hp) d.log [] rfl hidle
    (fun i q hq => (hblank i q hq).2 ▸ Page.blank_loadFrom _)
    (fun r hr hon => hcov _ (h.idle.isSome_iff.mp (h.logged r hr hon))) hok
  have hexec : (d.crash disk n).recover.pool
      = (d.log.foldl BufferPoolManager.redoStep (.create n disk)).flushAllPages := by
    simp only [Database.recover, crash, CourtDB.recover, PoolM.exec_bind,
      PoolM.exec_flushAllPages, PoolM.exec_pure, BufferPoolManager.exec_redoLog]
  obtain ⟨q, hq⟩ := Option.isSome_iff_exists.mp ((hsome id).trans (hcov id hid))
  obtain ⟨p, hp, hsame⟩ := hidle'.flushAllPages.1.pageOf hq
  rw [hexec, BufferPoolManager.recordOf, hp, Option.bind_some]
  exact (hsame.blank (hm' id q hq)).getRecord slotId

/-- **Recovery of a page that never reached the disk** gives it the records it had at the crash
if and only if it had none, for every run of logged operations whose updates write inside their
page. -/
theorem recover_zero_page {n n' : Nat} (hn : 0 < n) (hn' : 0 < n') (ops : List LoggedOp)
    (ok : Run.StepsOk step (Allowed Page.UpdateInPage) (create n) ops) (disk : DiskManager)
    (hdisk : ZeroDisk ((create n).run ops) disk) (id : PageId)
    (hid : ((create n).run ops).OnPage id) :
    (∀ slotId, (((create n).run ops).crash disk n').recover.pool.recordOf id slotId
        = ((create n).run ops).pool.recordOf id slotId) ↔
      ∀ slotId, ((create n).run ops).pool.recordOf id slotId = none := by
  obtain ⟨m, h, -⟩ := (upholds_create hn Page.directory_ofId).run stands_directory ok
  have hnone := fun slotId => h.recover_zero hdisk hn' hid slotId
  exact forall_congr' fun slotId => by rw [hnone slotId, eq_comm]

/-- A file that has been extended by one page and not written since. -/
theorem zeroDisk_of_first_page (hdisk :
    d.pool.disk = DiskManager.initializeNewFile.allocatePage.2) :
    ZeroDisk d d.pool.disk := by
  obtain ⟨-, hgrow, hcount, hzero, -⟩ :=
    DiskManager.growing_initializeNewFile.allocatePage (by decide)
  refine ⟨hdisk ▸ hgrow, rfl, fun id ⟨h0, hlt⟩ => ?_⟩
  rw [hdisk] at hlt ⊢
  have h1 := UInt32.lt_iff_toNat_lt.mp hlt
  have h2 : id.toNat ≠ 0 := fun he => h0 (UInt32.toNat_inj.mp (by simpa using he))
  obtain rfl : id = DiskManager.initializeNewFile.header.pageCount := by
    refine UInt32.toNat_inj.mp ?_
    have h3 : DiskManager.initializeNewFile.header.pageCount.toNat = 1 := rfl
    omega
  exact hzero

/-- A page in a pool of one frame is created, filled and emptied, and not written. -/
theorem recover_zero_page_emptied :
    let ops := [.newPage, .insert 1 ⟨[7], by decide⟩, .delete 1 0]
    let d := (create 1).run ops
    (∀ slotId, (d.crash d.pool.disk 1).recover.pool.recordOf 1 slotId = d.pool.recordOf 1 slotId) ↔
      ∀ slotId, d.pool.recordOf 1 slotId = none := by
  intro ops d
  have hnew : (create 1).pool.disk.header.pageCount ≠ invalidPageId := by decide
  have hpage : ∀ k ∈ [1, 2], ((create 1).run (ops.take k)).OnPage 1 := by decide +kernel
  exact recover_zero_page Nat.one_pos Nat.one_pos ops
    ⟨hnew, hpage 1 (by decide), hpage 2 (by decide), trivial⟩ _ (zeroDisk_of_first_page rfl) 1
    (by decide +kernel)

/-- A record is inserted into a new page and logged; after a crash before the page is written,
recovery does not bring it back. -/
theorem recover_zero_page_loses_record :
    let ops := [.newPage, .insert 1 ⟨[7], by decide⟩]
    let d := (create 1).run ops
    Run.StepsOk step (Allowed Page.UpdateInPage) (create 1) ops ∧ ZeroDisk d d.pool.disk ∧
      d.OnPage 1 ∧ d.pool.recordOf 1 0 = some [7] ∧
      (d.crash d.pool.disk 1).recover.pool.recordOf 1 0 = none := by
  intro ops d
  have hnew : (create 1).pool.disk.header.pageCount ≠ invalidPageId := by decide
  have hpage : ((create 1).step .newPage).OnPage 1 := by decide
  exact ⟨⟨hnew, hpage, trivial⟩, zeroDisk_of_first_page rfl, by decide +kernel, by decide +kernel,
    by decide +kernel⟩

end Database

end CourtDB
