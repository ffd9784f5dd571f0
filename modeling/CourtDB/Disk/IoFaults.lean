/-
# When the operating system refuses

The disk manager over a file whose reads and writes can fail.  A refused or short `pwrite` leaves
some image in the file; `ReadPage` and `WritePage` then return false, which `AllocatePage` does not
look at, while a page that cannot be appended and a header that cannot be written raise an
exception.  `IoFaults` says for one call which of its reads and writes fail.

Without faults these are the operations of `DiskManager` (`allocatePageWith_none`,
`deallocatePageWith_none`).  With them, there are two writes whose failure `AllocatePage` turns into
an exception: the page that it appends to the file, where it takes the new page count back first,
and the header, where it takes nothing back.  `AllocatePasses` says that neither fails
(`allocatePageWith_threw_iff`); what becomes of the frame that `NewPage` had taken by then is the
subject of `Buffer/LostFrames`.
-/
import CourtDB.Disk.DiskManager

namespace CourtDB

open Bytes

/-- The reads and writes of one call that fail: a read, or a write with the image that it leaves
in the file.  `frame` are the writes of frames that are evicted or flushed, `page` is the write of
a page by `AllocatePage` and `DeallocatePage`. -/
structure IoFaults where
  read : Bool := false
  frame : ℕ → Option Buf := fun _ => none
  page : Option Buf := none
  extend : Option Buf := none
  header : Option Buf := none

/-- How a call ends: with a result, or with an exception. -/
inductive Outcome (α : Type)
  | returned (result : α)
  | threw
deriving DecidableEq, Repr

namespace DiskManager

variable {d : DiskManager} {io : IoFaults}

/-! ## 1. The operations -/

/-- `ReadPage`. -/
def readPageWith (io : IoFaults) (d : DiskManager) (pageId : PageId) : Option Buf :=
  if io.read then none else d.readPage pageId

/-- `WritePage`. -/
def writePageWith (fault : Option Buf) (d : DiskManager) (pageId : PageId) (buffer : Buf) :
    Bool × DiskManager :=
  match fault with
  | none => d.writePage pageId buffer
  | some image =>
    if pageId ≥ d.header.pageCount then (false, d)
    else (false, { d with file := Function.update d.file pageId image })

/-- `WriteHeader`. -/
def writeHeaderWith (fault : Option Buf) (d : DiskManager) : Outcome Unit × DiskManager :=
  match fault with
  | none => (.returned (), d.writeHeader)
  | some image => (.threw, { d with file := Function.update d.file 0 image })

/-- The header after the head of the free list is taken off, if its page can be read. -/
def popFreeListWith (io : IoFaults) (d : DiskManager) : DatabaseHeader :=
  match d.readPageWith io d.header.freeListHead with
  | some buffer =>
    { d.header with
      freeListHead := buffer.get PageId 0
      freePageCount := d.header.freePageCount - 1 }
  | none => d.header

/-- The end of `AllocatePage`: persist the header and return the id. -/
def persistWith (io : IoFaults) (d : DiskManager) (newPageId : PageId) :
    Outcome PageId × DiskManager :=
  match d.writeHeaderWith io.header with
  | (.returned _, d) => (.returned newPageId, d)
  | (.threw, d) => (.threw, d)

/-- `AllocatePage`.  Only a page that cannot be appended has a rollback. -/
def allocatePageWith (io : IoFaults) (d : DiskManager) : Outcome PageId × DiskManager :=
  if d.header.freeListHead ≠ invalidPageId then
    let newPageId := d.header.freeListHead
    let popped : DiskManager := ⟨d.popFreeListWith io, d.file⟩
    (popped.writePageWith io.page newPageId zeroImage).2.persistWith io newPageId
  else
    let newPageId := d.header.pageCount
    let header := { d.header with pageCount := d.header.pageCount + 1 }
    match io.extend with
    | none =>
      let file := Function.update d.file newPageId zeroImage
      (⟨header, file⟩ : DiskManager).persistWith io newPageId
    | some image =>
      let file := Function.update d.file newPageId image
      (.threw, ⟨{ header with pageCount := header.pageCount - 1 }, file⟩)

/-- `DeallocatePage`. -/
def deallocatePageWith (io : IoFaults) (d : DiskManager) (pageId : PageId) :
    Outcome Bool × DiskManager :=
  if pageId = 0 ∨ pageId ≥ d.header.pageCount then (.returned false, d)
  else
    match d.writePageWith io.page pageId (zeroImage.put 0 d.header.freeListHead) with
    | (false, d) => (.returned false, d)
    | (true, written) =>
      let header := { d.header with
        freeListHead := pageId
        freePageCount := d.header.freePageCount + 1 }
      match ({ written with header := header } : DiskManager).writeHeaderWith io.header with
      | (.returned _, d) => (.returned true, d)
      | (.threw, d) => (.threw, d)

/-! ## 2. Without faults -/

theorem allocatePageWith_none (d : DiskManager) :
    d.allocatePageWith {} = (.returned d.allocatePage.1, d.allocatePage.2) := by
  unfold allocatePageWith allocatePage
  split <;> rfl

theorem deallocatePageWith_none (d : DiskManager) (id : PageId) :
    d.deallocatePageWith {} id = (.returned (d.deallocatePage id).1, (d.deallocatePage id).2) := by
  unfold deallocatePageWith deallocatePage
  split
  · rfl
  · rename_i hno
    have hwrite : ∀ buffer, (d.writePage id buffer).1 = true := by
      intro buffer
      rw [writePage, if_neg fun hge => hno (Or.inr hge)]
    have heq : ∀ buffer, d.writePageWith none id buffer = (true, (d.writePage id buffer).2) :=
      fun buffer => Prod.ext (hwrite buffer) rfl
    simp only [heq]
    rfl

/-! ## 3. When an allocation throws -/

/-- The writes of `AllocatePage` that can throw are served. -/
def AllocatePasses (io : IoFaults) (d : DiskManager) : Prop :=
  io.header = none ∧ (d.header.freeListHead = invalidPageId → io.extend = none)

theorem persistWith_threw_iff (d : DiskManager) (id : PageId) :
    (d.persistWith io id).1 = .threw ↔ io.header ≠ none := by
  unfold persistWith writeHeaderWith
  cases io.header <;> simp

@[simp] theorem writePageWith_header (fault : Option Buf) (d : DiskManager) (id : PageId)
    (buffer : Buf) : (d.writePageWith fault id buffer).2.header = d.header := by
  unfold writePageWith
  cases fault with
  | none => exact writePage_header d id buffer
  | some image => dsimp only; split <;> rfl

theorem allocatePageWith_threw_iff :
    (d.allocatePageWith io).1 = .threw ↔ ¬ d.AllocatePasses io := by
  unfold allocatePageWith AllocatePasses
  by_cases hhead : d.header.freeListHead = invalidPageId
  · rw [if_neg (not_not.mpr hhead)]
    cases hext : io.extend with
    | none => simp [persistWith_threw_iff, hhead]
    | some image => simp [hhead]
  · rw [if_pos hhead]
    simp [persistWith_threw_iff, hhead]

end DiskManager

end CourtDB
