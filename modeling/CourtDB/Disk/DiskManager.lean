/-
# The disk manager

`DiskManager` (`disk/disk_manager.h`, `disk/disk_manager.cpp`) is the file as an array of
4096-byte page images, with a cached header that says how many pages there are and where the
list of deallocated pages starts.  Page 0 holds the header itself.

Reads and writes of an existing page succeed, and the file can be extended: the exceptions the
source throws when the operating system refuses are not modelled.  The read and write counters
are diagnostics and are left out.
-/
import CourtDB.Storage.PageImage

namespace CourtDB

open Bytes

/-! ## 1. The data model -/

/-- The header of the database file, as page 0 stores it. -/
structure DatabaseHeader where
  magic : UInt32 := 0x434F5552
  version : UInt32 := 1
  pageCount : UInt32 := 1
  freeListHead : PageId := invalidPageId
  freePageCount : UInt32 := 0
deriving DecidableEq, Repr

/-- The open file: the cached header, and the image of each page. -/
structure DiskManager where
  header : DatabaseHeader
  file : PageId → Buf

namespace DiskManager

/-- An image of zero bytes. -/
def zeroImage : Buf := fun _ => 0

/-! ## 2. The header page -/

/-- The bytes of page 0: five 32-bit fields back to back, then zeros. -/
def headerImage (h : DatabaseHeader) : Buf :=
  ((((zeroImage.put 0 h.magic).put 4 h.version).put 8 h.pageCount).put 12 h.freeListHead).put 16
    h.freePageCount

/-- `ReadHeader`. -/
def readHeader (b : Buf) : DatabaseHeader where
  magic := b.get UInt32 0
  version := b.get UInt32 4
  pageCount := b.get UInt32 8
  freeListHead := b.get PageId 12
  freePageCount := b.get UInt32 16

theorem readHeader_headerImage (h : DatabaseHeader) : readHeader (headerImage h) = h := by
  unfold readHeader headerImage
  congr 1 <;>
    simp only [Buf.get_put_self, Buf.get_put_of_disjoint, size_uint32, Nat.reduceAdd,
      Nat.reduceLeDiff, or_false]

/-- `WriteHeader`. -/
def writeHeader (d : DiskManager) : DiskManager :=
  { d with file := Function.update d.file 0 (headerImage d.header) }

/-- `InitializeNewFile`, run when the constructor finds no file. -/
def initializeNewFile : DiskManager := writeHeader ⟨{}, fun _ => zeroImage⟩

/-- The constructor on an existing file: read the header back, reject a wrong magic number. -/
def openExisting (file : PageId → Buf) : Option DiskManager :=
  let header := readHeader (file 0)
  if header.magic = 0x434F5552 then some ⟨header, file⟩ else none

/-! ## 3. Page input and output -/

/-- `ReadPage`: the image, or nothing when the page does not exist. -/
def readPage (d : DiskManager) (pageId : PageId) : Option Buf :=
  if pageId ≥ d.header.pageCount then none else some (d.file pageId)

/-- `WritePage`: replace the 4096 bytes of an existing page. -/
def writePage (d : DiskManager) (pageId : PageId) (buffer : Buf) : Bool × DiskManager :=
  if pageId ≥ d.header.pageCount then (false, d)
  else
    let image := (d.file pageId).fill pageSize buffer
    (true, { d with file := Function.update d.file pageId image })

/-! ## 4. Allocation -/

/-- The header after the head of the free list is taken off: its first four bytes name the next
free page. -/
def popFreeList (d : DiskManager) : DatabaseHeader :=
  match d.readPage d.header.freeListHead with
  | some buffer =>
    { d.header with
      freeListHead := buffer.get PageId 0
      freePageCount := d.header.freePageCount - 1 }
  | none => d.header

/-- `AllocatePage`: reuse the head of the free list, or extend the file by one page.  Either way
the page is zeroed and the header written. -/
def allocatePage (d : DiskManager) : PageId × DiskManager :=
  if d.header.freeListHead ≠ invalidPageId then
    let newPageId := d.header.freeListHead
    let popped : DiskManager := ⟨d.popFreeList, d.file⟩
    (newPageId, (popped.writePage newPageId zeroImage).2.writeHeader)
  else
    let newPageId := d.header.pageCount
    let file := Function.update d.file newPageId zeroImage
    (newPageId,
      ({ header := { d.header with pageCount := d.header.pageCount + 1 }, file := file }
        : DiskManager).writeHeader)

/-- `DeallocatePage`: push the page on the free list. -/
def deallocatePage (d : DiskManager) (pageId : PageId) : Bool × DiskManager :=
  if pageId = 0 ∨ pageId ≥ d.header.pageCount then (false, d)
  else
    let written := (d.writePage pageId (zeroImage.put 0 d.header.freeListHead)).2
    let header := { d.header with
      freeListHead := pageId
      freePageCount := d.header.freePageCount + 1 }
    (true, { written with header := header }.writeHeader)

/-! ## 5. What the operations do -/

@[simp] theorem writeHeader_header (d : DiskManager) : d.writeHeader.header = d.header := rfl

theorem writeHeader_file (d : DiskManager) {id : PageId} (h : id ≠ 0) :
    d.writeHeader.file id = d.file id := Function.update_of_ne h _ _

/-- The header that was written last is the one an open of the file reads. -/
theorem openExisting_writeHeader (d : DiskManager) (h : d.header.magic = 0x434F5552) :
    openExisting d.writeHeader.file = some d.writeHeader := by
  have hf : d.writeHeader.file 0 = headerImage d.header := by simp [writeHeader]
  unfold openExisting
  rw [hf, readHeader_headerImage]
  exact if_pos h

@[simp] theorem writePage_header (d : DiskManager) (id : PageId) (b : Buf) :
    (d.writePage id b).2.header = d.header := by
  unfold writePage
  split <;> rfl

theorem writePage_file_of_ne (d : DiskManager) {id id' : PageId} (b : Buf) (h : id' ≠ id) :
    (d.writePage id b).2.file id' = d.file id' := by
  unfold writePage
  split
  · rfl
  · exact Function.update_of_ne h _ _

/-- The image of a page that exists, after it was written. -/
theorem writePage_file_self (d : DiskManager) (id : PageId) (b : Buf)
    (h : id < d.header.pageCount) :
    (d.writePage id b).2.file id = (d.file id).fill pageSize b := by
  unfold writePage
  rw [if_neg (UInt32.not_le.mpr h)]
  exact Function.update_self _ _ _

theorem readPage_of_lt (d : DiskManager) {id : PageId} (h : id < d.header.pageCount) :
    d.readPage id = some (d.file id) := if_neg (UInt32.not_le.mpr h)

theorem readPage_eq_some {d : DiskManager} {id : PageId} {b : Buf} (h : d.readPage id = some b) :
    id < d.header.pageCount ∧ b = d.file id := by
  unfold readPage at h
  split at h
  · exact absurd h (by simp)
  · rename_i hlt
    exact ⟨UInt32.not_le.mp hlt, (Option.some.inj h).symm⟩

/-- A file in which no page was ever deallocated: it grows, and never reuses a page. -/
def Growing (d : DiskManager) : Prop :=
  d.header.freeListHead = invalidPageId ∧ 0 < d.header.pageCount

theorem growing_initializeNewFile : initializeNewFile.Growing := ⟨rfl, by decide⟩

section Growing

variable {d : DiskManager}

theorem Growing.allocatePage_eq (h : d.Growing) :
    d.allocatePage = (d.header.pageCount,
      ({ header := { d.header with pageCount := d.header.pageCount + 1 }
         file := Function.update d.file d.header.pageCount zeroImage } : DiskManager).writeHeader)
    := by
  unfold allocatePage
  rw [if_neg (not_not.mpr h.1)]

theorem toNat_succ32 {a : UInt32} (h : a ≠ invalidPageId) : (a + 1).toNat = a.toNat + 1 := by
  have hne : a.toNat ≠ 2 ^ 32 - 1 := fun he => h (UInt32.toNat_inj.mp he)
  have hlt := a.toNat_lt
  rw [UInt32.toNat_add, UInt32.toNat_one]
  exact Nat.mod_eq_of_lt (by omega)

/-- **Extending the file.**  While page ids last, the new page is the first one past the end,
its image is zero, and no other page but the header page changes. -/
theorem Growing.allocatePage (h : d.Growing) (hid : d.allocatePage.1 ≠ invalidPageId) :
    d.allocatePage.1 = d.header.pageCount ∧ d.allocatePage.2.Growing ∧
      d.allocatePage.2.header.pageCount.toNat = d.header.pageCount.toNat + 1 ∧
      d.allocatePage.2.file d.header.pageCount = zeroImage ∧
      ∀ id, id ≠ 0 → id ≠ d.header.pageCount → d.allocatePage.2.file id = d.file id := by
  rw [h.allocatePage_eq] at hid ⊢
  have hsucc := toNat_succ32 hid
  have hpos : d.header.pageCount ≠ 0 := fun h0 => absurd h.2 (by rw [h0]; decide)
  refine ⟨rfl, ⟨h.1, ?_⟩, hsucc, ?_, fun id h0 hne => ?_⟩
  · exact UInt32.lt_iff_toNat_lt.mpr (hsucc ▸ Nat.succ_pos _)
  · rw [writeHeader_file _ hpos]
    exact Function.update_self _ _ _
  · rw [writeHeader_file _ h0]
    exact Function.update_of_ne hne _ _

theorem Growing.writePage (h : d.Growing) (id : PageId) (b : Buf) :
    (d.writePage id b).2.Growing := by
  unfold Growing at *
  rwa [writePage_header]

end Growing

end DiskManager

end CourtDB
