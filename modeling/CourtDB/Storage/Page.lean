/-
# The slotted page

`Page` is the 4096-byte unit of storage (`storage/page.h`, `storage/page.cpp`).  It is held in
two forms at once: the raw bytes, and the header and slot directory decoded out of them.  The
record operations work on the decoded form and write only record bytes into the buffer;
`serializeToBuffer` and `deserializeFromBuffer` move between the two.

The header fields and slot entries keep their 16-bit and 32-bit types, so every subtraction and
increment below wraps exactly where the source's does.  Where the source computes in promoted
`int`s (the space check of `insertRecord`) the model computes in `Int`.
-/
import CourtDB.Lib.Bytes
import Mathlib.Data.List.Sort

namespace CourtDB

open Bytes

/-! ## 1. Constants and the data model -/

/-- Type alias for page identifiers. -/
abbrev PageId := UInt32

/-- Fixed page size in bytes. -/
def pageSize : Nat := 4096

/-- Invalid page identifier sentinel. -/
def invalidPageId : PageId := 0xFFFFFFFF

/-- Bytes of the serialized page header. -/
def headerSize : UInt16 := 20

/-- Bytes of one serialized slot entry. -/
def slotEntrySize : UInt16 := 4

/-- One entry of the slot directory: where a record lies in the page. -/
structure SlotEntry where
  offset : UInt16 := 0
  length : UInt16 := 0
deriving DecidableEq, Repr

/-- A slot with offset and length zero is deleted or unoccupied. -/
def SlotEntry.isEmpty (s : SlotEntry) : Bool := s.offset == 0 && s.length == 0

instance : FixedRepr SlotEntry where
  size := 4
  encode s := FixedRepr.encode (s.offset, s.length)
  decode bs := ⟨(FixedRepr.decode (α := UInt16 × UInt16) bs).1,
    (FixedRepr.decode (α := UInt16 × UInt16) bs).2⟩
  length_encode s := FixedRepr.length_encode (s.offset, s.length)
  decode_encode s := by rw [FixedRepr.decode_encode]

@[simp] theorem size_slotEntry : FixedRepr.size SlotEntry = 4 := rfl

/-- The fixed-size header at the beginning of every page. -/
structure PageHeader where
  pageId : PageId := invalidPageId
  numSlots : UInt16 := 0
  freeSpaceOffset : UInt16 := 0
  freeSpaceEnd : UInt16 := 4096
  numRecords : UInt16 := 0
  nextPageId : PageId := invalidPageId
  flags : UInt16 := 0
deriving DecidableEq, Repr

/-- `Page`: the raw bytes, and the header and slot directory decoded from them. -/
structure Page where
  data : Buf
  header : PageHeader
  slots : List SlotEntry

/-- Record bytes with a 16-bit length. -/
structure RecordData where
  bytes : List UInt8
  lt : bytes.length < 2 ^ 16
deriving DecidableEq, Repr

def RecordData.length (r : RecordData) : UInt16 := UInt16.ofNat r.bytes.length

@[simp] theorem RecordData.toNat_length (r : RecordData) :
    r.length.toNat = r.bytes.length := UInt16.toNat_ofNat_of_lt' r.lt

/-- A `(const uint8_t* data, uint16_t length)` argument: a null pointer with any length, or
`length` readable bytes. -/
inductive RecordArg
  | null (length : UInt16)
  | data (r : RecordData)
deriving DecidableEq, Repr

def RecordArg.length : RecordArg → UInt16
  | null n => n
  | data r => r.length

namespace Page

/-! ## 2. Construction -/

/-- `Page::Page(page_id)`: zeroed bytes and an empty directory. -/
def ofId (pageId : PageId) : Page where
  data := fun _ => 0
  header := { pageId := pageId, freeSpaceOffset := headerSize }
  slots := []

/-! ## 3. Accessors and helpers -/

/-- `slots_[slot_id]`. -/
def slot (p : Page) (slotId : UInt16) : SlotEntry := p.slots.getD slotId.toNat {}

def getPageId (p : Page) : PageId := p.header.pageId

def getNumRecords (p : Page) : UInt16 := p.header.numRecords

def getNumSlots (p : Page) : UInt16 := p.header.numSlots

def getNextPageId (p : Page) : PageId := p.header.nextPageId

def setNextPageId (p : Page) (id : PageId) : Page :=
  { p with header := { p.header with nextPageId := id } }

def setFlags (p : Page) (flags : UInt16) : Page :=
  { p with header := { p.header with flags := flags } }

/-- `FindEmptySlot`: the first empty slot of the directory. -/
def findEmptySlot (p : Page) : Option UInt16 :=
  ((p.slots.take p.header.numSlots.toNat).findIdx? SlotEntry.isEmpty).map UInt16.ofNat

/-- `GetFreeSpace`. -/
def getFreeSpace (p : Page) : UInt16 :=
  if p.header.freeSpaceEnd ≤ p.header.freeSpaceOffset then 0
  else p.header.freeSpaceEnd - p.header.freeSpaceOffset

/-- `HasSpaceFor`: the total is a `uint16_t` and wraps. -/
def hasSpaceFor (p : Page) (recordLength : UInt16) : Bool :=
  let totalNeeded :=
    if p.findEmptySlot.isSome then recordLength else recordLength + slotEntrySize
  decide (p.getFreeSpace ≥ totalNeeded)

/-! ## 4. Record operations -/

/-- The slot `InsertRecord` uses: an empty one, or a new one at the end of the directory. -/
def insertSlot (p : Page) : UInt16 := p.findEmptySlot.getD p.header.numSlots

/-- The directory bytes `InsertRecord` needs beyond the record itself. -/
def slotOverhead (p : Page) : UInt16 := if p.findEmptySlot.isSome then 0 else slotEntrySize

/-- The space check of `InsertRecord`, evaluated in `int`. -/
def fits (p : Page) (length : UInt16) : Bool :=
  decide ¬ ((length.toNat : Int) + p.slotOverhead.toNat
    > (p.header.freeSpaceEnd.toNat : Int) - p.header.freeSpaceOffset.toNat)

/-- The part of `InsertRecord` after its checks: copy the record below the data region and
point a slot at it. -/
def placeRecord (p : Page) (r : RecordData) : Page :=
  let recordOffset := p.header.freeSpaceEnd - r.length
  let entry : SlotEntry := ⟨recordOffset, r.length⟩
  match p.findEmptySlot with
  | some s =>
    { data := p.data.write recordOffset.toNat r.bytes
      header := { p.header with
        freeSpaceEnd := recordOffset
        numRecords := p.header.numRecords + 1 }
      slots := p.slots.set s.toNat entry }
  | none =>
    { data := p.data.write recordOffset.toNat r.bytes
      header := { p.header with
        numSlots := p.header.numSlots + 1
        freeSpaceOffset := p.header.freeSpaceOffset + slotEntrySize
        freeSpaceEnd := recordOffset
        numRecords := p.header.numRecords + 1 }
      slots := p.slots ++ [entry] }

/-- `InsertRecord`. -/
def insertRecord (p : Page) : RecordArg → Option UInt16 × Page
  | .null _ => (none, p)
  | .data r =>
    if r.length = 0 then (none, p)
    else if p.fits r.length then (some p.insertSlot, p.placeRecord r)
    else (none, p)

/-- The part of `DeleteRecord` after its checks: the slot becomes a tombstone, the record bytes
stay. -/
def tombstone (p : Page) (slotId : UInt16) : Page :=
  { p with
    header := { p.header with numRecords := p.header.numRecords - 1 }
    slots := p.slots.set slotId.toNat {} }

/-- `DeleteRecord`. -/
def deleteRecord (p : Page) (slotId : UInt16) : Bool × Page :=
  if slotId ≥ p.header.numSlots then (false, p)
  else if (p.slot slotId).isEmpty then (false, p)
  else (true, p.tombstone slotId)

/-- `GetRecord`. -/
def getRecord (p : Page) (slotId : UInt16) : Option (List UInt8) :=
  if slotId ≥ p.header.numSlots then none
  else if (p.slot slotId).isEmpty then none
  else some (p.data.read (p.slot slotId).offset.toNat (p.slot slotId).length.toNat)

/-- `UpdateRecord`'s in-place branch: the bytes past the new length are not reclaimed. -/
def overwrite (p : Page) (slotId : UInt16) (r : RecordData) : Page :=
  { p with
    data := p.data.write (p.slot slotId).offset.toNat r.bytes
    slots := p.slots.set slotId.toNat { p.slot slotId with length := r.length } }

/-- `UpdateRecord`'s other branch: the record moves below the data region. -/
def relocate (p : Page) (slotId : UInt16) (r : RecordData) : Page :=
  let newOffset := p.header.freeSpaceEnd - r.length
  { data := p.data.write newOffset.toNat r.bytes
    header := { p.header with freeSpaceEnd := newOffset }
    slots := p.slots.set slotId.toNat ⟨newOffset, r.length⟩ }

/-- `UpdateRecord`.  A relocation is checked against the growth of the record only, not against
the whole new record. -/
def updateRecord (p : Page) (slotId : UInt16) (r : RecordData) : Bool × Page :=
  if slotId ≥ p.header.numSlots || (p.slot slotId).isEmpty then (false, p)
  else if r.length ≤ (p.slot slotId).length then (true, p.overwrite slotId r)
  else
    let newSpaceNeeded := r.length - (p.slot slotId).length
    if newSpaceNeeded > p.getFreeSpace then (false, p)
    else (true, p.relocate slotId r)

/-! ## 5. Compaction -/

/-- `Compact`'s local record of a live slot. -/
structure LiveRecord where
  slotId : Nat
  originalOffset : UInt16
  length : UInt16
deriving DecidableEq, Repr

/-- The live records of the directory, in slot order. -/
def liveRecords (p : Page) : List LiveRecord :=
  (List.range p.header.numSlots.toNat).filterMap fun i =>
    let s := p.slots.getD i {}
    if s.isEmpty then none else some ⟨i, s.offset, s.length⟩

/-- The order `Compact` sorts by: records closer to the page end first. -/
def LiveRecord.before (a b : LiveRecord) : Prop := b.originalOffset ≤ a.originalOffset

instance : DecidableRel LiveRecord.before := fun a b =>
  inferInstanceAs (Decidable (b.originalOffset ≤ a.originalOffset))

/-- The repacking loop of `Compact`: `temp` is the copy of the page made before it. -/
def repack (temp : Buf) : List LiveRecord → Buf → List SlotEntry → UInt16 →
    Buf × List SlotEntry × UInt16
  | [], data, slots, writePos => (data, slots, writePos)
  | r :: rest, data, slots, writePos =>
    let writePos := writePos - r.length
    repack temp rest
      (data.write writePos.toNat (temp.read r.originalOffset.toNat r.length.toNat))
      (slots.modify r.slotId fun s => { s with offset := writePos })
      writePos

/-- `Compact`: move all live records to the end of the page. -/
def compact (p : Page) : Page :=
  let sorted := p.liveRecords.insertionSort LiveRecord.before
  let packed := repack p.data sorted p.data p.slots (UInt16.ofNat pageSize)
  { data := packed.1
    header := { p.header with freeSpaceEnd := packed.2.2 }
    slots := packed.2.1 }

/-! ## 6. Serialization -/

/-- The header bytes: seven fields at offsets 0, 4, 6, 8, 10, 12 and 16. -/
def putHeader (b : Buf) (h : PageHeader) : Buf :=
  ((((((Buf.put b 0 h.pageId).put 4 h.numSlots).put 6 h.freeSpaceOffset).put 8
    h.freeSpaceEnd).put 10 h.numRecords).put 12 h.nextPageId).put 16 h.flags

/-- Read the seven header fields back. -/
def getHeader (b : Buf) : PageHeader where
  pageId := b.get PageId 0
  numSlots := b.get UInt16 4
  freeSpaceOffset := b.get UInt16 6
  freeSpaceEnd := b.get UInt16 8
  numRecords := b.get UInt16 10
  nextPageId := b.get PageId 12
  flags := b.get UInt16 16

/-- `SerializeToBuffer`: write header and slot directory into the raw bytes. -/
def serializeToBuffer (p : Page) : Page :=
  let directory := p.slots.take p.header.numSlots.toNat
  { p with data := (putHeader p.data p.header).putAll headerSize.toNat directory }

/-- `DeserializeFromBuffer`: decode header and slot directory out of the raw bytes. -/
def deserializeFromBuffer (p : Page) : Page :=
  let h := getHeader p.data
  { p with
    header := h
    slots := p.data.getAll SlotEntry headerSize.toNat h.numSlots.toNat }

/-- The page a frame holds after `src` was read into its buffer: 4096 bytes replaced, then
decoded. -/
def loadFrom (p : Page) (src : Buf) : Page :=
  { p with data := p.data.fill pageSize src }.deserializeFromBuffer

end Page

end CourtDB
