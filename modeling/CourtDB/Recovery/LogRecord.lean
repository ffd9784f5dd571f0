/-
# Log records

The records of the write-ahead log (`recovery/log_record.h`, `recovery/log_record.cpp`): a
header that names the operation, the page and the slot, and a payload.  The factories keep the
source's 16-bit payload size, and the accessors read the payload the way the source does, with
16-bit offsets into it.  `serialize` lays a record out as it lies in the log file, and
`deserialize` reads it back.
-/
import CourtDB.Storage.Page

namespace CourtDB

open Bytes

/-! ## 1. The data model -/

/-- Log sequence number. -/
abbrev LSN := UInt64

/-- The enumerators, and `other` for a byte in the log that is none of them. -/
inductive LogRecordType
  | invalid
  | insert
  | delete
  | update
  | newPage
  | checkpointBegin
  | checkpointEnd
  | other (code : UInt8)
deriving DecidableEq, Repr

namespace LogRecordType

/-- The byte that stands for the type. -/
def code : LogRecordType → UInt8
  | invalid => 0
  | insert => 1
  | delete => 2
  | update => 3
  | newPage => 4
  | checkpointBegin => 5
  | checkpointEnd => 6
  | other code => code

/-- `static_cast<LogRecordType>`. -/
def ofCode (code : UInt8) : LogRecordType :=
  if code = 0 then invalid
  else if code = 1 then insert
  else if code = 2 then delete
  else if code = 3 then update
  else if code = 4 then newPage
  else if code = 5 then checkpointBegin
  else if code = 6 then checkpointEnd
  else other code

end LogRecordType

structure LogRecordHeader where
  totalSize : UInt32 := 0
  lsn : LSN := 0
  type : LogRecordType := .invalid
  pageId : PageId := invalidPageId
  slotId : UInt16 := 0
  payloadSize : UInt16 := 0
deriving DecidableEq, Repr

structure LogRecord where
  header : LogRecordHeader
  payload : List UInt8
deriving DecidableEq, Repr

namespace LogRecord

/-- `LogRecordHeader::HEADER_SIZE`. -/
def headerSize : UInt32 := 21

def getType (r : LogRecord) : LogRecordType := r.header.type

def getPageId (r : LogRecord) : PageId := r.header.pageId

def getSlotId (r : LogRecord) : UInt16 := r.header.slotId

def getTotalSize (r : LogRecord) : UInt32 := r.header.totalSize

/-! ## 2. The factories

They differ in their payload only, so each is `make` with its own.  The size of a payload is a sum
in 16 bits, and the source copies into a vector of that size.  When the sum wraps, it copies beyond
the vector; the payload here is what lies inside, and `CheckedLog` is about the rest. -/

/-- The record of an operation with a payload of the given 16-bit size. -/
def make (type : LogRecordType) (lsn : LSN) (pageId : PageId) (slotId payloadSize : UInt16)
    (payload : List UInt8) : LogRecord where
  header := {
    totalSize := headerSize + payloadSize.toUInt32
    lsn := lsn
    type := type
    pageId := pageId
    slotId := slotId
    payloadSize := payloadSize }
  payload := payload

/-- `MakeInsert`. -/
def makeInsert (lsn : LSN) (pageId : PageId) (slotId : UInt16) (data : RecordData) : LogRecord :=
  make .insert lsn pageId slotId data.length data.bytes

/-- `MakeDelete`. -/
def makeDelete (lsn : LSN) (pageId : PageId) (slotId : UInt16) (oldData : RecordData) :
    LogRecord :=
  make .delete lsn pageId slotId oldData.length oldData.bytes

/-- `MakeUpdate`: the payload is the old length, the old bytes, the new length and the new
bytes, cut to a payload size computed in 16 bits. -/
def makeUpdate (lsn : LSN) (pageId : PageId) (slotId : UInt16) (oldData newData : RecordData) :
    LogRecord :=
  let payloadSize := 2 + oldData.length + 2 + newData.length
  let payload := FixedRepr.encode oldData.length ++ oldData.bytes
    ++ FixedRepr.encode newData.length ++ newData.bytes
  make .update lsn pageId slotId payloadSize (payload.take payloadSize.toNat)

/-- `MakeNewPage`. -/
def makeNewPage (lsn : LSN) (pageId : PageId) : LogRecord := make .newPage lsn pageId 0 0 []

/-- `MakeCheckpointBegin`. -/
def makeCheckpointBegin (lsn : LSN) : LogRecord :=
  make .checkpointBegin lsn invalidPageId 0 0 []

/-- `MakeCheckpointEnd`: the payload is a 32-bit count and 12 bytes for each dirty page, cut to
a payload size computed in 16 bits. -/
def makeCheckpointEnd (lsn : LSN) (dirtyPages : List (PageId × LSN)) : LogRecord :=
  let count := UInt32.ofNat dirtyPages.length
  let payloadSize := (4 + count * 12).toUInt16
  let payload := FixedRepr.encode count ++ dirtyPages.flatMap FixedRepr.encode
  make .checkpointEnd lsn invalidPageId 0 payloadSize (payload.take payloadSize.toNat)

/-- A record that a factory returns, for arguments whose payload size fits its 16 bits. -/
inductive Built : LogRecord → Prop
  | insert (lsn : LSN) (pageId : PageId) (slotId : UInt16) (data : RecordData) :
      Built (makeInsert lsn pageId slotId data)
  | delete (lsn : LSN) (pageId : PageId) (slotId : UInt16) (oldData : RecordData) :
      Built (makeDelete lsn pageId slotId oldData)
  | update (lsn : LSN) (pageId : PageId) (slotId : UInt16) (oldData newData : RecordData)
      (h : oldData.bytes.length + newData.bytes.length ≤ 65531) :
      Built (makeUpdate lsn pageId slotId oldData newData)
  | newPage (lsn : LSN) (pageId : PageId) : Built (makeNewPage lsn pageId)
  | checkpointBegin (lsn : LSN) : Built (makeCheckpointBegin lsn)
  | checkpointEnd (lsn : LSN) (dirtyPages : List (PageId × LSN))
      (h : 4 + 12 * dirtyPages.length < 2 ^ 16) : Built (makeCheckpointEnd lsn dirtyPages)

/-! ## 3. The accessors

They believe the lengths in the payload.  What they would read behind its end is left out here. -/

/-- `GetInsertData`: the payload, with a null pointer when it is empty. -/
def getInsertData (r : LogRecord) : RecordArg :=
  if r.payload = [] then .null r.header.payloadSize
  else .data ⟨r.payload.take r.header.payloadSize.toNat,
    lt_of_le_of_lt (List.length_take_le _ _) r.header.payloadSize.toNat_lt⟩

/-- The 16-bit number at an offset of the payload. -/
def payloadLength (r : LogRecord) (offset : UInt16) : UInt16 :=
  FixedRepr.decode ((r.payload.drop offset.toNat).take 2)

/-- The `length` bytes at an offset of the payload. -/
def payloadData (r : LogRecord) (offset length : UInt16) : RecordData :=
  ⟨(r.payload.drop offset.toNat).take length.toNat,
    lt_of_le_of_lt (List.length_take_le _ _) length.toNat_lt⟩

/-- `GetUpdateData`: the old and the new record. -/
def getUpdateData (r : LogRecord) : RecordData × RecordData :=
  let oldLength := r.payloadLength 0
  let newLength := r.payloadLength (2 + oldLength)
  (r.payloadData 2 oldLength, r.payloadData (2 + oldLength + 2) newLength)

/-! ## 4. The accessors read what the factories wrote -/

theorem getInsertData_makeInsert (lsn : LSN) (pageId : PageId) (slotId : UInt16)
    {data : RecordData} (h : data.length ≠ 0) :
    (makeInsert lsn pageId slotId data).getInsertData = .data data := by
  have hne : data.bytes ≠ [] := fun h0 => h (UInt16.toNat_inj.mp (by simp [h0]))
  have htake : data.bytes.take data.length.toNat = data.bytes := by
    rw [RecordData.toNat_length, List.take_length]
  simp only [getInsertData, makeInsert, make, hne, if_false, htake]

/-- A slice of a byte string that starts after `a` and is as long as `b`. -/
theorem slice_append {a b c : List UInt8} {n k : Nat} (hn : a.length = n) (hk : b.length = k) :
    ((a ++ (b ++ c)).drop n).take k = b := by
  rw [List.drop_left' hn, List.take_left' hk]

/-- Without a wrap the payload of an update record is whole. -/
theorem payload_makeUpdate (lsn : LSN) (pageId : PageId) (slotId : UInt16)
    {oldData newData : RecordData}
    (h : 4 + oldData.bytes.length + newData.bytes.length < 2 ^ 16) :
    (makeUpdate lsn pageId slotId oldData newData).payload
      = FixedRepr.encode oldData.length ++ (oldData.bytes
        ++ (FixedRepr.encode newData.length ++ newData.bytes)) := by
  have hsize : (2 + oldData.length + 2 + newData.length).toNat
      = 2 + oldData.bytes.length + 2 + newData.bytes.length := by
    simp only [UInt16.toNat_add, RecordData.toNat_length, UInt16.reduceToNat]
    omega
  simp only [makeUpdate, make, List.append_assoc]
  refine List.take_of_length_le ?_
  rw [hsize]
  simp only [List.length_append, FixedRepr.length_encode, size_uint16]
  omega

section Update

variable (lsn : LSN) (pageId : PageId) (slotId : UInt16) {oldData newData : RecordData}

theorem toNat_newOffset (h : 4 + oldData.bytes.length + newData.bytes.length < 2 ^ 16) :
    (2 + oldData.length).toNat = 2 + oldData.bytes.length ∧
      (2 + oldData.length + 2).toNat = 2 + oldData.bytes.length + 2 := by
  simp only [UInt16.toNat_add, RecordData.toNat_length, UInt16.reduceToNat]
  omega

/-- The two length fields of an update record. -/
theorem payloadLength_makeUpdate
    (h : 4 + oldData.bytes.length + newData.bytes.length < 2 ^ 16) :
    (makeUpdate lsn pageId slotId oldData newData).payloadLength 0 = oldData.length ∧
      (makeUpdate lsn pageId slotId oldData newData).payloadLength (2 + oldData.length)
        = newData.length := by
  obtain ⟨hbegin, -⟩ := toNat_newOffset h
  let lo := FixedRepr.encode oldData.length
  let ln := FixedRepr.encode newData.length
  have hlo : lo.length = 2 := FixedRepr.length_encode _
  have hln : ln.length = 2 := FixedRepr.length_encode _
  have hpay : (makeUpdate lsn pageId slotId oldData newData).payload
      = lo ++ (oldData.bytes ++ (ln ++ newData.bytes)) :=
    payload_makeUpdate lsn pageId slotId h
  constructor
  · simp only [payloadLength, hpay]
    exact (congrArg FixedRepr.decode (slice_append (a := []) rfl hlo)).trans
      (FixedRepr.decode_encode _)
  · simp only [payloadLength, hpay, hbegin]
    rw [← List.append_assoc, slice_append (by simp [hlo]) hln]
    exact FixedRepr.decode_encode _

/-- **An update record gives back both records**, as long as its payload size does not wrap. -/
theorem getUpdateData_makeUpdate
    (h : 4 + oldData.bytes.length + newData.bytes.length < 2 ^ 16) :
    (makeUpdate lsn pageId slotId oldData newData).getUpdateData = (oldData, newData) := by
  obtain ⟨-, hnew⟩ := toNat_newOffset h
  obtain ⟨hold, hnewLength⟩ := payloadLength_makeUpdate lsn pageId slotId h
  let lo := FixedRepr.encode oldData.length
  let ln := FixedRepr.encode newData.length
  have hlo : lo.length = 2 := FixedRepr.length_encode _
  have hln : ln.length = 2 := FixedRepr.length_encode _
  have hpay : (makeUpdate lsn pageId slotId oldData newData).payload
      = lo ++ (oldData.bytes ++ (ln ++ newData.bytes)) :=
    payload_makeUpdate lsn pageId slotId h
  have h1 : (makeUpdate lsn pageId slotId oldData newData).payloadData 2 oldData.length
      = oldData := by
    simp only [payloadData, hpay, oldData.toNat_length]
    congr 1
    exact slice_append hlo rfl
  have h2 : (makeUpdate lsn pageId slotId oldData newData).payloadData
      (2 + oldData.length + 2) newData.length = newData := by
    simp only [payloadData, hpay, newData.toNat_length, hnew]
    congr 1
    have hlen : (lo ++ oldData.bytes ++ ln).length = 2 + oldData.bytes.length + 2 := by
      simp only [List.length_append, hlo, hln]
    rw [← List.append_assoc, ← List.append_assoc, List.drop_left' hlen, List.take_length]
  rw [getUpdateData, hold, hnewLength, h1, h2]

end Update

/-! ## 5. Serialization -/

/-- The buffer that `Serialize` fills: zero bytes, with the header fields and the payload copied
into it. -/
def image (r : LogRecord) : Buf :=
  let buf : Buf := fun _ => 0
  let buf := buf.put 0 r.header.totalSize
  let buf := buf.put 4 r.header.lsn
  let buf := buf.put 12 r.header.type.code
  let buf := buf.put 13 r.header.pageId
  let buf := buf.put 17 r.header.slotId
  let buf := buf.put 19 r.header.payloadSize
  buf.write 21 r.payload

/-- `Serialize`: the first `total_size` bytes of that buffer. -/
def serialize (r : LogRecord) : List UInt8 := r.image.read 0 r.header.totalSize.toNat

/-- `Deserialize`, which reads a whole header whatever `length` is. -/
def deserialize (data : Buf) (length : UInt32) : LogRecord :=
  let header : LogRecordHeader := {
    totalSize := data.get UInt32 0
    lsn := data.get LSN 4
    type := .ofCode (data.get UInt8 12)
    pageId := data.get PageId 13
    slotId := data.get UInt16 17
    payloadSize := data.get UInt16 19 }
  { header := header
    payload :=
      if 0 < header.payloadSize ∧ 21 + header.payloadSize.toNat ≤ length.toNat then
        data.read 21 header.payloadSize.toNat
      else [] }

/-- What the factories keep: a known type, and sizes that agree with the payload. -/
structure WellFormed (r : LogRecord) : Prop where
  type_ne : r.header.type ≠ .invalid
  type_code : .ofCode r.header.type.code = r.header.type
  payloadSize : r.header.payloadSize.toNat = r.payload.length
  totalSize : r.header.totalSize = headerSize + r.header.payloadSize.toUInt32

theorem wellFormed_make {type : LogRecordType} {lsn : LSN} {pageId : PageId}
    {slotId payloadSize : UInt16} {payload : List UInt8} (hne : type ≠ .invalid)
    (hcode : .ofCode type.code = type) (h : payloadSize.toNat = payload.length) :
    (make type lsn pageId slotId payloadSize payload).WellFormed := ⟨hne, hcode, h, rfl⟩

/-- The payload of an update record has the size its header states, also where that size has
wrapped around. -/
theorem wellFormed_makeUpdate (lsn : LSN) (pageId : PageId) (slotId : UInt16)
    (oldData newData : RecordData) :
    (makeUpdate lsn pageId slotId oldData newData).WellFormed := by
  refine wellFormed_make (by decide) (by decide) ?_
  have ho := oldData.toNat_length
  have hn := newData.toNat_length
  have hsize : (2 + oldData.length + 2 + newData.length).toNat
      = (4 + oldData.bytes.length + newData.bytes.length) % 2 ^ 16 := by
    simp only [UInt16.toNat_add, ho, hn, UInt16.toNat_ofNat]
    omega
  rw [List.length_take, hsize]
  simp only [List.length_append, FixedRepr.length_encode, size_uint16]
  omega

/-- **Every factory keeps the sizes.** -/
theorem Built.wellFormed {r : LogRecord} (h : r.Built) : r.WellFormed := by
  cases h with
  | insert lsn pageId slotId data =>
    exact wellFormed_make (by decide) (by decide) data.toNat_length
  | delete lsn pageId slotId oldData =>
    exact wellFormed_make (by decide) (by decide) oldData.toNat_length
  | update lsn pageId slotId oldData newData h =>
    exact wellFormed_makeUpdate lsn pageId slotId oldData newData
  | newPage lsn pageId => exact wellFormed_make (by decide) (by decide) rfl
  | checkpointBegin lsn => exact wellFormed_make (by decide) (by decide) rfl
  | checkpointEnd lsn dirtyPages h =>
    refine wellFormed_make (by decide) (by decide) ?_
    have hsize : (4 + UInt32.ofNat dirtyPages.length * 12).toUInt16.toNat
        = 4 + 12 * dirtyPages.length := by
      simp only [UInt32.toNat_toUInt16, UInt32.toNat_add, UInt32.toNat_mul, UInt32.toNat_ofNat']
      simp only [UInt32.reduceToNat]
      omega
    rw [List.length_take, hsize, List.length_append, Buf.length_flatMap_encode]
    simp only [FixedRepr.length_encode, size_prod, size_uint32, LSN, size_uint64]
    omega

namespace WellFormed

variable {r : LogRecord}

theorem toNat_totalSize (h : r.WellFormed) :
    r.header.totalSize.toNat = 21 + r.payload.length := by
  have hp := h.payloadSize
  have hlt := r.header.payloadSize.toNat_lt
  rw [h.totalSize, UInt32.toNat_add, UInt16.toNat_toUInt32, hp]
  exact Nat.mod_eq_of_lt (by simp [headerSize]; omega)

theorem length_serialize (h : r.WellFormed) :
    r.serialize.length = 21 + r.payload.length := by
  rw [← h.toNat_totalSize]; simp [serialize]

/-- **Round trip.**  What lies behind the record in memory does not matter. -/
theorem deserialize_serialize (h : r.WellFormed) (memory : Buf) :
    deserialize (memory.write 0 r.serialize) r.header.totalSize = r := by
  have hlen := h.toNat_totalSize
  -- inside the record the memory is that of its image
  have hcopy : ∀ {n : Nat}, n ≤ 21 + r.payload.length → ∀ i < n,
      memory.write 0 r.serialize i = r.image i := fun hn i hi =>
    Buf.write_read_apply (by omega)
  have hget : ∀ {α : Type} [FixedRepr α] (off : Nat), off + FixedRepr.size α ≤ 21 →
      (memory.write 0 r.serialize).get α off = r.image.get α off := fun off hoff =>
    Buf.get_congr fun i _ hi => hcopy (by omega) i hi
  have hpayload : (memory.write 0 r.serialize).read 21 r.payload.length = r.payload := by
    rw [Buf.read_congr fun i _ hi => hcopy (le_refl _) i hi]
    exact Buf.read_write_self _ _ _
  -- the header fields lie apart from each other and from the payload
  have hheader : (deserialize (memory.write 0 r.serialize) r.header.totalSize).header
      = r.header := by
    simp only [deserialize]
    rw [hget 0 (by decide), hget 4 (by decide), hget 12 (by decide), hget 13 (by decide),
      hget 17 (by decide), hget 19 (by decide)]
    simp only [image, Buf.get_write_of_disjoint, Buf.get_put_of_disjoint, Buf.get_put_self,
      size_uint8, size_uint16, size_uint32, size_uint64, h.type_code, Nat.reduceAdd,
      Nat.reduceLeDiff, true_or]
  have hsize : (memory.write 0 r.serialize).get UInt16 19 = r.header.payloadSize :=
    congrArg LogRecordHeader.payloadSize hheader
  -- the payload has the length that the header says
  have hdata : (deserialize (memory.write 0 r.serialize) r.header.totalSize).payload
      = r.payload := by
    have hp := h.payloadSize
    simp only [deserialize, hsize]
    -- without a payload nothing is copied
    by_cases hnil : r.payload = []
    · have hzero : ¬ 0 < r.header.payloadSize := by
        rw [UInt16.lt_iff_toNat_lt, hp, hnil]; exact Nat.lt_irrefl 0
      rw [if_neg fun hpos => hzero hpos.1, hnil]
    · have hpos : 0 < r.header.payloadSize := by
        rw [UInt16.lt_iff_toNat_lt, hp]; exact List.length_pos_of_ne_nil hnil
      rw [if_pos ⟨hpos, by omega⟩, hp, hpayload]
  calc deserialize (memory.write 0 r.serialize) r.header.totalSize
      = ⟨(deserialize (memory.write 0 r.serialize) r.header.totalSize).header,
          (deserialize (memory.write 0 r.serialize) r.header.totalSize).payload⟩ := rfl
    _ = r := by rw [hheader, hdata]

end WellFormed

end LogRecord

end CourtDB
