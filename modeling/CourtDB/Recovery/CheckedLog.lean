/-
# Log records in their buffers

The factories, `Serialize`, `Deserialize` and the accessors of log records once more
(`recovery/log_record.cpp`), now with the buffers they work in: every `memcpy` is checked against
the vector it reads or writes, and a function that leaves its vector has no result.  The functions
without the check (`LogRecord.makeUpdate` and the others) are for the rest of the development, where
records are small; here the question is when the two agree.

Where a function stays inside, it does what `LogRecord` says it does.  The factories stay inside as
long as the size of the payload fits its 16 bits, and no longer (`makeUpdate?_isSome_iff`,
`makeCheckpointEnd?_isSome_iff`), so this is exactly when they lose nothing
(`factories_lossless_iff`).

The reason is one line in the source: the payload is allocated with the size that the header has, a
`uint16_t`, after the sum was cut off to it.  When the sum wraps, the payload is shorter than what
is copied into it.  For an update the sum is that of two length fields and two records, for a
checkpoint it is a count and twelve bytes for each page.

For a record that a caller can build without a wrap the whole way is inside: factory, `Serialize`,
`Deserialize`, accessor.  For bytes that come from somewhere else, only `Deserialize` and the
accessors matter, and their conditions are in §4 and §5.
-/
import CourtDB.Lib.CheckedBytes
import CourtDB.Recovery.LogRecord

namespace CourtDB

open Bytes

namespace LogRecord

/-! ## 1. The functions

Written as in the source, with `Buf` for a vector and checked reads and writes.  A value that the
source narrows is narrowed here at the same place. -/

/-- `MakeUpdate`. -/
def makeUpdate? (lsn : LSN) (pageId : PageId) (slotId : UInt16) (oldData newData : RecordData) :
    Option LogRecord := do
  let payloadSize := 2 + oldData.length + 2 + newData.length
  let payload := List.replicate payloadSize.toNat 0
  let offset : UInt16 := 0
  let payload ← put? payload offset.toNat oldData.length
  let offset := offset + 2
  let payload ← write? payload offset.toNat oldData.bytes
  let offset := offset + oldData.length
  let payload ← put? payload offset.toNat newData.length
  let offset := offset + 2
  let payload ← write? payload offset.toNat newData.bytes
  return make .update lsn pageId slotId payloadSize payload

/-- The loop of `MakeCheckpointEnd`. -/
def putDirtyPages : List (PageId × LSN) → List UInt8 → UInt16 → Option (List UInt8)
  | [], payload, _ => some payload
  | (pid, pageLsn) :: dirtyPages, payload, offset => do
    let payload ← put? payload offset.toNat pid
    let offset := offset + 4
    let payload ← put? payload offset.toNat pageLsn
    putDirtyPages dirtyPages payload (offset + 8)

/-- `MakeCheckpointEnd`. -/
def makeCheckpointEnd? (lsn : LSN) (dirtyPages : List (PageId × LSN)) : Option LogRecord := do
  let count := UInt32.ofNat dirtyPages.length
  let payloadSize := (4 + count * 12).toUInt16
  let payload := List.replicate payloadSize.toNat 0
  let payload ← put? payload 0 count
  let payload ← putDirtyPages dirtyPages payload 4
  return make .checkpointEnd lsn invalidPageId 0 payloadSize payload

/-- `Serialize`. -/
def serialize? (r : LogRecord) : Option (List UInt8) := do
  let buf := List.replicate r.header.totalSize.toNat 0
  let buf ← put? buf 0 r.header.totalSize
  let buf ← put? buf 4 r.header.lsn
  let buf ← put? buf 12 r.header.type.code
  let buf ← put? buf 13 r.header.pageId
  let buf ← put? buf 17 r.header.slotId
  let buf ← put? buf 19 r.header.payloadSize
  if r.payload = [] then return buf else write? buf 21 r.payload

/-- `Deserialize`. -/
def deserialize? (data : List UInt8) (length : UInt32) : Option LogRecord := do
  let totalSize ← get? UInt32 data 0
  let lsn ← get? LSN data 4
  let type ← get? UInt8 data 12
  let pageId ← get? PageId data 13
  let slotId ← get? UInt16 data 17
  let payloadSize ← get? UInt16 data 19
  let header : LogRecordHeader :=
    { totalSize, lsn, type := .ofCode type, pageId, slotId, payloadSize }
  if 0 < payloadSize ∧ 21 + payloadSize.toNat ≤ length.toNat then
    let payload ← read? data 21 payloadSize.toNat
    return { header, payload }
  else
    return { header, payload := [] }

/-- What `GetUpdateData` returns: where the old and the new record lie in the payload. -/
structure UpdateData where
  oldData : UInt16
  oldLength : UInt16
  newData : UInt16
  newLength : UInt16
deriving DecidableEq, Repr

/-- `GetUpdateData`. -/
def getUpdateData? (r : LogRecord) : Option UpdateData := do
  let offset : UInt16 := 0
  let oldLength ← get? UInt16 r.payload offset.toNat
  let offset := offset + 2
  let oldData := offset
  let offset := offset + oldLength
  let newLength ← get? UInt16 r.payload offset.toNat
  let offset := offset + 2
  return { oldData, oldLength, newData := offset, newLength }

/-- A reader of `length` bytes through a pointer into the payload. -/
def payloadData? (r : LogRecord) (offset length : UInt16) : Option RecordData :=
  if offset.toNat + length.toNat ≤ r.payload.length then some (r.payloadData offset length)
  else none

/-- The loop of `GetDirtyPageTable`. -/
def getDirtyPages (payload : List UInt8) : Nat → UInt16 → Option (List (PageId × LSN))
  | 0, _ => some []
  | count + 1, offset => do
    let pid ← get? PageId payload offset.toNat
    let offset := offset + 4
    let pageLsn ← get? LSN payload offset.toNat
    let table ← getDirtyPages payload count (offset + 8)
    return (pid, pageLsn) :: table

/-- `GetDirtyPageTable`. -/
def getDirtyPageTable? (r : LogRecord) : Option (List (PageId × LSN)) :=
  if r.payload = [] then some []
  else do
    let count ← get? UInt32 r.payload 0
    getDirtyPages r.payload count.toNat 4

/-! ## 2. The update factory

The payload holds two lengths, the old record and the new one.  The writes go from the front to the
back, so the first one that leaves the buffer decides. -/

section Update

variable {lsn : LSN} {pageId : PageId} {slotId : UInt16} {oldData newData : RecordData}

/-- Without a wrap the factory fills its payload from the front. -/
theorem makeUpdate?_eq (h : 4 + oldData.bytes.length + newData.bytes.length < 2 ^ 16) :
    makeUpdate? lsn pageId slotId oldData newData
      = some (makeUpdate lsn pageId slotId oldData newData) := by
  have ho := oldData.toNat_length
  have hn := newData.toNat_length
  -- no offset wraps: each is the length of what lies before it
  have hbegin : ((0 : UInt16) + 2 + oldData.length).toNat = 2 + oldData.bytes.length := by
    rw [UInt16.toNat_add, ho]
    exact Nat.mod_eq_of_lt (by simp; omega)
  have hnew : ((0 : UInt16) + 2 + oldData.length + 2).toNat = 2 + oldData.bytes.length + 2 := by
    rw [UInt16.toNat_add, hbegin]
    exact Nat.mod_eq_of_lt (by simp; omega)
  have hsize : (2 + oldData.length + 2 + newData.length).toNat
      = 2 + (oldData.bytes.length + (2 + newData.bytes.length)) := by
    simp only [UInt16.toNat_add, ho, hn, UInt16.reduceToNat]
    omega
  let lo := FixedRepr.encode oldData.length
  let ln := FixedRepr.encode newData.length
  have hlo : lo.length = 2 := FixedRepr.length_encode _
  have hln : ln.length = 2 := FixedRepr.length_encode _
  let rest := oldData.bytes.length + (2 + newData.bytes.length)
  -- the four writes fill the payload from the front, with no gap between them
  have hput₁ : put? (List.replicate (2 + rest) 0) 0 oldData.length
      = some (filled lo rest) := by
    have hput : put? (filled [] (2 + rest)) 0 oldData.length
      = some (filled ([] ++ lo) (2 + rest - 2)) := put?_filled rfl (by simp)
    rwa [Nat.add_sub_cancel_left] at hput
  have hput₂ : write? (filled lo rest) 2 oldData.bytes
      = some (filled (lo ++ oldData.bytes) (2 + newData.bytes.length)) := by
    rw [write?_filled hlo.symm (Nat.le_add_right _ _), Nat.add_sub_cancel_left]
  have hput₃ : put? (filled (lo ++ oldData.bytes) (2 + newData.bytes.length))
      (2 + oldData.bytes.length) newData.length
      = some (filled (lo ++ oldData.bytes ++ ln) newData.bytes.length) := by
    rw [put?_filled (by rw [List.length_append, hlo]) (by simp), size_uint16,
      Nat.add_sub_cancel_left]
  have hput₄ : write? (filled (lo ++ oldData.bytes ++ ln) newData.bytes.length)
      (2 + oldData.bytes.length + 2) newData.bytes
      = some (lo ++ oldData.bytes ++ ln ++ newData.bytes) := by
    rw [write?_filled (by rw [List.length_append, List.length_append, hlo, hln]) (le_refl _),
      Nat.sub_self, filled, List.replicate_zero, List.append_nil]
  -- the payload is copied whole
  have htake : (lo ++ oldData.bytes ++ ln ++ newData.bytes).take
      (2 + oldData.length + 2 + newData.length).toNat
      = lo ++ oldData.bytes ++ ln ++ newData.bytes := by
    refine List.take_of_length_le ?_
    simp only [List.length_append, hlo, hln, hsize]
    omega
  unfold makeUpdate? makeUpdate
  simp only [Option.bind_eq_bind, hbegin, hnew, hsize]
  rw [show (0 : UInt16).toNat = 0 from rfl, show (0 + 2 : UInt16).toNat = 2 from rfl]
  rw [hput₁, Option.bind_some, hput₂, Option.bind_some, hput₃, Option.bind_some, hput₄,
    Option.bind_some]
  rw [hsize] at htake
  rw [htake]
  rfl

/-- **The factory leaves its buffer** as soon as the payload size wraps. -/
theorem makeUpdate?_isSome_iff :
    (makeUpdate? lsn pageId slotId oldData newData).isSome
      ↔ 4 + oldData.bytes.length + newData.bytes.length < 2 ^ 16 := by
  refine ⟨fun h => ?_, fun h => by rw [makeUpdate?_eq h]; rfl⟩
  obtain ⟨r, hr⟩ := Option.isSome_iff_exists.mp h
  have ho := oldData.toNat_length
  have hn := newData.toNat_length
  have holt := oldData.lt
  have hnlt := newData.lt
  unfold makeUpdate? at hr
  -- the first three writes were inside the buffer
  obtain ⟨p₁, h₁, hr⟩ := Option.bind_eq_some_iff.mp hr
  obtain ⟨p₂, h₂, hr⟩ := Option.bind_eq_some_iff.mp hr
  obtain ⟨p₃, h₃, -⟩ := Option.bind_eq_some_iff.mp hr
  have hlen₁ := length_put? h₁
  have hlen₂ := length_write? h₂
  have hle₂ := le_of_write? h₂
  have hle₃ := le_of_put? h₃
  -- the old record and the new length lie in a buffer of the wrapped size
  simp only [List.length_replicate, size_uint16, UInt16.toNat_add, ho, hn, hlen₁, hlen₂,
    UInt16.reduceToNat] at hle₂ hle₃
  omega

end Update

/-! ## 3. The checkpoint factory

The same for a loop: each round writes a page id and an LSN behind what is there. -/

section Checkpoint

/-- The loop fills the payload from the front. -/
theorem putDirtyPages_filled (dirtyPages : List (PageId × LSN)) {pre : List UInt8} {n : Nat}
    {offset : UInt16} (hoff : offset.toNat = pre.length) (hn : n = 12 * dirtyPages.length)
    (hlt : pre.length + n < 2 ^ 16) :
    putDirtyPages dirtyPages (filled pre n) offset
      = some (pre ++ dirtyPages.flatMap FixedRepr.encode) := by
  induction dirtyPages generalizing pre n offset with
  | nil =>
    subst hn
    rfl
  | cons e dirtyPages ih =>
    obtain ⟨pid, pageLsn⟩ := e
    rw [List.length_cons] at hn
    -- the offset moves by the page id and the LSN
    have hoff' : (offset + 4).toNat = (pre ++ FixedRepr.encode pid).length := by
      rw [UInt16.toNat_add, hoff, List.length_append, FixedRepr.length_encode]
      exact Nat.mod_eq_of_lt (by simp; omega)
    have hoff'' : (offset + 4 + 8).toNat
        = (pre ++ FixedRepr.encode pid ++ FixedRepr.encode pageLsn).length := by
      rw [UInt16.toNat_add, hoff']
      simp only [List.length_append, FixedRepr.length_encode, size_uint32, LSN, size_uint64,
        UInt16.reduceToNat]
      exact Nat.mod_eq_of_lt (by omega)
    -- both writes continue where the buffer is filled
    have hpid : put? (filled pre n) offset.toNat pid
        = some (filled (pre ++ FixedRepr.encode pid) (n - 4)) :=
      put?_filled hoff (by simp; omega)
    have hlsn : put? (filled (pre ++ FixedRepr.encode pid) (n - 4)) (offset + 4).toNat pageLsn
        = some (filled (pre ++ FixedRepr.encode pid ++ FixedRepr.encode pageLsn) (n - 4 - 8)) :=
      put?_filled hoff' (by simp; omega)
    unfold putDirtyPages
    simp only [Option.bind_eq_bind, hpid, Option.bind_some, hlsn]
    rw [ih hoff'' (by omega) (by simp; omega)]
    simp only [List.flatMap_cons, List.append_assoc]
    rfl

/-- The loop stays in the payload only as far as its offset can go. -/
theorem le_of_putDirtyPages {dirtyPages : List (PageId × LSN)} {payload out : List UInt8}
    {offset : UInt16} (hlen : payload.length < 2 ^ 16)
    (h : putDirtyPages dirtyPages payload offset = some out) :
    dirtyPages = [] ∨ offset.toNat + 12 * dirtyPages.length ≤ payload.length := by
  induction dirtyPages generalizing payload offset with
  | nil => exact .inl rfl
  | cons e dirtyPages ih =>
    obtain ⟨pid, pageLsn⟩ := e
    unfold putDirtyPages at h
    obtain ⟨p₁, h₁, h⟩ := Option.bind_eq_some_iff.mp h
    obtain ⟨p₂, h₂, h⟩ := Option.bind_eq_some_iff.mp h
    have hle₁ := le_of_put? h₁
    have hle₂ := le_of_put? h₂
    have hlen₂ := (length_put? h₂).trans (length_put? h₁)
    rw [length_put? h₁] at hle₂
    simp only [size_uint32, LSN, size_uint64, UInt16.toNat_add, UInt16.reduceToNat] at hle₁ hle₂
    refine .inr ?_
    -- the last entry, or the loop went on from behind this one
    rcases ih (hlen₂ ▸ hlen) h with rfl | hrest
    · rw [List.length_singleton]
      omega
    · rw [hlen₂] at hrest
      simp only [UInt16.toNat_add, UInt16.reduceToNat] at hrest
      rw [List.length_cons]
      omega

variable {lsn : LSN} {dirtyPages : List (PageId × LSN)}

/-- Without a wrap the factory writes the count and the table. -/
theorem makeCheckpointEnd?_eq (h : 4 + 12 * dirtyPages.length < 2 ^ 16) :
    makeCheckpointEnd? lsn dirtyPages = some (makeCheckpointEnd lsn dirtyPages) := by
  let count := UInt32.ofNat dirtyPages.length
  -- the wrapped size is the size
  have hsize : (4 + count * 12).toUInt16.toNat = 4 + 12 * dirtyPages.length := by
    simp only [count, UInt32.toNat_toUInt16, UInt32.toNat_add, UInt32.toNat_mul,
      UInt32.toNat_ofNat', UInt32.reduceToNat]
    omega
  -- the count, and behind it the pages
  have hcount : put? (List.replicate (4 + 12 * dirtyPages.length) 0) 0 count
      = some (filled (FixedRepr.encode count) (12 * dirtyPages.length)) := by
    have hput : put? (filled [] (4 + 12 * dirtyPages.length)) 0 count
      = some (filled ([] ++ FixedRepr.encode count) (4 + 12 * dirtyPages.length - 4)) :=
      put?_filled rfl (by simp)
    rwa [Nat.add_sub_cancel_left] at hput
  have hpages : putDirtyPages dirtyPages
      (filled (FixedRepr.encode count) (12 * dirtyPages.length)) 4
      = some (FixedRepr.encode count ++ dirtyPages.flatMap FixedRepr.encode) :=
    putDirtyPages_filled dirtyPages rfl rfl (by rw [FixedRepr.length_encode]; exact h)
  have htake : (FixedRepr.encode count ++ dirtyPages.flatMap FixedRepr.encode).take
      (4 + count * 12).toUInt16.toNat
      = FixedRepr.encode count ++ dirtyPages.flatMap FixedRepr.encode := by
    refine List.take_of_length_le ?_
    rw [List.length_append, FixedRepr.length_encode, Buf.length_flatMap_encode, hsize]
    exact le_refl _
  unfold makeCheckpointEnd? makeCheckpointEnd
  simp only [Option.bind_eq_bind]
  rw [htake, hsize, hcount, Option.bind_some, hpages]
  rfl

/-- **The factory leaves its buffer** as soon as the payload size wraps. -/
theorem makeCheckpointEnd?_isSome_iff :
    (makeCheckpointEnd? lsn dirtyPages).isSome ↔ 4 + 12 * dirtyPages.length < 2 ^ 16 := by
  refine ⟨fun h => ?_, fun h => by rw [makeCheckpointEnd?_eq h]; rfl⟩
  obtain ⟨r, hr⟩ := Option.isSome_iff_exists.mp h
  unfold makeCheckpointEnd? at hr
  obtain ⟨p₁, h₁, hr⟩ := Option.bind_eq_some_iff.mp hr
  obtain ⟨p₂, h₂, -⟩ := Option.bind_eq_some_iff.mp hr
  have hsize := (4 + UInt32.ofNat dirtyPages.length * 12).toUInt16.toNat_lt
  have hlen := length_put? h₁
  rw [List.length_replicate] at hlen
  -- the buffer has at least one entry less than what wraps
  rcases le_of_putDirtyPages (hlen ▸ hsize) h₂ with rfl | hle
  · decide
  · rw [hlen] at hle
    exact lt_of_le_of_lt hle hsize

end Checkpoint

/-! ## 4. Serialization

`Deserialize` trusts the sizes in the header only so far as the buffer goes, and reads the header
without looking at the length of the buffer. -/

/-- A record whose sizes agree is serialized inside its buffer. -/
theorem WellFormed.serialize?_eq {r : LogRecord} (h : r.WellFormed) :
    r.serialize? = some r.serialize := by
  have hlen := h.toNat_totalSize
  let b : Buf := fun _ => 0
  let n := r.header.totalSize.toNat
  -- the buffer of zeros, as the source allocates it
  have hzero : List.replicate n 0 = b.read 0 n := by
    refine List.ext_getElem (by simp) fun i _ _ => ?_
    rw [List.getElem_replicate, Buf.getElem_read]
  have hbuf : (if r.payload = [] then
      some ((((((b.put 0 r.header.totalSize).put 4 r.header.lsn).put 12 r.header.type.code).put 13
        r.header.pageId).put 17 r.header.slotId).put 19 r.header.payloadSize |>.read 0 n)
      else write? ((((((b.put 0 r.header.totalSize).put 4 r.header.lsn).put 12
        r.header.type.code).put 13 r.header.pageId).put 17 r.header.slotId).put 19
          r.header.payloadSize |>.read 0 n) 21 r.payload) = some r.serialize := by
    unfold serialize image
    split
    · rename_i hnil
      rw [hnil, Buf.write_nil]
    · rw [write?_read _ (by omega)]
  -- the header fields lie inside the first 21 bytes
  unfold serialize?
  simp only [hzero, Option.bind_eq_bind, n]
  rw [put?_read _ (by simp; omega), Option.bind_some]
  rw [put?_read _ (by simp; omega), Option.bind_some]
  rw [put?_read _ (by simp; omega), Option.bind_some]
  rw [put?_read _ (by simp; omega), Option.bind_some]
  rw [put?_read _ (by simp; omega), Option.bind_some]
  rw [put?_read _ (by simp; omega), Option.bind_some]
  exact hbuf

/-- A buffer that holds a whole header is read inside, and as `deserialize` reads it. -/
theorem deserialize?_eq {data : List UInt8} {length : UInt32} (hlength : length.toNat = data.length)
    (h : 21 ≤ data.length) (memory : Buf) :
    deserialize? data length = some (deserialize (memory.write 0 data) length) := by
  unfold deserialize? deserialize
  simp only [Option.bind_eq_bind]
  rw [get?_eq_get memory (by simp; omega), Option.bind_some, get?_eq_get memory (by simp; omega),
    Option.bind_some, get?_eq_get memory (by simp; omega), Option.bind_some,
    get?_eq_get memory (by simp; omega), Option.bind_some, get?_eq_get memory (by simp; omega),
    Option.bind_some, get?_eq_get memory (by simp; omega), Option.bind_some]
  split
  · rename_i hpay
    rw [read?_eq_read memory (hlength ▸ hpay.2)]
    rfl
  · rfl

/-- **A buffer is read inside** exactly when it holds a whole header. -/
theorem isSome_deserialize? {data : List UInt8} {length : UInt32}
    (hlength : length.toNat = data.length) : (deserialize? data length).isSome ↔
    21 ≤ data.length := by
  refine ⟨fun h => ?_, fun h => by rw [deserialize?_eq hlength h fun _ => 0]; rfl⟩
  obtain ⟨r, hr⟩ := Option.isSome_iff_exists.mp h
  unfold deserialize? at hr
  obtain ⟨_, _, hr⟩ := Option.bind_eq_some_iff.mp hr
  obtain ⟨_, _, hr⟩ := Option.bind_eq_some_iff.mp hr
  obtain ⟨_, _, hr⟩ := Option.bind_eq_some_iff.mp hr
  obtain ⟨_, _, hr⟩ := Option.bind_eq_some_iff.mp hr
  obtain ⟨_, _, hr⟩ := Option.bind_eq_some_iff.mp hr
  obtain ⟨_, hlast, -⟩ := Option.bind_eq_some_iff.mp hr
  exact isSome_get?.mp (Option.isSome_of_eq_some hlast)

/-- **Round trip** of a record whose sizes agree, inside its buffers. -/
theorem WellFormed.roundTrip {r : LogRecord} (h : r.WellFormed) :
    (r.serialize?.bind fun bytes => deserialize? bytes (UInt32.ofNat bytes.length)) = some r := by
  have hlen := h.toNat_totalSize
  have hsize : r.serialize.length = r.header.totalSize.toNat := h.length_serialize.trans hlen.symm
  have hback := h.deserialize_serialize fun _ => 0
  rw [h.serialize?_eq, Option.bind_some, hsize, UInt32.ofNat_toNat,
    deserialize?_eq hsize.symm (by omega) fun _ => 0, hback]

/-! ## 5. The accessors

`GetUpdateData` returns pointers.  It reads the two length fields itself; the records are read by
its caller, who may leave the payload when the lengths are wrong. -/

/-- What the length fields of the payload say. -/
def updateData (r : LogRecord) : UpdateData where
  oldData := 2
  oldLength := r.payloadLength 0
  newData := 2 + r.payloadLength 0 + 2
  newLength := r.payloadLength (2 + r.payloadLength 0)

/-- The length fields lie in the payload. -/
def HoldsLengths (r : LogRecord) : Prop :=
  2 ≤ r.payload.length ∧ (2 + r.payloadLength 0).toNat + 2 ≤ r.payload.length

instance (r : LogRecord) : Decidable r.HoldsLengths := inferInstanceAs (Decidable (_ ∧ _))

theorem get?_payload {r : LogRecord} {offset : UInt16} (h : offset.toNat + 2 ≤ r.payload.length) :
    get? UInt16 r.payload offset.toNat = some (r.payloadLength offset) := by
  rw [get?, read?, if_pos (by simpa using h), Option.map_some]
  rfl

/-- **The accessor stays inside** exactly when both lengths lie in the payload. -/
theorem getUpdateData?_eq {r : LogRecord} (h : r.HoldsLengths) :
    r.getUpdateData? = some r.updateData := by
  have hold : get? UInt16 r.payload (0 : UInt16).toNat = some (r.payloadLength 0) :=
    get?_payload (by simpa using h.1)
  have hnew : get? UInt16 r.payload (0 + 2 + r.payloadLength 0).toNat
      = some (r.payloadLength (2 + r.payloadLength 0)) := get?_payload h.2
  unfold getUpdateData?
  simp only [Option.bind_eq_bind, hold, Option.bind_some, hnew]
  rfl

theorem isSome_getUpdateData? {r : LogRecord} : r.getUpdateData?.isSome ↔ r.HoldsLengths := by
  refine ⟨fun h => ?_, fun h => by rw [getUpdateData?_eq h]; rfl⟩
  obtain ⟨u, hu⟩ := Option.isSome_iff_exists.mp h
  unfold getUpdateData? at hu
  obtain ⟨oldLength, h₁, hu⟩ := Option.bind_eq_some_iff.mp hu
  obtain ⟨newLength, h₂, -⟩ := Option.bind_eq_some_iff.mp hu
  have hle₁ : 2 ≤ r.payload.length := by
    simpa using isSome_get?.mp (Option.isSome_of_eq_some h₁)
  have hold : get? UInt16 r.payload (0 : UInt16).toNat = some (r.payloadLength 0) :=
    get?_payload (by simpa using hle₁)
  obtain rfl : oldLength = r.payloadLength 0 := Option.some.inj (h₁.symm.trans hold)
  exact ⟨hle₁, isSome_get?.mp (Option.isSome_of_eq_some h₂)⟩

/-- The lengths in the payload of an update lead to both records. -/
theorem getUpdateData?_makeUpdate (lsn : LSN) (pageId : PageId) (slotId : UInt16)
    {oldData newData : RecordData}
    (h : 4 + oldData.bytes.length + newData.bytes.length < 2 ^ 16) :
    ∃ u, (makeUpdate lsn pageId slotId oldData newData).getUpdateData? = some u ∧
      (makeUpdate lsn pageId slotId oldData newData).payloadData? u.oldData u.oldLength
        = some oldData ∧
      (makeUpdate lsn pageId slotId oldData newData).payloadData? u.newData u.newLength
        = some newData := by
  obtain ⟨hbegin, hnew⟩ := toNat_newOffset h
  obtain ⟨hold, hnewLength⟩ := payloadLength_makeUpdate lsn pageId slotId h
  have hboth := getUpdateData_makeUpdate lsn pageId slotId h
  have hlen : (makeUpdate lsn pageId slotId oldData newData).payload.length
      = 4 + oldData.bytes.length + newData.bytes.length := by
    rw [payload_makeUpdate lsn pageId slotId h]
    simp only [List.length_append, FixedRepr.length_encode, size_uint16]
    omega
  generalize makeUpdate lsn pageId slotId oldData newData = r at hold hnewLength hboth hlen ⊢
  simp only [getUpdateData, hold, hnewLength, Prod.mk.injEq] at hboth
  -- both lengths are read inside the payload
  have htwo : (2 : UInt16).toNat = 2 := rfl
  refine ⟨r.updateData, getUpdateData?_eq ⟨?_, ?_⟩, ?_, ?_⟩
  · omega
  · rw [hold, hbegin]
    omega
  · rw [payloadData?, updateData, hold, if_pos, hboth.1]
    rw [htwo, oldData.toNat_length]
    omega
  · rw [payloadData?, updateData, hold, hnewLength, if_pos, hboth.2]
    rw [hnew, newData.toNat_length]
    omega

/-- The loop reads the table back from where it lies. -/
theorem getDirtyPages_flatMap (dirtyPages : List (PageId × LSN)) {pre : List UInt8}
    {offset : UInt16} (hoff : offset.toNat = pre.length)
    (hlt : pre.length + 12 * dirtyPages.length < 2 ^ 16) :
    getDirtyPages (pre ++ dirtyPages.flatMap FixedRepr.encode) dirtyPages.length offset
      = some dirtyPages := by
  induction dirtyPages generalizing pre offset with
  | nil => rfl
  | cons e dirtyPages ih =>
    obtain ⟨pid, pageLsn⟩ := e
    rw [List.length_cons] at hlt
    let bpid := FixedRepr.encode pid
    let blsn := FixedRepr.encode pageLsn
    have hbpid : bpid.length = 4 := FixedRepr.length_encode _
    have hblsn : blsn.length = 8 := FixedRepr.length_encode _
    -- the offsets of the page id, of the LSN, and of the next entry
    have hoff' : (offset + 4).toNat = (pre ++ bpid).length := by
      rw [UInt16.toNat_add, hoff, List.length_append, hbpid]
      exact Nat.mod_eq_of_lt (by simp; omega)
    have hoff'' : (offset + 4 + 8).toNat = (pre ++ bpid ++ blsn).length := by
      rw [UInt16.toNat_add, hoff', List.length_append, List.length_append, List.length_append,
        hbpid, hblsn]
      exact Nat.mod_eq_of_lt (by simp; omega)
    have hsplit : pre ++ ((pid, pageLsn) :: dirtyPages).flatMap FixedRepr.encode
        = pre ++ (bpid ++ (blsn ++ dirtyPages.flatMap FixedRepr.encode)) := by
      rw [List.flatMap_cons, ← List.append_assoc bpid]
      rfl
    -- the entry is read from its place
    have hpid : get? PageId (pre ++ (bpid ++ (blsn ++ dirtyPages.flatMap FixedRepr.encode)))
        offset.toNat = some pid := get?_append hoff
    have hlsn : get? LSN (pre ++ (bpid ++ (blsn ++ dirtyPages.flatMap FixedRepr.encode)))
        (offset + 4).toNat = some pageLsn := by
      rw [← List.append_assoc]
      exact get?_append hoff'
    -- and the others from behind it
    have htable : getDirtyPages (pre ++ (bpid ++ (blsn ++ dirtyPages.flatMap FixedRepr.encode)))
        dirtyPages.length (offset + 4 + 8) = some dirtyPages := by
      rw [← List.append_assoc, ← List.append_assoc]
      refine ih hoff'' ?_
      simp only [List.length_append, hbpid, hblsn]
      omega
    rw [hsplit, List.length_cons, getDirtyPages]
    simp only [Option.bind_eq_bind]
    rw [hpid, Option.bind_some, hlsn, Option.bind_some, htable]
    rfl

/-- So the table can be read back. -/
theorem getDirtyPageTable?_makeCheckpointEnd (lsn : LSN) {dirtyPages : List (PageId × LSN)}
    (h : 4 + 12 * dirtyPages.length < 2 ^ 16) :
    (makeCheckpointEnd lsn dirtyPages).getDirtyPageTable? = some dirtyPages := by
  let count := UInt32.ofNat dirtyPages.length
  have hcount : count.toNat = dirtyPages.length := by
    refine UInt32.toNat_ofNat_of_lt' (lt_of_lt_of_le ?_ (show 2 ^ 16 ≤ UInt32.size by decide))
    omega
  have hsize : (4 + count * 12).toUInt16.toNat = 4 + 12 * dirtyPages.length := by
    simp only [UInt32.toNat_toUInt16, UInt32.toNat_add, UInt32.toNat_mul, hcount,
      UInt32.reduceToNat]
    omega
  have hpay : (makeCheckpointEnd lsn dirtyPages).payload
      = FixedRepr.encode count ++ dirtyPages.flatMap FixedRepr.encode := by
    simp only [makeCheckpointEnd, make]
    refine List.take_of_length_le ?_
    rw [List.length_append, FixedRepr.length_encode, Buf.length_flatMap_encode, hsize]
    exact le_refl _
  have hlen : (FixedRepr.encode count).length = 4 := FixedRepr.length_encode _
  have hne : (makeCheckpointEnd lsn dirtyPages).payload ≠ [] := by
    rw [hpay]
    intro hnil
    rw [(List.append_eq_nil_iff.mp hnil).1] at hlen
    exact absurd hlen (by decide)
  have hget : get? UInt32 ([] ++ (FixedRepr.encode count ++ dirtyPages.flatMap FixedRepr.encode)) 0
      = some count := get?_append rfl
  rw [List.nil_append] at hget
  unfold getDirtyPageTable?
  rw [if_neg hne, hpay, hget, Option.bind_eq_bind, Option.bind_some, hcount]
  exact getDirtyPages_flatMap dirtyPages hlen.symm (by rwa [hlen])

/-! ## 6. When the factories lose nothing

Lossless means: the page, the slot and the data that went in come out, and no access on the way was
outside. -/

/-- `MakeUpdate`, `Serialize`, `Deserialize` and `GetUpdateData`, one after the other: the page, the
slot and both records that come out. -/
def updateRoundTrip (lsn : LSN) (pageId : PageId) (slotId : UInt16) (oldData newData : RecordData) :
    Option (PageId × UInt16 × RecordData × RecordData) := do
  let record ← makeUpdate? lsn pageId slotId oldData newData
  let bytes ← record.serialize?
  let back ← deserialize? bytes (UInt32.ofNat bytes.length)
  let u ← back.getUpdateData?
  let oldBack ← back.payloadData? u.oldData u.oldLength
  let newBack ← back.payloadData? u.newData u.newLength
  return (back.getPageId, back.getSlotId, oldBack, newBack)

/-- `MakeCheckpointEnd`, `Serialize`, `Deserialize` and `GetDirtyPageTable`: the table that comes
out. -/
def checkpointRoundTrip (lsn : LSN) (dirtyPages : List (PageId × LSN)) :
    Option (List (PageId × LSN)) := do
  let record ← makeCheckpointEnd? lsn dirtyPages
  let bytes ← record.serialize?
  let back ← deserialize? bytes (UInt32.ofNat bytes.length)
  back.getDirtyPageTable?

/-- Every access of the round trip lies inside its buffer, and what went in comes out. -/
def UpdateLossless (lsn : LSN) (pageId : PageId) (slotId : UInt16) (oldData newData : RecordData) :
    Prop :=
  updateRoundTrip lsn pageId slotId oldData newData = some (pageId, slotId, oldData, newData)

/-- The same for a checkpoint. -/
def CheckpointLossless (lsn : LSN) (dirtyPages : List (PageId × LSN)) : Prop :=
  checkpointRoundTrip lsn dirtyPages = some dirtyPages

theorem updateLossless_iff (lsn : LSN) (pageId : PageId) (slotId : UInt16)
    (oldData newData : RecordData) : UpdateLossless lsn pageId slotId oldData newData
      ↔ 4 + oldData.bytes.length + newData.bytes.length < 2 ^ 16 := by
  unfold UpdateLossless updateRoundTrip
  constructor
  · intro h
    obtain ⟨r, hr, -⟩ := Option.bind_eq_some_iff.mp h
    exact makeUpdate?_isSome_iff.mp (Option.isSome_of_eq_some hr)
  · intro h
    have hwf := wellFormed_makeUpdate lsn pageId slotId oldData newData
    obtain ⟨bytes, hbytes, hback⟩ := Option.bind_eq_some_iff.mp hwf.roundTrip
    obtain ⟨u, hu, hold, hnew⟩ := getUpdateData?_makeUpdate lsn pageId slotId h
    simp only [Option.bind_eq_bind, makeUpdate?_eq h, Option.bind_some, hbytes, hback, hu, hold,
      hnew]
    rfl

theorem checkpointLossless_iff (lsn : LSN) (dirtyPages : List (PageId × LSN)) :
    CheckpointLossless lsn dirtyPages ↔ 4 + 12 * dirtyPages.length < 2 ^ 16 := by
  unfold CheckpointLossless checkpointRoundTrip
  constructor
  · intro h
    obtain ⟨r, hr, -⟩ := Option.bind_eq_some_iff.mp h
    exact makeCheckpointEnd?_isSome_iff.mp (Option.isSome_of_eq_some hr)
  · intro h
    have hwf := (Built.checkpointEnd lsn dirtyPages h).wellFormed
    obtain ⟨bytes, hbytes, hback⟩ := Option.bind_eq_some_iff.mp hwf.roundTrip
    simp only [Option.bind_eq_bind, makeCheckpointEnd?_eq h, Option.bind_some, hbytes, hback]
    exact getDirtyPageTable?_makeCheckpointEnd lsn h

/-- **The factories are lossless** exactly as long as the payload size fits its 16 bits: for an
update up to 65531 bytes of old and new record together, for a checkpoint up to 5460 pages. -/
theorem factories_lossless_iff (lsn : LSN) (pageId : PageId) (slotId : UInt16)
    (oldData newData : RecordData) (dirtyPages : List (PageId × LSN)) :
    (UpdateLossless lsn pageId slotId oldData newData
      ↔ 4 + oldData.bytes.length + newData.bytes.length < 2 ^ 16) ∧
    (CheckpointLossless lsn dirtyPages ↔ 4 + 12 * dirtyPages.length < 2 ^ 16) :=
  ⟨updateLossless_iff lsn pageId slotId oldData newData, checkpointLossless_iff lsn dirtyPages⟩

/-- Two records of 40000 bytes, and a table of 5461 pages, do not survive. -/
theorem factories_overflow :
    (¬ UpdateLossless 0 1 0 ⟨List.replicate 40000 0, by rw [List.length_replicate]; decide⟩
      ⟨List.replicate 40000 1, by rw [List.length_replicate]; decide⟩) ∧
    ¬ CheckpointLossless 0 (List.replicate 5461 (1, 0)) := by
  constructor
  · rw [updateLossless_iff]
    simp only [List.length_replicate]
    decide
  · rw [checkpointLossless_iff, List.length_replicate]
    decide

end LogRecord

end CourtDB
