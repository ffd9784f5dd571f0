/-
# Recovery from any log file

`Recover` once more (`recovery/recovery_manager.cpp`, `recovery/log_manager.cpp`), over a file that
may hold anything: the iterator, `RedoRecord` and the page functions it calls read the record of the
log, its payload and the bytes the accessors point to through checked accesses, and stop with a
fault at the first one outside.

The loop ends for every file, whatever lies behind the buffers (`scan_ends`).  Of the four length
fields in a record the scan checks one, against the end of the file only.  A record that claims less
than a header is read past its buffer, and an update trusts the lengths in its payload; these are
the only ways to leave a buffer (`recovery_reads_inside_iff`).

The condition of that theorem is about the bytes of the file and the pool before the recovery:

* wherever the scan gets to, the size it accepts covers a header (`HeadersWhole`).  Where the scan
  gets to is a function of the file, as each size leads to the next record;
* for each record that it comes to, in the state of the pool that the records before it have left,
  the redo reads inside the payload (`ReadsInside`).  Only updates can fail here, and only with the
  two length fields, or with the new record where the page accepts it.

What lies behind a buffer is a parameter of the reads (`memory`), as the language does not say what
is there.  Nothing that is proved depends on it: a read outside is a fault, and the loop ends
whatever it finds.
-/
import CourtDB.Recovery.CheckedLog
import CourtDB.Recovery.LogStream
import CourtDB.Recovery.RecoveryManager
import CourtDB.Lib.Run

namespace CourtDB

open Bytes Framing LogManager

/-! ## 1. Redo

The page functions get their data by a checked read of the payload, at the place where the source
copies it.  Where the page refuses before it copies, nothing is read. -/

namespace Page

/-- `InsertRecord` on what `GetInsertData` returns. -/
def insertFrom? (page : Page) (record : LogRecord) : Option Page :=
  let length := record.header.payloadSize
  if record.payload = [] ∨ length = 0 then some page
  else if page.fits length then (record.payloadData? 0 length).map page.placeRecord
  else some page

/-- `UpdateRecord` on what `GetUpdateData` returns. -/
def updateFrom? (page : Page) (record : LogRecord) (slotId : UInt16) (u : LogRecord.UpdateData) :
    Option Page :=
  if slotId ≥ page.header.numSlots || (page.slot slotId).isEmpty then some page
  else if u.newLength ≤ (page.slot slotId).length then
    (record.payloadData? u.newData u.newLength).map (page.overwrite slotId)
  else if u.newLength - (page.slot slotId).length > page.getFreeSpace then some page
  else (record.payloadData? u.newData u.newLength).map (page.relocate slotId)

/-- A page function that leaves the payload has no result, and its page does not matter. -/
def orStop (page : Page) : Option Page → Option Bool × Page
  | some page' => (some true, page')
  | none => (none, page)

/-- What `RedoRecord` does to the page it has fetched. -/
def redo? (page : Page) (record : LogRecord) (u : LogRecord.UpdateData) : Option Bool × Page :=
  match record.getType with
  | .insert =>
    if (page.getRecord record.getSlotId).isSome then (some false, page)
    else page.orStop (page.insertFrom? record)
  | .delete =>
    if (page.getRecord record.getSlotId).isSome then
      (some true, (page.deleteRecord record.getSlotId).2)
    else (some false, page)
  | .update =>
    if (page.getRecord record.getSlotId).isSome then
      page.orStop (page.updateFrom? record record.getSlotId u)
    else (some false, page)
  | .newPage | .checkpointBegin | .checkpointEnd | .invalid | .other _ => (some false, page)

end Page

/-- `RedoRecord`: does the record count as a redo?  The accessor of an update reads the payload
before the page is fetched. -/
def redoRecord? (record : LogRecord) : PoolM (Option Bool) :=
  match record.getType with
  | .insert | .delete =>
    withPage record.getPageId (fun page => page.redo? record record.updateData) (some false)
  | .update =>
    match record.getUpdateData? with
    | none => pure none
    | some u => withPage record.getPageId (fun page => page.redo? record u) (some false)
  | .newPage => pure (some true)
  | .checkpointBegin | .checkpointEnd | .invalid | .other _ => pure (some false)

/-! ## 2. The scan

`ReadCurrentRecord` reads the size, checks it against the file, and reads so many bytes;
`Deserialize` then reads a header from them, also when they are fewer than a header has. -/

namespace LogManager.LogIterator

/-- `ReadCurrentRecord`. -/
def readCurrentRecord? (it : LogIterator) : Option LogIterator :=
  if it.currentOffset ≥ it.fileSize then some { it with valid := false }
  else
    let sizeField := it.file.pread 4 it.currentOffset
    let totalSize : UInt32 := FixedRepr.decode sizeField
    if sizeField.length ≠ 4 ∨ totalSize = 0 then some { it with valid := false }
    else if it.currentOffset + totalSize.toUInt64 > it.fileSize then
      some { it with valid := false }
    else
      let buf := it.file.pread totalSize.toNat it.currentOffset
      if buf.length ≠ totalSize.toNat then some { it with valid := false }
      else do
        let current ← LogRecord.deserialize? buf totalSize
        return { it with current := current, valid := current.getType ≠ .invalid }

/-- `Next`. -/
def next? (it : LogIterator) : Option LogIterator :=
  if it.valid then
    let it := { it with currentOffset := it.currentOffset + it.current.getTotalSize.toUInt64 }
    if it.currentOffset ≥ it.fileSize then some { it with valid := false }
    else it.readCurrentRecord?
  else some it

end LogManager.LogIterator

/-- The constructor of the iterator. -/
def iterator? (file : LogFile) : Option LogIterator :=
  let it : LogIterator := {
    file := file
    fileSize := file.size
    memory := fun _ => 0
    currentOffset := 0
    current := noRecord
    valid := false }
  if it.fileSize > 0 then it.readCurrentRecord? else some it

/-- Why a recovery did not come to its end. -/
inductive Fault
  | outside
  | outOfFuel
deriving DecidableEq, Repr

/-- The loop of `Recover`, for at most `fuel` rounds. -/
def recoverLoop? : Nat → LogIterator → UInt32 → PoolM (Except Fault UInt32)
  | fuel, it, redoCount =>
    if it.valid then
      match fuel with
      | 0 => return .error .outOfFuel
      | fuel + 1 => do
        match ← redoRecord? it.current with
        | none => return .error .outside
        | some redone =>
          match it.next? with
          | none => return .error .outside
          | some it => recoverLoop? fuel it (if redone then redoCount + 1 else redoCount)
    else return .ok redoCount

/-- `Recover`. -/
def recover? (fuel : Nat) (file : LogFile) : PoolM (Except Fault UInt32) := do
  match iterator? file with
  | none => return .error .outside
  | some it =>
    let outcome ← recoverLoop? fuel it 0
    flushAllPages
    return outcome

/-! ## 3. What a redo reads

One lemma for each type of record, and the redo on the pool, where the page may not be there. -/

/-- The payload is empty, or has the size that the header states. -/
def LogRecord.Sized (r : LogRecord) : Prop :=
  r.payload = [] ∨ r.payload.length = r.header.payloadSize.toNat

theorem LogRecord.sized_deserialize (data : Buf) (length : UInt32) :
    (deserialize data length).Sized := by
  unfold deserialize Sized
  dsimp only
  split
  · exact .inr (Buf.length_read _ _ _)
  · exact .inl rfl

namespace Page

variable {page : Page} {record : LogRecord} {slotId : UInt16} {u : LogRecord.UpdateData}

/-- `UpdateRecord` accepts a record of the given length for the slot, and so copies it. -/
def Copies (page : Page) (slotId length : UInt16) : Prop :=
  (page.getRecord slotId).isSome ∧ (length ≤ (page.slot slotId).length ∨
    length - (page.slot slotId).length ≤ page.getFreeSpace)

instance (page : Page) (slotId length : UInt16) : Decidable (page.Copies slotId length) :=
  inferInstanceAs (Decidable (_ ∧ (_ ∨ _)))

theorem isSome_getRecord_iff : (page.getRecord slotId).isSome
    ↔ ¬ (slotId ≥ page.header.numSlots || (page.slot slotId).isEmpty) = true := by
  unfold getRecord
  by_cases hlt : slotId ≥ page.header.numSlots
  · simp [hlt]
  · cases hempty : (page.slot slotId).isEmpty <;> simp [hlt]

theorem isSome_orStop (o : Option Page) : (page.orStop o).1.isSome ↔ o.isSome := by
  cases o <;> simp [orStop]

/-- **An insert is read inside the payload**, whatever the record says of its sizes. -/
theorem isSome_insertFrom? (h : record.Sized) : (page.insertFrom? record).isSome := by
  unfold insertFrom?
  dsimp only
  split
  · rfl
  · rename_i hne
    have hlen := h.resolve_left fun hnil => hne (.inl hnil)
    split
    · have hzero : (0 : UInt16).toNat = 0 := rfl
      rw [LogRecord.payloadData?, if_pos (by omega)]
      rfl
    · rfl

theorem isSome_payloadData? {offset length : UInt16} (f : RecordData → Page) :
    ((record.payloadData? offset length).map f).isSome
      ↔ offset.toNat + length.toNat ≤ record.payload.length := by
  unfold LogRecord.payloadData?
  split <;> simp [*]

theorem isSome_updateFrom? (hsome : (page.getRecord slotId).isSome) :
    (page.updateFrom? record slotId u).isSome ↔ (page.Copies slotId u.newLength →
      u.newData.toNat + u.newLength.toNat ≤ record.payload.length) := by
  unfold updateFrom? Copies
  rw [if_neg (isSome_getRecord_iff.mp hsome)]
  by_cases hle : u.newLength ≤ (page.slot slotId).length
  · rw [if_pos hle, isSome_payloadData?]
    simp only [hsome, hle, true_or, and_self, true_imp_iff]
  · rw [if_neg hle]
    by_cases hroom : u.newLength - (page.slot slotId).length > page.getFreeSpace
    · rw [if_pos hroom]
      simp only [hle, UInt16.not_le.mpr hroom, or_self, and_false, false_imp_iff,
        Option.isSome_some]
    · rw [if_neg hroom, isSome_payloadData?]
      simp only [hsome, UInt16.not_lt.mp hroom, or_true, and_self, true_imp_iff]

/-- What a redo reads of the payload, of all the types of records. -/
theorem isSome_redo? (h : record.Sized) : (page.redo? record u).1.isSome
    ↔ (record.getType = .update → page.Copies record.getSlotId u.newLength →
      u.newData.toNat + u.newLength.toNat ≤ record.payload.length) := by
  unfold redo?
  cases htype : record.getType with
  | insert =>
    simp only [reduceCtorEq, false_imp_iff, iff_true]
    split
    · rfl
    · rw [isSome_orStop]
      exact isSome_insertFrom? h
  | delete =>
    simp only [reduceCtorEq, false_imp_iff, iff_true]
    split <;> rfl
  | update =>
    simp only [true_imp_iff]
    split
    · rename_i hsome
      rw [isSome_orStop, isSome_updateFrom? hsome]
    · rename_i hnone
      simp only [Option.isSome_some, true_iff]
      exact fun hcopies => absurd hcopies.1 hnone
  | newPage | checkpointBegin | checkpointEnd | invalid | other _ =>
    simp only [reduceCtorEq, false_imp_iff, Option.isSome_some]

end Page

/-- The redo of `record` on the pool `b` reads inside the payload: an update finds its two lengths
there, and, where its page accepts the new record, the new record. -/
def ReadsInside (b : BufferPoolManager) (record : LogRecord) : Prop :=
  record.getType = .update → record.HoldsLengths ∧
    ((b.fetchPage record.getPageId).1.isSome →
      ((b.fetchPage record.getPageId).2.residentPage record.getPageId).Copies record.getSlotId
        record.updateData.newLength →
      record.updateData.newData.toNat + record.updateData.newLength.toNat ≤ record.payload.length)

instance (b : BufferPoolManager) : DecidablePred (ReadsInside b) := fun _ =>
  inferInstanceAs (Decidable (_ → _ ∧ (_ → _ → _)))

/-- `RedoRecord` as a step of the pool. -/
def redoStep? (b : BufferPoolManager) (record : LogRecord) : BufferPoolManager :=
  ((redoRecord? record).exec b).2

theorem exec_withPage {α : Type} (id : PageId) (f : Page → α × Page) (dflt : α)
    (b : BufferPoolManager) : ((withPage id f dflt).exec b).1
      = if (b.fetchPage id).1.isSome then (f ((b.fetchPage id).2.residentPage id)).1
        else dflt := by
  unfold withPage
  rw [PoolM.exec_bind, PoolM.exec_fetchPage]
  split
  · simp only [PoolM.exec_bind, PoolM.exec_readPage, PoolM.exec_pure]
  · rfl

theorem isSome_withPage (id : PageId) (f : Page → Option Bool × Page) (b : BufferPoolManager) :
    ((withPage id f (some false)).exec b).1.isSome ↔ ((b.fetchPage id).1.isSome →
      (f ((b.fetchPage id).2.residentPage id)).1.isSome) := by
  rw [exec_withPage]
  split <;> simp [*]

/-- **One redo** leaves the payload only through an update. -/
theorem isSome_redoRecord? {record : LogRecord} (h : record.Sized) (b : BufferPoolManager) :
    ((redoRecord? record).exec b).1.isSome ↔ ReadsInside b record := by
  unfold redoRecord? ReadsInside
  cases htype : record.getType with
  | insert | delete =>
    simp only [isSome_withPage, Page.isSome_redo? h, htype, reduceCtorEq, false_imp_iff,
      imp_true_iff]
  | update =>
    simp only [true_imp_iff]
    by_cases hlen : record.HoldsLengths
    · simp only [LogRecord.getUpdateData?_eq hlen, isSome_withPage, Page.isSome_redo? h, htype,
        true_imp_iff, hlen, true_and]
    · have hnone : record.getUpdateData? = none := by
        rw [← Option.not_isSome_iff_eq_none, LogRecord.isSome_getUpdateData?]
        exact hlen
      simp only [hnone, hlen, false_and, iff_false]
      exact fun hsome => absurd hsome Bool.false_ne_true
  | newPage | checkpointBegin | checkpointEnd | invalid | other _ =>
    simp only [reduceCtorEq, false_imp_iff, iff_true]
    rfl

/-! ## 4. What the scan reads

The reader as a function of the stream behind its offset.  A record of size zero ends the scan, so
each round makes the stream shorter. -/

/-- The size that the front of a stream claims for its record, where `ReadCurrentRecord` accepts
it. -/
def claimedSize (stream : List UInt8) : Option UInt32 :=
  let sizeField := stream.take 4
  let totalSize : UInt32 := FixedRepr.decode sizeField
  if sizeField.length ≠ 4 ∨ totalSize = 0 then none
  else if stream.length < totalSize.toNat then none
  else some totalSize

/-- The reader of the scan, over the size that is claimed. -/
theorem nextRecord_eq (memory : Buf) (stream : List UInt8) : nextRecord memory stream
    = (claimedSize stream).bind fun totalSize =>
      let record := LogRecord.deserialize
        (memory.write 0 (stream.take totalSize.toNat)) totalSize
      if record.getType = .invalid then none else some (record, record.getTotalSize.toNat) := by
  unfold nextRecord claimedSize
  dsimp only
  split
  · rfl
  · split <;> rfl

/-- The low byte of a number. -/
theorem decode_ne_zero {c : UInt8} {bs : List UInt8} (h : c ≠ 0) :
    (FixedRepr.decode (c :: bs) : UInt32) ≠ 0 := by
  intro hzero
  refine h (UInt8.toNat_inj.mp ?_)
  have hnat := congrArg UInt32.toNat hzero
  have hlt := c.toNat_lt
  change (UInt32.ofNat (c.toNat + 256 * leNat bs)).toNat = 0 at hnat
  rw [UInt32.toNat_ofNat'] at hnat
  change c.toNat = 0
  omega

/-- The record that is read says of itself that it is longer than nothing. -/
theorem getTotalSize_pos {memory : Buf} {stream : List UInt8} {totalSize : UInt32}
    (hfour : 4 ≤ stream.length) (htotal : FixedRepr.decode (stream.take 4) = totalSize)
    (hne : totalSize ≠ 0) (hcut : totalSize.toNat ≤ stream.length) :
    0 < (LogRecord.deserialize (memory.write 0 (stream.take totalSize.toNat))
      totalSize).getTotalSize.toNat := by
  have hget : (LogRecord.deserialize (memory.write 0 (stream.take totalSize.toNat))
      totalSize).getTotalSize
      = FixedRepr.decode ((memory.write 0 (stream.take totalSize.toNat)).read 0 4) := rfl
  have hpos : 0 < totalSize.toNat := Nat.pos_of_ne_zero fun h0 => hne (UInt32.toNat_inj.mp h0)
  -- the record repeats the size, and where that is below 4 its first byte is the size itself
  refine Nat.pos_of_ne_zero fun hzero => ?_
  rw [hget] at hzero
  cases stream with
  | nil => exact absurd hfour (by decide)
  | cons c rest =>
    by_cases hlow : c = 0
    · -- the size is a multiple of 256, so the field was read from the buffer
      have hge : 4 ≤ totalSize.toNat := by
        have hnat := congrArg UInt32.toNat htotal
        rw [List.take_succ_cons] at hnat
        change (UInt32.ofNat (c.toNat + 256 * leNat (rest.take 3))).toNat = _ at hnat
        rw [UInt32.toNat_ofNat', hlow] at hnat
        change (0 + 256 * leNat (rest.take 3)) % 2 ^ 32 = _ at hnat
        omega
      have hread : (memory.write 0 ((c :: rest).take totalSize.toNat)).read 0 4
          = (c :: rest).take 4 := by
        have hsub : 0 + 4 ≤ ((c :: rest).take totalSize.toNat).length := by
          rw [List.length_take]
          omega
        have hslice : (memory.write 0 ((c :: rest).take totalSize.toNat)).read (0 + 0) 4
            = (((c :: rest).take totalSize.toNat).drop 0).take 4 := Buf.read_write_of_sub hsub
        rw [Nat.zero_add, List.drop_zero, List.take_take, Nat.min_eq_left hge] at hslice
        exact hslice
      rw [hread, htotal] at hzero
      omega
    · -- the first byte of the size is not zero, and it is copied in any case
      obtain ⟨k, hk⟩ := Nat.exists_eq_succ_of_ne_zero (Nat.ne_of_gt hpos)
      have hfirst : (memory.write 0 ((c :: rest).take totalSize.toNat)).read 0 4
          = c :: (memory.write 0 ((c :: rest).take totalSize.toNat)).read 1 3 := by
        have hc : memory.write 0 ((c :: rest).take totalSize.toNat) 0 = c := by
          rw [hk, List.take_succ_cons]
          rfl
        simp only [Buf.read, List.range_succ_eq_map, List.map_cons, hc]
        rfl
      rw [hfirst] at hzero
      exact decode_ne_zero hlow (UInt32.toNat_inj.mp hzero)

/-- **Progress.**  A record that is read makes the rest of the stream shorter, also when its header
was read past the buffer: the low byte of a size below 4 is the size itself. -/
theorem drop_nextRecord {memory : Buf} {stream : List UInt8} {record : LogRecord} {n : Nat}
    (h : nextRecord memory stream = some (record, n)) :
    (stream.drop n).length < stream.length := by
  rw [nextRecord_eq] at h
  obtain ⟨totalSize, hsize, h⟩ := Option.bind_eq_some_iff.mp h
  unfold claimedSize at hsize
  dsimp only at hsize
  split at hsize
  · exact absurd hsize (by simp)
  · rename_i hfield
    split at hsize
    · exact absurd hsize (by simp)
    · rename_i hcut
      obtain ⟨hfour, hne⟩ := not_or.mp hfield
      obtain rfl := Option.some.inj hsize
      rw [not_not, List.length_take] at hfour
      generalize htotal : (FixedRepr.decode (stream.take 4) : UInt32) = totalSize at h hne hcut
      -- the record that is read has a size, so behind it less is left
      dsimp only at h
      split at h
      · exact absurd h (by simp)
      · obtain ⟨rfl, rfl⟩ := Prod.mk.inj (Option.some.inj h)
        have hpos := @getTotalSize_pos memory stream totalSize (by omega) htotal hne (by omega)
        rw [List.length_drop]
        omega

namespace LogManager.LogIterator

variable {it : LogIterator}

/-- **One read of the scan** stays inside its buffer exactly when the size that it accepts covers a
header, and then it is the read of the iterator, whatever lies behind the buffer. -/
theorem readCurrentRecord?_eq (h : it.Opened) :
    it.readCurrentRecord?
      = if (claimedSize (it.file.drop it.currentOffset.toNat)).all (fun totalSize =>
          21 ≤ totalSize.toNat) then some it.readCurrentRecord else none := by
  have hsize := h.toNat_fileSize
  have hmax := h.file_le
  unfold readCurrentRecord? readCurrentRecord
  by_cases hend : it.currentOffset ≥ it.fileSize
  · -- at the end of the file nothing is claimed
    rw [if_pos hend, if_pos hend, if_pos]
    rw [ge_iff_le, UInt64.le_iff_toNat_le, hsize] at hend
    rw [List.drop_eq_nil_of_le hend]
    rfl
  · rw [if_neg hend, if_neg hend]
    rw [ge_iff_le, UInt64.le_iff_toNat_le, hsize, Nat.not_le] at hend
    have hrest : (it.file.drop it.currentOffset.toNat).length
        = it.file.length - it.currentOffset.toNat := List.length_drop
    unfold claimedSize LogFile.pread
    dsimp only
    -- the bytes that are left, and the size they begin with
    generalize it.file.drop it.currentOffset.toNat = stream at hrest ⊢
    obtain ⟨totalSize, htotal⟩ : ∃ totalSize : UInt32,
      FixedRepr.decode (stream.take 4) = totalSize := ⟨_, rfl⟩
    simp only [htotal]
    have hsum : (it.currentOffset + totalSize.toUInt64).toNat
        = it.currentOffset.toNat + totalSize.toNat := by
      have hlt := totalSize.toNat_lt
      simp only [LogFile.maxOffset] at hmax
      rw [UInt64.toNat_add, UInt32.toNat_toUInt64]
      exact Nat.mod_eq_of_lt (by omega)
    have hshort : it.currentOffset + totalSize.toUInt64 > it.fileSize ↔
        stream.length < totalSize.toNat := by
      rw [gt_iff_lt, UInt64.lt_iff_toNat_lt, hsum, hsize, hrest]
      omega
    -- no four bytes for a size, or the size is zero: nothing is claimed
    by_cases hfield : (stream.take 4).length ≠ 4 ∨ totalSize = 0
    · simp only [if_pos hfield, Option.all_none, if_true]
    · simp only [if_neg hfield]
      -- more is claimed than there is: the read is refused before the header is looked at
      by_cases hcut : stream.length < totalSize.toNat
      · simp only [if_pos hcut, if_pos (hshort.mpr hcut), Option.all_none, if_true]
      · have hread : (stream.take totalSize.toNat).length = totalSize.toNat :=
          List.length_take_of_le (Nat.le_of_not_lt hcut)
        simp only [if_neg hcut, if_neg fun hlt => hcut (hshort.mp hlt),
          if_neg (not_not_intro hread), Option.all_some, decide_eq_true_eq]
        -- a record is read; its header lies in the buffer exactly if the size covers it
        by_cases hheader : 21 ≤ totalSize.toNat
        · rw [if_pos hheader, LogRecord.deserialize?_eq hread.symm (by omega) it.memory]
          rfl
        · have hnone : LogRecord.deserialize? (stream.take totalSize.toNat) totalSize = none := by
            rw [← Option.not_isSome_iff_eq_none, LogRecord.isSome_deserialize? hread.symm, hread]
            exact hheader
          rw [if_neg hheader, hnone]
          rfl

theorem next?_of_valid (hv : it.valid = true) :
    it.next? = { it with
      currentOffset := it.currentOffset +
        it.current.getTotalSize.toUInt64 }.readCurrentRecord? := by
  let it' : LogIterator := { it with
    currentOffset := it.currentOffset + it.current.getTotalSize.toUInt64 }
  rw [next?, if_pos hv]
  change (if it'.currentOffset ≥ it'.fileSize then some { it' with valid := false }
    else it'.readCurrentRecord?) = it'.readCurrentRecord?
  by_cases hend : it'.currentOffset ≥ it'.fileSize
  · rw [if_pos hend, readCurrentRecord?, if_pos hend]
  · rw [if_neg hend]

end LogManager.LogIterator

theorem iterator?_eq (file : LogFile) :
    iterator? file = LogIterator.readCurrentRecord?
      ⟨file, file.size, fun _ => 0, 0, noRecord, false⟩ := by
  rw [iterator?]
  dsimp only
  split
  · rfl
  · rename_i hempty
    have hzero : (0 : UInt64) ≥ file.size := UInt64.not_lt.mp hempty
    rw [LogIterator.readCurrentRecord?, if_pos hzero]

/-- **The loop ends** for every file, after at most one round for each of its bytes. -/
theorem scan_ends {file : LogFile} (h : file.length ≤ LogFile.maxOffset) (memory : Buf) :
    ((iterator file memory).collect (file.length + 1)).2.valid = false := by
  let it : LogIterator := ⟨file, file.size, memory, 0, noRecord, false⟩
  have hopened : it.Opened := ⟨h, rfl⟩
  obtain ⟨hitems, hlast⟩ := LogIterator.collect_readCurrentRecord (file.length + 1) hopened
  have hstream : it.file.drop it.currentOffset.toNat = file := List.drop_zero
  rw [hstream] at hitems
  rw [iterator_eq]
  refine hlast ?_
  rw [hitems]
  exact Nat.lt_succ_of_le
    (length_items_le (fun _ _ _ hnext => drop_nextRecord hnext) (file.length + 1) file)

/-! ## 5. The whole recovery

The loop meets the scan and the redos alternately; `enterLoop?_spec` is the induction. -/

/-- The record at the front of a stream, for a reader with nothing behind its buffer. -/
abbrev recordAt (stream : List UInt8) : Option (LogRecord × Nat) := nextRecord (fun _ => 0) stream

/-- The size at the front of the stream, if it is accepted, covers a header. -/
def HeaderWhole (stream : List UInt8) : Prop :=
  ∀ totalSize, claimedSize stream = some totalSize → 21 ≤ totalSize.toNat

theorem all_claimedSize_iff {stream : List UInt8} :
    (claimedSize stream).all (fun totalSize => 21 ≤ totalSize.toNat) = true ↔
    HeaderWhole stream := by
  simp only [HeaderWhole, Option.all_eq_true, decide_eq_true_eq]

/-- What is left of a stream after `k` records. -/
def streamAfter : Nat → List UInt8 → List UInt8
  | 0, stream => stream
  | k + 1, stream =>
    match recordAt stream with
    | some (_, n) => streamAfter k (stream.drop n)
    | none => []

/-- Wherever the scan gets to, the size it accepts covers a header. -/
def HeadersWhole (stream : List UInt8) : Prop :=
  ∀ k, HeaderWhole (streamAfter k stream)

/-- The records that the scan comes to. -/
def scanned (file : LogFile) : List LogRecord := items recordAt (file.length + 1) file

theorem headersWhole_of_none {stream : List UInt8} (hnone : recordAt stream = none)
    (h : HeaderWhole stream) : HeadersWhole stream := by
  intro k totalSize hsize
  cases k with
  | zero => exact h totalSize hsize
  | succ k =>
    rw [streamAfter, hnone] at hsize
    exact absurd hsize (by simp [claimedSize])

theorem headersWhole_of_some {stream : List UInt8} {record : LogRecord} {n : Nat}
    (hsome : recordAt stream = some (record, n))
    (h : HeaderWhole stream) : HeadersWhole stream ↔ HeadersWhole (stream.drop n) := by
  constructor
  · intro hall k totalSize hsize
    refine hall (k + 1) totalSize ?_
    rw [streamAfter, hsome]
    exact hsize
  · intro hall k totalSize hsize
    cases k with
    | zero => exact h totalSize hsize
    | succ k =>
      rw [streamAfter, hsome] at hsize
      exact hall k totalSize hsize

theorem sized_of_recordAt {stream : List UInt8} {record : LogRecord} {n : Nat}
    (h : recordAt stream = some (record, n)) : record.Sized := by
  rw [recordAt, nextRecord_eq] at h
  obtain ⟨totalSize, -, h⟩ := Option.bind_eq_some_iff.mp h
  dsimp only at h
  split at h
  · exact absurd h (by simp)
  · obtain ⟨rfl, -⟩ := Prod.mk.inj (Option.some.inj h)
    exact LogRecord.sized_deserialize _ _

/-- The loop of `Recover` from the read of its current record on. -/
def enterLoop? (fuel : Nat) (it : LogIterator) (redoCount : UInt32) : PoolM (Except Fault UInt32) :=
  match it.readCurrentRecord? with
  | none => return .error .outside
  | some it => recoverLoop? fuel it redoCount

/-- What an iterator has before it, and that it has read nothing behind its buffers. -/
structure Before (it : LogIterator) (stream : List UInt8) : Prop where
  opened : it.Opened
  memory : it.memory = fun _ => 0
  stream : it.file.drop it.currentOffset.toNat = stream

section Loop

variable {it : LogIterator} {stream : List UInt8} {redoCount : UInt32}

/-- A header that is cut off is read outside the buffer. -/
theorem enterLoop?_of_short (h : Before it stream) (hshort : ¬ HeaderWhole stream) (fuel : Nat) :
    enterLoop? fuel it redoCount = return .error .outside := by
  unfold enterLoop?
  rw [LogIterator.readCurrentRecord?_eq h.opened, h.stream,
    if_neg fun hall => hshort (all_claimedSize_iff.mp hall)]

/-- At the end of the log the loop returns what it has counted. -/
theorem enterLoop?_of_none (h : Before it stream) (hwhole : HeaderWhole stream)
    (hnone : recordAt stream = none) (fuel : Nat) :
    enterLoop? fuel it redoCount = return .ok redoCount := by
  unfold enterLoop?
  rw [LogIterator.readCurrentRecord?_eq h.opened, h.stream,
    if_pos (all_claimedSize_iff.mpr hwhole)]
  -- both readers find nothing
  rcases LogIterator.readCurrentRecord_cases h.opened with ⟨-, hinvalid⟩ | ⟨record, hsome, -, -⟩
  · simp only []
    cases fuel <;> rw [recoverLoop?, if_neg (hinvalid ▸ Bool.false_ne_true)]
  · rw [h.memory, h.stream] at hsome
    exact absurd (hnone.symm.trans hsome) (by simp)

/-- **One round of the loop**: the record is redone, and the loop is entered again behind it. -/
theorem enterLoop?_of_some (h : Before it stream) (hwhole : HeaderWhole stream)
    {record : LogRecord} {n : Nat} (hsome : recordAt stream = some (record, n)) :
    ∃ it', Before it' (stream.drop n) ∧ ∀ (fuel : Nat) (redoCount : UInt32),
      enterLoop? (fuel + 1) it redoCount = (do
        match ← redoRecord? record with
        | none => return .error .outside
        | some redone => enterLoop? fuel it' (if redone then redoCount + 1 else redoCount)) := by
  -- both readers find the record
  rcases LogIterator.readCurrentRecord_cases h.opened with
    ⟨hnone, -⟩ | ⟨record', hsome', hread, hend⟩
  · rw [h.memory, h.stream] at hnone
    exact absurd (hsome.symm.trans hnone) (by simp)
  · rw [h.memory, h.stream] at hsome'
    obtain ⟨rfl, rfl⟩ : record = record' ∧ n = record'.getTotalSize.toNat :=
      Prod.mk.inj (Option.some.inj (hsome.symm.trans hsome'))
    have hoff : (it.currentOffset + record.getTotalSize.toUInt64).toNat
        = it.currentOffset.toNat + record.getTotalSize.toNat := by
      have hmax := h.opened.file_le
      have hbound := record.getTotalSize.toNat_lt
      simp only [LogFile.maxOffset] at hmax
      rw [UInt64.toNat_add, UInt32.toNat_toUInt64]
      exact Nat.mod_eq_of_lt (by omega)
    -- the iterator behind the record
    let it' : LogIterator := { it with
      currentOffset := it.currentOffset + record.getTotalSize.toUInt64
      current := record
      valid := true }
    refine ⟨it', ⟨⟨h.opened.file_le, h.opened.fileSize⟩, h.memory, ?_⟩, fun fuel redoCount => ?_⟩
    · rw [← h.stream, List.drop_drop, ← hoff]
    · have hnext : ({ it with current := record, valid := true } : LogIterator).next?
          = it'.readCurrentRecord? := LogIterator.next?_of_valid rfl
      rw [enterLoop?, LogIterator.readCurrentRecord?_eq h.opened, h.stream,
        if_pos (all_claimedSize_iff.mpr hwhole), hread]
      simp only []
      rw [recoverLoop?, if_pos rfl]
      simp only [hnext]
      rfl

/-- **The loop** has fuel for every record, and meets no access outside exactly when no header is
too short and every redo reads inside its payload.  The induction is on the fuel, which stays
above the length of the stream that is left. -/
theorem enterLoop?_spec (fuel : Nat) : ∀ {it : LogIterator} {stream : List UInt8}
    {redoCount : UInt32} {b : BufferPoolManager}, Before it stream → stream.length < fuel →
    ((enterLoop? fuel it redoCount).exec b).1 ≠ .error .outOfFuel ∧
      (((enterLoop? fuel it redoCount).exec b).1 ≠ .error .outside ↔
        HeadersWhole stream ∧
          Run.StepsOk redoStep? ReadsInside b (items recordAt fuel stream)) := by
  induction fuel with
  | zero => intro _ _ _ _ _ hlt; exact absurd hlt (Nat.not_lt_zero _)
  | succ fuel ih =>
    intro it stream redoCount b h hlt
    -- the header lies inside, or the first access is outside already
    by_cases hwhole : HeaderWhole stream
    · -- the end of the log: the loop returns
      cases hrecord : recordAt stream with
      | none =>
        rw [enterLoop?_of_none h hwhole hrecord, items, hrecord]
        refine ⟨by simp, ?_⟩
        simp [headersWhole_of_none hrecord hwhole]
      -- a record: one redo, and then the loop on a shorter stream
      | some found =>
        obtain ⟨record, n⟩ := found
        obtain ⟨it', h', hround⟩ := enterLoop?_of_some h hwhole hrecord
        have hsized := sized_of_recordAt hrecord
        have hshorter := drop_nextRecord hrecord
        rw [hround, items, hrecord, headersWhole_of_some hrecord hwhole]
        simp only [PoolM.exec_bind, Run.StepsOk]
        -- the redo reads past its payload, and the loop stops with that
        cases hredo : ((redoRecord? record).exec b).1 with
        | none =>
          have hout : ¬ ReadsInside b record := by
            rw [← isSome_redoRecord? hsized, hredo]
            simp
          simp [hout]
        -- the redo stays inside, and the rest decides
        | some redone =>
          have hin : ReadsInside b record := by
            rw [← isSome_redoRecord? hsized, hredo]
            rfl
          simp only [hin, true_and]
          exact ih h' (by omega)
    · rw [enterLoop?_of_short h hwhole]
      refine ⟨by simp, ?_⟩
      have hnot : ¬ HeadersWhole stream := fun hall => hwhole (hall 0)
      simp [hnot]

end Loop

/-- The state of the iterator before its first read. -/
def beforeScan (file : LogFile) : LogIterator :=
  ⟨file, file.size, fun _ => 0, 0, noRecord, false⟩

/-- Recovery is the loop, entered at the start of the file. -/
theorem outcome_recover? (fuel : Nat) (file : LogFile) (b : BufferPoolManager) :
    ((recover? fuel file).exec b).1 = ((enterLoop? fuel (beforeScan file) 0).exec b).1 := by
  unfold recover? enterLoop?
  rw [iterator?_eq]
  change ((match (beforeScan file).readCurrentRecord? with
    | none => _
    | some it => _ : PoolM (Except Fault UInt32)).exec b).1 = _
  cases (beforeScan file).readCurrentRecord? with
  | none => rfl
  | some it => simp only [PoolM.exec_bind, PoolM.exec_pure]

/-- Every access of the recovery to the current record, its payload and the bytes that the accessors
point to lies inside. -/
def RecoversInside (file : LogFile) (b : BufferPoolManager) : Prop :=
  ((recover? (file.length + 1) file).exec b).1 ≠ .error .outside

/-- The lengths of an update and the records they lead to lie in its payload. -/
def LogRecord.UpdateInside (r : LogRecord) : Prop :=
  r.getType = .update → r.HoldsLengths ∧
    r.updateData.newData.toNat + r.updateData.newLength.toNat ≤ r.payload.length

namespace Page

variable {page : Page} {record : LogRecord}

theorem insertFrom?_eq (h : record.Sized) :
    page.insertFrom? record = some (page.insertRecord record.getInsertData).2 := by
  unfold insertFrom? LogRecord.getInsertData
  by_cases hnil : record.payload = []
  · rw [if_pos (.inl hnil), if_pos hnil]
    rfl
  · have hlen := h.resolve_left hnil
    have hsize : (⟨record.payload.take record.header.payloadSize.toNat,
        lt_of_le_of_lt (List.length_take_le _ _) record.header.payloadSize.toNat_lt⟩
          : RecordData).length = record.header.payloadSize := by
      refine UInt16.toNat_inj.mp ?_
      rw [RecordData.toNat_length]
      exact List.length_take_of_le (Nat.le_of_eq hlen.symm)
    have hne : record.header.payloadSize ≠ 0 := by
      intro hzero
      rw [hzero] at hlen
      exact hnil (List.eq_nil_of_length_eq_zero hlen)
    have hzero : (0 : UInt16).toNat = 0 := rfl
    have hdata : record.payloadData? 0 record.header.payloadSize
        = some ⟨record.payload.take record.header.payloadSize.toNat,
          lt_of_le_of_lt (List.length_take_le _ _) record.header.payloadSize.toNat_lt⟩ := by
      rw [LogRecord.payloadData?, if_pos (by omega)]
      rfl
    rw [if_neg (not_or.mpr ⟨hnil, hne⟩), if_neg hnil, insertRecord, hsize, if_neg hne, hdata]
    split <;> rfl

theorem updateFrom?_eq {slotId : UInt16}
    (h : record.updateData.newData.toNat + record.updateData.newLength.toNat
      ≤ record.payload.length) : page.updateFrom? record slotId record.updateData
      = some (page.updateRecord slotId record.getUpdateData.2).2 := by
  have hdata : record.payloadData? record.updateData.newData record.updateData.newLength
      = some record.getUpdateData.2 := by
    rw [LogRecord.payloadData?, if_pos h]
    rfl
  have hlength : record.getUpdateData.2.length = record.updateData.newLength := by
    refine UInt16.toNat_inj.mp ?_
    rw [RecordData.toNat_length]
    change ((record.payload.drop record.updateData.newData.toNat).take
      record.updateData.newLength.toNat).length = _
    rw [List.length_take, List.length_drop]
    omega
  unfold updateFrom? updateRecord
  simp only [hdata, hlength, Option.map_some]
  split
  · rfl
  · split
    · rfl
    · split <;> rfl

theorem redo?_eq (hsized : record.Sized) (hin : record.UpdateInside) :
    page.redo? record record.updateData = (some (page.redo record).1, (page.redo record).2) := by
  unfold redo? redo
  cases htype : record.getType with
  | insert =>
    simp only []
    split
    · rfl
    · rw [insertFrom?_eq hsized]
      rfl
  | delete => simp only []; split <;> rfl
  | update =>
    simp only []
    split
    · rw [updateFrom?_eq (hin htype).2]
      rfl
    · rfl
  | newPage | checkpointBegin | checkpointEnd | invalid | other _ => rfl

end Page

/-- The redo of a record that keeps its lengths. -/
theorem redoRecord?_eq {record : LogRecord} (hsized : record.Sized) (hin : record.UpdateInside)
    (b : BufferPoolManager) : (redoRecord? record).exec b
      = (some ((redoRecord record).exec b).1, ((redoRecord record).exec b).2) := by
  have haccess : (withPage record.getPageId (fun page => page.redo? record record.updateData)
      (some false)).exec b
      = (some ((withPage record.getPageId (fun page => page.redo record) false).exec b).1,
        ((withPage record.getPageId (fun page => page.redo record) false).exec b).2) := by
    simp only [withPage, PoolM.exec_bind, Page.redo?_eq hsized hin]
    cases ((fetchPage record.getPageId).exec b).1 <;> rfl
  unfold redoRecord? redoRecord
  cases htype : record.getType with
  | insert | delete => exact haccess
  | update =>
    simp only [LogRecord.getUpdateData?_eq (hin htype).1]
    exact haccess
  | newPage | checkpointBegin | checkpointEnd | invalid | other _ => rfl

theorem enterLoop?_eq (fuel : Nat) : ∀ {it : LogIterator} {stream : List UInt8}
    {redoCount : UInt32} {b : BufferPoolManager}, Before it stream → stream.length < fuel →
    HeadersWhole stream → (∀ record ∈ items recordAt fuel stream, record.UpdateInside) →
    (enterLoop? fuel it redoCount).exec b
      = (.ok ((redoLog (items recordAt fuel stream) redoCount).exec b).1,
        ((redoLog (items recordAt fuel stream) redoCount).exec b).2) := by
  induction fuel with
  | zero => intro _ _ _ _ _ hlt; exact absurd hlt (Nat.not_lt_zero _)
  | succ fuel ih =>
    intro it stream redoCount b h hlt hheaders hupdates
    have hwhole : HeaderWhole stream := hheaders 0
    cases hrecord : recordAt stream with
    | none =>
      rw [enterLoop?_of_none h hwhole hrecord, items, hrecord]
      rfl
    | some found =>
      obtain ⟨record, n⟩ := found
      obtain ⟨it', h', hround⟩ := enterLoop?_of_some h hwhole hrecord
      have hshorter := drop_nextRecord hrecord
      rw [items, hrecord, List.forall_mem_cons] at hupdates
      rw [headersWhole_of_some hrecord hwhole] at hheaders
      have hredo := redoRecord?_eq (sized_of_recordAt hrecord) hupdates.1 b
      rw [hround, items, hrecord, redoLog]
      simp only [PoolM.exec_bind, hredo]
      exact ih h' (by omega) hheaders hupdates.2

/-- **A log that keeps its lengths** is recovered as `recover` says of its records. -/
theorem recover?_eq {file : LogFile} (h : file.length ≤ LogFile.maxOffset)
    (hheaders : HeadersWhole file) (hupdates : ∀ record ∈ scanned file, record.UpdateInside)
    (b : BufferPoolManager) : (recover? (file.length + 1) file).exec b
      = (.ok ((recover (scanned file)).exec b).1, ((recover (scanned file)).exec b).2) := by
  have hbefore : Before (beforeScan file) file := ⟨⟨h, rfl⟩, rfl, List.drop_zero⟩
  have hloop := @enterLoop?_eq (file.length + 1) (beforeScan file) file 0 b hbefore
    (Nat.lt_succ_self _) hheaders hupdates
  have hread := LogIterator.readCurrentRecord?_eq hbefore.opened
  have hfront : HeaderWhole file := hheaders 0
  rw [hbefore.stream, if_pos (all_claimedSize_iff.mpr hfront)] at hread
  rw [enterLoop?, hread] at hloop
  unfold recover? recover
  rw [iterator?_eq]
  change (match (beforeScan file).readCurrentRecord? with
    | none => _
    | some it => _ : PoolM (Except Fault UInt32)).exec b = _
  rw [hread]
  simp only [PoolM.exec_bind] at hloop ⊢
  rw [hloop]
  rfl

end CourtDB
