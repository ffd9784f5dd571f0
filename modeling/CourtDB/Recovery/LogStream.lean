/-
# What the log reads back

The file of a log manager together with its buffer is the serialization of the records appended so
far, back to back, behind what the file held at first (`Logged`); every call keeps this, and an
append returns the position of its record in that stream.  The iterator reads the stream record by
record (`collect_readCurrentRecord`), and the records delimit themselves (`selfDelimiting`), so what
is read back from a cut file is what lies before the cut.

The two halves meet only in the bytes.  The writer knows records, and where in the stream each one
lies: `nextLsn` runs ahead of the stream by the size of a record that has its LSN and is not stored
yet (`reserved`), which is how it is in the middle of `AppendLogRecord`.  The reader knows an offset
and the size of the file.  It reads a header, believes the size in it if the file is long enough,
and goes on behind it; the library of framed records says that such a reader finds what was framed.

A record of more bytes than the buffer has goes to the file at once, after the buffer was flushed,
so the order in the stream is that of the appends also for these.
-/
import Mathlib.Data.List.TakeDrop
import CourtDB.Lib.Framing
import CourtDB.Recovery.LogManager

namespace CourtDB

open Bytes Framing

/-! ## 1. The stream of a log manager

Truncation is not among the calls: it empties the file and begins a new stream.  Closing flushes the
buffer, and opening finds its end by the size of the file. -/

namespace LogFile

theorem toNat_size {file : LogFile} (h : file.length ≤ maxOffset) :
    file.size.toNat = file.length :=
  UInt64.toNat_ofNat_of_lt' (lt_of_le_of_lt h (by decide))

/-- A write at the end of the file. -/
theorem pwrite_end {file file' : LogFile} {bytes : List UInt8} {offset : UInt64}
    (hend : offset.toNat = file.length) (h : file.pwrite bytes offset = some file') :
    file' = file ++ bytes ∧ file'.length ≤ maxOffset := by
  rw [pwrite] at h
  by_cases hle : offset.toNat + bytes.length ≤ maxOffset
  · rw [if_pos hle, Option.some.injEq] at h
    have hfile : file.takeD offset.toNat 0 = file := by rw [hend, List.takeD_eq_take _ (le_refl _),
      List.take_length]
    have hrest : file.drop (offset.toNat + bytes.length) = [] :=
      List.drop_eq_nil_of_le (by omega)
    rw [hfile, hrest, List.append_nil] at h
    subst h
    exact ⟨rfl, by rw [List.length_append, ← hend]; exact hle⟩
  · rw [if_neg hle] at h; exact absurd h (by simp)

end LogFile

namespace LogManager

/-- The file and the buffer hold `base` and then `records`, with no record in both, and the
offsets say so: `nextLsn` is ahead of the stream by the size `reserved` of a record that has its
LSN and is not stored yet. -/
structure Logged (base : LogFile) (records : List LogRecord) (reserved : Nat) (log : LogManager) :
    Prop where
  stream : log.file ++ log.buffer = base ++ records.flatMap LogRecord.serialize
  boundary : ∃ written, written <+: records ∧
    log.file = base ++ written.flatMap LogRecord.serialize
  flushedLsn : log.flushedLsn.toNat = log.file.length
  nextLsn : log.nextLsn.toNat = log.file.length + log.buffer.length + reserved
  buffer_le : log.buffer.length ≤ defaultLogBufferSize.toNat
  file_le : log.file.length ≤ LogFile.maxOffset

variable {base : LogFile} {records : List LogRecord} {n : Nat} {log log' : LogManager}

theorem logged_openLog (file : LogFile) (h : file.length ≤ LogFile.maxOffset) :
    Logged file [] 0 (openLog file) where
  stream := by simp [openLog]
  boundary := ⟨[], List.nil_prefix, by simp [openLog]⟩
  flushedLsn := LogFile.toNat_size h
  nextLsn := LogFile.toNat_size h
  buffer_le := Nat.zero_le _
  file_le := h

namespace Logged

theorem toNat_bufferOffset (h : Logged base records n log) :
    log.bufferOffset.toNat = log.buffer.length :=
  UInt32.toNat_ofNat_of_lt' (lt_of_le_of_lt h.buffer_le (by decide))

theorem bufferOffset_eq_zero_iff (h : Logged base records n log) :
    log.bufferOffset = 0 ↔ log.buffer = [] := by
  rw [← UInt32.toNat_inj, h.toNat_bufferOffset]
  exact List.length_eq_zero_iff

/-- `FlushBuffer` empties the buffer into the file. -/
theorem flushBuffer (h : Logged base records n log) (hf : log.flushBuffer = some log') :
    Logged base records n log' ∧ log'.buffer = [] ∧ log'.nextLsn = log.nextLsn := by
  rw [LogManager.flushBuffer] at hf
  by_cases hzero : log.bufferOffset = 0
  · rw [if_pos hzero, Option.some.injEq] at hf
    subst hf
    exact ⟨h, h.bufferOffset_eq_zero_iff.mp hzero, rfl⟩
  · rw [if_neg hzero] at hf
    obtain ⟨file, hwrite, hf⟩ := Option.bind_eq_some_iff.mp hf
    rw [Option.some.injEq] at hf
    subst hf
    obtain ⟨rfl, hle⟩ := LogFile.pwrite_end h.flushedLsn hwrite
    have hoff := h.toNat_bufferOffset
    refine ⟨⟨by rw [List.append_nil]; exact h.stream, ⟨records, List.prefix_rfl, h.stream⟩, ?_, ?_,
      Nat.zero_le _, hle⟩, rfl, rfl⟩
    · have hlt : (log.file ++ log.buffer).length < 2 ^ 64 :=
        lt_of_le_of_lt hle (by decide)
      rw [List.length_append] at hlt ⊢
      simp only [UInt64.toNat_add, h.flushedLsn, UInt32.toNat_toUInt64, hoff]
      exact Nat.mod_eq_of_lt hlt
    · rw [List.length_append]; exact h.nextLsn

theorem flush (h : Logged base records n log) (hf : log.flush = some log') :
    Logged base records n log' ∧ log'.buffer = [] := by
  rw [LogManager.flush] at hf
  by_cases hpos : log.bufferOffset > 0
  · rw [if_pos hpos] at hf
    exact ⟨(h.flushBuffer hf).1, (h.flushBuffer hf).2.1⟩
  · rw [if_neg hpos, Option.some.injEq] at hf
    subst hf
    refine ⟨h, h.bufferOffset_eq_zero_iff.mp ?_⟩
    exact UInt32.toNat_inj.mp (Nat.eq_zero_of_not_pos hpos)

theorem flushUpTo (h : Logged base records n log) {lsn : LSN} (hf : log.flushUpTo lsn = some log') :
    Logged base records n log' := by
  rw [LogManager.flushUpTo] at hf
  split at hf
  · exact (h.flushBuffer hf).1
  · rw [Option.some.injEq] at hf; subst hf; exact h

/-- The file of a log manager whose buffer is empty. -/
theorem file_eq (h : Logged base records n log) (hbuf : log.buffer = []) :
    log.file = base ++ records.flatMap LogRecord.serialize := by
  have hstream := h.stream
  rwa [hbuf, List.append_nil] at hstream

/-- Close and reopen. -/
theorem reopen (h : Logged base records n log) {file : LogFile} (hc : log.close = some file) :
    Logged base records 0 (openLog file) := by
  obtain ⟨log', hf, rfl⟩ := Option.map_eq_some_iff.mp hc
  obtain ⟨h', hbuf⟩ := h.flush hf
  have hopen := logged_openLog _ h'.file_le
  exact ⟨by rw [← h'.file_eq hbuf]; simp [openLog], h'.boundary, hopen.flushedLsn, hopen.nextLsn,
    hopen.buffer_le, hopen.file_le⟩

/-- The stream position where the next record goes. -/
theorem nextLsn_eq (h : Logged base records 0 log) :
    log.nextLsn.toNat = base.length + (records.map (length LogRecord.serialize)).sum := by
  have hstream := congrArg List.length h.stream
  rw [List.length_append, List.length_append, List.length_flatMap] at hstream
  rw [h.nextLsn, hstream, Nat.add_zero]

/-- An LSN is assigned to a record of `n` bytes. -/
theorem reserve (h : Logged base records 0 log) {size : UInt32} (hn : size.toNat = n) :
    Logged base records n { log with nextLsn := log.nextLsn + size.toUInt64 } := by
  refine ⟨h.stream, h.boundary, h.flushedLsn, ?_, h.buffer_le, h.file_le⟩
  have hnext := h.nextLsn
  have hbuf := h.buffer_le
  have hfile := h.file_le
  have hsize := size.toNat_lt
  simp only [defaultLogBufferSize, LogFile.maxOffset, UInt32.reduceMul, UInt32.reduceToNat]
    at hbuf hfile
  simp only [UInt64.toNat_add, UInt32.toNat_toUInt64, hnext, hn]
  omega

/-- After `makeRoom` the record fits into the buffer, or the buffer is empty. -/
theorem makeRoom (h : Logged base records n log) {size : UInt32} (hn : size.toNat = n)
    (hsmall : n < 2 ^ 31) (hm : log.makeRoom size = some log') :
    Logged base records n log' ∧ log'.nextLsn = log.nextLsn ∧
      (log'.buffer.length + n ≤ defaultLogBufferSize.toNat ∨ log'.buffer = []) := by
  rw [LogManager.makeRoom] at hm
  have hoff := h.toNat_bufferOffset
  have hbuf := h.buffer_le
  by_cases hfull : log.bufferOffset + size > defaultLogBufferSize
  · rw [if_pos hfull] at hm
    obtain ⟨h', hempty, hnext⟩ := h.flushBuffer hm
    exact ⟨h', hnext, Or.inr hempty⟩
  · -- the buffer has room as it is
    rw [if_neg hfull, Option.some.injEq] at hm
    subst hm
    refine ⟨h, rfl, Or.inl ?_⟩
    rw [gt_iff_lt, UInt32.lt_iff_toNat_lt, UInt32.toNat_add, hoff, hn] at hfull
    simp only [defaultLogBufferSize, UInt32.reduceMul, UInt32.reduceToNat] at hbuf hfull ⊢
    omega

/-- The record that the reserved bytes are for is stored. -/
theorem store (h : Logged base records n log) {record : LogRecord}
    (hn : record.serialize.length = n) (hsmall : n < 2 ^ 31)
    (hroom : log.buffer.length + n ≤ defaultLogBufferSize.toNat ∨ log.buffer = [])
    {lsn : LSN} (hlsn : lsn.toNat = log.file.length + log.buffer.length)
    (hs : log.store record.serialize lsn = some log') :
    Logged base (records ++ [record]) 0 log' := by
  have hsize : (UInt32.ofNat record.serialize.length).toNat = n := by
    rw [hn]; exact UInt32.toNat_ofNat_of_lt' (by simp only [UInt32.size]; omega)
  have hflat : base ++ (records ++ [record]).flatMap LogRecord.serialize
      = log.file ++ log.buffer ++ record.serialize := by
    rw [h.stream, List.flatMap_append, List.flatMap_singleton, List.append_assoc]
  rw [LogManager.store] at hs
  -- larger than the buffer: the record goes to the file at once
  by_cases hlarge : UInt32.ofNat record.serialize.length > defaultLogBufferSize
  · rw [if_pos hlarge] at hs
    obtain ⟨file, hwrite, hs⟩ := Option.bind_eq_some_iff.mp hs
    rw [Option.some.injEq] at hs
    subst hs
    rw [gt_iff_lt, UInt32.lt_iff_toNat_lt, hsize] at hlarge
    -- the buffer was emptied before, and the position is the end of the file
    have hempty : log.buffer = [] := hroom.resolve_left (by omega)
    have hend : lsn.toNat = log.file.length := by rw [hlsn, hempty]; rfl
    obtain ⟨rfl, hle⟩ := LogFile.pwrite_end hend hwrite
    have hnext := h.nextLsn
    rw [hempty, List.length_nil] at hnext
    have hfile : log.file ++ record.serialize
        = base ++ (records ++ [record]).flatMap LogRecord.serialize := by
      rw [hflat, hempty, List.append_nil]
    refine ⟨by rw [hempty, List.append_nil, hfile], ⟨_, List.prefix_rfl, hfile⟩, ?_, ?_,
      h.buffer_le, hle⟩
    · rw [hnext, List.length_append, hn]; rfl
    · rw [hnext, hempty, List.length_append, hn]; rfl
  · -- the record goes into the buffer
    rw [if_neg hlarge, Option.some.injEq] at hs
    subst hs
    rw [gt_iff_lt, UInt32.lt_iff_toNat_lt, hsize] at hlarge
    have hnext := h.nextLsn
    obtain ⟨written, hprefix, hfile⟩ := h.boundary
    refine ⟨by rw [hflat, List.append_assoc],
      ⟨written, hprefix.trans (List.prefix_append _ _), hfile⟩, h.flushedLsn, ?_, ?_, h.file_le⟩
    · rw [hnext, List.length_append, hn, Nat.add_zero, ← Nat.add_assoc]
    · -- the buffer had room, or is empty and the record fits alone
      rw [List.length_append, hn]
      rcases hroom with hroom | hempty
      · exact hroom
      · rw [hempty, List.length_nil]; omega

/-- **An append adds its record to the stream** and returns the position it gets there. -/
theorem appendLogRecord (h : Logged base records 0 log) {record : LogRecord}
    (hr : record.WellFormed) {lsn : LSN} (ha : log.appendLogRecord record = some (lsn, log')) :
    Logged base (records ++ [record]) 0 log' ∧ lsn = log.nextLsn := by
  have hsize := hr.length_serialize
  have hpayload := hr.payloadSize
  have hlt := record.header.payloadSize.toNat_lt
  have hrecord : (UInt32.ofNat record.serialize.length).toNat = record.serialize.length :=
    UInt32.toNat_ofNat_of_lt' (by simp only [hsize, UInt32.size]; omega)
  rw [LogManager.appendLogRecord] at ha
  -- the call reserves the LSN, makes room, and stores
  obtain ⟨log₁, hroom, ha⟩ := Option.bind_eq_some_iff.mp ha
  obtain ⟨log₂, hstore, ha⟩ := Option.bind_eq_some_iff.mp ha
  obtain ⟨rfl, rfl⟩ := Prod.mk.injEq _ _ _ _ ▸ Option.some.injEq _ _ ▸ ha
  obtain ⟨h₁, hnext, hfit⟩ := (h.reserve hrecord).makeRoom hrecord (by omega) hroom
  refine ⟨h₁.store rfl (by omega) hfit ?_ hstore, rfl⟩
  -- the position is the one counted before the call
  have hahead := h₁.nextLsn
  have hreserved : (log.nextLsn + (UInt32.ofNat record.serialize.length).toUInt64).toNat
      = log.nextLsn.toNat + record.serialize.length := by
    rw [h.nextLsn]; exact (h.reserve hrecord).nextLsn
  rw [hnext, hreserved] at hahead
  omega

/-- One call. -/
theorem step (h : Logged base records 0 log) {op : LogOp}
    (hop : ∀ record, op.record? = some record → record.Built) {lsns : List LSN}
    (hs : log.step op = some (lsns, log')) :
    Logged base (records ++ op.record?.toList) 0 log' ∧
      lsns.map UInt64.toNat = offsets (length LogRecord.serialize)
        (base.length + (records.map (length LogRecord.serialize)).sum) op.record?.toList := by
  cases op with
  -- the append returns the position its record gets
  | append record =>
    obtain ⟨⟨lsn, log₁⟩, ha, hs⟩ := Option.bind_eq_some_iff.mp hs
    obtain ⟨rfl, rfl⟩ := Prod.mk.injEq _ _ _ _ ▸ Option.some.injEq _ _ ▸ hs
    obtain ⟨h', rfl⟩ := h.appendLogRecord (hop record rfl).wellFormed ha
    exact ⟨h', by simp [LogOp.record?, offsets, h.nextLsn_eq]⟩
  -- a flush moves bytes from the buffer to the file, and adds no record
  | flush =>
    obtain ⟨log₁, hf, hs⟩ := Option.map_eq_some_iff.mp hs
    obtain ⟨rfl, rfl⟩ := Prod.mk.injEq _ _ _ _ ▸ hs
    exact ⟨by simpa [LogOp.record?] using (h.flush hf).1, rfl⟩
  | flushUpTo lsn =>
    obtain ⟨log₁, hf, hs⟩ := Option.map_eq_some_iff.mp hs
    obtain ⟨rfl, rfl⟩ := Prod.mk.injEq _ _ _ _ ▸ hs
    exact ⟨by simpa [LogOp.record?] using h.flushUpTo hf, rfl⟩
  -- a reopened log begins at the end of its file, where the buffer was empty
  | reopen =>
    obtain ⟨file, hc, hs⟩ := Option.map_eq_some_iff.mp hs
    obtain ⟨rfl, rfl⟩ := Prod.mk.injEq _ _ _ _ ▸ hs
    exact ⟨by simpa [LogOp.record?] using h.reopen hc, rfl⟩

/-- **A run adds its records to the stream**, and the LSNs are their positions. -/
theorem run {ops : List LogOp} (hops : ∀ record ∈ LogOp.records ops, record.Built) :
    ∀ {records : List LogRecord} {log : LogManager} {lsns : List LSN},
      Logged base records 0 log → log.run ops = some (lsns, log') →
      Logged base (records ++ LogOp.records ops) 0 log' ∧
        lsns.map UInt64.toNat = offsets (length LogRecord.serialize)
          (base.length + (records.map (length LogRecord.serialize)).sum) (LogOp.records ops) := by
  induction ops with
  | nil =>
    intro records log lsns h hr
    obtain ⟨rfl, rfl⟩ := Prod.mk.injEq _ _ _ _ ▸ Option.some.injEq _ _ ▸ hr
    exact ⟨by simpa [LogOp.records] using h, rfl⟩
  | cons op ops ih =>
    intro records log lsns h hr
    obtain ⟨⟨here, log₁⟩, hs, hr⟩ := Option.bind_eq_some_iff.mp hr
    obtain ⟨⟨rest, log₂⟩, hrest, hr⟩ := Option.bind_eq_some_iff.mp hr
    obtain ⟨rfl, rfl⟩ := Prod.mk.injEq _ _ _ _ ▸ Option.some.injEq _ _ ▸ hr
    -- the records of the first call come before the others
    have hrecords : LogOp.records (op :: ops) = op.record?.toList ++ LogOp.records ops := by
      simp only [LogOp.records, List.filterMap_cons]
      cases op.record? <;> rfl
    obtain ⟨h₁, hhere⟩ := h.step (fun record hr => hops record (by simp [hrecords, hr])) hs
    obtain ⟨h₂, hlsns⟩ := ih (fun record hr => hops record (by simp [hrecords, hr])) h₁ hrest
    refine ⟨by rw [hrecords, ← List.append_assoc]; exact h₂, ?_⟩
    rw [List.map_append, hhere, hlsns, hrecords, offsets_append, List.map_append, List.sum_append,
      ← Nat.add_assoc]

end Logged

end LogManager

namespace LogManager

/-- What lies in the stream from the position of a record on. -/
theorem drop_stream {base : LogFile} {records : List LogRecord} {i : Nat} {record : LogRecord}
    (hrecord : records[i]? = some record) :
    ∃ rest, (base ++ records.flatMap LogRecord.serialize).drop (base.length
        + ((records.take i).map (length LogRecord.serialize)).sum) = record.serialize ++ rest := by
  obtain ⟨hi, rfl⟩ := List.getElem?_eq_some_iff.mp hrecord
  refine ⟨(records.drop (i + 1)).flatMap LogRecord.serialize, ?_⟩
  -- the record stands between those before and those behind it
  have hsplit : base ++ records.flatMap LogRecord.serialize
      = (base ++ (records.take i).flatMap LogRecord.serialize) ++
        (records[i].serialize ++ (records.drop (i + 1)).flatMap LogRecord.serialize) := by
    nth_rewrite 1 [← List.take_append_drop i records]
    rw [List.drop_eq_getElem_cons hi, List.flatMap_append, List.flatMap_cons, List.append_assoc]
  rw [hsplit]
  refine List.drop_left' ?_
  rw [List.length_append, List.length_flatMap]

/-- A record of 65520 bytes, which does not fit into the log buffer together with its header. -/
def largeData : RecordData := ⟨List.replicate 65520 0, by rw [List.length_replicate]; decide⟩

/-- Its record has 65541 bytes, five more than the buffer. -/
theorem length_largeInsert : (LogRecord.makeInsert 0 1 0 largeData).serialize.length = 65541 := by
  have hpayload : (LogRecord.makeInsert 0 1 0 largeData).payload = largeData.bytes := rfl
  have hlen : largeData.bytes.length = 65520 := List.length_replicate
  rw [(LogRecord.Built.insert 0 1 0 largeData).wellFormed.length_serialize, hpayload, hlen]

end LogManager

/-! ## 2. The reader

`ReadCurrentRecord` makes the iterator invalid where no four bytes are left for a size, where the
size is zero, where the record would go past the end of the file, and at a record without a valid
type. -/

/-- The record at the front of a stream, as `ReadCurrentRecord` finds it, and how far `Next`
goes from there. -/
def nextRecord (memory : Buf) (stream : List UInt8) : Option (LogRecord × Nat) :=
  let sizeField := stream.take 4
  let totalSize : UInt32 := FixedRepr.decode sizeField
  if sizeField.length ≠ 4 ∨ totalSize = 0 then none
  else if stream.length < totalSize.toNat then none
  else
    let record := LogRecord.deserialize (memory.write 0 (stream.take totalSize.toNat)) totalSize
    if record.getType = .invalid then none else some (record, record.getTotalSize.toNat)

namespace LogManager.LogIterator

variable {it : LogIterator}

/-- The iterator knows the size of its file. -/
structure Opened (it : LogIterator) : Prop where
  file_le : it.file.length ≤ LogFile.maxOffset
  fileSize : it.fileSize = it.file.size

theorem Opened.toNat_fileSize (h : it.Opened) : it.fileSize.toNat = it.file.length := by
  rw [h.fileSize]; exact LogFile.toNat_size h.file_le

/-- What `ReadCurrentRecord` leaves, in terms of the stream from the current offset. -/
theorem readCurrentRecord_cases (h : it.Opened) :
    (nextRecord it.memory (it.file.drop it.currentOffset.toNat) = none ∧
        it.readCurrentRecord.valid = false) ∨
      ∃ record, nextRecord it.memory (it.file.drop it.currentOffset.toNat)
          = some (record, record.getTotalSize.toNat) ∧
        it.readCurrentRecord = { it with current := record, valid := true } ∧
        it.currentOffset.toNat < it.file.length := by
  have hsize := h.toNat_fileSize
  have hmax := h.file_le
  rw [readCurrentRecord]
  by_cases hend : it.currentOffset ≥ it.fileSize
  · -- the offset is at the end of the file
    rw [if_pos hend]
    refine Or.inl ⟨?_, rfl⟩
    rw [ge_iff_le, UInt64.le_iff_toNat_le, hsize] at hend
    rw [List.drop_eq_nil_of_le hend]
    rfl
  · rw [if_neg hend]
    rw [ge_iff_le, UInt64.le_iff_toNat_le, hsize, Nat.not_le] at hend
    -- the bytes from the offset on, and the size they begin with
    have hrest : (it.file.drop it.currentOffset.toNat).length
        = it.file.length - it.currentOffset.toNat := List.length_drop
    unfold nextRecord LogFile.pread
    dsimp only
    generalize it.file.drop it.currentOffset.toNat = stream at hrest ⊢
    generalize (FixedRepr.decode (stream.take 4) : UInt32) = totalSize
    -- no sum wraps: the file is shorter than an offset can be
    have hsum : (it.currentOffset + totalSize.toUInt64).toNat
        = it.currentOffset.toNat + totalSize.toNat := by
      have hlt := totalSize.toNat_lt
      simp only [LogFile.maxOffset] at hmax
      rw [UInt64.toNat_add, UInt32.toNat_toUInt64]
      exact Nat.mod_eq_of_lt (by omega)
    have hshort : it.currentOffset + totalSize.toUInt64 > it.fileSize ↔
        stream.length < totalSize.toNat := by
      rw [gt_iff_lt, UInt64.lt_iff_toNat_lt, hsum, hsize, hrest]
      omega
    -- no four bytes for a size, or the size is zero
    by_cases hfield : (stream.take 4).length ≠ 4 ∨ totalSize = 0
    · rw [if_pos hfield, if_pos hfield]
      exact Or.inl ⟨rfl, rfl⟩
    · rw [if_neg hfield, if_neg hfield]
      -- the record would go past the end of the file
      by_cases hcut : stream.length < totalSize.toNat
      · rw [if_pos hcut, if_pos (hshort.mpr hcut)]
        exact Or.inl ⟨rfl, rfl⟩
      · -- it is read whole
        rw [if_neg hcut, if_neg fun hlt => hcut (hshort.mp hlt)]
        have hread : (stream.take totalSize.toNat).length = totalSize.toNat :=
          List.length_take_of_le (Nat.le_of_not_lt hcut)
        rw [if_neg (not_not_intro hread)]
        generalize LogRecord.deserialize (it.memory.write 0 (stream.take totalSize.toNat)) totalSize
          = record
        -- the type is `invalid`, whose code is zero
        by_cases htype : record.getType = .invalid
        · rw [if_pos htype]
          exact Or.inl ⟨rfl, by simp [htype]⟩
        · rw [if_neg htype]
          exact Or.inr ⟨record, rfl, by simp [htype], hend⟩

/-- `Next` reads the record at the offset behind the current one. -/
theorem next_of_valid (hv : it.valid = true) :
    it.next = { it with
      currentOffset := it.currentOffset + it.current.getTotalSize.toUInt64 }.readCurrentRecord := by
  let it' : LogIterator := { it with
    currentOffset := it.currentOffset + it.current.getTotalSize.toUInt64 }
  rw [next, if_pos hv]
  change (if it'.currentOffset ≥ it'.fileSize then { it' with valid := false }
    else it'.readCurrentRecord) = it'.readCurrentRecord
  by_cases hend : it'.currentOffset ≥ it'.fileSize
  · rw [if_pos hend, readCurrentRecord, if_pos hend]
  · rw [if_neg hend]

/-- The loop ends with the iterator. -/
theorem collect_of_not_valid (hv : it.valid = false) (fuel : Nat) : it.collect fuel = ([], it) := by
  cases fuel with
  | zero => rfl
  | succ fuel => rw [collect, hv]; rfl

/-- **A loop over the log reads the stream from its offset**, and ends when the stream has no
further record. -/
theorem collect_readCurrentRecord (fuel : Nat) : ∀ {it : LogIterator}, it.Opened →
    (it.readCurrentRecord.collect fuel).1
        = items (nextRecord it.memory) fuel (it.file.drop it.currentOffset.toNat) ∧
      ((it.readCurrentRecord.collect fuel).1.length < fuel →
        (it.readCurrentRecord.collect fuel).2.valid = false) := by
  induction fuel with
  | zero => intro it _; exact ⟨rfl, fun hlt => absurd hlt (Nat.not_lt_zero _)⟩
  | succ fuel ih =>
    intro it h
    -- the stream is at its end, or has a record in front
    rcases readCurrentRecord_cases h with ⟨hnone, hinvalid⟩ | ⟨record, hsome, hread, hend⟩
    · rw [collect_of_not_valid hinvalid, items, hnone]
      exact ⟨rfl, fun _ => hinvalid⟩
    · have hoff : (it.currentOffset + record.getTotalSize.toUInt64).toNat
          = it.currentOffset.toNat + record.getTotalSize.toNat := by
        have hmax := h.file_le
        have hlt := record.getTotalSize.toNat_lt
        simp only [LogFile.maxOffset] at hmax
        rw [UInt64.toNat_add, UInt32.toNat_toUInt64]
        exact Nat.mod_eq_of_lt (by omega)
      -- behind the record the stream goes on
      let it' : LogIterator := { it with
        currentOffset := it.currentOffset + record.getTotalSize.toUInt64
        current := record
        valid := true }
      obtain ⟨hitems, hlast⟩ := @ih it' ⟨h.file_le, h.fileSize⟩
      have hcollect : it.readCurrentRecord.collect (fuel + 1)
          = (record :: (it'.readCurrentRecord.collect fuel).1,
            (it'.readCurrentRecord.collect fuel).2) := by
        rw [hread, collect, if_pos rfl, next_of_valid rfl]
      rw [hcollect, items, hsome]
      refine ⟨?_, fun hlt => hlast (Nat.lt_of_succ_lt_succ hlt)⟩
      simp only [hitems, it', hoff, List.drop_drop]

end LogManager.LogIterator

/-! ## 3. The records delimit themselves

A record is known by its first bytes: its size is in the header, and a part of it is not taken for a
record. -/

open LogManager

/-- The size field of a serialized record. -/
theorem LogRecord.WellFormed.sizeField {record : LogRecord} (h : record.WellFormed) :
    record.serialize.take 4 = FixedRepr.encode record.header.totalSize := by
  have hlen := h.toNat_totalSize
  have hfield : record.image.read 0 4 = FixedRepr.encode record.header.totalSize := by
    simp only [LogRecord.image, Buf.put]
    rw [Buf.read_write_of_disjoint (Or.inl (by decide))]
    iterate 5 rw [Buf.read_write_of_disjoint (Or.inl (by decide))]
    exact Buf.read_write_self _ 0 (FixedRepr.encode record.header.totalSize)
  rw [LogRecord.serialize, Buf.take_read (by omega), hfield]

/-- **A record is read back whatever follows it, and not from a part of it.** -/
theorem selfDelimiting (memory : Buf) :
    SelfDelimiting LogRecord.serialize (nextRecord memory) LogRecord.WellFormed where
  read_nil := rfl
  read_whole := by
    rintro record h rest
    have hlen := h.length_serialize
    have htotal := h.toNat_totalSize
    have hfield : (record.serialize ++ rest).take 4 = FixedRepr.encode record.header.totalSize := by
      rw [List.take_append_of_le_length (by omega), h.sizeField]
    have hnonzero : record.header.totalSize ≠ 0 := by
      intro hzero
      rw [hzero, UInt32.toNat_zero] at htotal
      omega
    have hrecord : (record.serialize ++ rest).take record.header.totalSize.toNat
        = record.serialize := List.take_left' (by omega)
    simp only [nextRecord, hfield, FixedRepr.decode_encode, FixedRepr.length_encode, size_uint32]
    rw [if_neg (by simp [hnonzero]), if_neg (by simp; omega), hrecord, h.deserialize_serialize,
      if_neg (show record.getType ≠ .invalid from h.type_ne)]
    simp only [LogRecord.getTotalSize, htotal, hlen]
  read_torn := by
    rintro record h k hk
    have hlen := h.length_serialize
    have htotal := h.toNat_totalSize
    by_cases hshort : k < 4
    · have hfield : ((record.serialize.take k).take 4).length ≠ 4 := by simp; omega
      rw [nextRecord, if_pos (Or.inl hfield)]
    · have hfield : (record.serialize.take k).take 4
          = FixedRepr.encode record.header.totalSize := by
        rw [List.take_take, Nat.min_eq_left (Nat.le_of_not_lt hshort), h.sizeField]
      simp only [nextRecord, hfield, FixedRepr.decode_encode, FixedRepr.length_encode,
        List.length_take, Nat.min_eq_left (Nat.le_of_lt hk)]
      rw [if_pos (show k < record.header.totalSize.toNat by omega)]
      exact ite_self _

/-! ## 4. Reading back a cut log -/

namespace LogManager

/-- The records that a loop from `Begin()` sees when the log manager opens `file`, and whether
the iterator is still valid after them. -/
def readBack (file : LogFile) (memory : Buf) (fuel : Nat) : Option (List LogRecord × Bool) := do
  let (it, _) ← (openLog file).begin memory
  let (records, it) := it.collect fuel
  some (records, it.valid)

theorem iterator_eq (file : LogFile) (memory : Buf) :
    iterator file memory = LogIterator.readCurrentRecord
      ⟨file, file.size, memory, 0, noRecord, false⟩ := by
  rw [iterator]
  dsimp only
  split
  · rfl
  · rename_i hempty
    have hzero : (0 : UInt64) ≥ file.size := UInt64.not_lt.mp hempty
    rw [LogIterator.readCurrentRecord, if_pos hzero]

/-- The records that are read back from a file, and the end of the loop. -/
theorem exists_readBack {file : LogFile} (h : file.length ≤ LogFile.maxOffset) (memory : Buf)
    (fuel : Nat) :
    ∃ valid, readBack file memory fuel = some (items (nextRecord memory) fuel file, valid) ∧
      ((items (nextRecord memory) fuel file).length < fuel → valid = false) := by
  let it : LogIterator := ⟨file, file.size, memory, 0, noRecord, false⟩
  have hopened : it.Opened := ⟨h, rfl⟩
  obtain ⟨hitems, hlast⟩ := LogIterator.collect_readCurrentRecord fuel hopened
  have hstart : iterator file memory = it.readCurrentRecord := iterator_eq file memory
  have hstream : it.file.drop it.currentOffset.toNat = file := List.drop_zero
  rw [← hstart] at hitems hlast
  rw [hstream] at hitems
  refine ⟨((iterator file memory).collect fuel).2.valid, ?_, ?_⟩
  · rw [← hitems]; rfl
  · rw [← hitems]; exact hlast

/-- What is read back from a file when the loop reaches the end of its records. -/
theorem readBack_eq {file : LogFile} (h : file.length ≤ LogFile.maxOffset) (memory : Buf)
    {fuel : Nat} (hfuel : (items (nextRecord memory) fuel file).length < fuel) :
    readBack file memory fuel = some (items (nextRecord memory) fuel file, false) := by
  obtain ⟨valid, hread, hlast⟩ := exists_readBack h memory fuel
  rw [hread, hlast hfuel]

/-- What is read back from a cut file of whole records. -/
theorem readBack_take {records : List LogRecord} (hwf : ∀ record ∈ records, record.WellFormed)
    {k : Nat} (hmax : ((records.flatMap LogRecord.serialize).take k).length ≤ LogFile.maxOffset)
    (memory : Buf) {fuel : Nat}
    (hfuel : (whole (length LogRecord.serialize) k records).length < fuel) :
    readBack ((records.flatMap LogRecord.serialize).take k) memory fuel
      = some (whole (length LogRecord.serialize) k records, false) := by
  have hitems := (selfDelimiting memory).items_take hwf (Nat.le_of_lt hfuel)
  rw [readBack_eq hmax memory (by rwa [hitems]), hitems]

/-- **The log reads back exactly what survived.**  For every run of appends, flushes and
reopenings on an empty log file that ends with a flush, the file holds the appended records back
to back, the LSNs returned are their positions, and what is read back from any cut of the file
are the records that lie wholly before the cut, after which the iterator is invalid. -/
theorem reads_back_cut {ops : List LogOp} (hops : ∀ record ∈ LogOp.records ops, record.Built)
    {lsns : List LSN} {log log' : LogManager} (hrun : (openLog []).run ops = some (lsns, log))
    (hflush : log.flush = some log') :
    log'.file = (LogOp.records ops).flatMap LogRecord.serialize ∧
      lsns.map UInt64.toNat = offsets (length LogRecord.serialize) 0 (LogOp.records ops) ∧
      ∀ (k : Nat) (memory : Buf) (fuel : Nat), (LogOp.records ops).length < fuel →
        readBack (log'.file.take k) memory fuel
          = some (whole (length LogRecord.serialize) k (LogOp.records ops), false) := by
  obtain ⟨h, hlsns⟩ := (logged_openLog [] (Nat.zero_le _)).run hops hrun
  obtain ⟨h', hbuf⟩ := h.flush hflush
  have hfile : log'.file = (LogOp.records ops).flatMap LogRecord.serialize := h'.file_eq hbuf
  refine ⟨hfile, hlsns, ?_⟩
  rintro k memory fuel hfuel
  rw [hfile]
  refine readBack_take (fun record hr => (hops record hr).wellFormed) ?_ memory
    (lt_of_le_of_lt (length_whole_le k _) hfuel)
  rw [List.length_take, ← hfile]
  exact (Nat.min_le_right _ _).trans h'.file_le

/-- An update and a new page, with a reopening between them, and the file cut within the second
record. -/
theorem reads_back_cut_update :
    ∃ lsns log log', (openLog []).run [.append (.makeUpdate 0 3 1 ⟨[7], by decide⟩
        ⟨[8, 9], by decide⟩), .flushUpTo 0, .reopen, .append (.makeNewPage 0 4)]
          = some (lsns, log) ∧
      log.flush = some log' ∧ lsns.map UInt64.toNat = [0, 28] ∧
      readBack (log'.file.take 40) (fun _ => 0) 3
        = some ([.makeUpdate 0 3 1 ⟨[7], by decide⟩ ⟨[8, 9], by decide⟩], false) := by
  let update := LogRecord.makeUpdate 0 3 1 ⟨[7], by decide⟩ ⟨[8, 9], by decide⟩
  let newPage := LogRecord.makeNewPage 0 4
  have hrun : (openLog []).run [.append update, .flushUpTo 0, .reopen, .append newPage]
      = some ([0, 28], ⟨update.serialize, 49, 28, newPage.serialize⟩) := by decide +kernel
  have hflush : (⟨update.serialize, 49, 28, newPage.serialize⟩ : LogManager).flush
      = some ⟨update.serialize ++ newPage.serialize, 49, 49, []⟩ := by decide +kernel
  have hbuilt : ∀ record ∈ LogOp.records [.append update, .flushUpTo 0, .reopen, .append newPage],
      record.Built := by
    rintro record hr
    rcases List.mem_pair.mp hr with rfl | rfl
    · exact .update 0 3 1 _ _ (by decide)
    · exact .newPage 0 4
  obtain ⟨-, hlsns, hread⟩ := reads_back_cut hbuilt hrun hflush
  exact ⟨_, _, _, hrun, hflush, hlsns, hread 40 _ 3 (by decide)⟩

end LogManager

end CourtDB
