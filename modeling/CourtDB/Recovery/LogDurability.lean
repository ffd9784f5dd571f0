/-
# What FlushUpTo makes durable

Bytes reach the log file on four ways: `Flush`, `FlushUpTo`, the flush that makes room in a full
buffer, and the direct write of a record that is larger than the buffer.  Only the first two are
followed by an `fsync`, but all four advance `flushed_lsn_`, and `FlushUpTo` takes its word that
what lies before `flushed_lsn_` is durable.

`SyncedLog` keeps, next to the log manager, the file as the last `fsync` found it.  The result says
for which calls `FlushUpTo(lsn)` leaves the record at `lsn`, and all before it, in there: if it
issues the `fsync` itself, which it does when `lsn` is not before `flushed_lsn_` and something is
buffered; or if the record was durable already.

The file only grows, so what an `fsync` has covered is known by its length (`Behind.durable_iff`),
and the question is one about three numbers: where the record ends, `flushed_lsn_`, and how far the
last `fsync` reached.  The bytes of a record that was flushed to make room stay without an `fsync`
until the next one, whoever calls for it.
-/
import CourtDB.Recovery.LogStream

namespace CourtDB

open Framing

/-! ## 1. The file and the disk -/

namespace LogManager

/-- Does the call issue an `fsync`? -/
def syncs (log : LogManager) : LogOp → Bool
  | .flush => true
  | .flushUpTo lsn => decide (lsn ≥ log.flushedLsn ∧ log.bufferOffset > 0)
  | .append _ | .reopen => false

end LogManager

/-- A log manager, and its file as the last `fsync` covered it. -/
structure SyncedLog where
  log : LogManager
  disk : LogFile
deriving DecidableEq, Repr

namespace SyncedLog

/-- One call: every byte in the file is covered by an `fsync` that comes after its write. -/
def step (s : SyncedLog) (op : LogOp) : Option (List LSN × SyncedLog) := do
  let (lsns, log) ← s.log.step op
  some (lsns, ⟨log, if s.log.syncs op then log.file else s.disk⟩)

/-- A sequence of calls: the LSNs they return. -/
def run (s : SyncedLog) : List LogOp → Option (List LSN × SyncedLog)
  | [] => some ([], s)
  | op :: ops => do
    let (lsns, s) ← s.step op
    let (rest, s) ← s.run ops
    some (lsns ++ rest, s)

/-- The record with the index `i`, among those appended behind `base`, is on the disk, and so is
everything before it. -/
def Durable (base : LogFile) (records : List LogRecord) (i : Nat) (disk : LogFile) : Prop :=
  base ++ (records.take (i + 1)).flatMap LogRecord.serialize <+: disk

end SyncedLog

/-! ## 2. The file only grows

No call writes over bytes of the file: the writes begin at `flushed_lsn_`, which is its end. -/

namespace LogManager.Logged

variable {base : LogFile} {records records' : List LogRecord} {n n' : Nat}
  {log log' : LogManager}

/-- The file of a later state extends that of an earlier one, if the buffer was emptied or kept or
the file was left alone. -/
theorem file_prefix (h : Logged base records n log) (h' : Logged base records' n' log')
    (hr : records <+: records')
    (hcases : log'.buffer = [] ∨ log'.buffer = log.buffer ∨ log'.file = log.file) :
    log.file <+: log'.file := by
  obtain ⟨more, rfl⟩ := hr
  have hstream : log'.file ++ log'.buffer
      = log.file ++ (log.buffer ++ more.flatMap LogRecord.serialize) := by
    rw [h'.stream, List.flatMap_append, ← List.append_assoc, ← h.stream, List.append_assoc]
  have hlen := congrArg List.length hstream
  simp only [List.length_append] at hlen
  have hpre : log.file <+: log'.file ++ log'.buffer := hstream ▸ List.prefix_append _ _
  refine List.prefix_of_prefix_length_le hpre (List.prefix_append _ _) ?_
  rcases hcases with hb | hb | hf
  · rw [hb, List.length_nil] at hlen
    omega
  · rw [hb] at hlen
    omega
  · rw [hf]

/-- An append leaves the file, or extends it. -/
theorem appendLogRecord_prefix (h : Logged base records 0 log) {record : LogRecord}
    (hr : record.WellFormed) {lsn : LSN} (ha : log.appendLogRecord record = some (lsn, log')) :
    log.file <+: log'.file := by
  have hsize := hr.length_serialize
  have hpayload := hr.payloadSize
  have hlt := record.header.payloadSize.toNat_lt
  have hrecord : (UInt32.ofNat record.serialize.length).toNat = record.serialize.length :=
    UInt32.toNat_ofNat_of_lt' (by simp only [hsize, UInt32.size]; omega)
  have hend := h.appendLogRecord hr ha
  rw [LogManager.appendLogRecord] at ha
  obtain ⟨log₁, hroom, ha⟩ := Option.bind_eq_some_iff.mp ha
  obtain ⟨log₂, hstore, ha⟩ := Option.bind_eq_some_iff.mp ha
  obtain ⟨rfl, rfl⟩ := Prod.mk.injEq _ _ _ _ ▸ Option.some.injEq _ _ ▸ ha
  have h₀ := h.reserve hrecord
  have h₁ := (h₀.makeRoom hrecord (by omega) hroom).1
  have hmade : log.file <+: log₁.file := by
    refine h₀.file_prefix h₁ List.prefix_rfl ?_
    rw [LogManager.makeRoom] at hroom
    split at hroom
    · exact .inl (h₀.flushBuffer hroom).2.1
    · exact .inr (.inr (congrArg LogManager.file (Option.some.inj hroom).symm))
  refine hmade.trans (h₁.file_prefix hend.1 (List.prefix_append _ _) ?_)
  rw [LogManager.store] at hstore
  split at hstore
  · obtain ⟨file, -, hs⟩ := Option.bind_eq_some_iff.mp hstore
    exact .inr (.inl (by rw [← Option.some.inj hs]))
  · exact .inr (.inr (by rw [← Option.some.inj hstore]))

/-- **The file only grows.** -/
theorem step_prefix (h : Logged base records 0 log) {op : LogOp}
    (hop : ∀ record, op.record? = some record → record.Built) {lsns : List LSN}
    (hs : log.step op = some (lsns, log')) : log.file <+: log'.file := by
  have hflush : ∀ log₁, log.flush = some log₁ → log.file <+: log₁.file := fun log₁ hf =>
    h.file_prefix (h.flush hf).1 List.prefix_rfl (.inl (h.flush hf).2)
  cases op with
  | append record =>
    obtain ⟨⟨lsn, log₁⟩, ha, hs⟩ := Option.bind_eq_some_iff.mp hs
    obtain ⟨rfl, rfl⟩ := Prod.mk.injEq _ _ _ _ ▸ Option.some.injEq _ _ ▸ hs
    exact h.appendLogRecord_prefix (hop record rfl).wellFormed ha
  | flush =>
    obtain ⟨log₁, hf, hs⟩ := Option.map_eq_some_iff.mp hs
    obtain ⟨rfl, rfl⟩ := Prod.mk.injEq _ _ _ _ ▸ hs
    exact hflush _ hf
  | flushUpTo lsn =>
    obtain ⟨log₁, hf, hs⟩ := Option.map_eq_some_iff.mp hs
    obtain ⟨rfl, rfl⟩ := Prod.mk.injEq _ _ _ _ ▸ hs
    rw [LogManager.flushUpTo] at hf
    split at hf
    · exact h.file_prefix (h.flushBuffer hf).1 List.prefix_rfl (.inl (h.flushBuffer hf).2.1)
    · exact Option.some.inj hf ▸ List.prefix_rfl
  | reopen =>
    obtain ⟨file, hc, hs⟩ := Option.map_eq_some_iff.mp hs
    obtain ⟨rfl, rfl⟩ := Prod.mk.injEq _ _ _ _ ▸ hs
    obtain ⟨log₁, hf, rfl⟩ := Option.map_eq_some_iff.mp hc
    exact hflush log₁ hf

end LogManager.Logged

/-! ## 3. Runs

`Behind` is the invariant: the log is in order, and what the disk has is a prefix of the file. -/

namespace SyncedLog

open LogManager

variable {base : LogFile} {records : List LogRecord} {s s' : SyncedLog}

/-- The log manager is in order, and the disk is behind the file. -/
structure Behind (base : LogFile) (records : List LogRecord) (s : SyncedLog) : Prop where
  logged : Logged base records 0 s.log
  disk : s.disk <+: s.log.file

/-- One call. -/
theorem Behind.step (h : Behind base records s) {op : LogOp}
    (hop : ∀ record, op.record? = some record → record.Built) {lsns : List LSN}
    (hs : s.step op = some (lsns, s')) :
    Behind base (records ++ op.record?.toList) s' ∧
      lsns.map UInt64.toNat = offsets (length LogRecord.serialize)
        (base.length + (records.map (length LogRecord.serialize)).sum) op.record?.toList := by
  obtain ⟨⟨here, log⟩, hlog, hs⟩ := Option.bind_eq_some_iff.mp hs
  obtain ⟨rfl, rfl⟩ := Prod.mk.injEq _ _ _ _ ▸ Option.some.injEq _ _ ▸ hs
  obtain ⟨hlogged, hlsns⟩ := h.logged.step hop hlog
  refine ⟨⟨hlogged, ?_⟩, hlsns⟩
  dsimp only
  split
  · exact List.prefix_rfl
  · exact h.disk.trans (h.logged.step_prefix hop hlog)

/-- **A run** appends its records, and the LSNs are their positions. -/
theorem Behind.run {ops : List LogOp} (hops : ∀ record ∈ LogOp.records ops, record.Built) :
    ∀ {records : List LogRecord} {s : SyncedLog} {lsns : List LSN}, Behind base records s →
      s.run ops = some (lsns, s') → Behind base (records ++ LogOp.records ops) s' ∧
        lsns.map UInt64.toNat = offsets (length LogRecord.serialize)
          (base.length + (records.map (length LogRecord.serialize)).sum) (LogOp.records ops) := by
  induction ops with
  | nil =>
    intro records s lsns h hr
    obtain ⟨rfl, rfl⟩ := Prod.mk.injEq _ _ _ _ ▸ Option.some.injEq _ _ ▸ hr
    exact ⟨by simpa [LogOp.records] using h, rfl⟩
  | cons op ops ih =>
    intro records s lsns h hr
    obtain ⟨⟨here, s₁⟩, hs, hr⟩ := Option.bind_eq_some_iff.mp hr
    obtain ⟨⟨rest, s₂⟩, hrest, hr⟩ := Option.bind_eq_some_iff.mp hr
    obtain ⟨rfl, rfl⟩ := Prod.mk.injEq _ _ _ _ ▸ Option.some.injEq _ _ ▸ hr
    have hrecords : LogOp.records (op :: ops) = op.record?.toList ++ LogOp.records ops := by
      simp only [LogOp.records, List.filterMap_cons]
      cases op.record? <;> rfl
    obtain ⟨h₁, hhere⟩ := h.step (fun record hr => hops record (by simp [hrecords, hr])) hs
    obtain ⟨h₂, hlsns⟩ := ih (fun record hr => hops record (by simp [hrecords, hr])) h₁ hrest
    refine ⟨by rw [hrecords, ← List.append_assoc]; exact h₂, ?_⟩
    rw [List.map_append, hhere, hlsns, hrecords, offsets_append, List.map_append, List.sum_append,
      ← Nat.add_assoc]

/-- What lies behind a prefix is known by its length. -/
theorem Behind.durable_iff (h : Behind base records s) (i : Nat) :
    Durable base records i s.disk ↔
      base.length + ((records.take (i + 1)).map (length LogRecord.serialize)).sum
        ≤ s.disk.length := by
  have hlen : (base ++ (records.take (i + 1)).flatMap LogRecord.serialize).length
      = base.length + ((records.take (i + 1)).map (length LogRecord.serialize)).sum := by
    rw [List.length_append, List.length_flatMap]
  have hstream : base ++ (records.take (i + 1)).flatMap LogRecord.serialize
      <+: s.log.file ++ s.log.buffer := by
    rw [h.logged.stream, List.prefix_append_right_inj]
    nth_rewrite 2 [← List.take_append_drop (i + 1) records]
    rw [List.flatMap_append]
    exact List.prefix_append _ _
  rw [← hlen]
  exact ⟨List.IsPrefix.length_le, List.prefix_of_prefix_length_le hstream
    (h.disk.trans (List.prefix_append _ _))⟩

/-- An append of the log manager issues no `fsync`. -/
theorem step_append {record : LogRecord} {lsn : LSN} {log log' : LogManager} (disk : LogFile)
    (h : log.appendLogRecord record = some (lsn, log')) :
    (SyncedLog.mk log disk).step (.append record) = some ([lsn], ⟨log', disk⟩) := by
  simp only [step, LogManager.step, h, syncs, Option.bind_eq_bind, Option.bind_some,
    Bool.false_eq_true, if_false]

theorem run_cons {s₁ : SyncedLog} {op : LogOp} {ops : List LogOp} {lsns rest : List LSN}
    (hs : s.step op = some (lsns, s₁)) (hrest : s₁.run ops = some (rest, s')) :
    s.run (op :: ops) = some (lsns ++ rest, s') := by
  simp only [run, hs, hrest, Option.bind_eq_bind, Option.bind_some]

/-- A small record, one that is larger than the buffer, and a small one again: the first is written
to make room and the second directly, both without an `fsync`, and the third waits in the buffer. -/
def threeAppends : List LogOp :=
  [.append (.makeNewPage 0 4), .append (.makeInsert 0 1 0 largeData), .append (.makeNewPage 0 5)]

theorem run_threeAppends {bytes : List UInt8}
    (hbytes : (LogRecord.makeInsert 0 1 0 largeData).serialize = bytes) :
    (SyncedLog.mk (openLog []) []).run threeAppends
      = some ([0, 21, 65562], ⟨⟨(LogRecord.makeNewPage 0 4).serialize ++ bytes, 65583, 65562,
          (LogRecord.makeNewPage 0 5).serialize⟩, []⟩) := by
  obtain ⟨head, hhead⟩ : ∃ head, (LogRecord.makeNewPage 0 4).serialize = head := ⟨_, rfl⟩
  have hheadLen : head.length = 21 := by
    rw [← hhead]
    rfl
  have hlen : bytes.length = 65541 := by rw [← hbytes, length_largeInsert]
  have hsize : UInt32.ofNat bytes.length = 65541 := by
    rw [hlen]
    rfl
  -- the first record is buffered
  have hfirst : (openLog []).appendLogRecord (.makeNewPage 0 4) = some (0, ⟨[], 21, 0, head⟩) := by
    rw [← hhead]
    decide +kernel
  have hsecond : (⟨[], 21, 0, head⟩ : LogManager).appendLogRecord (.makeInsert 0 1 0 largeData)
      = some (21, ⟨head ++ bytes, 65562, 65562, []⟩) := by
    -- the buffer is written to make room, and the record behind it
    have hroom : (⟨[], 65562, 0, head⟩ : LogManager).makeRoom 65541
        = some ⟨head, 65562, 21, []⟩ := by
      rw [← hhead]
      decide +kernel
    have hmax : (21 : UInt64).toNat + bytes.length ≤ LogFile.maxOffset := by
      rw [hlen]
      decide
    have hwrite : LogFile.pwrite head bytes 21 = some (head ++ bytes) := by
      have htake : head.takeD 21 0 = head := by
        rw [← hhead]
        rfl
      have hdrop : head.drop (21 + bytes.length) = [] :=
        List.drop_eq_nil_of_le (by rw [hheadLen]; exact Nat.le_add_right _ _)
      have h21 : (21 : UInt64).toNat = 21 := rfl
      rw [LogFile.pwrite, if_pos hmax, h21, htake, hdrop, List.append_nil]
    have hstore : (⟨head, 65562, 21, []⟩ : LogManager).store bytes 21
        = some ⟨head ++ bytes, 65562, 65562, []⟩ := by
      rw [LogManager.store, hsize, if_pos (by decide), hwrite]
      rfl
    have hnext : (21 : UInt64) + (65541 : UInt32).toUInt64 = 65562 := rfl
    simp only [LogManager.appendLogRecord, hbytes, hsize, hnext, hroom, hstore,
      Option.bind_eq_bind, Option.bind_some]
  -- the third record is buffered again
  have hthird : (⟨head ++ bytes, 65562, 65562, []⟩ : LogManager).appendLogRecord (.makeNewPage 0 5)
      = some (65562, ⟨head ++ bytes, 65583, 65562, (LogRecord.makeNewPage 0 5).serialize⟩) := rfl
  rw [hhead]
  have hlast : (SyncedLog.mk ⟨head ++ bytes, 65562, 65562, []⟩ []).run [.append (.makeNewPage 0 5)]
      = some ([65562],
        ⟨⟨head ++ bytes, 65583, 65562, (LogRecord.makeNewPage 0 5).serialize⟩, []⟩) :=
    run_cons (step_append [] hthird) rfl
  have hrun := run_cons (step_append [] hfirst) (run_cons (step_append [] hsecond) hlast)
  exact hrun

/-- **FlushUpTo makes a record durable exactly if it issues the `fsync` itself, or there was no need
of one.**  It issues one when the LSN is not before `flushed_lsn_` and something is buffered; a
record that reached the file without an `fsync` has an LSN before `flushed_lsn_`, and stays without
one. -/
theorem flushUpTo_durable_iff {base disk : LogFile} (hbase : base.length ≤ LogFile.maxOffset)
    (hdisk : disk <+: base) {ops : List LogOp}
    (hops : ∀ record ∈ LogOp.records ops, record.Built) {lsns : List LSN} {s s' : SyncedLog}
    (hrun : (SyncedLog.mk (openLog base) disk).run ops = some (lsns, s)) {i : Nat} {lsn : LSN}
    {record : LogRecord} (hlsn : lsns[i]? = some lsn)
    (hrecord : (LogOp.records ops)[i]? = some record)
    (hflush : s.step (.flushUpTo lsn) = some ([], s')) :
    Durable base (LogOp.records ops) i s'.disk ↔
      (lsn ≥ s.log.flushedLsn ∧ s.log.bufferOffset > 0) ∨
        lsn.toNat + record.serialize.length ≤ s.disk.length := by
  -- the end of the record, in the stream that the file and the buffer make up
  obtain ⟨h, hlsns⟩ := Behind.run hops ⟨logged_openLog base hbase, hdisk⟩ hrun
  rw [List.nil_append] at h
  have hend : lsn.toNat + record.serialize.length
      = base.length + (((LogOp.records ops).take (i + 1)).map
        (length LogRecord.serialize)).sum := by
    have hk : (lsns.map UInt64.toNat)[i]? = some lsn.toNat := by
      rw [List.getElem?_map, hlsn]
      rfl
    rw [hlsns, List.map_nil, List.sum_nil, Nat.add_zero] at hk
    exact offsets_getElem? hk hrecord
  rw [hend]
  -- what the call did
  obtain ⟨⟨here, log⟩, hlog, hs⟩ := Option.bind_eq_some_iff.mp hflush
  obtain ⟨log₁, hf, hlog⟩ := Option.map_eq_some_iff.mp hlog
  obtain ⟨rfl, rfl⟩ := Prod.mk.injEq _ _ _ _ ▸ hlog
  obtain ⟨-, rfl⟩ := Prod.mk.injEq _ _ _ _ ▸ Option.some.injEq _ _ ▸ hs
  rw [LogManager.flushUpTo] at hf
  by_cases hown : lsn ≥ s.log.flushedLsn ∧ s.log.bufferOffset > 0
  · -- the buffer is written and synced, and with it the whole file
    rw [if_pos hown] at hf
    have hfile := (h.logged.flushBuffer hf).1.file_eq (h.logged.flushBuffer hf).2.1
    refine ⟨fun _ => .inl hown, fun _ => ?_⟩
    have hsync : s.log.syncs (.flushUpTo lsn) = true := decide_eq_true hown
    simp only [hsync, if_true, Durable, hfile, List.prefix_append_right_inj]
    nth_rewrite 2 [← List.take_append_drop (i + 1) (LogOp.records ops)]
    rw [List.flatMap_append]
    exact List.prefix_append _ _
  · -- no write and no `fsync`: the record is durable if it was
    have hsync : s.log.syncs (.flushUpTo lsn) = false := decide_eq_false hown
    simp only [hsync, Bool.false_eq_true, if_false, h.durable_iff i]
    exact ⟨.inr, fun hor => hor.resolve_left hown⟩

/-- Two records are in the file without an `fsync` and a third one in the buffer: `FlushUpTo` of the
third one writes it and syncs all of them. -/
theorem flushUpTo_durable_three :
    ∃ s s', (SyncedLog.mk (openLog []) []).run threeAppends = some ([0, 21, 65562], s) ∧
      s.disk = [] ∧ s.step (.flushUpTo 65562) = some ([], s') ∧
      Durable [] (LogOp.records threeAppends) 2 s'.disk := by
  obtain ⟨bytes, hbytes⟩ : ∃ bytes, (LogRecord.makeInsert 0 1 0 largeData).serialize = bytes :=
    ⟨_, rfl⟩
  have hrun := run_threeAppends hbytes
  have hops : ∀ record ∈ LogOp.records threeAppends, record.Built := by
    intro record hr
    simp only [LogOp.records, threeAppends, List.filterMap_cons, List.filterMap_nil,
      LogOp.record?, List.mem_cons, List.not_mem_nil, or_false] at hr
    rcases hr with rfl | rfl | rfl
    · exact .newPage 0 4
    · exact .insert 0 1 0 largeData
    · exact .newPage 0 5
  -- the buffered record is written behind the others
  have hwrite : ∃ file, LogFile.pwrite ((LogRecord.makeNewPage 0 4).serialize ++ bytes)
      (LogRecord.makeNewPage 0 5).serialize 65562 = some file :=
    ⟨_, if_pos (by decide)⟩
  obtain ⟨file, hwrite⟩ := hwrite
  have hown : (65562 : UInt64) ≥ 65562 ∧
      UInt32.ofNat (LogRecord.makeNewPage 0 5).serialize.length > 0 := by
    decide +kernel
  have h0 : UInt32.ofNat (LogRecord.makeNewPage 0 5).serialize.length ≠ 0 := by decide +kernel
  have hbuffer : (⟨(LogRecord.makeNewPage 0 4).serialize ++ bytes, 65583, 65562,
      (LogRecord.makeNewPage 0 5).serialize⟩ : LogManager).flushBuffer
        = some ⟨file, 65583, 65583, []⟩ :=
    (if_neg h0).trans (by rw [hwrite]; rfl)
  have hflush : (⟨(LogRecord.makeNewPage 0 4).serialize ++ bytes, 65583, 65562,
      (LogRecord.makeNewPage 0 5).serialize⟩ : LogManager).flushUpTo 65562
        = some ⟨file, 65583, 65583, []⟩ :=
    (if_pos hown).trans hbuffer
  -- and the file is synced
  have hstep : (⟨⟨(LogRecord.makeNewPage 0 4).serialize ++ bytes, 65583, 65562,
      (LogRecord.makeNewPage 0 5).serialize⟩, []⟩ : SyncedLog).step (.flushUpTo 65562)
        = some ([], ⟨⟨file, 65583, 65583, []⟩, file⟩) := by
    simp only [step, LogManager.step, hflush, Option.map_some, Option.bind_eq_bind,
      Option.bind_some]
    rfl
  exact ⟨_, _, hrun, rfl, hstep, (flushUpTo_durable_iff (Nat.zero_le _) List.prefix_rfl hops hrun
    rfl rfl hstep).mpr (.inl hown)⟩

/-- A record that is larger than the buffer, at the start of a new log. -/
theorem openLog_append_large {record : LogRecord} (hr : record.WellFormed)
    (hbig : 2 ^ 16 < record.serialize.length) :
    (openLog []).appendLogRecord record = some (0, ⟨record.serialize,
      UInt64.ofNat record.serialize.length, UInt64.ofNat record.serialize.length, []⟩) := by
  have hlen := hr.length_serialize
  have hpayload := hr.payloadSize
  have hlt := record.header.payloadSize.toNat_lt
  have hsize : (UInt32.ofNat record.serialize.length).toNat = record.serialize.length :=
    UInt32.toNat_ofNat_of_lt' (by simp only [hlen, UInt32.size]; omega)
  have hgt : UInt32.ofNat record.serialize.length > defaultLogBufferSize :=
    UInt32.lt_iff_toNat_lt.mpr (by rw [hsize]; exact hbig)
  have hnext : (0 : UInt64) + (UInt32.ofNat record.serialize.length).toUInt64
      = UInt64.ofNat record.serialize.length := by
    rw [UInt64.zero_add, ← UInt64.toNat_inj, UInt32.toNat_toUInt64, hsize,
      UInt64.toNat_ofNat_of_lt' (by simp only [hlen, UInt64.size]; omega)]
  have hmax : 0 + record.serialize.length ≤ LogFile.maxOffset := by
    rw [hlen, LogFile.maxOffset]
    omega
  have hroom : ({ openLog [] with
      nextLsn := 0 + (UInt32.ofNat record.serialize.length).toUInt64 } : LogManager).makeRoom
        (UInt32.ofNat record.serialize.length)
      = some ⟨[], UInt64.ofNat record.serialize.length, 0, []⟩ := by
    rw [hnext, LogManager.makeRoom]
    exact ite_self _
  have hstore : (⟨[], UInt64.ofNat record.serialize.length, 0, []⟩ : LogManager).store
      record.serialize 0 = some ⟨record.serialize, UInt64.ofNat record.serialize.length,
        UInt64.ofNat record.serialize.length, []⟩ := by
    rw [LogManager.store, if_pos hgt, LogFile.pwrite, UInt64.toNat_zero, if_pos hmax]
    simp
  rw [LogManager.appendLogRecord]
  exact Option.bind_eq_some_iff.mpr ⟨_, hroom, Option.bind_eq_some_iff.mpr ⟨_, hstore, rfl⟩⟩

/-- Such a record is written without an `fsync`, and `FlushUpTo` finds nothing to do. -/
theorem not_durable_large {record : LogRecord} (hr : record.WellFormed)
    (hbig : 2 ^ 16 < record.serialize.length) :
    ∃ s : SyncedLog, (SyncedLog.mk (openLog []) []).run [.append record] = some ([0], s) ∧
      s.step (.flushUpTo 0) = some ([], s) ∧ ¬ Durable [] [record] 0 s.disk := by
  have happend := openLog_append_large hr hbig
  refine ⟨⟨⟨record.serialize, UInt64.ofNat record.serialize.length,
    UInt64.ofNat record.serialize.length, []⟩, []⟩, ?_, ?_, fun h => ?_⟩
  · exact run_cons (step_append [] happend) rfl
  · simp [step, LogManager.step, LogManager.flushUpTo, bufferOffset, syncs]
  · have hle := h.length_le
    simp only [List.take_succ_cons, List.flatMap_cons, List.nil_append, List.length_append,
      List.length_nil] at hle
    omega

/-- A record larger than the log buffer. -/
theorem flushUpTo_not_durable :
    ∃ s : SyncedLog,
      (SyncedLog.mk (openLog []) []).run [.append (.makeInsert 0 1 0 largeData)] = some ([0], s) ∧
        s.step (.flushUpTo 0) = some ([], s) ∧
        ¬ Durable [] [.makeInsert 0 1 0 largeData] 0 s.disk := by
  refine not_durable_large (LogRecord.Built.insert 0 1 0 largeData).wellFormed ?_
  rw [length_largeInsert]
  decide

end SyncedLog

end CourtDB
