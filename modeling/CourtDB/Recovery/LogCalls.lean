/-
# The LSNs in the log

`LogInsert`, `LogDelete`, `LogUpdate` and `LogNewPage` build a record with the LSN 0 and hand it to
`AppendLogRecord`, which assigns an LSN, returns it, and stores the record as it is: the record is
serialized before the LSN is assigned, and the LSN is never set in it.  `BeginAt` finds every record
at its LSN (`beginAt_positioned`), but a record that says which LSN it has is only the first one.

LSNs are offsets in the log, and no two records begin at the same offset.  So of the LSNs that calls
return exactly one is 0, that of the first record of a log, and there the field in the record is
right by accident.  An iteration sees zeros, which increase only if there is at most one.
-/
import CourtDB.Recovery.LogStream

namespace CourtDB

open Bytes Framing

/-! ## 1. The calls -/

/-- `GetLSN`. -/
def LogRecord.getLsn (r : LogRecord) : LSN := r.header.lsn

namespace LogManager

/-- `LogInsert`. -/
def logInsert (log : LogManager) (pageId : PageId) (slotId : UInt16) (data : RecordData) :
    Option (LSN × LogManager) :=
  log.appendLogRecord (.makeInsert 0 pageId slotId data)

/-- `LogDelete`. -/
def logDelete (log : LogManager) (pageId : PageId) (slotId : UInt16) (oldData : RecordData) :
    Option (LSN × LogManager) :=
  log.appendLogRecord (.makeDelete 0 pageId slotId oldData)

/-- `LogUpdate`. -/
def logUpdate (log : LogManager) (pageId : PageId) (slotId : UInt16)
    (oldData newData : RecordData) : Option (LSN × LogManager) :=
  log.appendLogRecord (.makeUpdate 0 pageId slotId oldData newData)

/-- `LogNewPage`. -/
def logNewPage (log : LogManager) (pageId : PageId) : Option (LSN × LogManager) :=
  log.appendLogRecord (.makeNewPage 0 pageId)

/-- `BeginAt`. -/
def beginAt (log : LogManager) (startLsn : LSN) (memory : Buf) :
    Option (LogIterator × LogManager) := do
  let log ← log.flush
  some ({ iterator log.file memory with currentOffset := startLsn }.readCurrentRecord, log)

end LogManager

/-- The log calls of the recovery manager. -/
inductive LogCall
  | insert (pageId : PageId) (slotId : UInt16) (data : RecordData)
  | delete (pageId : PageId) (slotId : UInt16) (oldData : RecordData)
  | update (pageId : PageId) (slotId : UInt16) (oldData newData : RecordData)
  | newPage (pageId : PageId)
deriving DecidableEq

/-- The record that `LogInsert`, `LogDelete`, `LogUpdate` and `LogNewPage` append. -/
def LogCall.record : LogCall → LogRecord
  | insert pageId slotId data => .makeInsert 0 pageId slotId data
  | delete pageId slotId oldData => .makeDelete 0 pageId slotId oldData
  | update pageId slotId oldData newData => .makeUpdate 0 pageId slotId oldData newData
  | newPage pageId => .makeNewPage 0 pageId

namespace LogCall

/-- The call. -/
def exec (log : LogManager) : LogCall → Option (LSN × LogManager)
  | insert pageId slotId data => log.logInsert pageId slotId data
  | delete pageId slotId oldData => log.logDelete pageId slotId oldData
  | update pageId slotId oldData newData => log.logUpdate pageId slotId oldData newData
  | newPage pageId => log.logNewPage pageId

/-- A sequence of calls: the LSNs they return. -/
def run (log : LogManager) : List LogCall → Option (List LSN × LogManager)
  | [] => some ([], log)
  | c :: calls => do
    let (lsn, log) ← c.exec log
    let (lsns, log) ← run log calls
    some (lsn :: lsns, log)

/-- The old and the new bytes of an update fit one payload. -/
def Fits : LogCall → Prop
  | update _ _ oldData newData => oldData.bytes.length + newData.bytes.length ≤ 65531
  | insert _ _ _ | delete _ _ _ | newPage _ => True

theorem Fits.built_record {c : LogCall} (h : c.Fits) : c.record.Built := by
  cases c with
  | insert pageId slotId data => exact .insert 0 pageId slotId data
  | delete pageId slotId oldData => exact .delete 0 pageId slotId oldData
  | update pageId slotId oldData newData => exact .update 0 pageId slotId oldData newData h
  | newPage pageId => exact .newPage 0 pageId

/-- No call sets the LSN of its record. -/
theorem getLsn_record (c : LogCall) : c.record.getLsn = 0 := by cases c <;> rfl

/-- **A run of calls** is a run of appends. -/
theorem run_eq (calls : List LogCall) : ∀ log : LogManager,
    run log calls = log.run (calls.map fun c => .append c.record) := by
  induction calls with
  | nil => exact fun _ => rfl
  | cons c calls ih =>
    intro log
    have hexec : c.exec log = log.appendLogRecord c.record := by cases c <;> rfl
    rw [run, List.map_cons, LogManager.run, LogManager.step, hexec]
    cases log.appendLogRecord c.record with
    | none => rfl
    | some res =>
      obtain ⟨lsn, log'⟩ := res
      simp only [Option.bind_eq_bind, Option.bind_some, ih]
      rfl

end LogCall

/-! ## 2. Seeking

The reader at the offset of a record finds this record, because what lies there is its serialization
followed by those of the records after it. -/

namespace LogManager

variable {base : LogFile} {records : List LogRecord} {log log' : LogManager} {it : LogIterator}

/-- Reading a record does not move the iterator. -/
theorem LogIterator.readCurrentRecord_fields (it : LogIterator) :
    it.readCurrentRecord.file = it.file ∧ it.readCurrentRecord.fileSize = it.fileSize ∧
      it.readCurrentRecord.memory = it.memory ∧
      it.readCurrentRecord.currentOffset = it.currentOffset := by
  rw [readCurrentRecord]
  dsimp only
  split
  · exact ⟨rfl, rfl, rfl, rfl⟩
  · split
    · exact ⟨rfl, rfl, rfl, rfl⟩
    · split
      · exact ⟨rfl, rfl, rfl, rfl⟩
      · split <;> exact ⟨rfl, rfl, rfl, rfl⟩

/-- **BeginAt stands on the record** whose position it is given. -/
theorem beginAt_positioned (h : Logged base records 0 log)
    (hwf : ∀ record ∈ records, record.WellFormed) {i : Nat} {record : LogRecord}
    (hrecord : records[i]? = some record) {lsn : LSN}
    (hlsn : lsn.toNat = base.length + ((records.take i).map (length LogRecord.serialize)).sum)
    {memory : Buf} (hb : log.beginAt lsn memory = some (it, log')) :
    it.valid = true ∧ it.currentOffset = lsn ∧ it.current = record := by
  obtain ⟨log₁, hf, hb⟩ := Option.bind_eq_some_iff.mp hb
  obtain ⟨rfl, rfl⟩ := Prod.mk.injEq _ _ _ _ ▸ Option.some.injEq _ _ ▸ hb
  obtain ⟨h₁, hbuf⟩ := h.flush hf
  obtain ⟨hfile, hsize, hmemory, -⟩ := LogIterator.readCurrentRecord_fields
    ⟨log₁.file, log₁.file.size, memory, 0, noRecord, false⟩
  rw [← iterator_eq] at hfile hsize hmemory
  let it : LogIterator := { iterator log₁.file memory with currentOffset := lsn }
  have hopened : it.Opened := ⟨hfile ▸ h₁.file_le, by rw [hsize, hfile]⟩
  obtain ⟨rest, hrest⟩ := @drop_stream base _ _ _ hrecord
  have hstream : it.file.drop it.currentOffset.toNat = record.serialize ++ rest := by
    rw [show it.file = log₁.file from hfile, h₁.file_eq hbuf, show it.currentOffset = lsn from rfl,
      hlsn, hrest]
  have hwhole := (selfDelimiting it.memory).read_whole
    (hwf record (List.mem_of_getElem? hrecord)) rest
  rcases LogIterator.readCurrentRecord_cases hopened with ⟨hnone, -⟩ | ⟨found, hsome, hread, -⟩
  · rw [hstream, hwhole] at hnone
    exact absurd hnone (by simp)
  · rw [hstream, hwhole] at hsome
    obtain rfl := (Prod.mk.inj (Option.some.inj hsome)).1
    rw [hread]
    exact ⟨rfl, rfl, rfl⟩

end LogManager

/-! ## 3. The LSN of a record in the log -/

namespace LogCall

open LogManager

/-- The iterator stands on the record that call number `i` appended, and this record has the LSN
that the call returned. -/
def OwnLsn (c : LogCall) (lsn : LSN) (it : LogIterator) : Prop :=
  it.valid = true ∧ it.currentOffset = lsn ∧ it.current = c.record ∧ it.current.getLsn = lsn

/-- What a run of calls on a new log leaves. -/
theorem logged_run {calls : List LogCall} (hfits : ∀ c ∈ calls, c.Fits) {lsns : List LSN}
    {log : LogManager} (hrun : run (openLog []) calls = some (lsns, log)) :
    Logged [] (calls.map record) 0 log ∧
      lsns.map UInt64.toNat = offsets (length LogRecord.serialize) 0 (calls.map record) := by
  have hrecords : LogOp.records (calls.map fun c => .append c.record) = calls.map record := by
    rw [LogOp.records, List.filterMap_map]
    exact List.filterMap_eq_map ▸ rfl
  rw [run_eq] at hrun
  have h := (logged_openLog [] (Nat.zero_le _)).run (fun record hr => by
    rw [hrecords] at hr
    obtain ⟨c, hc, rfl⟩ := List.mem_map.mp hr
    exact (hfits c hc).built_record) hrun
  rwa [hrecords] at h

theorem wellFormed_records {calls : List LogCall} (hfits : ∀ c ∈ calls, c.Fits) :
    ∀ r ∈ calls.map record, r.WellFormed := by
  intro r hr
  obtain ⟨c, hc, rfl⟩ := List.mem_map.mp hr
  exact (hfits c hc).built_record.wellFormed

/-- A log of records with the LSN 0 has increasing LSNs if there are not two of them. -/
theorem increasing_iff (calls : List LogCall) :
    ((calls.map record).map LogRecord.getLsn).Pairwise (· < ·) ↔ calls.length ≤ 1 := by
  match calls with
  | [] => simp
  | [c] => simp
  | c :: c' :: calls =>
    refine ⟨fun h => ?_, fun hle => absurd hle (by simp)⟩
    have hlt := List.rel_of_pairwise_cons h (List.mem_cons_self (a := c'.record.getLsn))
    rw [getLsn_record, getLsn_record] at hlt
    exact absurd hlt (by decide)

/-- **BeginAt finds every record, and the first one alone carries its LSN.**  Hence the LSNs that an
iteration sees increase if it sees at most one record. -/
theorem own_lsn_iff {calls : List LogCall} (hfits : ∀ c ∈ calls, c.Fits) {lsns : List LSN}
    {log : LogManager} (hrun : run (openLog []) calls = some (lsns, log)) :
    (∀ (i : Nat) (lsn : LSN) (c : LogCall), lsns[i]? = some lsn → calls[i]? = some c →
      ∀ (memory : Buf) (it : LogIterator) (log' : LogManager),
        log.beginAt lsn memory = some (it, log') → (OwnLsn c lsn it ↔ i = 0)) ∧
    ∀ (memory : Buf) (it : LogIterator) (log' : LogManager), log.begin memory = some (it, log') →
      ∀ fuel, calls.length < fuel →
        (((it.collect fuel).1.map LogRecord.getLsn).Pairwise (· < ·) ↔ calls.length ≤ 1) := by
  obtain ⟨h, hlsns⟩ := logged_run hfits hrun
  constructor
  · -- the record of the call stands at the LSN that was returned
    intro i lsn c hlsn hc memory it log' hb
    have hrecord : (calls.map record)[i]? = some c.record := by
      rw [List.getElem?_map, hc]
      rfl
    have hk : (lsns.map UInt64.toNat)[i]? = some lsn.toNat := by
      rw [List.getElem?_map, hlsn]
      rfl
    rw [hlsns] at hk
    have hend := offsets_getElem? hk hrecord
    obtain ⟨hi, hget⟩ := List.getElem?_eq_some_iff.mp hrecord
    rw [List.take_succ_eq_append_getElem hi, List.map_append, List.sum_append, hget, Nat.zero_add,
      List.map_singleton, List.sum_singleton, Nat.add_right_cancel_iff] at hend
    -- BeginAt finds it there
    obtain ⟨hvalid, hoff, hcur⟩ := beginAt_positioned h (wellFormed_records hfits) hrecord
      (by rw [hend, List.length_nil, Nat.zero_add]) hb
    constructor
    · rintro ⟨-, -, -, hown⟩
      rw [hcur, getLsn_record] at hown
      -- the records before it take no room, so there is none
      rw [← hown, UInt64.toNat_zero] at hend
      cases i with
      | zero => rfl
      | succ i =>
        cases calls with
        | nil => exact absurd hi (Nat.not_lt_zero _)
        | cons c₀ calls =>
          have hsize := (hfits c₀ List.mem_cons_self).built_record.wellFormed.length_serialize
          rw [List.map_cons, List.take_succ_cons, List.map_cons, List.sum_cons] at hend
          simp only [length, hsize] at hend
          omega
    · -- the first record stands at 0, which is what its header says
      rintro rfl
      rw [List.take_zero, List.map_nil, List.sum_nil] at hend
      refine ⟨hvalid, hoff, hcur, ?_⟩
      rw [hcur, getLsn_record]
      exact UInt64.toNat_inj.mp hend.symm
  · -- an iteration sees all records, and each says that its LSN is 0
    intro memory it log' hb fuel hfuel
    obtain ⟨log₁, hf, hb⟩ := Option.bind_eq_some_iff.mp hb
    obtain ⟨rfl, rfl⟩ := Prod.mk.injEq _ _ _ _ ▸ Option.some.injEq _ _ ▸ hb
    obtain ⟨h₁, hbuf⟩ := h.flush hf
    have hfile := h₁.file_eq hbuf
    rw [List.nil_append] at hfile
    have hopened : (LogIterator.mk log₁.file log₁.file.size memory 0 noRecord false).Opened :=
      ⟨h₁.file_le, rfl⟩
    have hread := (LogIterator.collect_readCurrentRecord fuel hopened).1
    rw [← iterator_eq] at hread
    rw [hread, ← increasing_iff]
    change ((items (nextRecord memory) fuel (log₁.file.drop 0)).map _).Pairwise _ ↔ _
    rw [List.drop_zero, hfile, (selfDelimiting memory).items_flatMap (wellFormed_records hfits)
      (by rw [List.length_map]; exact hfuel.le)]

/-- Two calls, of which the first has the LSN 0. -/
theorem own_lsn_first :
    ∃ log it log', run (openLog []) [.newPage 3, .newPage 4] = some ([0, 21], log) ∧
      log.beginAt 0 (fun _ => 0) = some (it, log') ∧ OwnLsn (.newPage 3) 0 it := by
  have hrun : run (openLog []) [.newPage 3, .newPage 4] = some ([0, 21],
      ⟨[], 42, 0, (LogRecord.makeNewPage 0 3).serialize ++
        (LogRecord.makeNewPage 0 4).serialize⟩) := by
    decide +kernel
  exact ⟨_, _, _, hrun, rfl,
    ((own_lsn_iff (by simp [Fits]) hrun).1 0 0 (.newPage 3) rfl rfl (fun _ => 0) _ _ rfl).mpr rfl⟩

/-- The record behind the LSN 21 says that its LSN is 0. -/
theorem own_lsn_second :
    ∃ log it log', run (openLog []) [.newPage 3, .newPage 4] = some ([0, 21], log) ∧
      log.beginAt 21 (fun _ => 0) = some (it, log') ∧ it.current.getLsn = 0 ∧
      ¬ OwnLsn (.newPage 4) 21 it := by
  have hrun : run (openLog []) [.newPage 3, .newPage 4] = some ([0, 21],
      ⟨[], 42, 0, (LogRecord.makeNewPage 0 3).serialize ++
        (LogRecord.makeNewPage 0 4).serialize⟩) := by
    decide +kernel
  refine ⟨_, _, _, hrun, rfl, by decide +kernel, fun ⟨_, _, _, hown⟩ => ?_⟩
  exact absurd hown (by decide +kernel)

end LogCall

end CourtDB
