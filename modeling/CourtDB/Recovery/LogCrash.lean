/-
# Appending to a log that a crash has cut

A cut inside a record leaves a torn tail.  The next log manager appends behind the tail, and the
reader, which is led by the size fields alone, takes the new records for the rest of the torn one. 
So the log stays readable after a crash exactly when the cut falls between two records
(`recoverable_iff`).

The direction that needs an argument is that every torn tail does harm.  For each of them there is a
record, a probe, that is appended and not read back (`nextRecord_torn`):

* if fewer than four bytes of the torn record survived, the size that is read is made of bytes of
  both records, and reaches past the end of the file, so nothing is read at all;
* otherwise the reader has the size of the torn record and takes so many bytes.  The last byte of
  the page number it finds there is the torn record's own or one of the probe's, and of two probes
  at least one has another byte in that place.

The opening of a log does not look for a torn tail: it takes the size of the file as the next LSN.
-/
import CourtDB.Recovery.LogStream

namespace CourtDB

open Bytes Framing

/-! ## 1. Reading across records

Where the reader finds a page number, in terms of the bytes alone. -/

/-- The page that a reader finds in the record at the front of a stream comes from the bytes of
the stream, also where they belong to different records. -/
theorem nextRecord_pageId {memory : Buf} {stream : List UInt8} {record : LogRecord} {n : Nat}
    (h : nextRecord memory stream = some (record, n))
    (htotal : 21 ≤ (FixedRepr.decode (stream.take 4) : UInt32).toNat) :
    ∃ byte, stream[16]? = some byte ∧ record.getPageId.toNat / 2 ^ 24 = byte.toNat := by
  unfold nextRecord at h
  dsimp only at h
  generalize (FixedRepr.decode (stream.take 4) : UInt32) = totalSize at h htotal
  by_cases hfield : (stream.take 4).length ≠ 4 ∨ totalSize = 0
  · rw [if_pos hfield] at h; cases h
  by_cases hcut : stream.length < totalSize.toNat
  · rw [if_neg hfield, if_pos hcut] at h; cases h
  rw [if_neg hfield, if_neg hcut] at h
  split at h
  · cases h
  obtain ⟨rfl, -⟩ := Prod.mk.injEq _ _ _ _ ▸ Option.some.injEq _ _ ▸ h
  have hlen : 16 < stream.length := by omega
  refine ⟨stream[16], List.getElem?_eq_getElem hlen, ?_⟩
  have hlt : 16 < (stream.take totalSize.toNat).length := by rw [List.length_take]; omega
  let data := memory.write 0 (stream.take totalSize.toNat)
  have hbyte : data 16 = stream[16] := by
    have hcopy : memory.write 0 (stream.take totalSize.toNat) (0 + 16) = _ :=
      Buf.write_apply_of_mem hlt
    rwa [List.getElem_take] at hcopy
  have hpage : (LogRecord.deserialize data totalSize).getPageId
      = UInt32.ofNat (leNat [data 13, data 14, data 15, data 16]) := rfl
  have h13 := (data 13).toNat_lt
  have h14 := (data 14).toNat_lt
  have h15 := (data 15).toNat_lt
  have h16 := (data 16).toNat_lt
  rw [hpage, UInt32.toNat_ofNat', ← hbyte]
  simp only [leNat]
  omega

/-! ## 2. Appending behind a torn tail

The probes are records of new pages, with page numbers that differ in their last byte only. -/

/-- The page number `b · 2 ^ 24`. -/
def probePage (b : UInt8) : PageId := b.toUInt32 <<< 24

theorem serialize_probe : ∀ b ∈ [(1 : UInt8), 2],
    (LogRecord.makeNewPage 0 (probePage b)).serialize
      = [21, 0, 0, 0, 0, 0, 0, 0, 0, 0, 0, 0, 4, 0, 0, 0, b, 0, 0, 0, 0] := by
  decide +kernel

/-- Fewer than four bytes of a torn record and then the size field of the probe: the size that
is read reaches past the end of the file. -/
theorem nextRecord_torn_size {head : List UInt8} (h0 : 0 < head.length) (h4 : head.length < 4)
    (b : UInt8) (memory : Buf) :
    nextRecord memory
      (head ++ [21, 0, 0, 0, 0, 0, 0, 0, 0, 0, 0, 0, 4, 0, 0, 0, b, 0, 0, 0, 0]) = none := by
  have hbig : ∀ {size : Nat} {rest : List UInt8}, leNat (rest.take 4) = size →
      rest.length < size → size < 2 ^ 32 → nextRecord memory rest = none := by
    rintro _ rest rfl hlt hmax
    have hsize : (FixedRepr.decode (rest.take 4) : UInt32).toNat = leNat (rest.take 4) :=
      UInt32.toNat_ofNat_of_lt' hmax
    rw [← hsize] at hlt
    unfold nextRecord
    dsimp only
    rw [if_pos hlt]
    exact ite_self _
  match head with
  | [x] =>
    have hx := x.toNat_lt
    have hread : leNat [x, 21, 0, 0] = x.toNat + 256 * 21 := rfl
    exact hbig hread (show 22 < _ by omega) (by omega)
  | [x, y] =>
    have hx := x.toNat_lt
    have hy := y.toNat_lt
    have hread : leNat [x, y, 21, 0] = x.toNat + 256 * (y.toNat + 256 * 21) := rfl
    exact hbig hread (show 23 < _ by omega) (by omega)
  | [x, y, z] =>
    have hx := x.toNat_lt
    have hy := y.toNat_lt
    have hz := z.toNat_lt
    have hread : leNat [x, y, z, 21] = x.toNat + 256 * (y.toNat + 256 * (z.toNat + 256 * 21)) := rfl
    exact hbig hread (show 24 < _ by omega) (by omega)

/-- **A record behind a torn tail is not found**: the reader takes the size of the torn record
and gets its page number wrong, or it finds nothing at all. -/
theorem nextRecord_torn {record : LogRecord} (h : record.WellFormed) {j : Nat} (hj : 0 < j)
    (hlt : j < record.serialize.length) (memory : Buf) :
    ∃ b ∈ [(1 : UInt8), 2], ∀ found n,
      nextRecord memory (record.serialize.take j
        ++ (LogRecord.makeNewPage 0 (probePage b)).serialize) = some (found, n) →
      found.getPageId ≠ probePage b := by
  -- a probe that differs from the torn record in byte 16, if that one has it
  obtain ⟨b, hb, hne⟩ : ∃ b ∈ [(1 : UInt8), 2], record.serialize[16]? ≠ some b := by
    by_cases h1 : record.serialize[16]? = some 1
    · exact ⟨2, by simp, by rw [h1]; decide⟩
    · exact ⟨1, by simp, h1⟩
  refine ⟨b, hb, ?_⟩
  rw [serialize_probe b hb]
  rintro found n hnext hpage
  have hlen : (record.serialize.take j).length = j := List.length_take_of_le (Nat.le_of_lt hlt)
  -- not even the size is whole: nothing is read
  by_cases h4 : j < 4
  · rw [nextRecord_torn_size (by omega) (by omega) b memory] at hnext
    cases hnext
  · -- the size is whole, so the page number is looked for in the torn record and what follows it
    have hfield : ∀ rest : List UInt8, (record.serialize.take j ++ rest).take 4
        = FixedRepr.encode record.header.totalSize := by
      intro rest
      rw [List.take_append_of_le_length (by omega), List.take_take,
        Nat.min_eq_left (Nat.le_of_not_lt h4), h.sizeField]
    obtain ⟨byte, hbyte, hdiv⟩ := nextRecord_pageId hnext (by
      rw [hfield, FixedRepr.decode_encode, h.toNat_totalSize]
      exact Nat.le_add_right _ _)
    have hprobe : ∀ b ∈ [(1 : UInt8), 2], (probePage b).toNat / 2 ^ 24 = b.toNat := by
      decide +kernel
    rw [hpage, hprobe b hb] at hdiv
    rw [← UInt8.toNat_inj.mp hdiv] at hbyte
    -- byte 16 is the last one of the page number: the torn record's, or one of the probe's
    by_cases h16 : 16 < j
    · rw [List.getElem?_append_left (by omega), List.getElem?_take_of_lt h16] at hbyte
      exact hne hbyte
    · rw [List.getElem?_append_right (by omega), hlen] at hbyte
      have hother : ∀ b ∈ [(1 : UInt8), 2], ∀ i < 13,
          [21, 0, 0, 0, 0, 0, 0, 0, 0, 0, 0, 0, 4, 0, 0, 0, b, 0, 0, 0, 0][i]? ≠ some b := by
        decide +kernel
      exact hother b hb (16 - j) (by omega) hbyte

/-! ## 3. When the log stays readable

A file that has no room left for any record is the exception: nothing can be appended to it, so
nothing can be lost. -/

namespace LogManager

/-- After reopening the file `cut`, any records that are appended and flushed are read back
behind the records `survived`, and nothing else is. -/
def Recoverable (cut : LogFile) (survived : List LogRecord) : Prop :=
  ∀ (ops : List LogOp) (lsns : List LSN) (log log' : LogManager) (memory : Buf) (fuel : Nat),
    (∀ record ∈ LogOp.records ops, record.Built) →
    (openLog cut).run ops = some (lsns, log) → log.flush = some log' →
    survived.length + (LogOp.records ops).length < fuel →
    readBack log'.file memory fuel = some (survived ++ LogOp.records ops, false)

/-- A record that fits into the buffer and the file can be appended and flushed. -/
theorem run_append_flush (file : LogFile) (record : LogRecord)
    (hsmall : record.serialize.length ≤ defaultLogBufferSize.toNat)
    (hroom : file.length + record.serialize.length ≤ LogFile.maxOffset) :
    ∃ lsns log log', (openLog file).run [.append record] = some (lsns, log) ∧
      log.flush = some log' := by
  have hsize : (UInt32.ofNat record.serialize.length).toNat = record.serialize.length :=
    UInt32.toNat_ofNat_of_lt' (lt_of_le_of_lt hsmall (by decide))
  -- the buffer of the reopened log is empty and the record fits it
  have hfits : ¬ UInt32.ofNat record.serialize.length > defaultLogBufferSize := by
    rw [gt_iff_lt, UInt32.lt_iff_toNat_lt, hsize]; omega
  let log₁ : LogManager := { openLog file with
    nextLsn := (openLog file).nextLsn + (UInt32.ofNat record.serialize.length).toUInt64 }
  have hmake : log₁.makeRoom (UInt32.ofNat record.serialize.length) = some log₁ := by
    have hempty : log₁.bufferOffset = 0 := rfl
    rw [makeRoom, hempty, UInt32.zero_add, if_neg hfits]
  let log : LogManager := { log₁ with buffer := record.serialize }
  have hstore : log₁.store record.serialize (openLog file).nextLsn = some log := by
    rw [store, if_neg hfits]; rfl
  have hrun : (openLog file).run [.append record] = some ([(openLog file).nextLsn], log) := by
    simp only [run, step, appendLogRecord]
    change ((((log₁.makeRoom (UInt32.ofNat record.serialize.length)).bind _).bind _).bind _) = _
    rw [hmake]
    change ((((log₁.store record.serialize (openLog file).nextLsn).bind _).bind _).bind _) = _
    rw [hstore]
    rfl
  -- the flush writes it behind the end of the file
  have hwrite : log.file.pwrite log.buffer log.flushedLsn
      = some (log.file.takeD log.flushedLsn.toNat 0 ++ log.buffer
        ++ log.file.drop (log.flushedLsn.toNat + log.buffer.length)) := by
    have hend : log.flushedLsn.toNat = file.length :=
      LogFile.toNat_size ((Nat.le_add_right _ _).trans hroom)
    rw [LogFile.pwrite, hend, if_pos hroom]
  have hflush : ∃ log', log.flush = some log' := by
    rw [flush]
    by_cases hpos : log.bufferOffset > 0
    · rw [if_pos hpos, flushBuffer, if_neg (UInt32.ne_of_lt hpos).symm, hwrite]
      exact ⟨_, rfl⟩
    · exact ⟨log, if_neg hpos⟩
  obtain ⟨log', hlog'⟩ := hflush
  exact ⟨_, log, log', hrun, hlog'⟩

/-- The file after a run and a flush. -/
theorem file_of_run {cut : LogFile} (hcut : cut.length ≤ LogFile.maxOffset) {ops : List LogOp}
    (hops : ∀ record ∈ LogOp.records ops, record.Built) {lsns : List LSN} {log log' : LogManager}
    (hrun : (openLog cut).run ops = some (lsns, log)) (hflush : log.flush = some log') :
    log'.file = cut ++ (LogOp.records ops).flatMap LogRecord.serialize ∧
      log'.file.length ≤ LogFile.maxOffset := by
  obtain ⟨h', hbuf⟩ := ((logged_openLog _ hcut).run hops hrun).1.flush hflush
  exact ⟨h'.file_eq hbuf, h'.file_le⟩

/-- A file of whole records reads back whole. -/
theorem readBack_flatMap {records : List LogRecord}
    (hwf : ∀ record ∈ records, record.WellFormed)
    (hmax : (records.flatMap LogRecord.serialize).length ≤ LogFile.maxOffset) (memory : Buf)
    {fuel : Nat} (hfuel : records.length < fuel) :
    readBack (records.flatMap LogRecord.serialize) memory fuel = some (records, false) := by
  have hitems := (selfDelimiting memory).items_append hwf (fuel - records.length) []
  have hend : items (nextRecord memory) (fuel - records.length) [] = [] := by
    cases fuel - records.length with
    | zero => rfl
    | succ n => rfl
  rw [List.append_nil, hend, List.append_nil, Nat.add_sub_cancel' (Nat.le_of_lt hfuel)] at hitems
  rw [readBack_eq hmax memory (by rwa [hitems]), hitems]

/-- **The log stays readable after a crash exactly when the cut falls between two records**, or
when the file has no room left for a record to be appended.  The log file holds records back to
back, as every run leaves it. -/
theorem recoverable_iff {records : List LogRecord} (hbuilt : ∀ record ∈ records, record.Built)
    (hmax : (records.flatMap LogRecord.serialize).length ≤ LogFile.maxOffset) {k : Nat}
    (hk : k ≤ (records.flatMap LogRecord.serialize).length) :
    Recoverable ((records.flatMap LogRecord.serialize).take k)
        (whole (length LogRecord.serialize) k records) ↔
      (k ∈ offsets (length LogRecord.serialize) 0 records ∨
        k = (records.flatMap LogRecord.serialize).length) ∨ LogFile.maxOffset < k + 21 := by
  -- the records and what is left of them behind the cut
  have hwf : ∀ record ∈ records, record.WellFormed := fun record hr => (hbuilt record hr).wellFormed
  have hpos : ∀ record ∈ records, 0 < record.serialize.length := fun record hr => by
    rw [(hwf record hr).length_serialize]; omega
  have hcutLength : ((records.flatMap LogRecord.serialize).take k).length = k :=
    List.length_take_of_le hk
  have hcutMax : ((records.flatMap LogRecord.serialize).take k).length ≤ LogFile.maxOffset := by
    rw [hcutLength]; exact hk.trans hmax
  have hsplit := take_flatMap LogRecord.serialize k records
  have hwhole : ∀ record ∈ whole (length LogRecord.serialize) k records, record.WellFormed :=
    fun record hr => hwf record (mem_of_mem_whole hr)
  -- no part of a record is left exactly if the cut falls between two
  have hboundary : torn LogRecord.serialize k records = [] ↔
      k ∈ offsets (length LogRecord.serialize) 0 records ∨
        k = (records.flatMap LogRecord.serialize).length := by
    rw [torn_eq_nil_iff hpos, List.length_flatMap]
    refine or_congr_right ⟨fun hle => ?_, fun heq => heq.symm.le⟩
    rw [List.length_flatMap] at hk
    exact Nat.le_antisymm hk hle
  rw [← hboundary]
  -- a torn record, and room for one more: then the record appended behind it is lost
  constructor
  · intro h
    by_contra hnot
    obtain ⟨htorn, hroom⟩ := not_or.mp hnot
    obtain ⟨record, hmem, j, hj, hlt, htail⟩ :=
      (torn_cases LogRecord.serialize k records).resolve_left htorn
    obtain ⟨b, hb, hlost⟩ := nextRecord_torn (hwf record hmem) hj hlt (fun _ => 0)
    let probe := LogRecord.makeNewPage 0 (probePage b)
    have hprobe : probe.serialize.length = 21 := by
      rw [show probe.serialize = _ from serialize_probe b hb]; rfl
    -- the probe is as short as a record can be, and what is read has another page number
    obtain ⟨lsns, log, log', hrun, hflush⟩ := run_append_flush
      ((records.flatMap LogRecord.serialize).take k) probe (by rw [hprobe]; decide)
        (by rw [hcutLength, hprobe]; omega)
    have hbuiltProbe : ∀ record ∈ LogOp.records [.append probe], record.Built := by
      rintro record hr
      obtain rfl := List.mem_singleton.mp hr
      exact .newPage 0 (probePage b)
    have hread := h _ lsns log log' (fun _ => 0) _ hbuiltProbe hrun hflush (Nat.lt_succ_self _)
    -- the torn bytes and the probe are read as one record, which is not the probe
    obtain ⟨hfile, hle⟩ := file_of_run hcutMax hbuiltProbe hrun hflush
    obtain ⟨valid, hitems, -⟩ := exists_readBack hle (fun _ => 0)
      ((whole (length LogRecord.serialize) k records).length + 2)
    have hstream : log'.file = (whole (length LogRecord.serialize) k records).flatMap
        LogRecord.serialize ++ (record.serialize.take j ++ probe.serialize) := by
      rw [hfile, hsplit, htail, List.append_assoc]
      simp [LogOp.records, LogOp.record?]
    have hsame := congrArg Prod.fst (Option.some.inj (hitems.symm.trans hread))
    simp only [LogOp.records, LogOp.record?, List.filterMap_cons, List.filterMap_nil] at hsame
    rw [hstream, (selfDelimiting fun _ => 0).items_append hwhole] at hsame
    have hfound := List.append_cancel_left hsame
    rw [items] at hfound
    cases hnext : nextRecord (fun _ => 0) (record.serialize.take j ++ probe.serialize) with
    | none => simp [hnext] at hfound
    | some found =>
      rw [hnext] at hfound
      have hprobed : found.1 = probe := (List.cons_eq_cons.mp hfound).1
      exact hlost found.1 found.2 hnext (by rw [hprobed]; rfl)
  · -- nothing torn, or no room: then what survived and what was appended is read back
    rintro hsafe ops lsns log log' memory fuel hops hrun hflush hfuel
    obtain ⟨hfile, hle⟩ := file_of_run hcutMax hops hrun hflush
    have hall : ∀ record ∈ whole (length LogRecord.serialize) k records ++ LogOp.records ops,
        record.WellFormed := fun record hr => by
      rcases List.mem_append.mp hr with hr | hr
      · exact hwhole record hr
      · exact (hops record hr).wellFormed
    -- without a torn record the file holds whole records
    rcases hsafe with htorn | hfull
    · rw [hsplit, htorn, List.append_nil, ← List.flatMap_append] at hfile
      rw [hfile] at hle ⊢
      refine readBack_flatMap hall hle memory (lt_of_le_of_lt ?_ hfuel)
      rw [List.length_append]
    · -- a record would not fit, so none has been appended
      cases hnew : LogOp.records ops with
      | nil =>
        rw [hnew, List.flatMap_nil, List.append_nil] at hfile
        rw [hnew, List.length_nil, Nat.add_zero] at hfuel
        rw [hfile, List.append_nil]
        exact readBack_take hwf hcutMax memory hfuel
      | cons record rest =>
        have hrecord := (hops record (by simp [hnew])).wellFormed.length_serialize
        rw [hfile, hnew, List.flatMap_cons, List.length_append, List.length_append,
          hcutLength] at hle
        omega

/-- A cut between the two records of a log. -/
theorem recoverable_between :
    Recoverable (([.makeNewPage 0 1, .makeNewPage 0 2].flatMap LogRecord.serialize).take 21)
      [.makeNewPage 0 1] :=
  (@recoverable_iff [.makeNewPage 0 1, .makeNewPage 0 2]
    (by simpa using ⟨.newPage 0 1, .newPage 0 2⟩) (by decide +kernel) (k := 21)
    (by decide +kernel)).mpr (Or.inl (Or.inl (by decide +kernel)))

/-- Ten bytes of a record survive a crash, and the record that is appended after them is lost. -/
theorem torn_record_hides_append :
    ¬ Recoverable (([.makeNewPage 0 1].flatMap LogRecord.serialize).take 10)
      (whole (length LogRecord.serialize) 10 [.makeNewPage 0 1]) := by
  intro h
  let cut : LogFile := ([.makeNewPage 0 1].flatMap LogRecord.serialize).take 10
  let appended := LogRecord.makeNewPage 0 2
  have hrun : (openLog cut).run [.append appended]
      = some ([10], ⟨cut, 31, 10, appended.serialize⟩) := by decide +kernel
  have hflush : (⟨cut, 31, 10, appended.serialize⟩ : LogManager).flush
      = some ⟨cut ++ appended.serialize, 31, 31, []⟩ := by decide +kernel
  have hbuilt : ∀ record ∈ LogOp.records [.append appended], record.Built := by
    rintro record hr
    obtain rfl := List.mem_singleton.mp hr
    exact .newPage 0 2
  have hread := h _ _ _ _ (fun _ => 0) 2 hbuilt hrun hflush (by decide +kernel)
  exact absurd hread (by decide +kernel)

end LogManager

end CourtDB
