/-
# Short writes

`pwrite` may write fewer bytes than it was given.  The log manager then throws, and keeps what its
fields hold at that moment.  A flush that throws has changed nothing but bytes of the file behind
`flushed_lsn_`, which the next flush writes again.  `AppendLogRecord` has moved `next_lsn_` before
its first write, and never moves it back.

The functions are those of the log manager once more, with the kernel's answer to each write as an
argument, and with the state that an exception leaves.  While no append has met a short write, they
do what the log manager does whose file ends at `flushed_lsn_` (`trim`).  So the results about the
log without faults carry over: a run is one of the trimmed log, in which the calls that threw are
left out.

Once an append has met a short write, `next_lsn_` has moved past a record that is not there, and
nothing moves it back: records that are buffered later lie before the place that their LSNs name. 
`consistent_iff` is about all runs: each call leaves the log manager consistent if no append has met
a short write, and a call that is such an append never does.
-/
import CourtDB.Lib.Run
import CourtDB.Recovery.LogStream

namespace CourtDB

open Framing

/-! ## 1. Writes of limited length

`limit` is the number of bytes that the kernel is ready to write.  An error counts as no byte
written, as the source does not tell the two apart. -/

namespace LogFile

/-- `pwrite` by a kernel that is ready to write `limit` bytes, and none past the largest offset: the
file, and how many bytes were written, 0 standing for an error, too. -/
def pwriteUpTo (file : LogFile) (limit : Nat) (bytes : List UInt8) (offset : UInt64) :
    LogFile × Nat :=
  let written := min (min limit bytes.length) (maxOffset - offset.toNat)
  if written = 0 then (file, 0)
  else (file.takeD offset.toNat 0 ++ bytes.take written ++ file.drop (offset.toNat + written),
    written)

/-- The write is not short. -/
def Whole (limit : Nat) (bytes : List UInt8) (offset : UInt64) : Prop :=
  bytes.length ≤ limit ∧ offset.toNat + bytes.length ≤ maxOffset

instance (limit : Nat) (bytes : List UInt8) (offset : UInt64) :
    Decidable (Whole limit bytes offset) :=
  inferInstanceAs (Decidable (_ ∧ _))

end LogFile

/-- What the kernel does with the two writes that an append may need: the flush of the buffer, and
the direct write of a large record. -/
structure WriteLimits where
  flush : Nat
  direct : Nat
deriving DecidableEq, Repr

namespace LogManager

/-- `FlushBuffer`: false if it throws. -/
def flushBufferUpTo (log : LogManager) (limit : Nat) : Bool × LogManager :=
  if log.bufferOffset = 0 then (true, log)
  else
    let (file, written) := log.file.pwriteUpTo limit log.buffer log.flushedLsn
    if written ≠ log.buffer.length then (false, { log with file := file })
    else (true, { log with
      file := file
      flushedLsn := log.flushedLsn + log.bufferOffset.toUInt64
      buffer := [] })

/-- The check of `AppendLogRecord` for room in the buffer. -/
def makeRoomUpTo (log : LogManager) (recordSize : UInt32) (limit : Nat) : Bool × LogManager :=
  if log.bufferOffset + recordSize > defaultLogBufferSize then log.flushBufferUpTo limit
  else (true, log)

/-- The end of `AppendLogRecord`. -/
def storeUpTo (log : LogManager) (bytes : List UInt8) (assignedLsn : LSN) (limit : Nat) :
    Option LSN × LogManager :=
  if UInt32.ofNat bytes.length > defaultLogBufferSize then
    let (file, written) := log.file.pwriteUpTo limit bytes assignedLsn
    if written ≠ bytes.length then (none, { log with file := file })
    else (some assignedLsn, { log with file := file, flushedLsn := log.nextLsn })
  else (some assignedLsn, { log with buffer := log.buffer ++ bytes })

/-- `AppendLogRecord`: the LSN it returns, or nothing if it throws. -/
def appendLogRecordUpTo (log : LogManager) (record : LogRecord) (limits : WriteLimits) :
    Option LSN × LogManager :=
  let bytes := record.serialize
  let recordSize := UInt32.ofNat bytes.length
  let assignedLsn := log.nextLsn
  let (ok, log) := { log with
    nextLsn := log.nextLsn + recordSize.toUInt64 }.makeRoomUpTo recordSize limits.flush
  if ok then log.storeUpTo bytes assignedLsn limits.direct else (none, log)

/-- `Flush`. -/
def flushWithin (log : LogManager) (limit : Nat) : Bool × LogManager :=
  if log.bufferOffset > 0 then log.flushBufferUpTo limit else (true, log)

/-- `FlushUpTo`. -/
def flushUpToWithin (log : LogManager) (lsn : LSN) (limit : Nat) : Bool × LogManager :=
  if lsn ≥ log.flushedLsn ∧ log.bufferOffset > 0 then log.flushBufferUpTo limit else (true, log)

/-! ## 2. Runs

A run notes the LSNs that were returned, each with its record.  A call that throws returns none. -/

/-- A call, with what the kernel does with its writes. -/
inductive IoCall
  | append (record : LogRecord) (limits : WriteLimits)
  | flush (limit : Nat)
  | flushUpTo (lsn : LSN) (limit : Nat)
deriving DecidableEq, Repr

/-- A log manager, and the LSNs it has returned with their records. -/
structure IoRun where
  log : LogManager
  returned : List (LSN × LogRecord) := []
deriving DecidableEq, Repr

namespace IoRun

def step (st : IoRun) : IoCall → IoRun
  | .append record limits =>
    let res := st.log.appendLogRecordUpTo record limits
    ⟨res.2, st.returned ++ (res.1.map fun lsn => (lsn, record)).toList⟩
  | .flush limit => { st with log := (st.log.flushWithin limit).2 }
  | .flushUpTo lsn limit => { st with log := (st.log.flushUpToWithin lsn limit).2 }

/-- The log as it will be: the file as far as it is flushed, and the buffer behind it. -/
def stream (st : IoRun) : List UInt8 :=
  st.log.file.take st.log.flushedLsn.toNat ++ st.log.buffer

end IoRun

/-- An append meets no short write: neither when it flushes the buffer nor when it writes the record
itself. -/
def AppendsWhole (log : LogManager) (record : LogRecord) (limits : WriteLimits) : Prop :=
  (log.bufferOffset + UInt32.ofNat record.serialize.length > defaultLogBufferSize →
    log.bufferOffset = 0 ∨ LogFile.Whole limits.flush log.buffer log.flushedLsn) ∧
  (UInt32.ofNat record.serialize.length > defaultLogBufferSize →
    LogFile.Whole limits.direct record.serialize log.nextLsn)

instance (log : LogManager) (record : LogRecord) (limits : WriteLimits) :
    Decidable (log.AppendsWhole record limits) :=
  inferInstanceAs (Decidable ((_ → _ ∨ _) ∧ (_ → _)))

/-- The call appends nothing, or meets no short write. -/
def IoRun.NoShortAppend (st : IoRun) : IoCall → Prop
  | .append record limits => st.log.AppendsWhole record limits
  | .flush _ | .flushUpTo _ _ => True

instance (st : IoRun) : DecidablePred st.NoShortAppend
  | .append record limits => inferInstanceAs (Decidable (st.log.AppendsWhole record limits))
  | .flush _ | .flushUpTo _ _ => inferInstanceAs (Decidable True)

/-- After the call, `next_lsn_` is `flushed_lsn_` and the buffered bytes, and every record is where
its LSN says; and if the call was an append that threw, both counters and the buffer are as
before. -/
def IoRun.Consistent (st : IoRun) (call : IoCall) : Prop :=
  let st' := st.step call
  st'.log.nextLsn = st'.log.flushedLsn + st'.log.bufferOffset.toUInt64 ∧
    (∀ e ∈ st'.returned, (st'.stream.drop e.1.toNat).take e.2.serialize.length = e.2.serialize) ∧
    ∀ record limits, call = .append record limits →
      (st.log.appendLogRecordUpTo record limits).1 = none →
      st'.log.nextLsn = st.log.nextLsn ∧ st'.log.flushedLsn = st.log.flushedLsn ∧
        st'.log.buffer = st.log.buffer

/-! ## 3. Exceptions

When each function throws, and what it has changed then. -/

variable {base : LogFile} {records : List LogRecord} {n limit : Nat} {log log' : LogManager}
  {record : LogRecord} {limits : WriteLimits}

/-- How many bytes are written. -/
theorem pwriteUpTo_snd (file : LogFile) (limit : Nat) (bytes : List UInt8) (offset : UInt64) :
    (file.pwriteUpTo limit bytes offset).2
      = min (min limit bytes.length) (LogFile.maxOffset - offset.toNat) := by
  unfold LogFile.pwriteUpTo
  dsimp only
  split
  · rename_i h
    exact h.symm
  · rfl

/-- All bytes are written if the write is not short. -/
theorem pwriteUpTo_snd_eq_iff (file : LogFile) {bytes : List UInt8} (hne : bytes ≠ [])
    (offset : UInt64) :
    (file.pwriteUpTo limit bytes offset).2 = bytes.length ↔ LogFile.Whole limit bytes offset := by
  have hpos := List.length_pos_of_ne_nil hne
  rw [pwriteUpTo_snd, LogFile.Whole]
  omega

theorem buffer_ne_nil (h : ¬ log.bufferOffset = 0) : log.buffer ≠ [] := fun hnil => h (by
  rw [bufferOffset, hnil]
  rfl)

/-- `FlushBuffer` throws if its write is short. -/
theorem flushBufferUpTo_fst : (log.flushBufferUpTo limit).1 = true ↔
    log.bufferOffset = 0 ∨ LogFile.Whole limit log.buffer log.flushedLsn := by
  unfold flushBufferUpTo
  split
  · rename_i h
    exact ⟨fun _ => .inl h, fun _ => rfl⟩
  · rename_i h
    have hiff := @pwriteUpTo_snd_eq_iff limit log.file _ (buffer_ne_nil h) log.flushedLsn
    dsimp only
    split
    · rename_i hshort
      exact ⟨fun hno => absurd hno Bool.false_ne_true,
        fun hor => absurd (hiff.mpr (hor.resolve_left h)) hshort⟩
    · rename_i hfull
      exact ⟨fun _ => .inr (hiff.mp (not_not.mp hfull)), fun _ => rfl⟩

/-- Whatever happens to a flush, the LSN counter stays; and if it throws, only the file changes. -/
theorem flushBufferUpTo_fields : (log.flushBufferUpTo limit).2.nextLsn = log.nextLsn ∧
    ((log.flushBufferUpTo limit).1 = false →
      (log.flushBufferUpTo limit).2.flushedLsn = log.flushedLsn ∧
        (log.flushBufferUpTo limit).2.buffer = log.buffer) := by
  unfold flushBufferUpTo
  split
  · exact ⟨rfl, fun _ => ⟨rfl, rfl⟩⟩
  · dsimp only
    split
    · exact ⟨rfl, fun _ => ⟨rfl, rfl⟩⟩
    · exact ⟨rfl, fun hno => absurd hno (by simp)⟩

/-- The record goes through if it fits into the buffer or its own write is not short. -/
theorem storeUpTo_fst {bytes : List UInt8} (hne : bytes ≠ []) (lsn : LSN) :
    (log.storeUpTo bytes lsn limit).1 = none ↔
      UInt32.ofNat bytes.length > defaultLogBufferSize ∧ ¬ LogFile.Whole limit bytes lsn := by
  unfold storeUpTo
  split
  · rename_i hlarge
    have hiff := @pwriteUpTo_snd_eq_iff limit log.file _ hne lsn
    dsimp only
    split
    · rename_i hshort
      exact ⟨fun _ => ⟨hlarge, fun hwhole => hshort (hiff.mpr hwhole)⟩, fun _ => rfl⟩
    · rename_i hfull
      exact ⟨fun hno => absurd hno (by simp), fun hno => absurd (hiff.mp (not_not.mp hfull)) hno.2⟩
  · rename_i hsmall
    exact ⟨fun hno => absurd hno (by simp), fun hno => absurd hno.1 hsmall⟩

theorem storeUpTo_nextLsn (log : LogManager) (bytes : List UInt8) (lsn : LSN) (limit : Nat) :
    (log.storeUpTo bytes lsn limit).2.nextLsn = log.nextLsn := by
  unfold storeUpTo
  split
  · dsimp only
    split <;> rfl
  · rfl

theorem makeRoomUpTo_fst {size : UInt32} : (log.makeRoomUpTo size limit).1 = true ↔
    (log.bufferOffset + size > defaultLogBufferSize →
      log.bufferOffset = 0 ∨ LogFile.Whole limit log.buffer log.flushedLsn) := by
  unfold makeRoomUpTo
  split
  · rename_i hroom
    rw [flushBufferUpTo_fst]
    exact ⟨fun h _ => h, fun h => h hroom⟩
  · rename_i hroom
    exact ⟨fun _ h => absurd h hroom, fun _ => rfl⟩

theorem makeRoomUpTo_nextLsn (log : LogManager) (size : UInt32) (limit : Nat) :
    (log.makeRoomUpTo size limit).2.nextLsn = log.nextLsn := by
  unfold makeRoomUpTo
  split
  · exact flushBufferUpTo_fields.1
  · rfl

/-- **AppendLogRecord throws if it meets a short write.** -/
theorem appendLogRecordUpTo_fst (hne : record.serialize ≠ []) :
    (log.appendLogRecordUpTo record limits).1 = none ↔ ¬ log.AppendsWhole record limits := by
  unfold appendLogRecordUpTo AppendsWhole
  have hroom := @makeRoomUpTo_fst limits.flush { log with
    nextLsn := log.nextLsn + (UInt32.ofNat record.serialize.length).toUInt64 }
    (UInt32.ofNat record.serialize.length)
  dsimp only
  split
  · rename_i hok
    rw [storeUpTo_fst hne, not_and]
    refine ⟨fun ⟨hlarge, hshort⟩ _ hall => hshort (hall hlarge), fun h => ?_⟩
    exact Classical.not_imp.mp (h (hroom.mp hok))
  · rename_i hthrow
    exact ⟨fun _ hall => hthrow (hroom.mpr hall.1), fun _ => rfl⟩

/-- It has then moved `next_lsn_` all the same. -/
theorem appendLogRecordUpTo_nextLsn (log : LogManager) (record : LogRecord) (limits : WriteLimits) :
    (log.appendLogRecordUpTo record limits).2.nextLsn
      = log.nextLsn + (UInt32.ofNat record.serialize.length).toUInt64 := by
  unfold appendLogRecordUpTo
  dsimp only
  split
  · rw [storeUpTo_nextLsn, makeRoomUpTo_nextLsn]
  · rw [makeRoomUpTo_nextLsn]

/-! ## 4. The log without what is not flushed

A write that was short has left a part of the buffer in the file.  The next flush begins at the same
offset with the same bytes, so it writes over what is there with what is there. -/

/-- The log manager whose file ends at `flushed_lsn_`. -/
def trim (log : LogManager) : LogManager :=
  { log with file := log.file.take log.flushedLsn.toNat }

theorem trim_of_length (h : log.flushedLsn.toNat = log.file.length) : log.trim = log := by
  rw [trim, h, List.take_length]

/-- The file ends at `flushed_lsn_`, or holds a part of the buffer behind it, from a write that was
short. -/
structure Steady (base : LogFile) (records : List LogRecord) (n : Nat)
    (log : LogManager) : Prop where
  logged : Logged base records n log.trim
  partly : ∃ part, log.file = log.trim.file ++ part ∧ part <+: log.buffer

namespace Steady

theorem flushed_eq (h : Steady base records n log) :
    log.trim.file.length = log.flushedLsn.toNat := h.logged.flushedLsn.symm

/-- Nothing is buffered, so the file ends at `flushed_lsn_`. -/
theorem trim_eq (h : Steady base records n log) (hempty : log.buffer = []) : log.trim = log := by
  obtain ⟨part, hfile, hpart⟩ := h.partly
  rw [hempty] at hpart
  rw [List.prefix_nil.mp hpart, List.append_nil] at hfile
  exact trim_of_length (h.flushed_eq.symm.trans (congrArg List.length hfile.symm))

/-- A write at `flushed_lsn_` that covers the part of the buffer that the file holds. -/
theorem pwrite_whole (h : Steady base records n log) {bytes : List UInt8} {offset : UInt64}
    (hne : bytes ≠ []) (hoff : offset = log.flushedLsn) (hcover : log.buffer.length ≤ bytes.length)
    (hwhole : LogFile.Whole limit bytes offset) :
    log.file.pwriteUpTo limit bytes offset = (log.trim.file ++ bytes, bytes.length) ∧
      log.trim.file.pwrite bytes offset = some (log.trim.file ++ bytes) := by
  obtain ⟨part, hfile, hpart⟩ := h.partly
  have hlen := h.flushed_eq
  have hle := hpart.length_le
  have hpos := List.length_pos_of_ne_nil hne
  have hwritten : min (min limit bytes.length) (LogFile.maxOffset - offset.toNat)
    = bytes.length := by
    obtain ⟨h1, h2⟩ := hwhole
    omega
  constructor
  · unfold LogFile.pwriteUpTo
    rw [hwritten]
    simp only [Nat.ne_of_gt hpos, if_false, List.take_length]
    rw [hoff, hfile, List.drop_eq_nil_of_le (by rw [List.length_append]; omega), List.append_nil,
      List.takeD_eq_take _ (by rw [List.length_append]; omega), ← hlen, List.take_left]
  · rw [LogFile.pwrite, if_pos hwhole.2, hoff, ← hlen,
      List.drop_eq_nil_of_le (Nat.le_add_right _ _), List.append_nil,
      List.takeD_eq_take _ (Nat.le_refl _), List.take_length]

/-- **A flush that does not throw** is a flush of the trimmed log. -/
theorem flushBuffer (h : Steady base records n log)
    (hok : (log.flushBufferUpTo limit).1 = true) :
    log.trim.flushBuffer = some (log.flushBufferUpTo limit).2 ∧
      (log.flushBufferUpTo limit).2.trim = (log.flushBufferUpTo limit).2 := by
  by_cases hzero : log.bufferOffset = 0
  · have htrim := h.trim_eq (h.logged.bufferOffset_eq_zero_iff.mp hzero)
    have hsame : log.flushBufferUpTo limit = (true, log) := if_pos hzero
    rw [hsame, htrim, LogManager.flushBuffer, if_pos hzero]
    exact ⟨rfl, rfl⟩
  · have hwhole := (flushBufferUpTo_fst.mp hok).resolve_left hzero
    obtain ⟨hup, hwrite⟩ := h.pwrite_whole (buffer_ne_nil hzero) rfl (Nat.le_refl _) hwhole
    have hflush : log.trim.flushBuffer = some (log.flushBufferUpTo limit).2 := by
      rw [LogManager.flushBuffer, if_neg (show ¬ log.trim.bufferOffset = 0 from hzero),
        flushBufferUpTo, if_neg hzero, hup]
      simp only [ne_eq, not_true, if_false]
      exact Option.bind_eq_some_iff.mpr ⟨_, hwrite, rfl⟩
    exact ⟨hflush, trim_of_length (h.logged.flushBuffer hflush).1.flushedLsn⟩

/-- What a write at `flushed_lsn_` leaves that stops within the buffer. -/
theorem pwrite_short (h : Steady base records n log) :
    ∃ part, (log.file.pwriteUpTo limit log.buffer log.flushedLsn).1 = log.trim.file ++ part ∧
      part <+: log.buffer := by
  obtain ⟨part, hfile, hpart⟩ := h.partly
  have hlen := h.flushed_eq
  unfold LogFile.pwriteUpTo
  dsimp only
  split
  · exact ⟨part, hfile, hpart⟩
  · generalize min (min limit log.buffer.length) (LogFile.maxOffset - log.flushedLsn.toNat) = w
    have hkeep : log.file.takeD log.flushedLsn.toNat 0 = log.trim.file := by
      rw [hfile, List.takeD_eq_take _ (by rw [List.length_append]; omega), ← hlen, List.take_left]
    have hdrop : log.file.drop (log.flushedLsn.toNat + w) = part.drop w := by
      rw [hfile, ← hlen, List.drop_append, Nat.add_sub_cancel_left,
        List.drop_eq_nil_of_le (Nat.le_add_right _ _), List.nil_append]
    rw [hkeep, hdrop, List.append_assoc]
    refine ⟨_, rfl, ?_⟩
    rw [List.prefix_iff_eq_take.mp hpart]
    -- the longer of the two parts stays
    rcases Nat.le_total part.length w with hle | hle
    · rw [List.drop_eq_nil_of_le (by rw [List.length_take]; omega), List.append_nil]
      exact List.take_prefix _ _
    · have htake : log.buffer.take w = (log.buffer.take part.length).take w := by
        rw [List.take_take, Nat.min_eq_left hle]
      rw [htake, List.take_append_drop]
      exact List.take_prefix _ _

/-- **A flush that throws** leaves a part of the buffer in the file. -/
theorem flushBuffer_throws (h : Steady base records n log)
    (hno : (log.flushBufferUpTo limit).1 = false) :
    Steady base records n (log.flushBufferUpTo limit).2 := by
  have hzero : ¬ log.bufferOffset = 0 := fun hz => by
    rw [flushBufferUpTo_fst.mpr (.inl hz)] at hno
    exact absurd hno (by simp)
  obtain ⟨part, hfile, hpart⟩ := @pwrite_short _ _ _ limit _ h
  have hres : (log.flushBufferUpTo limit).2
      = { log with file := (log.file.pwriteUpTo limit log.buffer log.flushedLsn).1 } := by
    unfold flushBufferUpTo at hno ⊢
    rw [if_neg hzero] at hno ⊢
    dsimp only at hno ⊢
    split at hno
    · rename_i hshort
      rw [if_pos hshort]
    · exact absurd hno (by simp)
  have htrim : (log.flushBufferUpTo limit).2.trim = log.trim := by
    rw [hres, hfile]
    simp only [trim]
    congr 1
    exact List.take_left' h.flushed_eq
  refine ⟨htrim ▸ h.logged, part, ?_, ?_⟩
  · rw [htrim, hres, hfile]
  · rw [hres]
    exact hpart

/-- The check for room, if it does not throw. -/
theorem makeRoom (h : Steady base records n log) {size : UInt32}
    (hok : (log.makeRoomUpTo size limit).1 = true) :
    log.trim.makeRoom size = some (log.makeRoomUpTo size limit).2.trim ∧
      Steady base records n (log.makeRoomUpTo size limit).2 := by
  -- the buffer is written first; a whole write is that of a log without short writes
  by_cases hroom : log.bufferOffset + size > defaultLogBufferSize
  · have hres : log.makeRoomUpTo size limit = log.flushBufferUpTo limit := if_pos hroom
    rw [hres] at hok ⊢
    obtain ⟨hflush, htrim⟩ := h.flushBuffer hok
    rw [LogManager.makeRoom,
      if_pos (show log.trim.bufferOffset + size > defaultLogBufferSize from hroom), hflush, htrim]
    refine ⟨rfl, ?_, [], ?_, List.nil_prefix⟩
    · rw [htrim]
      exact (h.logged.flushBuffer hflush).1
    · rw [List.append_nil, htrim]
  · -- there is room, and nothing is written
    have hres : log.makeRoomUpTo size limit = (true, log) := if_neg hroom
    rw [hres, LogManager.makeRoom,
      if_neg (show ¬ log.trim.bufferOffset + size > defaultLogBufferSize from hroom)]
    exact ⟨rfl, h⟩

/-- The end of an append, if it does not throw. -/
theorem store (h : Steady base records n log) (hr : record.serialize ≠ [])
    (hn : record.serialize.length = n) (hsmall : n < 2 ^ 31)
    (hroom : log.buffer.length + n ≤ defaultLogBufferSize.toNat ∨ log.buffer = []) {lsn : LSN}
    (hlsn : lsn.toNat = log.trim.file.length + log.buffer.length)
    (hwhole : UInt32.ofNat record.serialize.length > defaultLogBufferSize →
      LogFile.Whole limit record.serialize lsn) :
    (log.storeUpTo record.serialize lsn limit).1 = some lsn ∧
      Steady base (records ++ [record]) 0 (log.storeUpTo record.serialize lsn limit).2 := by
  -- a large record is written directly, where the file ends
  by_cases hlarge : UInt32.ofNat record.serialize.length > defaultLogBufferSize
  · have hsize := UInt32.lt_iff_toNat_lt.mp hlarge
    rw [UInt32.toNat_ofNat_of_lt' (by rw [hn]; simp only [UInt32.size]; omega)] at hsize
    have hempty : log.buffer = [] := hroom.resolve_left (by omega)
    have hoff : lsn = log.flushedLsn := UInt64.toNat_inj.mp (by
      rw [hlsn, hempty, List.length_nil, Nat.add_zero, h.flushed_eq])
    obtain ⟨hup, hwrite⟩ := h.pwrite_whole hr hoff (by rw [hempty]; exact Nat.zero_le _)
      (hwhole hlarge)
    have hres : log.storeUpTo record.serialize lsn limit = (some lsn, { log with
        file := log.trim.file ++ record.serialize, flushedLsn := log.nextLsn }) := by
      rw [storeUpTo, if_pos hlarge, hup]
      exact if_neg (not_not.mpr rfl)
    have hstore : log.trim.store record.serialize lsn = some { log with
        file := log.trim.file ++ record.serialize, flushedLsn := log.nextLsn } := by
      rw [LogManager.store, if_pos hlarge, hwrite]
      rfl
    have hlogged := h.logged.store hn hsmall hroom hlsn hstore
    have htrim := trim_of_length hlogged.flushedLsn
    rw [hres]
    refine ⟨rfl, ?_, [], ?_, List.nil_prefix⟩
    · rw [htrim]
      exact hlogged
    · rw [htrim, List.append_nil]
  · -- any other record is only buffered, and what is partly written stays so
    have hres : log.storeUpTo record.serialize lsn limit
        = (some lsn, { log with buffer := log.buffer ++ record.serialize }) := if_neg hlarge
    have hstore : log.trim.store record.serialize lsn
        = some { log.trim with buffer := log.buffer ++ record.serialize } := if_neg hlarge
    obtain ⟨part, hfile, hpart⟩ := h.partly
    rw [hres]
    exact ⟨rfl, h.logged.store hn hsmall hroom hlsn hstore, part, hfile,
      hpart.trans (List.prefix_append _ _)⟩

/-- **An append that meets no short write** adds its record to the stream. -/
theorem appendLogRecord (h : Steady base records 0 log) (hr : record.WellFormed)
    (hwhole : log.AppendsWhole record limits) :
    (log.appendLogRecordUpTo record limits).1 = some log.nextLsn ∧
      Steady base (records ++ [record]) 0 (log.appendLogRecordUpTo record limits).2 := by
  have hsize := hr.length_serialize
  have hpayload := hr.payloadSize
  have hlt := record.header.payloadSize.toNat_lt
  have hrecord : (UInt32.ofNat record.serialize.length).toNat = record.serialize.length :=
    UInt32.toNat_ofNat_of_lt' (by simp only [hsize, UInt32.size]; omega)
  have hne : record.serialize ≠ [] := List.ne_nil_of_length_pos (by omega)
  -- the LSN is reserved before the buffer is written
  obtain ⟨reserved, hres⟩ : ∃ log₀ : LogManager, { log with
      nextLsn := log.nextLsn + (UInt32.ofNat record.serialize.length).toUInt64 } = log₀ := ⟨_, rfl⟩
  have h₀ : Steady base records record.serialize.length reserved :=
    hres ▸ ⟨h.logged.reserve hrecord, h.partly⟩
  have hok : (reserved.makeRoomUpTo (UInt32.ofNat record.serialize.length) limits.flush).1 = true :=
    makeRoomUpTo_fst.mpr (hres ▸ hwhole.1)
  -- neither write is cut short
  obtain ⟨hmade, h₁⟩ := h₀.makeRoom hok
  obtain ⟨-, -, hfit⟩ := h₀.logged.makeRoom hrecord (by omega) hmade
  have hnext := makeRoomUpTo_nextLsn reserved (UInt32.ofNat record.serialize.length) limits.flush
  have happend : log.appendLogRecordUpTo record limits
      = (reserved.makeRoomUpTo (UInt32.ofNat record.serialize.length) limits.flush).2.storeUpTo
        record.serialize log.nextLsn limits.direct := by
    unfold appendLogRecordUpTo
    dsimp only
    rw [hres, if_pos hok]
  rw [happend]
  refine h₁.store hne rfl (by omega) hfit ?_ hwhole.2
  -- the assigned LSN is where the stream ends
  have hahead : (reserved.makeRoomUpTo (UInt32.ofNat record.serialize.length)
      limits.flush).2.nextLsn.toNat = _ := h₁.logged.nextLsn
  have hassigned : reserved.nextLsn.toNat = _ := h₀.logged.nextLsn
  have hbefore : log.nextLsn.toNat = _ := h.logged.nextLsn
  rw [hnext, hassigned] at hahead
  have hfile : reserved.trim.file = log.trim.file := hres ▸ rfl
  have hbuffer : reserved.trim.buffer = log.trim.buffer := hres ▸ rfl
  rw [hfile, hbuffer] at hahead
  rw [hbefore]
  exact Nat.add_right_cancel hahead

/-- The counters of a log without half-done appends. -/
theorem nextLsn_eq (h : Steady base records 0 log) :
    log.nextLsn = log.flushedLsn + log.bufferOffset.toUInt64 := by
  have hnext : log.nextLsn.toNat = log.trim.file.length + log.buffer.length + 0 := h.logged.nextLsn
  have hoff : log.bufferOffset.toNat = log.buffer.length := h.logged.toNat_bufferOffset
  have hlt := log.nextLsn.toNat_lt
  rw [← UInt64.toNat_inj, UInt64.toNat_add, UInt32.toNat_toUInt64, hoff, ← h.flushed_eq, hnext]
  exact (Nat.mod_eq_of_lt (by omega)).symm

end Steady

/-! ## 5. The theorem

An append that throws breaks consistency by itself, so the equivalence needs no look at what comes
later. -/

namespace IoRun

variable {st : IoRun} {call : IoCall}

/-- The log is steady, and the LSNs are the positions of the records. -/
structure InOrder (base : LogFile) (st : IoRun) : Prop where
  steady : Steady base (st.returned.map Prod.snd) 0 st.log
  lsns : (st.returned.map Prod.fst).map UInt64.toNat
    = offsets (length LogRecord.serialize) base.length (st.returned.map Prod.snd)

/-- Every record is in the stream where its LSN says. -/
theorem InOrder.placed (h : InOrder base st) {e : LSN × LogRecord} (he : e ∈ st.returned) :
    (st.stream.drop e.1.toNat).take e.2.serialize.length = e.2.serialize := by
  obtain ⟨i, hi⟩ := List.mem_iff_getElem?.mp he
  have hrecord : (st.returned.map Prod.snd)[i]? = some e.2 := by
    rw [List.getElem?_map, hi]
    rfl
  have hk : ((st.returned.map Prod.fst).map UInt64.toNat)[i]? = some e.1.toNat := by
    rw [List.getElem?_map, List.getElem?_map, hi]
    rfl
  rw [h.lsns] at hk
  have hend := offsets_getElem? hk hrecord
  obtain ⟨hlt, hget⟩ := List.getElem?_eq_some_iff.mp hrecord
  rw [List.take_succ_eq_append_getElem hlt, List.map_append, List.sum_append, hget,
    List.map_singleton, List.sum_singleton, ← Nat.add_assoc, Nat.add_right_cancel_iff] at hend
  obtain ⟨rest, hrest⟩ := @drop_stream base _ _ _ hrecord
  have hstream : st.stream = base ++ (st.returned.map Prod.snd).flatMap LogRecord.serialize :=
    h.steady.logged.stream
  rw [hstream, hend, hrest, List.take_left]

/-- **The step lemma.** -/
theorem InOrder.step (h : InOrder base st)
    (hcall : ∀ record limits, call = .append record limits → record.Built)
    (hno : st.NoShortAppend call) : InOrder base (st.step call) ∧ st.Consistent call := by
  -- a flush, or none: a write that is cut short leaves the same stream
  have hflush : ∀ (limit : Nat) (res : Bool × LogManager),
      res = st.log.flushBufferUpTo limit ∨ res = (true, st.log) →
      InOrder base { st with log := res.2 } := by
    rintro limit res (rfl | rfl)
    · cases hok : (st.log.flushBufferUpTo limit).1 with
      | true =>
        obtain ⟨hflush, htrim⟩ := h.steady.flushBuffer hok
        refine ⟨⟨?_, [], ?_, List.nil_prefix⟩, h.lsns⟩
        · rw [htrim]
          exact (h.steady.logged.flushBuffer hflush).1
        · rw [List.append_nil, htrim]
      | false => exact ⟨h.steady.flushBuffer_throws hok, h.lsns⟩
    · exact h
  have hnext : InOrder base (st.step call) := by
    cases call with
    -- an append returns the position of its record
    | append record limits =>
      obtain ⟨hlsn, hsteady⟩ := h.steady.appendLogRecord (hcall record limits rfl).wellFormed hno
      have hstep : st.step (.append record limits)
          = ⟨(st.log.appendLogRecordUpTo record limits).2,
            st.returned ++ [(st.log.nextLsn, record)]⟩ := by
        rw [IoRun.step, hlsn]
        rfl
      rw [hstep]
      refine ⟨by simpa using hsteady, ?_⟩
      have hpos : st.log.nextLsn.toNat = base.length
          + ((st.returned.map Prod.snd).map (length LogRecord.serialize)).sum :=
        h.steady.logged.nextLsn_eq
      rw [List.map_append, List.map_append, List.map_append, h.lsns, offsets_append, ← hpos]
      rfl
    -- a flush adds no record
    | flush limit =>
      refine hflush limit _ ?_
      unfold flushWithin
      split
      · exact .inl rfl
      · exact .inr rfl
    -- nor does a flush up to an LSN
    | flushUpTo lsn limit =>
      refine hflush limit _ ?_
      unfold flushUpToWithin
      split
      · exact .inl rfl
      · exact .inr rfl
  -- the counters, the records that were returned, and no exception
  refine ⟨hnext, hnext.steady.nextLsn_eq, fun e he => hnext.placed he, ?_⟩
  rintro record limits rfl hthrows
  obtain ⟨hlsn, -⟩ := h.steady.appendLogRecord (hcall record limits rfl).wellFormed hno
  rw [hlsn] at hthrows
  exact absurd hthrows (by simp)

/-- **The run lemma.** -/
theorem InOrder.run {calls : List IoCall} : ∀ {st : IoRun},
    (∀ record limits, .append record limits ∈ calls → record.Built) → InOrder base st →
      Run.StepsOk IoRun.step NoShortAppend st calls → InOrder base (calls.foldl IoRun.step st) := by
  induction calls with
  | nil => exact fun _ h _ => h
  | cons call calls ih =>
    intro st hcalls h hok
    have hnext := h.step (fun record limits he =>
      hcalls record limits (he ▸ List.mem_cons_self)) hok.1
    exact ih (fun record limits hmem => hcalls record limits (List.mem_cons_of_mem _ hmem)) hnext.1
      hok.2

theorem inOrder_openLog {file : LogFile} (hfile : file.length ≤ LogFile.maxOffset) :
    InOrder file ⟨openLog file, []⟩ := by
  have hlogged := logged_openLog file hfile
  have htrim : (openLog file).trim = openLog file := trim_of_length hlogged.flushedLsn
  refine ⟨⟨?_, [], ?_, List.nil_prefix⟩, rfl⟩
  · rw [htrim]
    exact hlogged
  · rw [htrim, List.append_nil]

/-- An append that meets a short write is never consistent. -/
theorem not_consistent {record : LogRecord} {limits : WriteLimits} (hr : record.WellFormed)
    (hshort : ¬ st.log.AppendsWhole record limits) : ¬ st.Consistent (.append record limits) := by
  have hsize := hr.length_serialize
  have hpayload := hr.payloadSize
  have hlt := record.header.payloadSize.toNat_lt
  have hne : record.serialize ≠ [] := List.ne_nil_of_length_pos (by omega)
  rintro ⟨-, -, hkeeps⟩
  obtain ⟨hnext, -⟩ := hkeeps record limits rfl ((appendLogRecordUpTo_fst hne).mpr hshort)
  have hmoved : st.log.nextLsn + (UInt32.ofNat record.serialize.length).toUInt64
      = st.log.nextLsn := (appendLogRecordUpTo_nextLsn st.log record limits).symm.trans hnext
  have hzero : (UInt32.ofNat record.serialize.length).toUInt64 = 0 := by grind
  have hlen := congrArg UInt64.toNat hzero
  rw [UInt32.toNat_toUInt64,
    UInt32.toNat_ofNat_of_lt' (by simp only [hsize, UInt32.size]; omega)] at hlen
  rw [hsize] at hlen
  exact absurd hlen (by simp)

/-- **A log manager is consistent after every call exactly if no append meets a short write**; a
flush may fail as often as it likes. -/
theorem consistent_iff {file : LogFile} (hfile : file.length ≤ LogFile.maxOffset)
    {calls : List IoCall} (hcalls : ∀ record limits, .append record limits ∈ calls → record.Built) :
    (∀ pre call post, calls = pre ++ call :: post →
      (pre.foldl IoRun.step ⟨openLog file, []⟩).Consistent call) ↔
    Run.StepsOk IoRun.step NoShortAppend ⟨openLog file, []⟩ calls := by
  constructor
  · intro h
    refine Run.stepsOk_of_forall fun pre call post hsplit => ?_
    cases call with
    | append record limits =>
      by_contra hshort
      have hbuilt := hcalls record limits (by rw [hsplit]; simp)
      exact not_consistent hbuilt.wellFormed hshort (h pre _ post hsplit)
    | flush limit => trivial
    | flushUpTo lsn limit => trivial
  · rintro h pre call post rfl
    obtain ⟨hpre, hcall, -⟩ := Run.stepsOk_append.mp h
    have horder := (inOrder_openLog hfile).run
      (fun record limits hmem => hcalls record limits (List.mem_append_left _ hmem)) hpre
    exact (horder.step (fun record limits he => hcalls record limits (by rw [he]; simp)) hcall).2

/-- A flush fails after eight bytes, and the next one succeeds. -/
theorem consistent_retried :
    Consistent ([IoCall.append (.makeNewPage 0 3) ⟨0, 0⟩, .flush 8].foldl IoRun.step
      ⟨openLog [], []⟩)
      (.flush 100) := by
  refine (@consistent_iff [] (Nat.zero_le _)
    [.append (.makeNewPage 0 3) ⟨0, 0⟩, .flush 8, .flush 100] ?_).mpr (by decide +kernel) _ _ [] rfl
  intro record limits hmem
  obtain ⟨rfl, rfl⟩ : record = .makeNewPage 0 3 ∧ limits = ⟨0, 0⟩ := by simpa using hmem
  exact .newPage 0 3

/-- The direct write of a large record fails, and `next_lsn_` is past a record that is not there. -/
theorem inconsistent_large :
    ¬ Consistent ⟨openLog [], []⟩ (.append (.makeInsert 0 1 0 largeData) ⟨0, 0⟩) := by
  refine not_consistent (LogRecord.Built.insert 0 1 0 largeData).wellFormed fun ⟨_, hdirect⟩ => ?_
  rw [LogFile.Whole, length_largeInsert] at hdirect
  exact absurd (hdirect (by decide)).1 (by decide)

end IoRun

end LogManager

end CourtDB
