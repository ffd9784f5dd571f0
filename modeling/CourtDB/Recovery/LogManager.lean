/-
# The log manager

`LogManager` (`recovery/log_manager.h`, `recovery/log_manager.cpp`): an append-only file of
serialized records behind a buffer of 64 KB, and an iterator that reads the file from the
front, led by the size field of each record.

The file is the list of its bytes.  The system calls succeed, with the one exception that the
kernel imposes: a write past the largest file offset fails, and the log manager throws.  A
function that throws returns `none`.
-/
import CourtDB.Recovery.LogRecord

namespace CourtDB

open Bytes

/-! ## 1. The file -/

/-- The bytes of a log file. -/
abbrev LogFile := List UInt8

namespace LogFile

/-- The largest `off_t`. -/
def maxOffset : Nat := 2 ^ 63 - 1

/-- `pwrite`: zeros fill the gap when the offset lies past the end of the file. -/
def pwrite (file : LogFile) (bytes : List UInt8) (offset : UInt64) : Option LogFile :=
  if offset.toNat + bytes.length ≤ maxOffset then
    some (file.takeD offset.toNat 0 ++ bytes ++ file.drop (offset.toNat + bytes.length))
  else none

/-- `pread`: fewer than `count` bytes where the file ends. -/
def pread (file : LogFile) (count : Nat) (offset : UInt64) : List UInt8 :=
  (file.drop offset.toNat).take count

/-- `fstat`. -/
def size (file : LogFile) : UInt64 := UInt64.ofNat file.length

end LogFile

/-! ## 2. Writing -/

/-- `buffer` is the used part of `log_buffer_`, so `buffer_offset_` is its length. -/
structure LogManager where
  file : LogFile
  nextLsn : LSN
  flushedLsn : LSN
  buffer : List UInt8
deriving DecidableEq, Repr

namespace LogManager

/-- `DEFAULT_LOG_BUFFER_SIZE`. -/
def defaultLogBufferSize : UInt32 := 64 * 1024

/-- The constructor, over a file that may have content. -/
def openLog (file : LogFile) : LogManager where
  file := file
  nextLsn := file.size
  flushedLsn := file.size
  buffer := []

def bufferOffset (log : LogManager) : UInt32 := UInt32.ofNat log.buffer.length

/-- `FlushBuffer`. -/
def flushBuffer (log : LogManager) : Option LogManager :=
  if log.bufferOffset = 0 then some log
  else do
    let file ← log.file.pwrite log.buffer log.flushedLsn
    some { log with
      file := file
      flushedLsn := log.flushedLsn + log.bufferOffset.toUInt64
      buffer := [] }

/-- `FlushBuffer` when the buffer cannot hold a record of the given size. -/
def makeRoom (log : LogManager) (recordSize : UInt32) : Option LogManager :=
  if log.bufferOffset + recordSize > defaultLogBufferSize then log.flushBuffer else some log

/-- A record larger than the whole buffer goes straight to the file, any other to the buffer. -/
def store (log : LogManager) (bytes : List UInt8) (assignedLsn : LSN) : Option LogManager :=
  if UInt32.ofNat bytes.length > defaultLogBufferSize then do
    let file ← log.file.pwrite bytes assignedLsn
    some { log with file := file, flushedLsn := log.nextLsn }
  else some { log with buffer := log.buffer ++ bytes }

/-- `AppendLogRecord`: the LSN it assigns, and the log manager after it. -/
def appendLogRecord (log : LogManager) (record : LogRecord) : Option (LSN × LogManager) := do
  let bytes := record.serialize
  let recordSize := UInt32.ofNat bytes.length
  let assignedLsn := log.nextLsn
  let log ← { log with nextLsn := log.nextLsn + recordSize.toUInt64 }.makeRoom recordSize
  let log ← log.store bytes assignedLsn
  some (assignedLsn, log)

/-- `Flush`. -/
def flush (log : LogManager) : Option LogManager :=
  if log.bufferOffset > 0 then log.flushBuffer else some log

/-- `FlushUpTo`. -/
def flushUpTo (log : LogManager) (lsn : LSN) : Option LogManager :=
  if lsn ≥ log.flushedLsn ∧ log.bufferOffset > 0 then log.flushBuffer else some log

/-- The destructor: what it leaves in the file. -/
def close (log : LogManager) : Option LogFile := log.flush.map LogManager.file

/-! ## 3. Reading -/

/-- `memory` is what lies behind the vector that a record is read into. -/
structure LogIterator where
  file : LogFile
  fileSize : UInt64
  memory : Buf
  currentOffset : UInt64
  current : LogRecord
  valid : Bool

namespace LogIterator

/-- `ReadCurrentRecord`. -/
def readCurrentRecord (it : LogIterator) : LogIterator :=
  if it.currentOffset ≥ it.fileSize then { it with valid := false }
  else
    let sizeField := it.file.pread 4 it.currentOffset
    let totalSize : UInt32 := FixedRepr.decode sizeField
    if sizeField.length ≠ 4 ∨ totalSize = 0 then { it with valid := false }
    else if it.currentOffset + totalSize.toUInt64 > it.fileSize then { it with valid := false }
    else
      let buf := it.file.pread totalSize.toNat it.currentOffset
      if buf.length ≠ totalSize.toNat then { it with valid := false }
      else
        let current := LogRecord.deserialize (it.memory.write 0 buf) totalSize
        { it with current := current, valid := current.getType ≠ .invalid }

/-- `Next`. -/
def next (it : LogIterator) : LogIterator :=
  if it.valid then
    let it := { it with currentOffset := it.currentOffset + it.current.getTotalSize.toUInt64 }
    if it.currentOffset ≥ it.fileSize then { it with valid := false }
    else it.readCurrentRecord
  else it

/-- A loop over the log, as in `Recover`: the records it sees and the iterator it ends with,
after at most `fuel` rounds. -/
def collect : Nat → LogIterator → List LogRecord × LogIterator
  | 0, it => ([], it)
  | fuel + 1, it =>
    if it.valid then
      let rest := collect fuel it.next
      (it.current :: rest.1, rest.2)
    else ([], it)

end LogIterator

/-- A default-constructed `LogRecord`. -/
def noRecord : LogRecord := ⟨{}, []⟩

/-- The constructor of `LogIterator`. -/
def iterator (file : LogFile) (memory : Buf) : LogIterator :=
  let it : LogIterator := {
    file := file
    fileSize := file.size
    memory := memory
    currentOffset := 0
    current := noRecord
    valid := false }
  if it.fileSize > 0 then it.readCurrentRecord else it

/-- `Begin`. -/
def begin (log : LogManager) (memory : Buf) : Option (LogIterator × LogManager) := do
  let log ← log.flush
  some (iterator log.file memory, log)

end LogManager

/-! ## 4. Runs -/

/-- A call on the log manager; `reopen` closes the log and opens it again. -/
inductive LogOp
  | append (record : LogRecord)
  | flush
  | flushUpTo (lsn : LSN)
  | reopen
deriving DecidableEq, Repr

namespace LogManager

/-- One call: the LSN it returns, if it is an append, and the log manager after it. -/
def step (log : LogManager) : LogOp → Option (List LSN × LogManager)
  | .append record => do
    let (lsn, log) ← log.appendLogRecord record
    some ([lsn], log)
  | .flush => log.flush.map fun log => ([], log)
  | .flushUpTo lsn => (log.flushUpTo lsn).map fun log => ([], log)
  | .reopen => log.close.map fun file => ([], openLog file)

/-- A sequence of calls: the LSNs they return. -/
def run (log : LogManager) : List LogOp → Option (List LSN × LogManager)
  | [] => some ([], log)
  | op :: ops => do
    let (lsns, log) ← log.step op
    let (rest, log) ← log.run ops
    some (lsns ++ rest, log)

end LogManager

namespace LogOp

/-- The record that the call appends. -/
def record? : LogOp → Option LogRecord
  | append record => some record
  | flush | flushUpTo _ | reopen => none

/-- The records that a sequence of calls appends. -/
def records (ops : List LogOp) : List LogRecord := ops.filterMap record?

end LogOp

end CourtDB
