/-
# The recovery manager

`RecoveryManager` (`recovery/recovery_manager.h`, `recovery/recovery_manager.cpp`): redo-only
recovery from the log, over the buffer pool.  The log is the sequence of records that an
iteration from `Begin()` yields, all of it durable; how the log manager lays them out in its
file is not part of this module.

`Database` is a pool with its log, in use: clients create pages, and change records with a log
record next to each change, as the comments on `LogInsert`, `LogDelete` and `LogUpdate` ask.
-/
import CourtDB.Buffer.PoolProgram
import CourtDB.Recovery.LogRecord

namespace CourtDB

/-! ## 1. Redo -/

/-- What `RedoRecord` does to the page it has fetched, and whether it counts as a redo.  An
insert is repeated when its slot holds nothing, and lands wherever `InsertRecord` puts it; a
delete or an update is repeated when its slot holds something. -/
def Page.redo (page : Page) (record : LogRecord) : Bool × Page :=
  match record.getType with
  | .insert =>
    if (page.getRecord record.getSlotId).isSome then (false, page)
    else (true, (page.insertRecord record.getInsertData).2)
  | .delete =>
    if (page.getRecord record.getSlotId).isSome then
      (true, (page.deleteRecord record.getSlotId).2)
    else (false, page)
  | .update =>
    if (page.getRecord record.getSlotId).isSome then
      (true, (page.updateRecord record.getSlotId record.getUpdateData.2).2)
    else (false, page)
  | .newPage | .checkpointBegin | .checkpointEnd | .invalid | .other _ => (false, page)

/-- `RedoRecord`: does the record count as a redo? -/
def redoRecord (record : LogRecord) : PoolM Bool :=
  match record.getType with
  | .insert | .delete | .update =>
    withPage record.getPageId (fun page => page.redo record) false
  | .newPage => pure true
  | .checkpointBegin | .checkpointEnd | .invalid | .other _ => pure false

/-- The scan of `Recover`. -/
def redoLog : List LogRecord → UInt32 → PoolM UInt32
  | [], redoCount => pure redoCount
  | record :: rest, redoCount => do
    let redone ← redoRecord record
    redoLog rest (if redone then redoCount + 1 else redoCount)

/-- `Recover`: replay the whole log, then flush. -/
def recover (log : List LogRecord) : PoolM UInt32 := do
  let redoCount ← redoLog log 0
  flushAllPages
  return redoCount

/-! ## 2. Logged operations -/

/-- `LogNewPage` for the page that `NewPage` returned. -/
def loggedNewPage : PoolM (List LogRecord) := do
  match ← newPage with
  | some id =>
    let _ ← unpinPage id true
    return [.makeNewPage 0 id]
  | none => return []

/-- The bytes of the record that a delete or an update is about to replace. -/
def Page.oldData (page : Page) (slotId : UInt16) : RecordData :=
  ⟨((page.getRecord slotId).getD []).take (page.slot slotId).length.toNat,
    lt_of_le_of_lt (List.length_take_le _ _) (page.slot slotId).length.toNat_lt⟩

/-- `InsertRecord` with its log record, which names the slot that `InsertRecord` returns. -/
def Page.loggedInsert (id : PageId) (data : RecordData) (page : Page) : List LogRecord × Page :=
  match page.insertRecord (.data data) with
  | (some slotId, page') => ([.makeInsert 0 id slotId data], page')
  | (none, page') => ([], page')

/-- `DeleteRecord` with its log record. -/
def Page.loggedDelete (id : PageId) (slotId : UInt16) (page : Page) : List LogRecord × Page :=
  match page.deleteRecord slotId with
  | (true, page') => ([.makeDelete 0 id slotId (page.oldData slotId)], page')
  | (false, page') => ([], page')

/-- `UpdateRecord` with its log record. -/
def Page.loggedUpdate (id : PageId) (slotId : UInt16) (data : RecordData) (page : Page) :
    List LogRecord × Page :=
  match page.updateRecord slotId data with
  | (true, page') => ([.makeUpdate 0 id slotId (page.oldData slotId) data], page')
  | (false, page') => ([], page')

/-- An operation of a client that logs what it does. -/
inductive LoggedOp
  | newPage
  | insert (id : PageId) (data : RecordData)
  | delete (id : PageId) (slotId : UInt16)
  | update (id : PageId) (slotId : UInt16) (data : RecordData)
deriving DecidableEq, Repr

/-- The operation as a program; it returns the records it logs.  An operation that its page
refuses is not logged. -/
def LoggedOp.program : LoggedOp → PoolM (List LogRecord)
  | newPage => loggedNewPage
  | insert id data => withPage id (Page.loggedInsert id data) []
  | delete id slotId => withPage id (Page.loggedDelete id slotId) []
  | update id slotId data => withPage id (Page.loggedUpdate id slotId data) []

/-! ## 3. The database in use -/

/-- A buffer pool and its log. -/
structure Database where
  pool : BufferPoolManager
  log : List LogRecord

namespace Database

/-- A new database file, with a pool of `n` frames and an empty log. -/
def create (n : Nat) : Database := ⟨.create n .initializeNewFile, []⟩

def step (d : Database) (op : LoggedOp) : Database where
  pool := (op.program.exec d.pool).2
  log := d.log ++ (op.program.exec d.pool).1

def run (d : Database) (ops : List LoggedOp) : Database := ops.foldl step d

/-- `Recover()`. -/
def recover (d : Database) : Database :=
  { d with pool := ((CourtDB.recover d.log).exec d.pool).2 }

/-- `Checkpoint()`. -/
def checkpoint (d : Database) : Database where
  pool := d.pool.flushAllPages
  log := d.log ++ [.makeCheckpointBegin 0] ++ [.makeCheckpointEnd 0 []]

/-- `LogManager::Truncate()`. -/
def truncate (d : Database) : Database := { d with log := [] }

/-- Flush all pages, close the pool, and open one of `n` frames over the same file. -/
def reopen (d : Database) (n : Nat) : Database := { d with pool := d.pool.reopen n }

/-- A crash that leaves the file `disk` and the log: the pool is lost, and one of `n` frames is
opened over the file. -/
def crash (d : Database) (disk : DiskManager) (n : Nat) : Database :=
  { d with pool := .create n disk }

end Database

end CourtDB
