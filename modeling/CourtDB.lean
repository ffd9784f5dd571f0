import CourtDB.Lib.Bytes
import CourtDB.Lib.Run
import CourtDB.Lib.RedoLog
import CourtDB.Storage.PageStore
import CourtDB.Storage.PageUpdate
import CourtDB.Storage.PageSpace
import CourtDB.Storage.Record
import CourtDB.Disk.CrashAtomic
import CourtDB.Buffer.Transparency
import CourtDB.Buffer.PoolAccess
import CourtDB.Buffer.LostFrames
import CourtDB.Buffer.Replacement
import CourtDB.Heap.CounterLimit
import CourtDB.Heap.RecordCounter
import CourtDB.Heap.FailedOps
import CourtDB.Heap.FramePressure
import CourtDB.Heap.SpaceReuse
import CourtDB.Heap.Reopen
import CourtDB.Index.InsertRefused
import CourtDB.Recovery.Idempotence
import CourtDB.Recovery.CrashImages
import CourtDB.Recovery.ZeroPages
import CourtDB.Recovery.LogCrash
import CourtDB.Recovery.LogDurability
import CourtDB.Recovery.LogCalls
import CourtDB.Recovery.ShortWrites
import CourtDB.Recovery.WriteAhead
import CourtDB.Recovery.CheckedRecovery
import CourtDB.Query.Executor
import CourtDB.Index.SiblingOrder
import CourtDB.Index.PinNeutral
import CourtDB.Index.NodeSearch
import CourtDB.Index.TreeHeight
import CourtDB.Query.StaleTuples
import CourtDB.Query.PlanPins
import CourtDB.Query.PlanRows
import CourtDB.Shared.PinLedger
import CourtDB.Shared.QueryPaths
import CourtDB.Shared.Restart
import CourtDB.Shared.LiveScans
import CourtDB.Shared.FrameDemand
