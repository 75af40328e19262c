import Kvdb.Lib.AtomicStore
import Kvdb.Lib.FinMap
import Kvdb.Lib.Frames
import Kvdb.Lib.InputStream
import Kvdb.Lib.LittleEndian
import Kvdb.Lib.Machine
import Kvdb.Lib.ShiftRegister
import Kvdb.Types
import Kvdb.LockManager
import Kvdb.Wal
import Kvdb.Recovery
import Kvdb.RecordFormat
import Kvdb.Checkpoint
import Kvdb.Truncation
import Kvdb.Server
import Kvdb.Moves
import Kvdb.Core
import Kvdb.History
import Kvdb.Steps
import Kvdb.LockTable
import Kvdb.Locking
import Kvdb.TxnIds
import Kvdb.Serial
import Kvdb.Replay
import Kvdb.ReferenceModel
import Kvdb.LogShape
import Kvdb.Pipeline
import Kvdb.Restart
import Kvdb.Snapshot
import Kvdb.Waiting
import Kvdb.DirtyReads
import Kvdb.Faults
import Kvdb.CheckpointFaults
import Kvdb.CheckpointSafety
import Kvdb.FileRoles
import Kvdb.TxnLog
import Kvdb.LockRuns
import Kvdb.LockCalls
import Kvdb.LockBooks
import Kvdb.LockOrder
import Kvdb.Protocol
import Kvdb.Connection
import Kvdb.Responses
import Kvdb.Dialogue
import Kvdb.EmptyResponse
import Kvdb.Framing
import Kvdb.Parser
import Kvdb.WritePaths
import Kvdb.ProductionClient
import Kvdb.ChaosClient
import Kvdb.Refinement
import Kvdb.CrashPoint
import Kvdb.Progress
import Kvdb.Deadlock
import Kvdb.Abandoned
import Kvdb.Wire
import Kvdb.OrderedLocking
import Kvdb.Partitioned
import Kvdb.LostUpdates
import Kvdb.ClosedLoop
