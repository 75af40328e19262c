import Kvdb.Lib.InputStream
import Kvdb.Wal
import Mathlib.Data.List.Sort
import Mathlib.Logic.Function.Basic

/-!
# Recovery

`recover` loads the snapshot, reads the log record by record until one is cut short or fails its CRC, groups the
operations by transaction id, sorts the commits by LSN and applies them. It reads with its own code what
`serializeRecord` and `writeSnapshotFile` write.

A variable that a short read leaves stale is never looked at: every path tests the stream before it uses one. The
loop over the records (`recordLoop`) and the bookkeeping for one record (`replayRecord`) are one loop in the source;
the records a turn accepts do not depend on the bookkeeping.
-/

namespace Kvdb

/-! ## Files -/

inductive FilePath
  | walLog
  | dataDb
  | dataDbTmp
  deriving DecidableEq, Repr

/-- The files of a server. Snapshot files are renamed while a handle to them may be open, so the two paths name
positions in the list of the snapshot files created so far. -/
structure Disk where
  walLog : Option Bytes := none
  /-- What the last `fsync` of the log made durable. -/
  walSynced : Bytes := []
  snapshots : List Bytes := []
  dataDb : Option Nat := none
  dataDbTmp : Option Nat := none
  deriving DecidableEq, Repr

/-- The contents of a file, if there is one. -/
def Disk.read (d : Disk) : FilePath → Option Bytes
  | .walLog => d.walLog
  | .dataDb => d.dataDb.bind (d.snapshots[·]?)
  | .dataDbTmp => d.dataDbTmp.bind (d.snapshots[·]?)

/-! ## The record loop -/

/-- A record the loop has read. Its type can be any byte. -/
structure ScannedRecord where
  lsn : Nat
  txnId : TxnId
  type : UInt8
  key : Key := []
  value : Value := []
  deriving DecidableEq, Repr

/-- A logged record as the loop should read it. -/
def WALRecord.scanned (r : WALRecord) : ScannedRecord := ⟨r.lsn, r.txnId, r.type.toByte, r.key, r.value⟩

/-- A length and as many bytes, as the readers take them. -/
def readStr (f : IStream) : Bytes × IStream :=
  let len := f.read 2
  len.2.read (leVal len.1)

/-- The payload depends on the type. -/
def readPayload (type : UInt8) (f : IStream) : Key × Value × IStream :=
  if type = RecordType.put.toByte then
    let key := readStr f
    let value := readStr key.2
    (key.1, value.1, value.2)
  else if type = RecordType.delete.toByte then
    let key := readStr f
    (key.1, [], key.2)
  else ([], [], f)

/-- The body `recover` rebuilds from what it has read to check the CRC. -/
def ScannedRecord.body (r : ScannedRecord) : Bytes :=
  let body := leBytes 8 r.lsn ++ leBytes 4 r.txnId.toNat ++ [r.type]
  if r.type = RecordType.put.toByte then
    body ++ leBytes 2 r.key.length ++ r.key ++ leBytes 2 r.value.length ++ r.value
  else if r.type = RecordType.delete.toByte then body ++ leBytes 2 r.key.length ++ r.key
  else body

/-- One turn of the loop: the record it accepts, or nothing when the loop breaks. -/
def readRecord (f : IStream) : Option (ScannedRecord × IStream) :=
  let crc := f.read 4
  if !crc.2.good then none
  else
    let lsn := crc.2.read 8
    let txnId := lsn.2.read 4
    let type := txnId.2.read 1
    if !type.2.good then none
    else
      let payload := readPayload (type.1.headD 0) type.2
      if !payload.2.2.good then none
      else
        let r : ScannedRecord :=
          ⟨leVal lsn.1, UInt32.ofNat (leVal txnId.1), type.1.headD 0, payload.1, payload.2.1⟩
        -- CRC mismatch, stopping
        if leVal crc.1 ≠ (crc32 r.body).toNat then none else some (r, payload.2.2)

/-- The records the loop accepts before it breaks, with fuel. -/
def recordLoop : Nat → IStream → List ScannedRecord
  | 0, _ => []
  | n + 1, f =>
    match readRecord f with
    | none => []
    | some (r, f') => r :: recordLoop n f'

/-- The records `recover` accepts in a log file. -/
def acceptedRecords (file : Bytes) : List ScannedRecord := recordLoop file.length ⟨file, true⟩

/-! ## Replay -/

inductive OperationType
  | put
  | delete
  deriving DecidableEq, Repr

structure Operation where
  type : OperationType
  key : Key
  value : Value
  deriving DecidableEq, Repr

/-- `RecoveryManager::TxnState`. -/
structure ReplayTxn where
  ops : List Operation := []
  committed : Bool := false
  commitLsn : Nat := 0
  deriving DecidableEq, Repr

/-- The map `txns`, whose `operator[]` makes a missing entry, and `commit_order`. -/
structure Replay where
  txns : TxnId → ReplayTxn := fun _ => {}
  commitOrder : List (TxnId × Nat) := []

/-- The rest of a turn of the loop: record what an accepted record says. -/
def replayRecord (checkpointLsn : Nat) (s : Replay) (r : ScannedRecord) : Replay :=
  -- skip already checkpointed
  if r.lsn ≤ checkpointLsn then s
  else
    let txn := s.txns r.txnId
    if r.type = RecordType.put.toByte then
      { s with txns := Function.update s.txns r.txnId { txn with ops := txn.ops ++ [⟨.put, r.key, r.value⟩] } }
    else if r.type = RecordType.delete.toByte then
      { s with txns := Function.update s.txns r.txnId { txn with ops := txn.ops ++ [⟨.delete, r.key, []⟩] } }
    else if r.type = RecordType.commit.toByte then
      { txns := Function.update s.txns r.txnId { txn with committed := true, commitLsn := r.lsn }
        commitOrder := s.commitOrder ++ [(r.txnId, r.lsn)] }
    else if r.type = RecordType.abort.toByte then
      { s with txns := Function.update s.txns r.txnId { txn with committed := false } }
    else s

def applyOperation (st : Store) (op : Operation) : Store :=
  match op.type with
  | .put => st.put op.key op.value
  | .delete => st.deleteKey op.key

/-- One turn of the loop over the sorted commits. -/
def applyCommitted (txns : TxnId → ReplayTxn) (st : Store) (entry : TxnId × Nat) : Store :=
  let txn := txns entry.1
  if txn.committed then txn.ops.foldl applyOperation st else st

/-- Steps 2 and 3 of `recover` on the accepted records. `std::sort` compares LSNs only; on equal ones it may leave
any order, here the order of the log. -/
def replayRecords (checkpointLsn : Nat) (st : Store) (records : List ScannedRecord) : Store :=
  let s := records.foldl (replayRecord checkpointLsn) {}
  (s.commitOrder.insertionSort fun a b => a.2 ≤ b.2).foldl (applyCommitted s.txns) st

/-! ## The snapshot -/

def snapshotMagic : Nat := 0x4B564442

/-- The loop over the entries; it returns at a corrupted entry and keeps what it has put. -/
def loadEntries : Nat → IStream → Store → Store
  | 0, _, st => st
  | n + 1, f, st =>
    let key := readStr f
    let value := readStr key.2
    if !value.2.good then st else loadEntries n value.2 (st.put key.1 value.1)

/-- The store and `checkpoint_lsn_` after `loadSnapshot`. -/
def loadSnapshot (file : Option Bytes) (st : Store) : Store × Nat :=
  match file with
  | none => (st, 0)
  | some bytes =>
    let magic := IStream.read ⟨bytes, true⟩ 4
    let version := magic.2.read 4
    let checkpointLsn := version.2.read 8
    let count := checkpointLsn.2.read 8
    if !count.2.good ∨ leVal magic.1 ≠ snapshotMagic then (st, 0)
    else (loadEntries (leVal count.1) count.2 st, leVal checkpointLsn.1)

/-! ## The recovery manager -/

structure RecoveryManager where
  dataFile : FilePath
  walFile : FilePath
  deriving DecidableEq, Repr

def RecoveryManager.recover (rm : RecoveryManager) (d : Disk) (st : Store) : Store :=
  let snapshot := loadSnapshot (d.read rm.dataFile) st
  match d.read rm.walFile with
  | none => snapshot.1
  | some file => replayRecords snapshot.2 snapshot.1 (acceptedRecords file)

/-- A log that does not exist is as good as an empty one. -/
theorem RecoveryManager.recover_eq (rm : RecoveryManager) (d : Disk) (st : Store) :
    rm.recover d st = replayRecords (loadSnapshot (d.read rm.dataFile) st).2 (loadSnapshot (d.read rm.dataFile) st).1
      (acceptedRecords ((d.read rm.walFile).getD [])) := by
  unfold recover
  cases d.read rm.walFile <;> rfl

/-- Recovery reads two files and nothing else of the disk. -/
theorem RecoveryManager.recover_congr (rm : RecoveryManager) {d d' : Disk}
    (hdata : d'.read rm.dataFile = d.read rm.dataFile) (hwal : d'.read rm.walFile = d.read rm.walFile) (st : Store) :
    rm.recover d' st = rm.recover d st := by
  unfold recover
  rw [hdata, hwal]

/-- The roles the constructor declares: `data_file` first, then `wal_file`. -/
def RecoveryManager.declared : RecoveryManager := ⟨.dataDb, .walLog⟩

/-- The recovery phase of `Server::start`: `RecoveryManager recovery(store_, "wal/wal.log", "data/data.db")`. -/
def Server.start (d : Disk) : Store := RecoveryManager.recover ⟨.walLog, .dataDb⟩ d ∅

end Kvdb
