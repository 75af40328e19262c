import Kvdb.Checkpoint
import Kvdb.LockManager

/-!
# The server

The state of a running server and its steps. Any number of sessions are connected; each has a `TransactionManager`
and a thread that handles its commands one after the other. The flush worker is one more thread. A thread's program
counter (`Pc`, `CheckpointPc`, `WorkerPc`) says which of its next effects on shared data comes next, and one step of
the machine is one such effect together with the thread's own computation around it: a critical section of a mutex, an
access to the store, an operation on a file. `Store::get`, `put` and `delete_key` take no mutex in the source: that two
accesses to the store do not overlap is an assumption here.

`step s a` gives the state after the action `a` and the events it emits; a run of the server is any sequence of
enabled actions. Events are the history that statements about runs speak of and have no influence on the steps.

The pointers that `setGlobalReferences` and `initAfterConstruction` set are never null in a running server, so the
branches that test them are left out. The commands that only print are in `Kvdb.Protocol`.
-/

namespace Kvdb

open Std

/-! ## Transactions -/

/-- `TransactionInfo`; the defaults are those of `TransactionInfo{}`. -/
structure TransactionInfo where
  txnId : TxnId := 0
  isolationLevel : IsolationLevel := .readCommitted
  state : TxnState := .idle
  pendingBuffer : PendingBuffer := ∅
  locksHeld : ExtTreeMap Key LockMode := ∅

/-- What `TransactionManager::get` answers. -/
inductive GetReply
  | value (value : Value)
  | deletedInTxn
  | notFound
  deriving DecidableEq, Repr

/-- The errors of the transaction manager, apart from the two answers of `get`. -/
inductive TxnError
  | alreadyInTransaction (txnId : TxnId)
  | notInTransaction
  | deadlock
  deriving DecidableEq, Repr

def TxnError.message : TxnError → String
  | .alreadyInTransaction txnId => "Already in transaction (txn " ++ toString txnId.toNat ++ ")"
  | .notInTransaction => "Not in transaction"
  | .deadlock => "Deadlock detected, transaction aborted"

/-- The part of `get` between the lock and its release: the pending buffer first, then the store. -/
def readKey (pendingBuffer : PendingBuffer) (store : Store) (key : Key) : GetReply :=
  match pendingBuffer[key]? with
  | some (value, isDeleted) => if isDeleted then .deletedInTxn else .value value
  | none =>
    match store.get key with
    | some value => .value value
    | none => .notFound

/-- The call that asks for a lock. -/
inductive LockOp
  | put (value : Value)
  | delete
  | get
  deriving DecidableEq, Repr

def LockOp.mode : LockOp → LockMode
  | .put _ => .exclusive
  | .delete => .exclusive
  | .get => .shared

/-- A completed call of `put`, `delete_key` or `get`. -/
inductive Op
  | put (key : Key) (value : Value)
  | delete (key : Key)
  | get (key : Key) (reply : GetReply)
  deriving DecidableEq, Repr

/-! ## Threads -/

/-- Why a transaction is aborted. -/
inductive AbortCause
  | command
  | deadlock
  | quit
  deriving DecidableEq, Repr

/-- Where `handleCheckpoint` is. -/
inductive CheckpointPc
  | check
  | fsyncWal
  | readLsn
  | openTmp (lsn : Nat)
  | copyStore (lsn file : Nat)
  | writeTmp (lsn file : Nat) (entries : List (Key × Value))
  | fsyncTmp (lsn : Nat)
  | rename (lsn : Nat)
  | readWal (lsn : Nat)
  | truncate (remaining : Bytes)
  | rewrite (remaining : Bytes)
  | fsyncRewritten
  deriving DecidableEq, Repr

/-- Where a session's thread is. -/
inductive Pc
  /-- Waiting for the next command. -/
  | idle
  /-- `begin`: `logBegin` comes next. -/
  | logBegin
  /-- `acquireLock`: waiting for a grant or the timeout. -/
  | waitLock (op : LockOp) (key : Key) (flags : Nat)
  /-- `get`: the lock is held, the read comes next. -/
  | reading (key : Key)
  /-- `get` at `READ_COMMITTED`: `releaseLock` comes next. -/
  | releasing (key : Key)
  /-- `commit`: the records of these entries come next, then the `COMMIT` record. -/
  | logWrites (writes : List Write)
  /-- `waitForCommit`: `mtx_` is to be locked, for the first time or after a wake-up. -/
  | enterWait (lsn : Nat)
  /-- `waitForCommit`: `mtx_` is held, the predicate comes next. -/
  | checkFlushed (lsn : Nat)
  /-- `waitForCommit`: the predicate was false, `mtx_` is still held. -/
  | aboutToBlock (lsn : Nat)
  /-- `waitForCommit`: blocked on `cv_`. -/
  | blocked (lsn : Nat)
  /-- `applyPendingBuffer`: these entries come next, then `releaseAllLocks`. -/
  | applying (lsn : Nat) (writes : List Write)
  /-- `commit`: the locks are released, the transaction is still current. -/
  | commitReset (lsn : Nat)
  /-- `abort`: `logAbort` comes next. -/
  | logAbort (cause : AbortCause)
  /-- `abort`: `releaseAllLocks` comes next. -/
  | abortRelease (cause : AbortCause)
  /-- `abort`: the locks are released, the transaction is still current. -/
  | abortReset (cause : AbortCause)
  | checkpoint (pc : CheckpointPc)
  /-- The connection is over. -/
  | closed
  deriving DecidableEq, Repr

structure Session where
  txn : TransactionInfo := {}
  pc : Pc := .idle

/-- Where the flush worker is in `flushOnce`; `batch` is its local `records`. -/
inductive WorkerPc
  | sleeping
  | writing (batch rest : List Bytes)
  | fsyncing (batch : List Bytes)
  | updating (batch : List Bytes)
  | notifying
  deriving DecidableEq, Repr

/-- The stream `log_file_`: whether it could be opened, whether a write has failed, and what it buffers. -/
structure LogFile where
  isOpen : Bool := true
  bad : Bool := false
  pending : Bytes := []
  deriving DecidableEq, Repr

/-! ## States, actions and events -/

structure State where
  store : Store := ∅
  locks : LockManager := {}
  wal : WALManager := {}
  logFile : LogFile := {}
  disk : Disk := {}
  worker : WorkerPc := .sleeping
  /-- The session that holds the group-commit mutex `mtx_`. -/
  mtx : Option SessionId := none
  nextTxnId : TxnId := 1
  sessionCount : Nat := 0
  sessions : SessionId → Session := fun _ => {}
  /-- An exception that nothing catches ends the process. -/
  alive : Bool := true

/-- A new server over a recovered store: `WALManager` opens the log to append. -/
def Server.boot (d : Disk) (store : Store) : State :=
  { store := store, disk := { d with walLog := some (d.walLog.getD []) } }

/-- A new server whose log file cannot be opened. -/
def Server.bootUnopened (d : Disk) (store : Store) : State :=
  { store := store, disk := d, logFile := { isOpen := false } }

/-- A server that has just been started over the store `st`. -/
inductive Server.Initial (st : Store) : State → Prop
  | opened (d : Disk) : Initial st (Server.boot d st)
  | unopened (d : Disk) : Initial st (Server.bootUnopened d st)

inductive Command
  | begin (level : IsolationLevel)
  | put (key : Key) (value : Value)
  | get (key : Key)
  | delete (key : Key)
  | commit
  | abort
  | checkpoint
  | quit
  deriving DecidableEq, Repr

inductive Action
  | connect
  | command (sid : SessionId) (cmd : Command)
  /-- The session's thread takes its next step. -/
  | thread (sid : SessionId)
  /-- `getAllEntries` of a checkpoint, with the order in which the copy will be iterated. -/
  | copyStore (sid : SessionId) (entries : List (Key × Value))
  /-- The file operation the session's thread is at fails after `n` bytes. -/
  | threadFault (sid : SessionId) (n : Nat)
  | worker
  /-- The write or flush the worker is at fails after `n` bytes. -/
  | workerFault (n : Nat)
  /-- The client goes away without `QUIT`. -/
  | disconnect (sid : SessionId)
  deriving DecidableEq, Repr

inductive Event
  | began (sid : SessionId) (txnId : TxnId) (level : IsolationLevel)
  | done (sid : SessionId) (txnId : TxnId) (op : Op)
  | failed (sid : SessionId) (error : TxnError)
  | logged (record : WALRecord)
  /-- The `COMMIT` record is logged; the writes are the pending buffer. -/
  | committed (sid : SessionId) (lsn : Nat) (txnId : TxnId) (writes : List Write)
  /-- `waitForCommit(lsn)` returns. -/
  | waited (sid : SessionId) (lsn : Nat)
  /-- `commit` returns and is answered `committed`. -/
  | acked (sid : SessionId) (lsn : Nat) (txnId : TxnId)
  /-- The bytes have reached the log file. -/
  | flushed (bytes : Bytes)
  deriving DecidableEq, Repr

namespace State

def setSession (s : State) (sid : SessionId) (σ : Session) : State :=
  { s with sessions := Function.update s.sessions sid σ }

def setPc (s : State) (sid : SessionId) (pc : Pc) : State := s.setSession sid { s.sessions sid with pc := pc }

def setTxn (s : State) (sid : SessionId) (txn : TransactionInfo) (pc : Pc) : State := s.setSession sid ⟨txn, pc⟩

end State

/-! ## Locks -/

/-- `current_txn_` after `put` or `delete_key` has its lock, or `get` before it reads. -/
def TransactionInfo.withLock (txn : TransactionInfo) (op : LockOp) (key : Key) : TransactionInfo :=
  match op with
  | .put value =>
    { txn with
      locksHeld := txn.locksHeld.insert key .exclusive
      pendingBuffer := txn.pendingBuffer.insert key (value, false) }
  | .delete =>
    { txn with
      locksHeld := txn.locksHeld.insert key .exclusive
      pendingBuffer := txn.pendingBuffer.insert key ([], true) }
  | .get => { txn with locksHeld := txn.locksHeld.insert key .shared }

/-- The call goes on after `acquireLock` has returned `true`. -/
def lockAcquired (s : State) (sid : SessionId) (op : LockOp) (key : Key) : State × List Event :=
  let txn := (s.sessions sid).txn
  match op with
  | .put value => (s.setTxn sid (txn.withLock op key) .idle, [.done sid txn.txnId (.put key value)])
  | .delete => (s.setTxn sid (txn.withLock op key) .idle, [.done sid txn.txnId (.delete key)])
  | .get => (s.setTxn sid (txn.withLock op key) (.reading key), [])

/-- `put`, `delete_key` and `get` up to the return or the wait of `acquireLock`. -/
def requestLock (s : State) (sid : SessionId) (op : LockOp) (key : Key) : State × List Event :=
  let σ := s.sessions sid
  if σ.txn.state ≠ .active then (s, [.failed sid .notInTransaction])
  else
    let r := s.locks.acquireLock σ.txn.txnId key op.mode
    match r.2 with
    | .granted => lockAcquired { s with locks := r.1 } sid op key
    | .waiting flags => ({ s with locks := r.1 }.setPc sid (.waitLock op key flags), [])

/-! ## Commands -/

def hasActiveTransactions (s : State) : Bool :=
  (List.range s.sessionCount).any fun sid => (s.sessions sid).txn.state = .active

/-- `begin` up to `logBegin`; `allocateTxnId` wraps around. -/
def beginTxn (s : State) (sid : SessionId) (level : IsolationLevel) : State × List Event :=
  let txn := (s.sessions sid).txn
  if txn.state = .active then (s, [.failed sid (.alreadyInTransaction txn.txnId)])
  else
    let newId := s.nextTxnId
    ({ s with nextTxnId := newId + 1 }.setTxn sid
      { txnId := newId, isolationLevel := level, state := .active } .logBegin, [.began sid newId level])

/-- An idle session's thread takes a command. -/
def handleCommand (s : State) (sid : SessionId) (cmd : Command) : State × List Event :=
  let txn := (s.sessions sid).txn
  match cmd with
  | .begin level => beginTxn s sid level
  | .put key value => requestLock s sid (.put value) key
  | .get key => requestLock s sid .get key
  | .delete key => requestLock s sid .delete key
  | .commit =>
    if txn.state ≠ .active then (s, [.failed sid .notInTransaction])
    else (s.setPc sid (.logWrites txn.pendingBuffer.toList), [])
  | .abort =>
    if txn.state ≠ .active then (s, [.failed sid .notInTransaction]) else (s.setPc sid (.logAbort .command), [])
  | .checkpoint => (s.setPc sid (.checkpoint .check), [])
  | .quit => (s.setPc sid (if txn.state = .active then .logAbort .quit else .closed), [])

/-! ## Checkpoints -/

/-- The file after `bytes` are written at its start through a handle that did not open it to append. -/
def overwrite (file bytes : Bytes) : Bytes := bytes ++ file.drop bytes.length

namespace Disk

/-- Open `data/data.db.tmp`, truncated: the disk and the file that the handle refers to. -/
def openTmp (d : Disk) : Disk × Nat :=
  match d.dataDbTmp with
  | some file => ({ d with snapshots := d.snapshots.set file [] }, file)
  | none => ({ d with snapshots := d.snapshots ++ [[]], dataDbTmp := some d.snapshots.length }, d.snapshots.length)

def writeSnapshot (d : Disk) (file : Nat) (bytes : Bytes) : Disk :=
  { d with snapshots := d.snapshots.modify file (overwrite · bytes) }

def fsyncWal (d : Disk) : Disk :=
  match d.walLog with
  | some file => { d with walSynced := file }
  | none => d

end Disk

/-- A step of `handleCheckpoint` and the functions it calls. -/
def checkpointStep (s : State) (sid : SessionId) : CheckpointPc → Option State
  | .check => some (s.setPc sid (if hasActiveTransactions s then .idle else .checkpoint .fsyncWal))
  | .fsyncWal => some ({ s with disk := s.disk.fsyncWal }.setPc sid (.checkpoint .readLsn))
  | .readLsn => some (s.setPc sid (.checkpoint (.openTmp s.wal.flushedLsn)))
  | .openTmp lsn =>
    let r := s.disk.openTmp
    some ({ s with disk := r.1 }.setPc sid (.checkpoint (.copyStore lsn r.2)))
  | .copyStore _ _ => none
  | .writeTmp lsn file entries =>
    some ({ s with disk := s.disk.writeSnapshot file (snapshotBytes lsn entries) }.setPc sid
      (.checkpoint (.fsyncTmp lsn)))
  | .fsyncTmp lsn => some (s.setPc sid (.checkpoint (.rename lsn)))
  | .rename lsn =>
    match s.disk.dataDbTmp with
    | some file =>
      some ({ s with disk := { s.disk with dataDb := some file, dataDbTmp := none } }.setPc sid
        (.checkpoint (.readWal lsn)))
    -- `std::filesystem::rename` throws
    | none => some { s with alive := false }
  | .readWal lsn =>
    match s.disk.walLog with
    | some file => some (s.setPc sid (.checkpoint (.truncate (truncateWAL lsn file))))
    | none => some (s.setPc sid .idle)
  | .truncate remaining =>
    some ({ s with disk := { s.disk with walLog := some [] } }.setPc sid (.checkpoint (.rewrite remaining)))
  | .rewrite remaining =>
    some ({ s with disk := { s.disk with walLog := s.disk.walLog.map (overwrite · remaining) } }.setPc sid
      (.checkpoint .fsyncRewritten))
  | .fsyncRewritten => some ({ s with disk := s.disk.fsyncWal }.setPc sid .idle)

/-- A file operation of a checkpoint that fails after `n` bytes. No caller looks at the outcome. -/
def checkpointFault (s : State) (sid : SessionId) (n : Nat) : CheckpointPc → Option State
  | .openTmp lsn => some (s.setPc sid (.checkpoint (.fsyncTmp lsn)))
  | .writeTmp lsn file entries =>
    some ({ s with disk := s.disk.writeSnapshot file ((snapshotBytes lsn entries).take n) }.setPc sid
      (.checkpoint (.fsyncTmp lsn)))
  | .truncate _ => some (s.setPc sid .idle)
  | .rewrite remaining =>
    some ({ s with disk := { s.disk with walLog := s.disk.walLog.map (overwrite · (remaining.take n)) } }.setPc sid
      (.checkpoint .fsyncRewritten))
  | _ => none

/-! ## Session threads -/

/-- The record `commit` logs for an entry of the pending buffer. -/
def WALManager.logWrite (wal : WALManager) (txnId : TxnId) (w : Write) : WALManager × WALRecord :=
  if w.2.2 then wal.logDelete txnId w.1 else wal.logPut txnId w.1 w.2.1

/-- The next step of a session's thread. -/
def threadStep (s : State) (sid : SessionId) : Option (State × List Event) :=
  let σ := s.sessions sid
  let txn := σ.txn
  match σ.pc with
  | .idle => none
  | .logBegin =>
    let r := s.wal.logBegin txn.txnId
    some ({ s with wal := r.1 }.setPc sid .idle, [.logged r.2])
  | .waitLock op key flags =>
    let r := s.locks.finishWait txn.txnId key flags
    if r.2 then some (lockAcquired { s with locks := r.1 } sid op key)
    else some ({ s with locks := r.1 }.setPc sid (.logAbort .deadlock), [])
  | .reading key =>
    let reply := readKey txn.pendingBuffer s.store key
    let pc : Pc := if txn.isolationLevel = .readCommitted then .releasing key else .idle
    some (s.setPc sid pc, [.done sid txn.txnId (.get key reply)])
  | .releasing key =>
    some ({ s with locks := s.locks.releaseLock txn.txnId key }.setTxn sid
      { txn with locksHeld := txn.locksHeld.erase key } .idle, [])
  | .logWrites (w :: writes) =>
    let r := s.wal.logWrite txn.txnId w
    some ({ s with wal := r.1 }.setPc sid (.logWrites writes), [.logged r.2])
  | .logWrites [] =>
    let r := s.wal.logCommit txn.txnId
    some ({ s with wal := r.1 }.setPc sid (.enterWait r.2.lsn),
      [.logged r.2, .committed sid r.2.lsn txn.txnId txn.pendingBuffer.toList])
  | .enterWait lsn =>
    match s.mtx with
    | none => some ({ s with mtx := some sid }.setPc sid (.checkFlushed lsn), [])
    | some _ => none
  | .checkFlushed lsn =>
    if s.wal.flushedLsn ≥ lsn then
      some ({ s with mtx := none }.setPc sid (.applying lsn txn.pendingBuffer.toList), [.waited sid lsn])
    else some (s.setPc sid (.aboutToBlock lsn), [])
  | .aboutToBlock lsn => some ({ s with mtx := none }.setPc sid (.blocked lsn), [])
  -- a wake-up that no notification caused
  | .blocked lsn => some (s.setPc sid (.enterWait lsn), [])
  | .applying lsn (w :: writes) =>
    some ({ s with store := applyWrite s.store w }.setPc sid (.applying lsn writes), [])
  | .applying lsn [] =>
    some ({ s with locks := s.locks.releaseAllLocks txn.txnId }.setTxn sid { txn with pendingBuffer := ∅ }
      (.commitReset lsn), [])
  | .commitReset lsn => some (s.setTxn sid {} .idle, [.acked sid lsn txn.txnId])
  | .logAbort cause =>
    let r := s.wal.logAbort txn.txnId
    some ({ s with wal := r.1 }.setTxn sid { txn with pendingBuffer := ∅ } (.abortRelease cause), [.logged r.2])
  | .abortRelease cause =>
    some ({ s with locks := s.locks.releaseAllLocks txn.txnId }.setPc sid (.abortReset cause), [])
  | .abortReset cause =>
    some (s.setTxn sid {} (if cause = .quit then .closed else .idle),
      if cause = .deadlock then [.failed sid .deadlock] else [])
  | .checkpoint pc => (checkpointStep s sid pc).map fun s' => (s', [])
  | .closed => none

/-! ## The flush worker -/

/-- `log_file_.write(rec)`, of which `n` bytes get through when it fails. -/
def LogFile.write (f : LogFile) (record : Bytes) (fault : Option Nat) : LogFile :=
  if f.bad then f
  else
    match fault with
    | none => { f with pending := f.pending ++ record }
    | some n => { f with pending := f.pending ++ record.take n, bad := true }

/-- The bytes `log_file_.flush()` puts into the file. -/
def LogFile.flushed (f : LogFile) (fault : Option Nat) : Bytes :=
  if f.bad then []
  else
    match fault with
    | none => f.pending
    | some n => f.pending.take n

def LogFile.flush (f : LogFile) (fault : Option Nat) : LogFile :=
  if f.bad then f else { f with pending := [], bad := fault.isSome }

/-- `cv_.notify_all()`. -/
def Session.notified (σ : Session) : Session :=
  match σ.pc with
  | .blocked lsn => { σ with pc := .enterWait lsn }
  | _ => σ

/-- The next step of the flush worker; `fault` says after how many bytes a write or flush fails. -/
def workerStep (s : State) (fault : Option Nat) : Option (State × List Event) :=
  match s.worker with
  | .sleeping =>
    let r := s.wal.fetchAndClearBuffer
    let worker : WorkerPc :=
      if r.2 = [] then .sleeping else if s.logFile.isOpen then .writing r.2 r.2 else .fsyncing r.2
    some ({ s with wal := r.1, worker := worker }, [])
  | .writing batch (record :: rest) =>
    some ({ s with
      logFile := s.logFile.write record fault
      wal := s.wal.noteWritten record
      worker := .writing batch rest }, [])
  | .writing batch [] =>
    let bytes := s.logFile.flushed fault
    some ({ s with
      logFile := s.logFile.flush fault
      disk := { s.disk with walLog := s.disk.walLog.map (· ++ bytes) }
      worker := .fsyncing batch }, [.flushed bytes])
  | .fsyncing batch => some ({ s with disk := s.disk.fsyncWal, worker := .updating batch }, [])
  | .updating batch =>
    match maxLSN batch with
    | some lsn => some ({ s with wal := s.wal.updateFlushedLSN lsn, worker := .notifying }, [])
    -- `parseLSN` throws
    | none => some ({ s with alive := false }, [])
  | .notifying => some ({ s with sessions := fun sid => (s.sessions sid).notified, worker := .sleeping }, [])

/-! ## Steps -/

def step (s : State) (a : Action) : Option (State × List Event) :=
  if s.alive then
    match a with
    | .connect => some ({ s with sessionCount := s.sessionCount + 1 }, [])
    | .command sid cmd =>
      if sid < s.sessionCount ∧ (s.sessions sid).pc = .idle then some (handleCommand s sid cmd) else none
    | .thread sid => threadStep s sid
    | .copyStore sid entries =>
      match (s.sessions sid).pc with
      | .checkpoint (.copyStore lsn file) =>
        if s.store.IsEntries entries then some (s.setPc sid (.checkpoint (.writeTmp lsn file entries)), []) else none
      | _ => none
    | .threadFault sid n =>
      match (s.sessions sid).pc with
      | .checkpoint pc => (checkpointFault s sid n pc).map fun s' => (s', [])
      | _ => none
    | .worker => workerStep s none
    | .workerFault n => workerStep s (some n)
    | .disconnect sid =>
      if sid < s.sessionCount ∧ (s.sessions sid).pc = .idle then some (s.setPc sid .closed, []) else none
  else none

end Kvdb
