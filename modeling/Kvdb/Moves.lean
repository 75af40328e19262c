import Kvdb.Server

/-!
# The branches of a step

What `handleCommand`, the threads of sessions and `handleCheckpoint` can do, one constructor for each branch with its
conditions and the state it leads to. `step_move` says that a step is one of them; what is proved about all steps goes
through the branches from here on, and not through the functions.
-/

namespace Kvdb

/-! ## Sessions -/

section Sessions

variable {i j : SessionId}

@[simp] theorem pc_setPc (s : State) (i : SessionId) (pc : Pc) : ((s.setPc i pc).sessions i).pc = pc := by
  simp [State.setPc, State.setSession]

@[simp] theorem txn_setPc (s : State) (i : SessionId) (pc : Pc) :
    ((s.setPc i pc).sessions i).txn = (s.sessions i).txn := by
  simp [State.setPc, State.setSession]

@[simp] theorem sessions_setTxn (s : State) (i : SessionId) (txn : TransactionInfo) (pc : Pc) :
    (s.setTxn i txn pc).sessions i = ⟨txn, pc⟩ := Function.update_self ..

theorem sessions_setPc_of_ne (h : j ≠ i) (s : State) (pc : Pc) :
    (s.setPc i pc).sessions j = s.sessions j := Function.update_of_ne h ..

end Sessions

/-! ## Commands -/

/-- Where `put`, `delete_key` and `get` go on when they have the lock. -/
def LockOp.resume (key : Key) : LockOp → Pc
  | .get => .reading key
  | .put _ | .delete => .idle

/-- The command that asks for the lock. -/
def LockOp.command (key : Key) : LockOp → Command
  | .put value => .put key value
  | .get => .get key
  | .delete => .delete key

/-- The call that is over when `acquireLock` returns `true`. -/
def lockedEvents (i : SessionId) (t : TxnId) (op : LockOp) (key : Key) : List Event :=
  match op with
  | .put value => [.done i t (.put key value)]
  | .delete => [.done i t (.delete key)]
  | .get => []

theorem lockAcquired_eq (s : State) (i : SessionId) (op : LockOp) (key : Key) :
    lockAcquired s i op key = (s.setTxn i ((s.sessions i).txn.withLock op key) (op.resume key),
      lockedEvents i (s.sessions i).txn.txnId op key) := by
  cases op <;> rfl

/-- The branches of `handleCommand`. -/
inductive CommandMove (s : State) (i : SessionId) (cmd : Command) : State → List Event → Prop
  | alreadyInTransaction (level : IsolationLevel) : cmd = .begin level → (s.sessions i).txn.state = .active →
      CommandMove s i cmd s [.failed i (.alreadyInTransaction (s.sessions i).txn.txnId)]
  | notInTransaction : (∀ level, cmd ≠ .begin level) → (s.sessions i).txn.state ≠ .active →
      CommandMove s i cmd s [.failed i .notInTransaction]
  | begin (level : IsolationLevel) : cmd = .begin level → (s.sessions i).txn.state ≠ .active →
      CommandMove s i cmd
        ({ s with nextTxnId := s.nextTxnId + 1 }.setTxn i
          { txnId := s.nextTxnId, isolationLevel := level, state := .active } .logBegin)
        [.began i s.nextTxnId level]
  | granted (op : LockOp) (key : Key) (locks : LockManager) : cmd = op.command key →
      (s.sessions i).txn.state = .active →
      s.locks.acquireLock (s.sessions i).txn.txnId key op.mode = (locks, .granted) →
      CommandMove s i cmd
        ({ s with locks := locks }.setTxn i ((s.sessions i).txn.withLock op key) (op.resume key))
        (lockedEvents i (s.sessions i).txn.txnId op key)
  | queued (op : LockOp) (key : Key) (locks : LockManager) (flags : Nat) : cmd = op.command key →
      (s.sessions i).txn.state = .active →
      s.locks.acquireLock (s.sessions i).txn.txnId key op.mode = (locks, .waiting flags) →
      CommandMove s i cmd ({ s with locks := locks }.setPc i (.waitLock op key flags)) []
  | commit : cmd = .commit → (s.sessions i).txn.state = .active →
      CommandMove s i cmd (s.setPc i (.logWrites (s.sessions i).txn.pendingBuffer.toList)) []
  | abort : cmd = .abort → (s.sessions i).txn.state = .active → CommandMove s i cmd (s.setPc i (.logAbort .command)) []
  | checkpoint : cmd = .checkpoint → CommandMove s i cmd (s.setPc i (.checkpoint .check)) []
  | quitActive : cmd = .quit → (s.sessions i).txn.state = .active → CommandMove s i cmd (s.setPc i (.logAbort .quit)) []
  | quit : cmd = .quit → (s.sessions i).txn.state ≠ .active → CommandMove s i cmd (s.setPc i .closed) []

theorem requestLock_move (s : State) (i : SessionId) (op : LockOp) (key : Key) :
    CommandMove s i (op.command key) (requestLock s i op key).1 (requestLock s i op key).2 := by
  dsimp only [requestLock]
  split
  · exact .notInTransaction (by cases op <;> simp [LockOp.command]) ‹_›
  · rename_i hactive
    generalize hr : s.locks.acquireLock (s.sessions i).txn.txnId key op.mode = r
    obtain ⟨locks, out⟩ := r
    cases out with
    | granted =>
      dsimp only
      rw [lockAcquired_eq]
      exact .granted op key locks rfl (not_not.mp hactive) hr
    | waiting flags => exact .queued op key locks flags rfl (not_not.mp hactive) hr

theorem handleCommand_move (s : State) (i : SessionId) (cmd : Command) :
    CommandMove s i cmd (handleCommand s i cmd).1 (handleCommand s i cmd).2 := by
  cases cmd with
  | begin level =>
    dsimp only [handleCommand, beginTxn]
    split
    · exact .alreadyInTransaction level rfl ‹_›
    · exact .begin level rfl ‹_›
  | put key value => exact requestLock_move s i (.put value) key
  | get key => exact requestLock_move s i .get key
  | delete key => exact requestLock_move s i .delete key
  | commit =>
    dsimp only [handleCommand]
    split
    · exact .notInTransaction (by simp) ‹_›
    · exact .commit rfl (not_not.mp ‹_›)
  | abort =>
    dsimp only [handleCommand]
    split
    · exact .notInTransaction (by simp) ‹_›
    · exact .abort rfl (not_not.mp ‹_›)
  | checkpoint => exact .checkpoint rfl
  | quit =>
    dsimp only [handleCommand]
    split
    · exact .quitActive rfl ‹_›
    · exact .quit rfl ‹_›

/-! ## Checkpoints -/

/-- What a step inside `handleCheckpoint` can change besides the session's place in it: the disk, or it throws. -/
inductive CheckpointEffect (s : State) (i : SessionId) : State → Prop
  | next (disk : Disk) (pc : CheckpointPc) : CheckpointEffect s i ({ s with disk := disk }.setPc i (.checkpoint pc))
  | done (disk : Disk) : CheckpointEffect s i ({ s with disk := disk }.setPc i .idle)
  | throw : CheckpointEffect s i { s with alive := false }

theorem checkpointStep_effect {s s' : State} {i : SessionId} {pc : CheckpointPc} (h : checkpointStep s i pc = some s') :
    CheckpointEffect s i s' := by
  cases pc <;> simp only [checkpointStep] at h
  case check =>
    cases h
    split
    · exact .done s.disk
    · exact .next s.disk _
  case copyStore => cases h
  case rename =>
    split at h <;> cases h
    · exact .next _ _
    · exact .throw
  case readWal =>
    split at h <;> cases h
    · exact .next s.disk _
    · exact .done s.disk
  case fsyncRewritten => cases h; exact .done _
  all_goals cases h; exact .next _ _

theorem checkpointFault_effect {s s' : State} {i : SessionId} {n : Nat} {pc : CheckpointPc}
    (h : checkpointFault s i n pc = some s') : CheckpointEffect s i s' := by
  cases pc <;> simp only [checkpointFault] at h <;> cases h
  case openTmp => exact .next s.disk _
  case truncate => exact .done s.disk
  all_goals exact .next _ _

/-! ## Threads -/

/-- The record of an entry of a pending buffer. -/
def Write.record (lsn : Nat) (t : TxnId) (w : Write) : WALRecord :=
  if w.2.2 then ⟨lsn, t, .delete, w.1, []⟩ else ⟨lsn, t, .put, w.1, w.2.1⟩

theorem logWrite_eq (wal : WALManager) (t : TxnId) (w : Write) :
    wal.logWrite t w = (wal.log (w.record wal.nextLsn t), w.record wal.nextLsn t) := by
  obtain ⟨key, value, _ | _⟩ := w <;> rfl

/-- The branches of `threadStep`, by the place the thread is at. -/
inductive ThreadMove (s : State) (i : SessionId) : Pc → State → List Event → Prop
  | logBegin : ThreadMove s i .logBegin
      ({ s with wal := s.wal.log ⟨s.wal.nextLsn, (s.sessions i).txn.txnId, .begin, [], []⟩ }.setPc i .idle)
      [.logged ⟨s.wal.nextLsn, (s.sessions i).txn.txnId, .begin, [], []⟩]
  | waitGranted (op : LockOp) (key : Key) (flags : Nat) (locks : LockManager) :
      s.locks.finishWait (s.sessions i).txn.txnId key flags = (locks, true) →
      ThreadMove s i (.waitLock op key flags)
        ({ s with locks := locks }.setTxn i ((s.sessions i).txn.withLock op key) (op.resume key))
        (lockedEvents i (s.sessions i).txn.txnId op key)
  | waitFailed (op : LockOp) (key : Key) (flags : Nat) (locks : LockManager) :
      s.locks.finishWait (s.sessions i).txn.txnId key flags = (locks, false) →
      ThreadMove s i (.waitLock op key flags) ({ s with locks := locks }.setPc i (.logAbort .deadlock)) []
  | read (key : Key) : ThreadMove s i (.reading key)
      (s.setPc i (if (s.sessions i).txn.isolationLevel = .readCommitted then .releasing key else .idle))
      [.done i (s.sessions i).txn.txnId (.get key (readKey (s.sessions i).txn.pendingBuffer s.store key))]
  | release (key : Key) : ThreadMove s i (.releasing key)
      ({ s with locks := s.locks.releaseLock (s.sessions i).txn.txnId key }.setTxn i
        { (s.sessions i).txn with locksHeld := (s.sessions i).txn.locksHeld.erase key } .idle) []
  | logWrite (w : Write) (ws : List Write) : ThreadMove s i (.logWrites (w :: ws))
      ({ s with wal := s.wal.log (w.record s.wal.nextLsn (s.sessions i).txn.txnId) }.setPc i (.logWrites ws))
      [.logged (w.record s.wal.nextLsn (s.sessions i).txn.txnId)]
  | logCommit : ThreadMove s i (.logWrites [])
      ({ s with wal := s.wal.log ⟨s.wal.nextLsn, (s.sessions i).txn.txnId, .commit, [], []⟩ }.setPc i
        (.enterWait s.wal.nextLsn))
      [.logged ⟨s.wal.nextLsn, (s.sessions i).txn.txnId, .commit, [], []⟩,
        .committed i s.wal.nextLsn (s.sessions i).txn.txnId (s.sessions i).txn.pendingBuffer.toList]
  | enterWait (lsn : Nat) : s.mtx = none →
      ThreadMove s i (.enterWait lsn) ({ s with mtx := some i }.setPc i (.checkFlushed lsn)) []
  | flushed (lsn : Nat) : lsn ≤ s.wal.flushedLsn → ThreadMove s i (.checkFlushed lsn)
      ({ s with mtx := none }.setPc i (.applying lsn (s.sessions i).txn.pendingBuffer.toList)) [.waited i lsn]
  | notFlushed (lsn : Nat) : s.wal.flushedLsn < lsn →
      ThreadMove s i (.checkFlushed lsn) (s.setPc i (.aboutToBlock lsn)) []
  | block (lsn : Nat) : ThreadMove s i (.aboutToBlock lsn) ({ s with mtx := none }.setPc i (.blocked lsn)) []
  | wakeUp (lsn : Nat) : ThreadMove s i (.blocked lsn) (s.setPc i (.enterWait lsn)) []
  | apply (lsn : Nat) (w : Write) (ws : List Write) : ThreadMove s i (.applying lsn (w :: ws))
      ({ s with store := applyWrite s.store w }.setPc i (.applying lsn ws)) []
  | applied (lsn : Nat) : ThreadMove s i (.applying lsn [])
      ({ s with locks := s.locks.releaseAllLocks (s.sessions i).txn.txnId }.setTxn i
        { (s.sessions i).txn with pendingBuffer := ∅ } (.commitReset lsn)) []
  | commitReset (lsn : Nat) : ThreadMove s i (.commitReset lsn)
      (s.setTxn i {} .idle) [.acked i lsn (s.sessions i).txn.txnId]
  | logAbort (cause : AbortCause) : ThreadMove s i (.logAbort cause)
      ({ s with wal := s.wal.log ⟨s.wal.nextLsn, (s.sessions i).txn.txnId, .abort, [], []⟩ }.setTxn i
        { (s.sessions i).txn with pendingBuffer := ∅ } (.abortRelease cause))
      [.logged ⟨s.wal.nextLsn, (s.sessions i).txn.txnId, .abort, [], []⟩]
  | abortRelease (cause : AbortCause) : ThreadMove s i (.abortRelease cause)
      ({ s with locks := s.locks.releaseAllLocks (s.sessions i).txn.txnId }.setPc i (.abortReset cause)) []
  | abortReset (cause : AbortCause) : ThreadMove s i (.abortReset cause)
      (s.setTxn i {} (if cause = .quit then .closed else .idle))
      (if cause = .deadlock then [.failed i .deadlock] else [])
  | checkpoint (pc : CheckpointPc) {s' : State} : checkpointStep s i pc = some s' →
      ThreadMove s i (.checkpoint pc) s' []

theorem threadStep_move {s s' : State} {i : SessionId} {evs : List Event} (h : threadStep s i = some (s', evs)) :
    ThreadMove s i (s.sessions i).pc s' evs := by
  dsimp only [threadStep] at h
  cases hpc : (s.sessions i).pc <;> simp only [hpc] at h
  case idle | closed => cases h
  case logBegin => cases h; exact .logBegin
  case waitLock op key flags =>
    generalize hr : s.locks.finishWait (s.sessions i).txn.txnId key flags = r at h
    obtain ⟨locks, _ | _⟩ := r
    · cases h
      exact .waitFailed op key flags locks hr
    · rw [lockAcquired_eq] at h
      cases h
      exact .waitGranted op key flags locks hr
  case reading key => cases h; exact .read key
  case releasing key => cases h; exact .release key
  case logWrites writes =>
    cases writes with
    | nil => cases h; exact .logCommit
    | cons w ws =>
      simp only [logWrite_eq] at h
      cases h
      exact .logWrite w ws
  case enterWait lsn =>
    split at h <;> cases h
    exact .enterWait lsn ‹_›
  case checkFlushed lsn =>
    split at h <;> cases h
    · exact .flushed lsn ‹_›
    · exact .notFlushed lsn (Nat.lt_of_not_le ‹_›)
  case aboutToBlock lsn => cases h; exact .block lsn
  case blocked lsn => cases h; exact .wakeUp lsn
  case applying lsn writes =>
    cases writes with
    | nil => cases h; exact .applied lsn
    | cons w ws => cases h; exact .apply lsn w ws
  case commitReset lsn => cases h; exact .commitReset lsn
  case logAbort cause => cases h; exact .logAbort cause
  case abortRelease cause => cases h; exact .abortRelease cause
  case abortReset cause => cases h; exact .abortReset cause
  case checkpoint pc =>
    obtain ⟨s₁, hc, h⟩ := Option.map_eq_some_iff.mp h
    cases h
    exact .checkpoint pc hc

/-! ## All steps -/

/-- The session whose thread takes the step. -/
def Action.session : Action → Option SessionId
  | .command i _ | .thread i | .copyStore i _ | .threadFault i _ | .disconnect i => some i
  | .connect | .worker | .workerFault _ => none

/-- The action of the flush worker whose write or flush fails as `fault` says. -/
def Action.ofFault : Option Nat → Action
  | none => .worker
  | some n => .workerFault n

/-- The branches of `step`. -/
inductive Move (s : State) (a : Action) : State → List Event → Prop
  | connect : a = .connect → Move s a { s with sessionCount := s.sessionCount + 1 } []
  | command (i : SessionId) (cmd : Command) {s' : State} {evs : List Event} : a = .command i cmd →
      i < s.sessionCount → (s.sessions i).pc = .idle → CommandMove s i cmd s' evs → Move s a s' evs
  | thread (i : SessionId) {s' : State} {evs : List Event} : a = .thread i → ThreadMove s i (s.sessions i).pc s' evs →
      Move s a s' evs
  | copyStore (i : SessionId) (entries : List (Key × Value)) (lsn file : Nat) : a = .copyStore i entries →
      (s.sessions i).pc = .checkpoint (.copyStore lsn file) → s.store.IsEntries entries →
      Move s a (s.setPc i (.checkpoint (.writeTmp lsn file entries))) []
  | threadFault (i : SessionId) (n : Nat) (pc : CheckpointPc) {s' : State} : a = .threadFault i n →
      (s.sessions i).pc = .checkpoint pc → checkpointFault s i n pc = some s' → Move s a s' []
  | worker (fault : Option Nat) {s' : State} {evs : List Event} : a = .ofFault fault →
      workerStep s fault = some (s', evs) → Move s a s' evs
  | disconnect (i : SessionId) : a = .disconnect i → i < s.sessionCount → (s.sessions i).pc = .idle →
      Move s a (s.setPc i .closed) []

theorem step_move {s s' : State} {a : Action} {evs : List Event} (h : step s a = some (s', evs)) :
    s.alive = true ∧ Move s a s' evs := by
  obtain ⟨halive, h⟩ := Option.ite_none_right_eq_some.mp h
  refine ⟨halive, ?_⟩
  cases a with
  | connect => cases h; exact .connect rfl
  | command i cmd =>
    obtain ⟨hc, h⟩ := Option.ite_none_right_eq_some.mp h
    have hmove := handleCommand_move s i cmd
    rw [Option.some.inj h] at hmove
    exact .command i cmd rfl hc.1 hc.2 hmove
  | thread i => exact .thread i rfl (threadStep_move h)
  | copyStore i entries =>
    dsimp only at h
    split at h
    · obtain ⟨hentries, h⟩ := Option.ite_none_right_eq_some.mp h
      cases h
      exact .copyStore i entries _ _ rfl ‹_› hentries
    · cases h
  | threadFault i n =>
    dsimp only at h
    split at h
    · obtain ⟨s₁, hc, h⟩ := Option.map_eq_some_iff.mp h
      cases h
      exact .threadFault i n _ rfl ‹_› hc
    · cases h
  | worker => exact .worker none rfl h
  | workerFault n => exact .worker (some n) rfl h
  | disconnect i =>
    obtain ⟨hc, h⟩ := Option.ite_none_right_eq_some.mp h
    cases h
    exact .disconnect i rfl hc.1 hc.2

end Kvdb
