import Kvdb.History

/-!
# Who does what in a step

A step of the server belongs to one of three parties (`step_cases`): a session that is not inside a checkpoint, which
touches the files and the flush worker only through the records it logs (`SessionStep`); a session inside
`handleCheckpoint`; or the flush worker.
-/

namespace Kvdb

/-! ## Steps of sessions -/

/-- Inside `handleCheckpoint`, after the check for active transactions. -/
def Pc.inCheckpoint : Pc → Bool
  | .checkpoint .check => false
  | .checkpoint _ => true
  | _ => false

/-- What a step of session `i` outside a checkpoint leaves alone. -/
structure SessionStep (s : State) (i : SessionId) (s' : State) (evs : List Event) : Prop where
  sessions : ∀ j, j ≠ i → s'.sessions j = s.sessions j
  pc : (s'.sessions i).pc.inCheckpoint = false
  wal : s'.wal = (logOf evs).foldl WALManager.log s.wal
  flushed : flushedBytes evs = []
  logFile : s'.logFile = s.logFile
  disk : s'.disk = s.disk
  worker : s'.worker = s.worker
  alive : s'.alive = s.alive
  sessionCount : s'.sessionCount = s.sessionCount

section Sessions

variable {s s' s₁ : State} {i : SessionId} {evs : List Event}

theorem SessionStep.refl (h : (s.sessions i).pc.inCheckpoint = false) (hw : logOf evs = [])
    (hf : flushedBytes evs = []) : SessionStep s i s evs :=
  ⟨fun _ _ => rfl, h, by simp [hw], hf, rfl, rfl, rfl, rfl, rfl⟩

/-- A step that sets the session and, besides, only what sessions may change. -/
theorem SessionStep.setSession {σ : Session} (hp : σ.pc.inCheckpoint = false)
    (hw : s₁.wal = (logOf evs).foldl WALManager.log s.wal) (hf : flushedBytes evs = [])
    (hs : s₁.sessions = s.sessions) (h1 : s₁.logFile = s.logFile) (h2 : s₁.disk = s.disk)
    (h3 : s₁.worker = s.worker) (h4 : s₁.alive = s.alive) (h5 : s₁.sessionCount = s.sessionCount) :
    SessionStep s i (s₁.setSession i σ) evs where
  sessions j hj := by simp [State.setSession, hs, hj]
  pc := by simpa [State.setSession] using hp
  wal := hw
  flushed := hf
  logFile := h1
  disk := h2
  worker := h3
  alive := h4
  sessionCount := h5

/-- The session has the lock it asked for. -/
theorem SessionStep.locked (op : LockOp) (key : Key) (locks : LockManager) :
    SessionStep s i ({ s with locks := locks }.setTxn i ((s.sessions i).txn.withLock op key) (op.resume key))
      (lockedEvents i (s.sessions i).txn.txnId op key) := by
  cases op <;> exact .setSession rfl rfl rfl rfl rfl rfl rfl rfl rfl

theorem CommandMove.session {cmd : Command} (hpc : (s.sessions i).pc = .idle) (h : CommandMove s i cmd s' evs) :
    SessionStep s i s' evs := by
  cases h with
  | alreadyInTransaction | notInTransaction => exact .refl (by rw [hpc]; rfl) rfl rfl
  | granted op key locks => exact .locked op key locks
  | _ => exact .setSession rfl rfl rfl rfl rfl rfl rfl rfl rfl

theorem ThreadMove.session {pc : Pc} (hpc : ∀ cp, pc ≠ .checkpoint cp) (h : ThreadMove s i pc s' evs) :
    SessionStep s i s' evs := by
  cases h with
  | checkpoint cp _ => exact absurd rfl (hpc cp)
  | waitGranted op key flags locks => exact .locked op key locks
  | read => exact .setSession (by dsimp only; split <;> rfl) rfl rfl rfl rfl rfl rfl rfl rfl
  | abortReset cause => cases cause <;> exact .setSession rfl rfl rfl rfl rfl rfl rfl rfl rfl
  | _ => exact .setSession rfl rfl rfl rfl rfl rfl rfl rfl rfl

end Sessions

/-! ## All steps -/

/-- Whose step it is. -/
inductive StepBy (s : State) (a : Action) (s' : State) (evs : List Event) : Prop
  | connect : a = .connect → s' = { s with sessionCount := s.sessionCount + 1 } → evs = [] → StepBy s a s' evs
  | session (i : SessionId) : a.session = some i → (∀ pc, (s.sessions i).pc ≠ .checkpoint pc) →
      i < s.sessionCount ∨ (s.sessions i).pc ≠ .idle → SessionStep s i s' evs → StepBy s a s' evs
  | checkpoint (i : SessionId) (pc : CheckpointPc) : a = .thread i → (s.sessions i).pc = .checkpoint pc →
      checkpointStep s i pc = some s' → evs = [] → StepBy s a s' evs
  | copyStore (i : SessionId) (entries : List (Key × Value)) (lsn file : Nat) : a = .copyStore i entries →
      (s.sessions i).pc = .checkpoint (.copyStore lsn file) → s.store.IsEntries entries →
      s' = s.setPc i (.checkpoint (.writeTmp lsn file entries)) → evs = [] → StepBy s a s' evs
  | checkpointFault (i : SessionId) (n : Nat) (pc : CheckpointPc) : a = .threadFault i n →
      (s.sessions i).pc = .checkpoint pc → checkpointFault s i n pc = some s' → evs = [] → StepBy s a s' evs
  | worker (fault : Option Nat) : a = .ofFault fault → workerStep s fault = some (s', evs) → StepBy s a s' evs

/-- **Every step is a session's, a checkpoint's or the worker's.** -/
theorem step_cases {s s' : State} {a : Action} {evs : List Event} (h : step s a = some (s', evs)) :
    s.alive = true ∧ StepBy s a s' evs := by
  obtain ⟨halive, hmove⟩ := step_move h
  refine ⟨halive, ?_⟩
  cases hmove with
  | connect ha => exact .connect ha rfl rfl
  | command i cmd ha hi hpc hmove =>
    exact .session i (by rw [ha]; rfl) (by rw [hpc]; simp) (Or.inl hi) (hmove.session hpc)
  | thread i ha hmove =>
    by_cases hpc : ∃ pc, (s.sessions i).pc = .checkpoint pc
    · obtain ⟨pc, hpc⟩ := hpc
      rw [hpc] at hmove
      cases hmove with
      | checkpoint _ hc => exact .checkpoint i pc ha hpc hc rfl
    · have hpc : ∀ pc, (s.sessions i).pc ≠ .checkpoint pc := fun pc h => hpc ⟨pc, h⟩
      refine .session i (by rw [ha]; rfl) hpc (Or.inr fun hidle => ?_) (hmove.session hpc)
      rw [hidle] at hmove
      cases hmove
  | copyStore i entries lsn file ha hpc hentries => exact .copyStore i entries lsn file ha hpc hentries rfl rfl
  | threadFault i n pc ha hpc hc => exact .checkpointFault i n pc ha hpc hc rfl
  | worker fault ha hw => exact .worker fault ha hw
  | disconnect i ha hi hpc =>
    exact .session i (by rw [ha]; rfl) (by rw [hpc]; simp) (Or.inl hi) (.setSession rfl rfl rfl rfl rfl rfl rfl rfl rfl)

/-! ## Steps of the worker that do not fail -/

/-- What the flush worker does while the log file is open and no write fails. -/
inductive WorkerStep (s : State) : State → List Event → Prop
  | idle : s.worker = .sleeping → s.wal.buffer = [] → WorkerStep s s []
  | fetch : s.worker = .sleeping →
      WorkerStep s { s with wal := { s.wal with buffer := [] }, worker := .writing s.wal.buffer s.wal.buffer } []
  | write {batch record rest} : s.worker = .writing batch (record :: rest) →
      WorkerStep s { s with
        logFile := { s.logFile with pending := s.logFile.pending ++ record }
        wal := s.wal.noteWritten record
        worker := .writing batch rest } []
  | flush {batch} : s.worker = .writing batch [] →
      WorkerStep s { s with
        logFile := { s.logFile with pending := [] }
        disk := { s.disk with walLog := s.disk.walLog.map (· ++ s.logFile.pending) }
        worker := .fsyncing batch } [.flushed s.logFile.pending]
  | fsync {batch} : s.worker = .fsyncing batch →
      WorkerStep s { s with disk := s.disk.fsyncWal, worker := .updating batch } []
  | update {batch lsn} : s.worker = .updating batch → maxLSN batch = some lsn →
      WorkerStep s { s with wal := s.wal.updateFlushedLSN lsn, worker := .notifying } []
  | throw {batch} : s.worker = .updating batch → maxLSN batch = none → WorkerStep s { s with alive := false } []
  | notify : s.worker = .notifying →
      WorkerStep s { s with sessions := fun i => (s.sessions i).notified, worker := .sleeping } []

theorem LogFile.write_good {f : LogFile} (h : f.bad = false) (record : Bytes) :
    f.write record none = { f with pending := f.pending ++ record } := by simp [LogFile.write, h]

theorem LogFile.flush_good {f : LogFile} (h : f.bad = false) :
    f.flushed none = f.pending ∧ f.flush none = { f with pending := [] } := by
  simp [LogFile.flushed, LogFile.flush, h]

theorem workerStep_cases {s s' : State} {evs : List Event} (hopen : s.logFile.isOpen = true)
    (hgood : s.logFile.bad = false) (h : workerStep s none = some (s', evs)) : WorkerStep s s' evs := by
  dsimp only [workerStep] at h
  rw [(LogFile.flush_good hgood).1, (LogFile.flush_good hgood).2] at h
  split at h
  · rename_i hw
    by_cases hbuf : s.wal.buffer = []
    · have hs' : s' = s ∧ evs = [] := by
        obtain ⟨store, locks, ⟨next, flushed, buffer⟩, file, disk, worker, mtx, nextId, count, sessions, alive⟩ := s
        simp_all [WALManager.fetchAndClearBuffer]
      obtain ⟨rfl, rfl⟩ := hs'
      exact .idle hw hbuf
    · simp only [WALManager.fetchAndClearBuffer, if_neg hbuf, hopen, if_true] at h
      cases h
      exact .fetch hw
  · rename_i hw
    rw [LogFile.write_good hgood] at h
    cases h
    exact .write hw
  · rename_i hw
    cases h
    exact .flush hw
  · rename_i hw
    cases h
    exact .fsync hw
  · rename_i hw
    split at h <;> cases h
    · exact .update hw ‹_›
    · exact .throw hw ‹_›
  · rename_i hw
    cases h
    exact .notify hw

/-! ## What `commit` reports -/

/-- What `commit` reports while it goes on. -/
def Event.ofCommit : Event → Bool
  | .committed _ _ _ _ | .waited _ _ | .acked _ _ _ => true
  | _ => false

theorem lockedEvents_ofCommit (i : SessionId) (t : TxnId) (op : LockOp) (key : Key) :
    ∀ e ∈ lockedEvents i t op key, e.ofCommit = false := by cases op <;> simp [lockedEvents, Event.ofCommit]

theorem CommandMove.events {s s' : State} {i : SessionId} {cmd : Command} {evs : List Event}
    (h : CommandMove s i cmd s' evs) : ∀ e ∈ evs, e.ofCommit = false := by
  cases h with
  | granted op key => exact lockedEvents_ofCommit i _ op key
  | _ => simp [Event.ofCommit]

theorem workerStep_events {s s' : State} {evs : List Event} {fault : Option Nat}
    (h : workerStep s fault = some (s', evs)) : ∀ e ∈ evs, e.ofCommit = false := by
  dsimp only [workerStep] at h
  split at h
  case h_5 => split at h <;> cases h <;> simp
  all_goals cases h; simp [Event.ofCommit]

/-- What a step of session `i` that reports `e` does in `commit`: a wait begins with the `COMMIT` record, only a
successful check of `flushed_lsn_` ends it, and only the last step of `commit` its call. -/
inductive CommitEvent (s s' : State) (i : SessionId) : Event → Prop
  | committed {lsn t writes} : (s'.sessions i).pc = .enterWait lsn → CommitEvent s s' i (.committed i lsn t writes)
  | waited {lsn} : (s.sessions i).pc = .checkFlushed lsn → lsn ≤ s.wal.flushedLsn → CommitEvent s s' i (.waited i lsn)
  | acked {lsn} : (s.sessions i).pc = .commitReset lsn →
      CommitEvent s s' i (.acked i lsn (s.sessions i).txn.txnId)

theorem ThreadMove.events {s s' : State} {i : SessionId} {evs : List Event}
    (h : ThreadMove s i (s.sessions i).pc s' evs) {e : Event} (he : e ∈ evs) (hc : e.ofCommit = true) :
    CommitEvent s s' i e := by
  generalize hpc : (s.sessions i).pc = pc at h
  cases h with
  | waitGranted op key =>
    rw [lockedEvents_ofCommit i _ op key e he] at hc
    cases hc
  | logCommit =>
    rcases List.mem_cons.mp he with rfl | he
    · cases hc
    · rw [List.mem_singleton.mp he]
      exact .committed (pc_setPc ..)
  | flushed lsn hle =>
    rw [List.mem_singleton.mp he]
    exact .waited hpc hle
  | commitReset lsn =>
    rw [List.mem_singleton.mp he]
    exact .acked hpc
  | abortReset cause => split at he <;> simp_all [Event.ofCommit]
  | _ => simp_all [Event.ofCommit]

theorem step_ofCommit {s s' : State} {a : Action} {evs : List Event} (hs : step s a = some (s', evs)) {e : Event}
    (he : e ∈ evs) (hc : e.ofCommit = true) : ∃ i, a = .thread i ∧ CommitEvent s s' i e := by
  cases (step_move hs).2 with
  | command i cmd _ _ _ hmove =>
    rw [hmove.events e he] at hc
    cases hc
  | thread i ha hmove => exact ⟨i, ha, hmove.events he hc⟩
  | worker fault _ hw =>
    rw [workerStep_events hw e he] at hc
    cases hc
  | connect | copyStore | threadFault | disconnect => cases he

/-! ## Sessions that are not connected -/

section Sessions

variable {s s' : State} {i : SessionId}

theorem CheckpointEffect.sessions (h : CheckpointEffect s i s') :
    s'.sessionCount = s.sessionCount ∧ ∀ j, j ≠ i → s'.sessions j = s.sessions j := by
  cases h with
  | next | done => exact ⟨rfl, fun j hj => sessions_setPc_of_ne hj ..⟩
  | throw => exact ⟨rfl, fun _ _ => rfl⟩

theorem workerStep_sessions {fault : Option Nat} {evs : List Event} (h : workerStep s fault = some (s', evs)) :
    s'.sessionCount = s.sessionCount ∧ ∀ j, s'.sessions j = s.sessions j ∨ s'.sessions j = (s.sessions j).notified := by
  unfold workerStep at h
  split at h
  case h_5 => split at h <;> cases h <;> exact ⟨rfl, fun _ => Or.inl rfl⟩
  case h_6 => cases h; exact ⟨rfl, fun _ => Or.inr rfl⟩
  all_goals cases h; exact ⟨rfl, fun _ => Or.inl rfl⟩

/-- A session that takes a step is connected, or inside a call, and leaves the others alone. -/
theorem step_own {a : Action} {evs : List Event} (h : step s a = some (s', evs)) (ha : a.session = some i) :
    (i < s.sessionCount ∨ (s.sessions i).pc ≠ .idle) ∧ s'.sessionCount = s.sessionCount ∧
      ∀ j, j ≠ i → s'.sessions j = s.sessions j := by
  cases (step_cases h).2 with
  | connect hc => rw [hc] at ha; cases ha
  | session j hj _ hcon hst =>
    obtain rfl := Option.some.inj (hj.symm.trans ha)
    exact ⟨hcon, hst.sessionCount, hst.sessions⟩
  | checkpoint j pc hj hpc hc _ =>
    rw [hj] at ha
    cases ha
    exact ⟨Or.inr (by rw [hpc]; simp), (checkpointStep_effect hc).sessions⟩
  | copyStore j entries lsn file hj hpc _ hs' _ =>
    rw [hj] at ha
    cases ha
    rw [hs']
    exact ⟨Or.inr (by rw [hpc]; simp), (CheckpointEffect.next s.disk _).sessions⟩
  | checkpointFault j n pc hj hpc hc _ =>
    rw [hj] at ha
    cases ha
    exact ⟨Or.inr (by rw [hpc]; simp), (checkpointFault_effect hc).sessions⟩
  | worker fault hf _ =>
    rw [hf] at ha
    cases fault <;> cases ha

/-- A step of nobody's thread. -/
theorem step_nobody {a : Action} {evs : List Event} (h : step s a = some (s', evs)) (ha : a.session = none) :
    s' = { s with sessionCount := s.sessionCount + 1 } ∨ ∃ fault, workerStep s fault = some (s', evs) := by
  cases (step_move h).2 with
  | connect => exact Or.inl rfl
  | worker fault _ hw => exact Or.inr ⟨fault, hw⟩
  | command i _ hc | thread i hc | copyStore i _ _ _ hc | threadFault i _ _ hc | disconnect i hc =>
    rw [hc] at ha
    cases ha

/-- The other sessions are as they were, or woken up. -/
theorem step_sessions_of_ne {a : Action} {evs : List Event} {j : SessionId} (h : step s a = some (s', evs))
    (hj : a.session ≠ some j) : s'.sessions j = s.sessions j ∨ s'.sessions j = (s.sessions j).notified := by
  cases ha : a.session with
  | none =>
    rcases step_nobody h ha with hs' | ⟨fault, hw⟩
    · rw [hs']
      exact Or.inl rfl
    · exact (workerStep_sessions hw).2 j
  | some i => exact Or.inl ((step_own h ha).2.2 j (by rintro rfl; exact hj ha))

/-- Nothing happens in a session before it is connected. -/
def State.Unconnected (s : State) : Prop := ∀ j, s.sessionCount ≤ j → s.sessions j = {}

theorem step_unconnected {a : Action} {evs : List Event} (h : step s a = some (s', evs)) (hs : s.Unconnected) :
    s'.Unconnected := by
  intro j hj
  cases ha : a.session with
  | none =>
    rcases step_nobody h ha with hs' | ⟨fault, hw⟩
    · rw [hs'] at hj ⊢
      exact hs j (Nat.le_of_succ_le hj)
    · obtain ⟨hn, hsess⟩ := workerStep_sessions hw
      rw [hn] at hj
      rcases hsess j with h | h <;> rw [h, hs j hj]
      rfl
  | some i =>
    obtain ⟨hcon, hn, hsess⟩ := step_own h ha
    rw [hn] at hj
    have hi : i < s.sessionCount := by
      refine hcon.elim id fun hpc => ?_
      by_contra hge
      rw [hs i (Nat.le_of_not_lt hge)] at hpc
      exact hpc rfl
    rw [hsess j (Nat.ne_of_gt (Nat.lt_of_lt_of_le hi hj))]
    exact hs j hj

end Sessions

end Kvdb
