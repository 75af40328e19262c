import Kvdb.Moves

/-!
# The transaction machine

What the server does to transactions, without the group commit, the files and the checkpoints. `State.core` forgets
everything but the store, the lock table, the two counters and, for every session, its transaction and the phase it is
in; a session that waits for its flush is in the same phase as one that is about to apply its writes.

- `CoreStep c l evs c'` lists what can happen to such a view, one constructor for each effect on shared data;
- `step_core`: every step of the server is one of them, so that what they all keep holds in every run.
-/

namespace Kvdb

/-- How far a session is with its transaction. -/
inductive Phase
  | running
  /-- The `BEGIN` record comes next. -/
  | starting
  | waiting (op : LockOp) (key : Key) (flags : Nat)
  | reading (key : Key)
  | releasing (key : Key)
  /-- The records of these entries come next, then the `COMMIT` record. -/
  | logging (writes : List Write)
  /-- Committed; these entries are not yet in the store. -/
  | applying (lsn : Nat) (writes : List Write)
  /-- The `ABORT` record comes next. -/
  | aborting
  /-- Aborted; the locks are still held. -/
  | aborted
  /-- The locks are released, the transaction is still current. -/
  | released
  deriving DecidableEq, Repr

def Pc.phase (txn : TransactionInfo) : Pc → Phase
  | .idle | .checkpoint _ | .closed => .running
  | .logBegin => .starting
  | .waitLock op key flags => .waiting op key flags
  | .reading key => .reading key
  | .releasing key => .releasing key
  | .logWrites writes => .logging writes
  | .enterWait lsn | .checkFlushed lsn | .aboutToBlock lsn | .blocked lsn => .applying lsn txn.pendingBuffer.toList
  | .applying lsn writes => .applying lsn writes
  | .logAbort _ => .aborting
  | .abortRelease _ => .aborted
  | .commitReset _ | .abortReset _ => .released

/-- A session as the transaction machine sees it. -/
structure Party where
  txn : TransactionInfo := {}
  phase : Phase := .running

def Party.active (p : Party) : Prop := p.txn.state = .active

structure Core where
  store : Store
  locks : LockManager
  nextLsn : Nat
  nextTxnId : TxnId
  parties : SessionId → Party

def Core.setParty (c : Core) (i : SessionId) (p : Party) : Core :=
  { c with parties := Function.update c.parties i p }

def Session.party (σ : Session) : Party := ⟨σ.txn, σ.pc.phase σ.txn⟩

def State.core (s : State) : Core where
  store := s.store
  locks := s.locks
  nextLsn := s.wal.nextLsn
  nextTxnId := s.nextTxnId
  parties i := (s.sessions i).party

/-! ## Steps -/

/-- What a step is asked to do, as far as conditions on runs look at it. -/
inductive Label
  | begin (i : SessionId)
  | request (i : SessionId) (op : LockOp) (key : Key)
  | commit (i : SessionId)
  | other
  deriving DecidableEq

def Action.label : Action → Label
  | .command i (.begin _) => .begin i
  | .command i (.put key value) => .request i (.put value) key
  | .command i (.get key) => .request i .get key
  | .command i (.delete key) => .request i .delete key
  | .command i .commit => .commit i
  | _ => .other

theorem Action.eq_begin {a : Action} {i : SessionId} (h : a.label = .begin i) :
    ∃ level, a = .command i (.begin level) := by
  unfold label at h
  split at h <;> cases h
  exact ⟨_, rfl⟩

/-- Events that say nothing about the contents of a transaction or of the log. -/
def Event.silent : Event → Bool
  | .began .. | .done .. | .logged .. | .committed .. => false
  | .failed .. | .waited .. | .acked .. | .flushed .. => true

/-- The party after `acquireLock` has returned `true`. -/
def Party.locked (txn : TransactionInfo) (op : LockOp) (key : Key) : Party :=
  ⟨txn.withLock op key, match op with | .get => .reading key | _ => .running⟩

inductive CoreStep : Core → Label → List Event → Core → Prop
  | silent {c l evs} : (∀ e ∈ evs, e.silent = true) → CoreStep c l evs c
  | begin {c i} (level : IsolationLevel) : (c.parties i).phase = .running → ¬ (c.parties i).active →
      CoreStep c (.begin i) [.began i c.nextTxnId level]
        ({ c with nextTxnId := c.nextTxnId + 1 }.setParty i
          ⟨{ txnId := c.nextTxnId, isolationLevel := level, state := .active }, .starting⟩)
  | logBegin {c l i p} : c.parties i = p → p.phase = .starting →
      CoreStep c l [.logged ⟨c.nextLsn, p.txn.txnId, .begin, [], []⟩]
        ({ c with nextLsn := c.nextLsn + 1 }.setParty i { p with phase := .running })
  | granted {c i p op key locks} : c.parties i = p → p.phase = .running → p.active →
      c.locks.acquireLock p.txn.txnId key op.mode = (locks, .granted) →
      CoreStep c (.request i op key) (lockedEvents i p.txn.txnId op key)
        ({ c with locks := locks }.setParty i (.locked p.txn op key))
  | queued {c i p op key locks flags} : c.parties i = p → p.phase = .running → p.active →
      c.locks.acquireLock p.txn.txnId key op.mode = (locks, .waiting flags) →
      CoreStep c (.request i op key) []
        ({ c with locks := locks }.setParty i { p with phase := .waiting op key flags })
  | waitGranted {c l i p op key flags locks} : c.parties i = p → p.phase = .waiting op key flags →
      c.locks.finishWait p.txn.txnId key flags = (locks, true) →
      CoreStep c l (lockedEvents i p.txn.txnId op key)
        ({ c with locks := locks }.setParty i (.locked p.txn op key))
  | waitFailed {c l i p op key flags locks} : c.parties i = p → p.phase = .waiting op key flags →
      c.locks.finishWait p.txn.txnId key flags = (locks, false) →
      CoreStep c l [] ({ c with locks := locks }.setParty i { p with phase := .aborting })
  | read {c l i p key} : c.parties i = p → p.phase = .reading key →
      CoreStep c l [.done i p.txn.txnId (.get key (readKey p.txn.pendingBuffer c.store key))]
        (c.setParty i { p with
          phase := if p.txn.isolationLevel = .readCommitted then .releasing key else .running })
  | release {c l i p key} : c.parties i = p → p.phase = .releasing key →
      CoreStep c l [] ({ c with locks := c.locks.releaseLock p.txn.txnId key }.setParty i
        ⟨{ p.txn with locksHeld := p.txn.locksHeld.erase key }, .running⟩)
  | startCommit {c i p} : c.parties i = p → p.phase = .running → p.active →
      CoreStep c (.commit i) [] (c.setParty i { p with phase := .logging p.txn.pendingBuffer.toList })
  | logWrite {c l i p w ws} : c.parties i = p → p.phase = .logging (w :: ws) →
      CoreStep c l [.logged (Write.record c.nextLsn p.txn.txnId w)]
        ({ c with nextLsn := c.nextLsn + 1 }.setParty i { p with phase := .logging ws })
  | logCommit {c l i p} : c.parties i = p → p.phase = .logging [] →
      CoreStep c l [.logged ⟨c.nextLsn, p.txn.txnId, .commit, [], []⟩,
          .committed i c.nextLsn p.txn.txnId p.txn.pendingBuffer.toList]
        ({ c with nextLsn := c.nextLsn + 1 }.setParty i
          { p with phase := .applying c.nextLsn p.txn.pendingBuffer.toList })
  | apply {c l i p lsn w ws} : c.parties i = p → p.phase = .applying lsn (w :: ws) →
      CoreStep c l [] ({ c with store := applyWrite c.store w }.setParty i { p with phase := .applying lsn ws })
  | applied {c l i p lsn} : c.parties i = p → p.phase = .applying lsn [] →
      CoreStep c l [] ({ c with locks := c.locks.releaseAllLocks p.txn.txnId }.setParty i
        ⟨{ p.txn with pendingBuffer := ∅ }, .released⟩)
  | startAbort {c l i p} : c.parties i = p → p.phase = .running → p.active →
      CoreStep c l [] (c.setParty i { p with phase := .aborting })
  | logAbort {c l i p} : c.parties i = p → p.phase = .aborting →
      CoreStep c l [.logged ⟨c.nextLsn, p.txn.txnId, .abort, [], []⟩]
        ({ c with nextLsn := c.nextLsn + 1 }.setParty i ⟨{ p.txn with pendingBuffer := ∅ }, .aborted⟩)
  | abortRelease {c l i p} : c.parties i = p → p.phase = .aborted →
      CoreStep c l [] ({ c with locks := c.locks.releaseAllLocks p.txn.txnId }.setParty i { p with phase := .released })
  | reset {c l evs i p} : c.parties i = p → p.phase = .released → (∀ e ∈ evs, e.silent = true) →
      CoreStep c l evs (c.setParty i {})

/-! ## The server takes only such steps -/

@[simp] theorem core_setSession (s : State) (i : SessionId) (σ : Session) :
    (s.setSession i σ).core = s.core.setParty i σ.party := by
  simp only [State.core, State.setSession, Core.setParty, Core.mk.injEq, true_and]
  funext j
  by_cases h : j = i
  · subst h; simp
  · simp [h]

@[simp] theorem core_setTxn (s : State) (i : SessionId) (txn : TransactionInfo) (pc : Pc) :
    (s.setTxn i txn pc).core = s.core.setParty i ⟨txn, pc.phase txn⟩ := core_setSession s i _

@[simp] theorem core_setPc (s : State) (i : SessionId) (pc : Pc) :
    (s.setPc i pc).core = s.core.setParty i ⟨(s.sessions i).txn, pc.phase (s.sessions i).txn⟩ := core_setSession s i _

/-- What holds of every party still does when one is set to a party of which it holds. -/
theorem Core.forall_setParty (Q : Party → Prop) {c c₁ : Core} (h : ∀ j, Q (c.parties j)) {i : SessionId} {p' : Party}
    (hps : c₁.parties = c.parties) (hp : Q p') (j : SessionId) : Q ((c₁.setParty i p').parties j) := by
  show Q (Function.update c₁.parties i p' j)
  by_cases hji : j = i
  · subst hji
    rw [Function.update_self]
    exact hp
  · rw [Function.update_of_ne hji, hps]
    exact h j

/-- A step inside one phase is none of the transaction machine. -/
theorem core_setPc_of_phase {s : State} {i : SessionId} {pc : Pc}
    (h : pc.phase (s.sessions i).txn = (s.sessions i).pc.phase (s.sessions i).txn) : (s.setPc i pc).core = s.core := by
  rw [core_setPc, h]
  simp only [Core.setParty, State.core, Core.mk.injEq, true_and]
  exact Function.update_eq_self i _

theorem silent_nil : ∀ e ∈ ([] : List Event), e.silent = true := by simp

section StepCore

variable {s s' : State} {i : SessionId} {evs : List Event}

/-- The party of a session outside a call. -/
theorem party_of_idle (hpc : (s.sessions i).pc = .idle) : (s.core.parties i).phase = .running := by
  simp [State.core, Session.party, hpc, Pc.phase]

theorem core_locked (s : State) (i : SessionId) (op : LockOp) (key : Key) (txn : TransactionInfo) :
    (s.setTxn i (txn.withLock op key) (op.resume key)).core = s.core.setParty i (.locked txn op key) := by
  rw [core_setTxn]
  cases op <;> rfl

theorem CommandMove.core {cmd : Command} (hpc : (s.sessions i).pc = .idle) (h : CommandMove s i cmd s' evs) :
    CoreStep s.core (Action.command i cmd).label evs s'.core := by
  have hphase := party_of_idle hpc
  cases h with
  | alreadyInTransaction | notInTransaction => exact .silent (by simp [Event.silent])
  | begin level hcmd hactive =>
    rw [core_setTxn, hcmd]
    exact .begin level hphase hactive
  | granted op key locks hcmd hactive hacq =>
    have hlabel : (Action.command i cmd).label = .request i op key := by rw [hcmd]; cases op <;> rfl
    rw [core_locked, hlabel]
    exact .granted rfl hphase hactive hacq
  | queued op key locks flags hcmd hactive hacq =>
    have hlabel : (Action.command i cmd).label = .request i op key := by rw [hcmd]; cases op <;> rfl
    rw [core_setPc, hlabel]
    exact .queued rfl hphase hactive hacq
  | commit hcmd hactive =>
    rw [core_setPc, hcmd]
    exact .startCommit rfl hphase hactive
  | abort _ hactive | quitActive _ hactive =>
    rw [core_setPc]
    exact .startAbort rfl hphase hactive
  | checkpoint | quit =>
    rw [core_setPc_of_phase (by simp [hpc, Pc.phase])]
    exact .silent silent_nil

/-- The steps of a checkpoint stay in one phase. -/
theorem CheckpointEffect.core {pc : CheckpointPc} (hpc : (s.sessions i).pc = .checkpoint pc)
    (h : CheckpointEffect s i s') : s'.core = s.core := by
  cases h with
  | next disk pc' => exact core_setPc_of_phase (s := { s with disk := disk }) (by simp [hpc, Pc.phase])
  | done disk => exact core_setPc_of_phase (s := { s with disk := disk }) (by simp [hpc, Pc.phase])
  | throw => rfl

theorem workerStep_core {fault : Option Nat} (h : workerStep s fault = some (s', evs)) :
    s'.core = s.core ∧ ∀ e ∈ evs, e.silent = true := by
  unfold workerStep at h
  split at h
  · cases h; exact ⟨rfl, silent_nil⟩
  · cases h
    refine ⟨?_, silent_nil⟩
    simp only [State.core, WALManager.noteWritten, WALManager.updateFlushedLSN]
    split <;> [split; skip] <;> rfl
  · cases h; exact ⟨rfl, by simp [Event.silent]⟩
  · cases h; exact ⟨rfl, silent_nil⟩
  · split at h <;> cases h
    · refine ⟨?_, silent_nil⟩
      simp only [State.core, WALManager.updateFlushedLSN]
      split <;> rfl
    · exact ⟨rfl, silent_nil⟩
  · cases h
    refine ⟨?_, silent_nil⟩
    simp only [State.core, Core.mk.injEq, true_and]
    funext j
    unfold Session.notified Session.party
    split
    · rename_i hpc; simp [hpc, Pc.phase]
    · rfl

theorem ThreadMove.core (h : ThreadMove s i (s.sessions i).pc s' evs) :
    CoreStep s.core .other evs s'.core := by
  have hparty : s.core.parties i = ⟨(s.sessions i).txn, (s.sessions i).pc.phase (s.sessions i).txn⟩ := rfl
  generalize hpc : (s.sessions i).pc = pc at h
  cases h with
  | logBegin =>
    rw [core_setPc]
    exact .logBegin rfl (by rw [hparty, hpc]; rfl)
  | waitGranted op key flags locks hfin =>
    rw [core_locked]
    exact .waitGranted rfl (by rw [hparty, hpc]; rfl) hfin
  | waitFailed op key flags locks hfin =>
    rw [core_setPc]
    exact .waitFailed rfl (by rw [hparty, hpc]; rfl) hfin
  | read key =>
    have hphase : Pc.phase (s.sessions i).txn
        (if (s.sessions i).txn.isolationLevel = .readCommitted then .releasing key else .idle) =
        if (s.sessions i).txn.isolationLevel = .readCommitted then .releasing key else .running := by split <;> rfl
    rw [core_setPc, hphase]
    exact .read rfl (by rw [hparty, hpc]; rfl)
  | release key =>
    rw [core_setTxn]
    exact .release (c := s.core) (p := ⟨(s.sessions i).txn, .releasing key⟩) (by rw [hparty, hpc]; rfl) rfl
  | logWrite w ws =>
    rw [core_setPc]
    exact .logWrite rfl (by rw [hparty, hpc]; rfl)
  | logCommit =>
    rw [core_setPc]
    exact .logCommit rfl (by rw [hparty, hpc]; rfl)
  | flushed lsn _ =>
    rw [core_setPc_of_phase (by simp [hpc, Pc.phase])]
    exact .silent (by simp [Event.silent])
  | enterWait | notFlushed | block | wakeUp =>
    rw [core_setPc_of_phase (by simp [hpc, Pc.phase])]
    exact .silent silent_nil
  | apply lsn w ws =>
    rw [core_setPc]
    exact .apply rfl (by rw [hparty, hpc]; rfl)
  | applied lsn =>
    rw [core_setTxn]
    exact .applied (c := s.core) (p := ⟨(s.sessions i).txn, .applying lsn []⟩) (by rw [hparty, hpc]; rfl) rfl
  | commitReset lsn =>
    rw [core_setTxn]
    exact .reset rfl (by rw [hparty, hpc]; rfl) (by simp [Event.silent])
  | logAbort cause =>
    rw [core_setTxn]
    exact .logAbort rfl (by rw [hparty, hpc]; rfl)
  | abortRelease cause =>
    rw [core_setPc]
    exact .abortRelease (c := s.core) (p := ⟨(s.sessions i).txn, .aborted⟩) (by rw [hparty, hpc]; rfl) rfl
  | abortReset cause =>
    have hphase : Pc.phase {} (if cause = .quit then .closed else .idle) = .running := by split <;> rfl
    rw [core_setTxn, hphase]
    exact .reset rfl (by rw [hparty, hpc]; rfl) (by split <;> simp [Event.silent])
  | checkpoint pc hc =>
    rw [(checkpointStep_effect hc).core hpc]
    exact .silent silent_nil

/-- **The server refines the transaction machine.** -/
theorem step_core {a : Action} (h : step s a = some (s', evs)) : CoreStep s.core a.label evs s'.core := by
  cases (step_move h).2 with
  | connect => exact .silent silent_nil
  | command i cmd ha _ hpc hmove =>
    rw [ha]
    exact hmove.core hpc
  | thread i ha hmove =>
    rw [ha]
    exact hmove.core
  | copyStore i entries lsn file _ hpc _ =>
    rw [(CheckpointEffect.next s.disk _).core hpc]
    exact .silent silent_nil
  | threadFault i n pc _ hpc hc =>
    rw [(checkpointFault_effect hc).core hpc]
    exact .silent silent_nil
  | worker fault _ hw =>
    obtain ⟨hc, he⟩ := workerStep_core hw
    rw [hc]
    exact .silent he
  | disconnect i _ _ hpc =>
    rw [core_setPc_of_phase (by simp [hpc, Pc.phase])]
    exact .silent silent_nil

end StepCore

end Kvdb
