import Kvdb.Deadlock
import Kvdb.Serial
import Kvdb.Pipeline

/-!
# Clients that leave inside a transaction

`ConnectionHandler::run` ends without `abort` when its client closes the connection, and the server keeps the session's
`TransactionManager`. The transaction stays active for the rest of the server's life. So every key it has locked keeps
its value, no other session ever writes it, and a key it has written is not even read again (`abandoned_keys_lost`).
`hasActiveTransactions` finds it at every `CHECKPOINT`: no snapshot is written any more and the log only grows
(`abandoned_ends_checkpoints`).
-/

namespace Kvdb

open Machine LockManager

/-- The client has gone and left its transaction. -/
def State.Abandoned (s : State) (i : SessionId) : Prop :=
  (s.sessions i).pc = .closed ∧ (s.sessions i).txn.state = .active

instance (s : State) (i : SessionId) : Decidable (s.Abandoned i) := inferInstanceAs (Decidable (_ ∧ _))

/-! ## The session -/

section Session

variable {s s' : State} {a : Action} {evs : List Event} {i : SessionId}

theorem session_ne_of_closed (hs : step s a = some (s', evs)) (hpc : (s.sessions i).pc = .closed) :
    a.session ≠ some i := by
  intro hi
  cases (step_move hs).2 with
  | connect h => rw [h] at hi; cases hi
  | worker fault h => rw [h] at hi; cases fault <;> cases hi
  | thread j h hmove =>
    rw [h] at hi
    obtain rfl := Option.some.inj hi
    rw [hpc] at hmove
    cases hmove
  | command j cmd h _ hj | disconnect j h _ hj | copyStore j _ _ _ h hj | threadFault j _ _ h hj =>
    rw [h] at hi
    obtain rfl := Option.some.inj hi
    rw [hj] at hpc
    cases hpc

/-- A closed session stays as it is. -/
theorem step_sessions_of_closed (hs : step s a = some (s', evs)) (hpc : (s.sessions i).pc = .closed) :
    s'.sessions i = s.sessions i := by
  rcases step_sessions_of_ne hs (session_ne_of_closed hs hpc) with h | h
  · exact h
  · rw [h, Session.notified, hpc]

theorem State.Abandoned.step (h : s.Abandoned i) (hs : Kvdb.step s a = some (s', evs)) : s'.Abandoned i := by
  rw [State.Abandoned, step_sessions_of_closed hs h.1]
  exact h

theorem State.Abandoned.hasActiveTransactions (h : s.Abandoned i) (hu : s.Unconnected) :
    Kvdb.hasActiveTransactions s = true := by
  have hi : i < s.sessionCount := by
    by_contra hi
    have hpc := h.1
    rw [hu i (Nat.le_of_not_lt hi)] at hpc
    cases hpc
  exact List.any_eq_true.mpr ⟨i, List.mem_range.mpr hi, decide_eq_true h.2⟩

end Session

/-! ## Its keys -/

/-- The key of a call. -/
def Op.key : Op → Key
  | .put key _ | .delete key | .get key _ => key

/-- A call of another session that succeeds while session `i`, whose buffer is `b`, has locked the key: not one that
writes it, and none at all if session `i` has written it. -/
def Op.Spares (k : Key) (b : PendingBuffer) (op : Op) : Prop := op.writes k = false ∧ (k ∈ b → op.key ≠ k)

section Keys

variable {c c' : Core} {l : Label} {evs : List Event} {i : SessionId} {k : Key} {serial : Store}

/-- A step that leaves session `i` alone takes no lock from it. -/
theorem CoreStep.held (h : CoreStep c l evs c') (hinv : HoldInv c.locks c.parties) (hact : (c.parties i).active)
    (hsame : c'.parties i = c.parties i) (hk : (c.parties i).txn.txnId ∈ c.locks.holders k) :
    (c.parties i).txn.txnId ∈ c'.locks.holders k := by
  rcases h.lockCall hinv with hlocks | ⟨j, hj, ha, -, hphase⟩
  · rw [hlocks]
    exact hk
  by_cases hji : j = i
  · subst hji
    rcases hphase with hne | ⟨-, hkept⟩
    · exact absurd (by rw [hsame]) hne
    · exact hkept.1 k hk
  · exact ha.keep _ k (hinv.ne_of_ne hj hact fun he => hji he.symm) hk

/-- Nobody else has a key of session `i` in its buffer. -/
theorem LockInv.notPending {lm : LockManager} {ps : SessionId → Party} (h : LockInv lm ps) (hi : (ps i).active)
    (hk : (ps i).txn.txnId ∈ lm.holders k) {j : SessionId} (hj : (ps j).active) (hne : j ≠ i) :
    k ∉ (ps j).txn.pendingBuffer := by
  intro hkj
  rw [((h.parties hj).sole hkj).1, Finset.mem_singleton] at hk
  exact hne (h.unique hj hi hk.symm)

theorem Op.spares_of_key_ne {op : Op} {b : PendingBuffer} (h : op.key ≠ k) : op.Spares k b := by
  refine ⟨?_, fun _ => h⟩
  cases op <;> simp_all [Op.writes, Op.key]

/-- A `PUT` or `DELETE` that has its lock is not one of the key. -/
theorem lockedEvents_spares (hl : LockInv c.locks c.parties) (hi : (c.parties i).active)
    (hk : (c.parties i).txn.txnId ∈ c.locks.holders k) {j j' : SessionId} {t u : TxnId} {op : LockOp} {key : Key}
    {p : Party} (hp : p.active) (hlocked : c.parties j = .locked p.txn op key) {o : Op} (hne : j' ≠ i)
    (hmem : Event.done j' u o ∈ lockedEvents j t op key) : o.Spares k (c.parties i).txn.pendingBuffer := by
  cases op with
  | get => cases hmem
  | put value | delete =>
    obtain ⟨rfl, -, rfl⟩ : j' = j ∧ u = t ∧ _ := by simpa [lockedEvents] using hmem
    refine Op.spares_of_key_ne ?_
    rintro rfl
    refine hl.notPending hi hk (by rw [hlocked]; exact hp) hne ?_
    rw [hlocked]
    exact FinMap.mem_insert_iff.mpr (Or.inl rfl)

/-- What the calls that succeed in a step do to the key. -/
theorem CoreStep.spares (h : CoreStep c l evs c') (hl : LockInv c.locks c.parties) (hl' : LockInv c'.locks c'.parties)
    (hact : (c.parties i).active) (hsame : c'.parties i = c.parties i)
    (hk : (c.parties i).txn.txnId ∈ c.locks.holders k) {j' : SessionId} {u : TxnId} {o : Op} (hne : j' ≠ i)
    (hmem : Event.done j' u o ∈ evs) : o.Spares k (c.parties i).txn.pendingBuffer := by
  have hheld := h.held hl.toHoldInv hact hsame hk
  have hact' : (c'.parties i).active := hsame ▸ hact
  rw [← hsame] at hheld ⊢
  cases h with
  | granted hp _ hactive _ =>
    exact lockedEvents_spares hl' hact' hheld hactive (Function.update_self ..) hne hmem
  | @waitGranted _ j p op key flags locks hp hph hfin =>
    have hactive : p.active := hp ▸ hl.active j (by rw [hp, hph]; simp)
    exact lockedEvents_spares hl' hact' hheld hactive (Function.update_self ..) hne hmem
  | @read _ j p key hp hph =>
    subst hp
    obtain ⟨rfl, -, rfl⟩ : j' = j ∧ u = _ ∧ o = _ := by simpa using hmem
    refine ⟨rfl, fun hb => ?_⟩
    rintro (rfl : key = k)
    -- the reader holds its key, and session `i` holds it alone
    have hactive := hl.active j' (by rw [hph]; simp)
    have hreads := (hl.parties hactive).held ((hl.parties hactive).reading hph) (by rw [hph]; simp)
    rw [hsame] at hb
    rw [((hl.parties hact).sole hb).1, Finset.mem_singleton] at hreads
    exact hne (hl.unique hactive hact hreads)
  | silent he | reset _ _ he => exact absurd (he _ hmem) (by simp [Event.silent])
  | begin | logBegin | queued | waitFailed | release | startCommit | logWrite | logCommit | apply | applied | startAbort
  | logAbort | abortRelease => simp at hmem

/-- The key keeps its value. -/
theorem CoreStep.store_held (h : CoreStep c l evs c') (hl : LockInv c.locks c.parties)
    (hs : StoreInv serial c.store c.parties) (hact : (c.parties i).active) (hrun : (c.parties i).phase = .running)
    (hk : (c.parties i).txn.txnId ∈ c.locks.holders k) : c'.store[k]? = c.store[k]? := by
  cases h with
  | @apply _ j p lsn w ws hp hph =>
    subst hp
    refine (get_applyWrite c.store w k).trans (if_neg ?_)
    rintro rfl
    have hne : j ≠ i := by
      rintro rfl
      rw [hrun] at hph
      cases hph
    exact hl.notPending hact hk (hl.active j (by rw [hph]; simp)) hne (hs.mem_pending hph List.mem_cons_self)
  | _ => rfl

end Keys

/-- What has become of a key of the transaction that session `i` left in state `s`, after the events `tr'`. -/
structure LostInv (i : SessionId) (k : Key) (s : State) (tr' : List Event) (r : State) : Prop where
  session : r.sessions i = s.sessions i
  held : (s.sessions i).txn.txnId ∈ r.locks.holders k
  store : r.store[k]? = s.store[k]?
  calls : ∀ j u op, j ≠ i → .done j u op ∈ tr' → op.Spares k (s.sessions i).txn.pendingBuffer

/-- **Step lemma.** -/
theorem LostInv.step {st : Store} {tr tr' evs : List Event} {s r r' : State} {a : Action} {i : SessionId} {k : Key}
    (hi : s.Abandoned i) (hinv : TxnInv st tr r) (hinv' : TxnInv st (tr ++ evs) r') (h : LostInv i k s tr' r)
    (hs : Kvdb.step r a = some (r', evs)) : LostInv i k s (tr' ++ evs) r' := by
  have hstay : r'.sessions i = r.sessions i := step_sessions_of_closed hs (by rw [h.session]; exact hi.1)
  have hact : (r.core.parties i).active := by
    show (r.sessions i).txn.state = .active
    rw [h.session]
    exact hi.2
  have hrun : (r.core.parties i).phase = .running := by
    show (r.sessions i).pc.phase (r.sessions i).txn = .running
    rw [h.session, hi.1]
    rfl
  have hk : (r.core.parties i).txn.txnId ∈ r.core.locks.holders k := by
    show (r.sessions i).txn.txnId ∈ r.locks.holders k
    rw [h.session]
    exact h.held
  have hsame : r'.core.parties i = r.core.parties i := congrArg Session.party hstay
  have hheld : (r.sessions i).txn.txnId ∈ r'.locks.holders k := (step_core hs).held hinv.locks.toHoldInv hact hsame hk
  have hstore : r'.store[k]? = r.store[k]? := (step_core hs).store_held hinv.locks hinv.store hact hrun hk
  refine ⟨hstay.trans h.session, h.session ▸ hheld, hstore.trans h.store, fun j u op hne hmem => ?_⟩
  rcases List.mem_append.mp hmem with hmem | hmem
  · exact h.calls j u op hne hmem
  · rw [← h.session]
    exact (step_core hs).spares hinv.locks hinv'.locks hact hsame hk hne hmem

/-- **The keys of an abandoned transaction are lost.** Whatever the other sessions do afterwards, every key that the
transaction has locked stays locked and keeps its value, no `PUT` or `DELETE` of it succeeds, and no `GET` either if the
transaction has written it. -/
theorem abandoned_keys_lost {st : Store} {s₀ s s' : State} {as as' : List Action} {tr tr' : List Event}
    {i : SessionId} {k : Key} (h0 : Server.Initial st s₀) (h : Run step KeepsLocks s₀ as s tr) (hi : s.Abandoned i)
    (hk : (s.sessions i).txn.txnId ∈ s.locks.holders k) (h' : Run step KeepsLocks s as' s' tr') :
    s'.Abandoned i ∧ (s.sessions i).txn.txnId ∈ s'.locks.holders k ∧ s'.store.get k = s.store.get k ∧
      ∀ j u op, j ≠ i → .done j u op ∈ tr' → op.writes k = false ∧
        (k ∈ (s.sessions i).txn.pendingBuffer → op.key ≠ k) := by
  obtain ⟨-, hlost⟩ := Run.invariant (fun tr' r => TxnInv st (tr ++ tr') r ∧ LostInv i k s tr' r)
    ⟨(List.append_nil tr).symm ▸ txnInv_of_run h0 h, rfl, hk, rfl, fun _ _ _ _ hmem => (by cases hmem)⟩
    (fun ⟨hinv, hlost⟩ hP hs => by
      have hinv' := hinv.step hP hs
      exact ⟨List.append_assoc .. ▸ hinv', hlost.step hi hinv hinv' hs⟩) h'
  refine ⟨?_, hlost.held, hlost.store, hlost.calls⟩
  rw [State.Abandoned, hlost.session]
  exact hi

/-- A client writes `a` and leaves; the next session writes `b` and reads `a` in vain. -/
theorem abandoned_keys_lost_get : ∃ s tr s' tr', Run step KeepsLocks (Server.boot {} ∅)
    [.connect, .command 0 (.begin .repeatableRead), .thread 0, .command 0 (.put [97] [49]), .disconnect 0] s tr ∧
    s.Abandoned 0 ∧ Run step KeepsLocks s [.connect, .command 1 (.begin .repeatableRead), .thread 1,
      .command 1 (.put [98] [50]), .command 1 (.get [97]), .thread 1, .thread 1, .thread 1, .thread 1] s' tr' ∧
    (s'.sessions 1).pc = .idle ∧ s'.Abandoned 0 ∧ ∀ u op, .done 1 u op ∈ tr' → op.key ≠ [97] := by
  have hruns := exists_runs_of_exec step KeepsLocks KeepsLocks (Server.boot {} ∅)
    [.connect, .command 0 (.begin .repeatableRead), .thread 0, .command 0 (.put [97] [49]), .disconnect 0]
    [.connect, .command 1 (.begin .repeatableRead), .thread 1, .command 1 (.put [98] [50]), .command 1 (.get [97]),
      .thread 1, .thread 1, .thread 1, .thread 1]
    (fun s s' => decide ((s.Abandoned 0 ∧ (s.sessions 0).txn.txnId ∈ s.locks.holders [97] ∧
      [97] ∈ (s.sessions 0).txn.pendingBuffer) ∧ (s'.sessions 1).pc = .idle)) (by decide +kernel)
  obtain ⟨s, tr, s', tr', hr, hr', hp⟩ := hruns
  obtain ⟨⟨hi, hk, hb⟩, hidle⟩ := of_decide_eq_true hp
  obtain ⟨hi', -, -, hcalls⟩ := abandoned_keys_lost (.opened {}) hr hi hk hr'
  exact ⟨s, tr, s', tr', hr, hi, hr', hidle, hi', fun u op hmem => (hcalls 1 u op (by decide) hmem).2 hb⟩

/-! ## Checkpoints -/

section Checkpoints

variable {s s' : State} {a : Action} {evs : List Event} {i : SessionId}

/-- The bytes have been appended to the log file, and no other file has changed. -/
def Disk.Appended (d d' : Disk) (bytes : Bytes) : Prop :=
  d'.walLog = d.walLog.map (· ++ bytes) ∧ d'.read .dataDb = d.read .dataDb ∧ d'.read .dataDbTmp = d.read .dataDbTmp

theorem Disk.appended_nil (d : Disk) : d.Appended d [] :=
  ⟨by simp, rfl, rfl⟩

theorem Disk.Appended.trans {d d' d'' : Disk} {bytes bytes' : Bytes} (h : d.Appended d' bytes)
    (h' : d'.Appended d'' bytes') : d.Appended d'' (bytes ++ bytes') := by
  refine ⟨?_, h'.2.1.trans h.2.1, h'.2.2.trans h.2.2⟩
  rw [h'.1, h.1, Option.map_map]
  exact congrArg (d.walLog.map ·) (funext fun bs => by simp)

theorem workerStep_appended {fault : Option Nat} (h : workerStep s fault = some (s', evs)) :
    s.disk.Appended s'.disk (flushedBytes evs) := by
  unfold workerStep at h
  split at h
  · cases h
    exact s.disk.appended_nil
  · cases h
    exact s.disk.appended_nil
  · cases h
    exact ⟨by simp [flushedBytes], rfl, rfl⟩
  · cases h
    show s.disk.Appended s.disk.fsyncWal []
    unfold Disk.fsyncWal
    split <;> exact s.disk.appended_nil
  · split at h <;> cases h <;> exact s.disk.appended_nil
  · cases h
    exact s.disk.appended_nil

/-- Without checkpoints the files change by what the worker flushes. -/
theorem NoCheckpoint.appended (hP : NoCheckpoint s a) (hs : Kvdb.step s a = some (s', evs))
    (hout : ∀ i, (s.sessions i).pc.inCheckpoint = false) : s.disk.Appended s'.disk (flushedBytes evs) := by
  cases (step_cases hs).2 with
  | connect _ hs' he => subst hs' he; exact s.disk.appended_nil
  | session i _ _ _ hst =>
    rw [hst.disk, hst.flushed]
    exact s.disk.appended_nil
  | checkpoint i pc ha hpc hc he =>
    subst ha he
    rw [hP.refused (hout i) hpc hc]
    exact s.disk.appended_nil
  | copyStore i entries lsn file _ hpc _ hs' he => subst hs' he; exact s.disk.appended_nil
  | checkpointFault i n pc _ hpc hc _ =>
    have hi := hout i
    rw [hpc] at hi
    cases pc with
    | check => cases hc
    | _ => cases hi
  | worker fault _ hw => exact workerStep_appended hw

end Checkpoints

/-- **No checkpoint after an abandoned transaction.** Once a client has left inside a transaction, and no checkpoint is
under way, none ever gets past its check: the snapshot stays as it is, and the log file grows by what the worker
flushes, whatever the clients do and whatever fails. -/
theorem abandoned_ends_checkpoints {st : Store} {s₀ s s' : State} {as as' : List Action} {tr tr' : List Event}
    {i : SessionId} (h0 : Server.Initial st s₀) (h : Run step (fun _ _ => True) s₀ as s tr) (hi : s.Abandoned i)
    (hout : ∀ j, (s.sessions j).pc.inCheckpoint = false) (h' : Run step (fun _ _ => True) s as' s' tr') :
    (∀ j, (s'.sessions j).pc.inCheckpoint = false) ∧ s'.disk.read .dataDb = s.disk.read .dataDb ∧
      s'.disk.read .walLog = (s.disk.read .walLog).map (· ++ flushedBytes tr') := by
  obtain ⟨-, -, hout', hdisk⟩ := Run.invariant (fun tr' r => r.Unconnected ∧ r.Abandoned i ∧
    (∀ j, (r.sessions j).pc.inCheckpoint = false) ∧ s.disk.Appended r.disk (flushedBytes tr'))
    ⟨unconnected_of_run h0 h, hi, hout, s.disk.appended_nil⟩
    (fun {tr' r a r' evs} ⟨hu, hi, hout, hdisk⟩ _ hs => by
      have hP : NoCheckpoint r a := by
        cases a <;> first | exact fun _ => hi.hasActiveTransactions hu | trivial
      refine ⟨step_unconnected hs hu, hi.step hs, hP.step hs hout, ?_⟩
      rw [flushedBytes_append]
      exact hdisk.trans (hP.appended hs hout)) h'
  exact ⟨hout', hdisk.2.1, hdisk.1⟩

/-- A client leaves inside a transaction; its `BEGIN` record is flushed, and the `CHECKPOINT` of the next client is
refused. -/
theorem abandoned_ends_checkpoints_refused : ∃ s tr s' tr', Run step (fun _ _ => True) (Server.boot {} ∅)
    [.connect, .command 0 (.begin .repeatableRead), .thread 0, .command 0 (.put [97] [49]), .disconnect 0] s tr ∧
    s.Abandoned 0 ∧ Run step (fun _ _ => True) s [.connect, .worker, .worker, .worker, .worker, .worker, .worker,
      .command 1 .checkpoint, .thread 1] s' tr' ∧ (s'.sessions 1).pc = .idle ∧ flushedBytes tr' ≠ [] ∧
    s'.disk.read .dataDb = none ∧ s'.disk.read .walLog = some (flushedBytes tr') := by
  have hexec : ((exec step (fun _ _ => True) (Server.boot {} ∅)
      [.connect, .command 0 (.begin .repeatableRead), .thread 0, .command 0 (.put [97] [49]), .disconnect 0]).any
      fun r => (exec step (fun _ _ => True) r.1 [.connect, .worker, .worker, .worker, .worker, .worker, .worker,
        .command 1 .checkpoint, .thread 1]).any fun r' => decide ((r.1.Abandoned 0 ∧ r.1.sessionCount = 1 ∧
          r.1.disk = { walLog := some [] }) ∧ (r'.1.sessions 1).pc = .idle ∧ flushedBytes r'.2 ≠ [])) = true := by
    decide +kernel
  obtain ⟨⟨s, tr⟩, hs, hexec⟩ := (Option.any_eq_true _ _).mp hexec
  obtain ⟨⟨s', tr'⟩, hs', hp⟩ := (Option.any_eq_true _ _).mp hexec
  obtain ⟨⟨hi, hcount, hdisk⟩, hidle, hflushed⟩ := of_decide_eq_true hp
  have h := exec_run hs
  have h' := exec_run hs'
  have hout : ∀ j, (s.sessions j).pc.inCheckpoint = false := by
    rintro (_ | j)
    · exact congrArg Pc.inCheckpoint hi.1
    · rw [unconnected_of_run (.opened {}) h (j + 1) (by rw [hcount]; omega)]
      rfl
  obtain ⟨-, hdb, hlog⟩ := abandoned_ends_checkpoints (.opened {}) h hi hout h'
  rw [hdisk] at hdb hlog
  exact ⟨s, tr, s', tr', h, hi, h', hidle, hflushed, hdb, hlog⟩

end Kvdb
