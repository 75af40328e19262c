import Kvdb.Replay
import Kvdb.Serial

/-!
# The write paths of a transaction

A call of `put` or `delete_key` reaches the store on two ways: `commit` applies the pending buffer, which has one entry
per key in the order of the keys, and recovery replays the records that were logged from the buffer. Both do what the
calls would have done one by one (`direct`), and a `get` sees what they would have left so far.

- `applyWrites_coalesce`, `found_readKey`: the buffer over a store is the store after the calls;
- `OwnInv`: along a run, the buffer of a session is that of its calls, and its `get`s were answered from it;
- `Stage`: what `commit` has logged and applied of it so far, while nobody else takes a step;
- `write_paths_agree`: the three ways give the same store.
-/

namespace Kvdb

open Std Machine

/-! ## Calls, buffers and stores -/

/-- The call does its work on the store at once. -/
def Op.direct (st : Store) : Op → Store
  | .put key value => st.put key value
  | .delete key => st.deleteKey key
  | .get _ _ => st

/-- The calls one by one. -/
def direct (st : Store) (ops : List Op) : Store := ops.foldl Op.direct st

/-- The call does its work on the pending buffer. -/
def Op.buffer (b : PendingBuffer) : Op → PendingBuffer
  | .put key value => b.insert key (value, false)
  | .delete key => b.insert key ([], true)
  | .get _ _ => b

/-- The pending buffer of the calls. -/
def coalesce (ops : List Op) : PendingBuffer := ops.foldl Op.buffer ∅

/-- What a `get` finds, apart from the reason for finding nothing. -/
def GetReply.found : GetReply → Option Value
  | .value v => some v
  | .deletedInTxn | .notFound => none

@[simp] theorem coalesce_append (ops : List Op) (op : Op) : coalesce (ops ++ [op]) = op.buffer (coalesce ops) := by
  simp [coalesce]

/-- A buffer over a store, key by key. -/
theorem get_applyWrites_toList (st : Store) (b : PendingBuffer) (k : Key) :
    (applyWrites st b.toList)[k]? = match b[k]? with
      | some (value, isDeleted) => if isDeleted then none else some value
      | none => st[k]? := by
  cases hb : b[k]? with
  | none =>
    refine get_applyWrites_of_notMem (fun hmem => ?_) st
    obtain ⟨w, hw, rfl⟩ := List.mem_map.mp hmem
    rw [ExtTreeMap.mem_toList_iff_getElem?_eq_some.mp hw] at hb
    cases hb
  | some e =>
    have hmem : (k, e) ∈ b.toList := ExtTreeMap.mem_toList_iff_getElem?_eq_some.mpr hb
    exact get_applyWrites_of_mem (FinMap.nodup_keys b) hmem st

/-- **Reads**: a `get` finds what the buffer makes of the store. -/
theorem found_readKey (b : PendingBuffer) (st : Store) (k : Key) :
    (readKey b st k).found = (applyWrites st b.toList).get k := by
  rw [Store.get, get_applyWrites_toList, readKey]
  cases b[k]? with
  | none => cases h : st.get k <;> exact h.symm
  | some e => obtain ⟨value, _ | _⟩ := e <;> rfl

/-- One more call. -/
theorem applyWrites_buffer (st : Store) (b : PendingBuffer) (op : Op) :
    applyWrites st (op.buffer b).toList = op.direct (applyWrites st b.toList) := by
  refine ExtTreeMap.ext_getElem? fun {k} => ?_
  cases op with
  | get key reply => rfl
  | put key value =>
    rw [Op.direct, Store.put, FinMap.find_insert, get_applyWrites_toList, get_applyWrites_toList, Op.buffer,
      FinMap.find_insert]
    by_cases hk : key = k <;> simp [hk]
  | delete key =>
    rw [Op.direct, Store.deleteKey, FinMap.find_erase, get_applyWrites_toList, get_applyWrites_toList, Op.buffer,
      FinMap.find_insert]
    by_cases hk : key = k <;> simp [hk]

/-- **Writes**: the buffer of the calls does what the calls do. -/
theorem applyWrites_coalesce (st : Store) (ops : List Op) : applyWrites st (coalesce ops).toList = direct st ops := by
  induction ops using List.reverseRecOn with
  | nil => rfl
  | append_singleton ops op ih =>
    rw [coalesce_append, applyWrites_buffer, ih]
    simp [direct]

/-! ## The buffer along a run -/

/-- Every `get` among the calls was answered from the buffer of the calls before it and a store of the kind. -/
def Reads (S : Store → Prop) (ops : List Op) : Prop :=
  ∀ before key reply after, ops = before ++ .get key reply :: after →
    ∃ st, S st ∧ reply = readKey (coalesce before) st key

theorem reads_nil (S : Store → Prop) : Reads S [] := fun before key reply after heq => by simp at heq

theorem Reads.append {S : Store → Prop} {ops : List Op} (h : Reads S ops) {op : Op}
    (hop : ∀ key reply, op = .get key reply → ∃ st, S st ∧ reply = readKey (coalesce ops) st key) :
    Reads S (ops ++ [op]) := by
  intro before key reply after heq
  rcases List.eq_nil_or_concat after with rfl | ⟨after, last, rfl⟩
  · obtain ⟨rfl, hlast⟩ := List.append_inj' heq rfl
    exact hop key reply (List.singleton_inj.mp hlast)
  · rw [List.concat_eq_append, ← List.cons_append, ← List.append_assoc] at heq
    exact h before key reply after (List.append_inj' heq rfl).1

/-- The phases in which the pending buffer is still there. -/
def Phase.buffers : Phase → Bool
  | .aborted | .released => false
  | _ => true

/-- The buffer of a session is that of the calls of its transaction. -/
structure OwnInv (S : Store → Prop) (p : Party) (ops : List Op) : Prop where
  active : p.phase ≠ .running → p.active
  buffer : p.active → p.phase.buffers = true → p.txn.pendingBuffer = coalesce ops
  reads : Reads S ops

namespace OwnInv

variable {S : Store → Prop} {p : Party} {ops : List Op}

/-- The session goes on to another phase, or releases a lock. -/
theorem move (h : OwnInv S p ops) (hact : p.active) {txn : TransactionInfo} {phase : Phase}
    (htxn : txn.pendingBuffer = p.txn.pendingBuffer) (hstate : txn.state = p.txn.state)
    (hphase : phase.buffers = true → p.phase.buffers = true) : OwnInv S ⟨txn, phase⟩ ops :=
  ⟨fun _ => hstate.trans hact, fun _ hb => htxn.trans (h.buffer hact (hphase hb)), h.reads⟩

/-- The buffer is cleared, or the transaction is over. -/
theorem clear (h : OwnInv S p ops) {p' : Party} (hact : p'.phase ≠ .running → p'.active)
    (hphase : p'.active → p'.phase.buffers = false) : OwnInv S p' ops :=
  ⟨hact, fun ha hb => absurd hb (by rw [hphase ha]; simp), h.reads⟩

/-- A call is over. -/
theorem call (h : OwnInv S p ops) (hact : p.active) (hphase : p.phase.buffers = true) {op : Op} {p' : Party}
    (hp : p'.active) (hbuf : p'.txn.pendingBuffer = op.buffer p.txn.pendingBuffer)
    (hget : ∀ key reply, op = .get key reply → ∃ st, S st ∧ reply = readKey p.txn.pendingBuffer st key) :
    OwnInv S p' (ops ++ [op]) := by
  have hb := h.buffer hact hphase
  refine ⟨fun _ => hp, fun _ _ => by rw [hbuf, hb, coalesce_append], h.reads.append fun key reply hop => ?_⟩
  rw [← hb]
  exact hget key reply hop

/-- A `put`, `delete_key` or `get` has its lock. -/
theorem locked (h : OwnInv S p ops) (hact : p.active) (hphase : p.phase.buffers = true) (i : SessionId) (op : LockOp)
    (key : Key) (hist : History) (hcur : (hist.current i).ops = ops) :
    OwnInv S (.locked p.txn op key) (((lockedEvents i p.txn.txnId op key).foldl History.add hist).current i).ops := by
  cases op with
  | get => rw [← hcur] at h; exact h.move hact rfl rfl fun _ => hphase
  | put value | delete =>
    simp only [lockedEvents, List.foldl_cons, List.foldl_nil, History.add, Function.update_self, hcur]
    exact h.call hact hphase hact rfl (by simp)

/-- A step sets the party of one session, this one or another. -/
theorem setParty {c c₁ : Core} {i j : SessionId} {p' : Party} {hist hist' : History}
    (h : OwnInv S (c.parties i) (hist.current i).ops) (hps : c₁.parties = c.parties)
    (hother : i ≠ j → hist'.current i = hist.current i) (hown : i = j → OwnInv S p' (hist'.current i).ops) :
    OwnInv S ((c₁.setParty j p').parties i) (hist'.current i).ops := by
  by_cases hij : i = j
  · subst hij
    rw [show (c₁.setParty i p').parties i = p' from Function.update_self ..]
    exact hown rfl
  · rw [show (c₁.setParty j p').parties i = c₁.parties i from Function.update_of_ne hij .., hps, hother hij]
    exact h

end OwnInv

/-- The events of a call are its session's. -/
theorem current_locked_of_ne {i j : SessionId} (hij : i ≠ j) (t : TxnId) (op : LockOp) (key : Key) (hist : History) :
    ((lockedEvents j t op key).foldl History.add hist).current i = hist.current i := by
  cases op <;> simp [lockedEvents, History.add, hij]

/-- **Step lemma**: a session's own calls, and nothing else, change its buffer. -/
theorem CoreStep.own {S : Store → Prop} {c c' : Core} {l : Label} {evs tr : List Event} {i : SessionId}
    (h : CoreStep c l evs c') (hinv : OwnInv S (c.parties i) ((historyOf tr).current i).ops)
    (hS : ∀ key, (c.parties i).phase = .reading key → S c.store) :
    OwnInv S (c'.parties i) ((historyOf (tr ++ evs)).current i).ops := by
  cases h with
  | silent he =>
    rw [historyOf_silent he]
    exact hinv
  | @begin j level hph hact =>
    rw [historyOf_append]
    refine hinv.setParty rfl (fun hij => by simp [History.add, hij]) ?_
    rintro rfl
    simp only [List.foldl_cons, List.foldl_nil, History.add, Function.update_self]
    exact ⟨fun _ => rfl, fun _ _ => rfl, reads_nil _⟩
  | @granted j p op key locks hp hph hact hacq =>
    subst hp
    rw [historyOf_append]
    refine hinv.setParty rfl (fun hij => current_locked_of_ne hij ..) ?_
    rintro rfl
    exact hinv.locked hact (by rw [hph]; rfl) _ op key _ rfl
  | @waitGranted _ j p op key flags locks hp hph hfin =>
    subst hp
    rw [historyOf_append]
    refine hinv.setParty rfl (fun hij => current_locked_of_ne hij ..) ?_
    rintro rfl
    exact hinv.locked (hinv.active (by rw [hph]; simp)) (by rw [hph]; rfl) _ op key _ rfl
  | @read _ j p key hp hph =>
    subst hp
    rw [historyOf_append]
    refine hinv.setParty rfl (fun hij => by simp [History.add, hij]) ?_
    rintro rfl
    have hact := hinv.active (by rw [hph]; simp)
    simp only [List.foldl_cons, List.foldl_nil, History.add, Function.update_self]
    refine hinv.call hact (by rw [hph]; rfl) hact rfl fun k reply hop => ?_
    cases hop
    exact ⟨c.store, hS key hph, rfl⟩
  | @applied _ j p lsn hp hph =>
    subst hp
    rw [List.append_nil]
    refine hinv.setParty rfl (fun _ => rfl) ?_
    rintro rfl
    exact hinv.clear (fun _ => hinv.active (by rw [hph]; simp)) fun _ => rfl
  | @logAbort _ j p hp hph =>
    subst hp
    rw [historyOf_append]
    refine hinv.setParty rfl (fun _ => rfl) ?_
    rintro rfl
    exact hinv.clear (fun _ => hinv.active (by rw [hph]; simp)) fun _ => rfl
  | @reset _ _ j p hp hph he =>
    rw [historyOf_silent he]
    refine hinv.setParty rfl (fun _ => rfl) fun _ => ?_
    exact hinv.clear (fun h => absurd rfl h) fun ha => by cases ha
  | @queued j p op key locks flags hp hph hact hacq =>
    subst hp
    rw [List.append_nil]
    refine hinv.setParty rfl (fun _ => rfl) ?_
    rintro rfl
    exact hinv.move hact rfl rfl fun _ => by rw [hph]; rfl
  | @startCommit j p hp hph hact | @startAbort _ j p hp hph hact =>
    subst hp
    rw [List.append_nil]
    refine hinv.setParty rfl (fun _ => rfl) ?_
    rintro rfl
    exact hinv.move hact rfl rfl fun _ => by rw [hph]; rfl
  | @logBegin _ j p hp hph | @logWrite _ j p w ws hp hph | @logCommit _ j p hp hph =>
    subst hp
    rw [historyOf_append]
    refine hinv.setParty rfl (fun _ => rfl) ?_
    rintro rfl
    exact hinv.move (hinv.active (by rw [hph]; simp)) rfl rfl fun _ => by rw [hph]; rfl
  | @waitFailed _ j p op key flags locks hp hph hfin | @release _ j p key hp hph | @apply _ j p lsn w ws hp hph =>
    subst hp
    rw [List.append_nil]
    refine hinv.setParty rfl (fun _ => rfl) ?_
    rintro rfl
    exact hinv.move (hinv.active (by rw [hph]; simp)) rfl rfl fun _ => by rw [hph]; rfl
  | @abortRelease _ j p hp hph =>
    subst hp
    rw [List.append_nil]
    refine hinv.setParty rfl (fun _ => rfl) ?_
    rintro rfl
    exact hinv.move (hinv.active (by rw [hph]; simp)) rfl rfl fun h => by cases h

theorem ownInv_of_run {P : State → Action → Prop} {st : Store} {s₀ s : State} {as : List Action} {tr : List Event}
    (h0 : Server.Initial st s₀) (h : Run step P s₀ as s tr) (i : SessionId) :
    OwnInv (fun _ => True) (s.core.parties i) ((historyOf tr).current i).ops := by
  refine Run.invariant (fun tr s => OwnInv (fun _ => True) (s.core.parties i) ((historyOf tr).current i).ops) ?_
    (fun hi _ hs => (step_core hs).own hi fun _ _ => trivial) h
  cases h0 <;> exact ⟨fun h => absurd rfl h, fun ha => (by cases ha), reads_nil _⟩

/-! ## One transaction alone -/

/-- Only the session's thread and the flush worker take steps, and the session begins no other transaction. -/
def Alone (i : SessionId) (_ : State) (a : Action) : Prop :=
  (a.session = some i ∨ a.session = none) ∧ a.label ≠ .begin i

instance (i : SessionId) (s : State) (a : Action) : Decidable (Alone i s a) := inferInstanceAs (Decidable (_ ∧ _))

/-- The events commit the transaction with the given writes, and log it completely. -/
structure CommitsWith (t : TxnId) (tr : List Event) (lsn : Nat) (writes : List Write) : Prop where
  commits : commitsOf tr = [⟨lsn, t, writes⟩]
  record : (logOf tr).filter (·.type = .commit) = [⟨lsn, t, .commit, [], []⟩]
  records : recordsOf t (logOf tr) = writes.map Write.content ++ [(.commit, [], [])]

/-- The events commit nothing, and log of the transaction the given writes only. -/
structure CommitsNone (t : TxnId) (tr : List Event) (writes : List Write) : Prop where
  commits : commitsOf tr = []
  record : (logOf tr).filter (·.type = .commit) = []
  records : recordsOf t (logOf tr) = writes.map Write.content

section CommitsNone

variable {t : TxnId} {tr evs : List Event} {done : List Write}

theorem CommitsNone.quiet (h : CommitsNone t tr done) (he : LogsNothing evs) : CommitsNone t (tr ++ evs) done := by
  obtain ⟨hcommits, hlog⟩ := he.append tr
  exact ⟨hcommits.trans h.commits, hlog ▸ h.record, hlog ▸ h.records⟩

theorem CommitsWith.quiet {lsn : Nat} (h : CommitsWith t tr lsn done) (he : LogsNothing evs) :
    CommitsWith t (tr ++ evs) lsn done := by
  obtain ⟨hcommits, hlog⟩ := he.append tr
  exact ⟨hcommits.trans h.commits, hlog ▸ h.record, hlog ▸ h.records⟩

theorem CommitsNone.begin (h : CommitsNone t tr []) (lsn : Nat) :
    CommitsNone t (tr ++ [.logged ⟨lsn, t, .begin, [], []⟩]) [] := by
  refine ⟨?_, ?_, ?_⟩
  · rw [commitsOf_append, h.commits]
    rfl
  · rw [logOf_append, List.filter_append, h.record]
    rfl
  · rw [logOf_append, recordsOf_append, h.records]
    simp [recordsOf, logOf]

theorem CommitsNone.write (h : CommitsNone t tr done) (lsn : Nat) (w : Write) :
    CommitsNone t (tr ++ [.logged (w.record lsn t)]) (done ++ [w]) := by
  obtain ⟨key, value, isDeleted⟩ := w
  refine ⟨?_, ?_, ?_⟩
  · rw [commitsOf_append, h.commits]
    rfl
  · rw [logOf_append, List.filter_append, h.record]
    cases isDeleted <;> rfl
  · rw [logOf_append, recordsOf_append, h.records, List.map_append]
    cases isDeleted <;> simp [recordsOf, logOf, Write.record, Write.content, WALRecord.content]

theorem CommitsNone.commit (h : CommitsNone t tr done) (i : SessionId) (lsn : Nat) :
    CommitsWith t (tr ++ [.logged ⟨lsn, t, .commit, [], []⟩, .committed i lsn t done]) lsn done := by
  refine ⟨?_, ?_, ?_⟩
  · rw [commitsOf_append, h.commits]
    rfl
  · rw [logOf_append, List.filter_append, h.record]
    rfl
  · rw [logOf_append, recordsOf_append, h.records]
    simp [recordsOf, logOf, WALRecord.content]

end CommitsNone

/-- The transaction `t` over the store `st` takes calls, or logs its writes. -/
structure Pending (st : Store) (t : TxnId) (tr : List Event) (store : Store) (txn : TransactionInfo)
    (done : List Write) : Prop where
  store : store = st
  txnId : txn.txnId = t
  commits : CommitsNone t tr done

/-- The transaction is over, and committed or not. -/
def Over (st : Store) (t : TxnId) (ops : List Op) (tr : List Event) (store : Store) : Prop :=
  commitsOf tr = [] ∨ store = direct st ops ∧ ∃ lsn, CommitsWith t tr lsn (coalesce ops).toList

/-- How far the transaction is: what is logged of its buffer, and what is in the store. -/
def Stage (st : Store) (t : TxnId) (ops : List Op) (tr : List Event) (store : Store) (txn : TransactionInfo) :
    Phase → Prop
  | .starting | .waiting _ _ _ | .reading _ | .releasing _ => Pending st t tr store txn []
  | .running => (txn.state = .active → Pending st t tr store txn []) ∧
      (txn.state ≠ .active → Over st t ops tr store)
  | .logging ws => ∃ done, txn.pendingBuffer.toList = done ++ ws ∧ Pending st t tr store txn done
  | .applying lsn ws => (∃ done, txn.pendingBuffer.toList = done ++ ws ∧ store = applyWrites st done) ∧
      CommitsWith t tr lsn (coalesce ops).toList
  | .aborting | .aborted => commitsOf tr = []
  | .released => Over st t ops tr store

/-- The stage of a session. -/
def State.Stage (s : State) (i : SessionId) (st : Store) (t : TxnId) (tr : List Event) : Prop :=
  Kvdb.Stage st t ((historyOf tr).current i).ops tr s.store (s.sessions i).txn
    ((s.sessions i).pc.phase (s.sessions i).txn)

section Stage

variable {st store : Store} {t : TxnId} {ops : List Op} {tr evs : List Event} {txn : TransactionInfo} {ph : Phase}

theorem Pending.quiet {done : List Write} (h : Pending st t tr store txn done) (he : LogsNothing evs) :
    Pending st t (tr ++ evs) store txn done := ⟨h.store, h.txnId, h.commits.quiet he⟩

theorem Over.quiet (h : Over st t ops tr store) (he : LogsNothing evs) : Over st t ops (tr ++ evs) store := by
  rcases h with h | ⟨hst, lsn, h⟩
  · exact Or.inl ((he.append tr).1.trans h)
  · exact Or.inr ⟨hst, lsn, h.quiet he⟩

/-- The transaction of the session is reset. -/
theorem Over.reset (h : Over st t ops tr store) : Stage st t ops tr store {} .running :=
  ⟨fun ha => absurd ha (by simp), fun _ => h⟩

theorem Stage.quiet (h : Stage st t ops tr store txn ph) (he : LogsNothing evs) :
    Stage st t ops (tr ++ evs) store txn ph := by
  cases ph with
  | starting | waiting | reading | releasing => exact Pending.quiet h he
  | running => exact ⟨fun ha => (h.1 ha).quiet he, fun ha => (h.2 ha).quiet he⟩
  | logging ws =>
    obtain ⟨done, hd, hp⟩ := h
    exact ⟨done, hd, hp.quiet he⟩
  | applying lsn ws => exact ⟨h.1, h.2.quiet he⟩
  | aborting | aborted => exact (he.append tr).1.trans h
  | released => exact Over.quiet h he

/-- A transaction that has committed has committed the buffer of its calls. -/
theorem Stage.committed (h : Stage st t ops tr store txn ph) {c : Commit} (hc : c ∈ commitsOf tr) :
    ∃ lsn, CommitsWith t tr lsn (coalesce ops).toList := by
  have none : commitsOf tr = [] → ∃ lsn, CommitsWith t tr lsn (coalesce ops).toList := by
    intro hnil
    rw [hnil] at hc
    cases hc
  have ended : Over st t ops tr store → ∃ lsn, CommitsWith t tr lsn (coalesce ops).toList :=
    fun h => h.elim none fun h => h.2
  cases ph with
  | starting | waiting | reading | releasing => exact none h.commits.commits
  | running =>
    by_cases ha : txn.state = .active
    · exact none (h.1 ha).commits.commits
    · exact ended (h.2 ha)
  | logging ws =>
    obtain ⟨done, -, hp⟩ := h
    exact none hp.commits.commits
  | applying lsn ws => exact ⟨lsn, h.2⟩
  | aborting | aborted => exact none h
  | released => exact ended h

theorem State.stage_setPc (s : State) (i : SessionId) (pc : Pc) : (s.setPc i pc).Stage i st t tr =
    Kvdb.Stage st t ((historyOf tr).current i).ops tr s.store (s.sessions i).txn (pc.phase (s.sessions i).txn) := by
  rw [State.Stage, pc_setPc, txn_setPc]
  rfl

theorem State.stage_setTxn (s : State) (i : SessionId) (txn : TransactionInfo) (pc : Pc) :
    (s.setTxn i txn pc).Stage i st t tr =
      Kvdb.Stage st t ((historyOf tr).current i).ops tr s.store txn (pc.phase txn) := by
  rw [State.Stage, sessions_setTxn]
  rfl

variable {S : Store → Prop} {s s' : State} {i : SessionId}

/-- A `put`, `delete_key` or `get` has its lock. -/
theorem Pending.locked (h : Pending st t tr s.store (s.sessions i).txn []) (hact : (s.sessions i).txn.state = .active)
    (op : LockOp) (key : Key) (locks : LockManager) :
    ({ s with locks := locks }.setTxn i ((s.sessions i).txn.withLock op key) (op.resume key)).Stage i st t
      (tr ++ lockedEvents i (s.sessions i).txn.txnId op key) := by
  have hp := h.quiet (lockedEvents_logsNothing i (s.sessions i).txn.txnId op key)
  rw [State.stage_setTxn]
  cases op with
  | get => exact ⟨hp.store, hp.txnId, hp.commits⟩
  | put | delete => exact ⟨fun _ => ⟨hp.store, hp.txnId, hp.commits⟩, fun hn => absurd hact hn⟩

theorem CheckpointEffect.stage {cp : CheckpointPc} (h : CheckpointEffect s i s')
    (hpc : (s.sessions i).pc = .checkpoint cp) (hst : s.Stage i st t tr) : s'.Stage i st t tr := by
  unfold State.Stage at hst
  rw [hpc] at hst
  cases h with
  | next disk pc' => rw [State.stage_setPc]; exact hst
  | done disk => rw [State.stage_setPc]; exact hst
  | throw => rw [State.Stage, hpc]; exact hst

theorem CommandMove.stage {cmd : Command} (h : CommandMove s i cmd s' evs) (hpc : (s.sessions i).pc = .idle)
    (hbegin : ∀ level, cmd ≠ .begin level) (hst : s.Stage i st t tr) : s'.Stage i st t (tr ++ evs) := by
  have hrun : Kvdb.Stage st t ((historyOf tr).current i).ops tr s.store (s.sessions i).txn .running := by
    unfold State.Stage at hst
    rw [hpc] at hst
    exact hst
  cases h with
  | alreadyInTransaction level hcmd _ | begin level hcmd _ => exact absurd hcmd (hbegin level)
  | notInTransaction =>
    have he : ∀ e ∈ [Event.failed i .notInTransaction], e.silent = true := by simp [Event.silent]
    rw [State.Stage, historyOf_silent he]
    exact Stage.quiet hst (logsNothing_silent he)
  | granted op key locks _ hact _ => exact (hrun.1 hact).locked hact op key locks
  | queued op key locks flags _ hact _ =>
    rw [State.stage_setPc, List.append_nil]
    exact hrun.1 hact
  | commit _ hact =>
    rw [State.stage_setPc, List.append_nil]
    exact ⟨[], rfl, hrun.1 hact⟩
  | abort _ hact | quitActive _ hact =>
    rw [State.stage_setPc, List.append_nil]
    exact (hrun.1 hact).commits.commits
  | checkpoint | quit =>
    rw [State.stage_setPc, List.append_nil]
    exact hrun

theorem ThreadMove.stage (h : ThreadMove s i (s.sessions i).pc s' evs)
    (hown : OwnInv S (s.core.parties i) ((historyOf tr).current i).ops) (hst : s.Stage i st t tr) :
    s'.Stage i st t (tr ++ evs) := by
  have hactive := hown.active
  have hbuffer := hown.buffer
  unfold State.Stage at hst
  simp only [State.core, Session.party, Party.active] at hactive hbuffer
  generalize hpc : (s.sessions i).pc = pc at h
  rw [hpc] at hst hactive hbuffer
  cases h with
  | logBegin =>
    have hp : Pending st t tr s.store (s.sessions i).txn [] := hst
    rw [State.stage_setPc, hp.txnId]
    exact ⟨fun _ => ⟨hp.store, hp.txnId, hp.commits.begin _⟩, fun hn => absurd (hactive (by simp [Pc.phase])) hn⟩
  | waitGranted op key flags locks hfin =>
    exact Pending.locked hst (hactive (by simp [Pc.phase])) op key locks
  | waitFailed op key flags locks hfin =>
    rw [State.stage_setPc, List.append_nil]
    exact hst.commits.commits
  | read key =>
    have hp : Pending st t tr s.store (s.sessions i).txn [] := hst
    have hp' : Pending st t (tr ++ [.done i (s.sessions i).txn.txnId
        (.get key (readKey (s.sessions i).txn.pendingBuffer s.store key))]) s.store (s.sessions i).txn [] :=
      hp.quiet ⟨rfl, rfl, rfl⟩
    rw [State.stage_setPc]
    split
    · exact hp'
    · exact ⟨fun _ => hp', fun hn => absurd (hactive (by simp [Pc.phase])) hn⟩
  | release key =>
    have hp : Pending st t tr s.store (s.sessions i).txn [] := hst
    rw [State.stage_setTxn, List.append_nil]
    exact ⟨fun _ => ⟨hp.store, hp.txnId, hp.commits⟩, fun hn => absurd (hactive (by simp [Pc.phase])) hn⟩
  | logWrite w ws =>
    obtain ⟨done, hd, hp⟩ := hst
    rw [State.stage_setPc, hp.txnId]
    exact ⟨done ++ [w], by rw [hd, List.append_assoc]; rfl, hp.store, hp.txnId, hp.commits.write _ w⟩
  | logCommit =>
    obtain ⟨done, hd, hp⟩ := hst
    rw [List.append_nil] at hd
    have hb := hbuffer (hactive (by simp [Pc.phase])) rfl
    rw [State.stage_setPc, hp.txnId, historyOf_append]
    refine ⟨⟨[], rfl, hp.store⟩, ?_⟩
    have hcommit := hp.commits.commit i s.wal.nextLsn
    rw [← hd, hb] at hcommit
    rw [hb]
    exact hcommit
  | apply lsn w ws =>
    obtain ⟨⟨done, hd, hstore⟩, hc⟩ := hst
    rw [State.stage_setPc, List.append_nil]
    refine ⟨⟨done ++ [w], by rw [hd, List.append_assoc]; rfl, ?_⟩, hc⟩
    show applyWrite s.store w = _
    rw [hstore]
    simp [applyWrites]
  | applied lsn =>
    obtain ⟨⟨done, hd, hstore⟩, hc⟩ := hst
    have hb := hbuffer (hactive (by simp [Pc.phase])) rfl
    rw [State.stage_setTxn, List.append_nil]
    rw [List.append_nil] at hd
    refine Or.inr ⟨?_, lsn, hc⟩
    show s.store = _
    rw [hstore, ← hd, hb, applyWrites_coalesce]
  | commitReset lsn =>
    have he : ∀ e ∈ [Event.acked i lsn (s.sessions i).txn.txnId], e.silent = true := by simp [Event.silent]
    rw [State.stage_setTxn, historyOf_silent he]
    exact Over.reset (Over.quiet hst (logsNothing_silent he))
  | logAbort cause =>
    have hc : commitsOf tr = [] := hst
    rw [State.stage_setTxn]
    show commitsOf _ = []
    rw [commitsOf_append, hc]
    rfl
  | abortRelease cause =>
    rw [State.stage_setPc, List.append_nil]
    exact Or.inl hst
  | abortReset cause =>
    have he : ∀ e ∈ (if cause = .deadlock then [Event.failed i .deadlock] else []), e.silent = true := by
      split <;> simp [Event.silent]
    rw [State.stage_setTxn, historyOf_silent he]
    have hphase : Pc.phase {} (if cause = .quit then .closed else .idle) = .running := by split <;> rfl
    rw [hphase]
    exact Over.reset (Over.quiet hst (logsNothing_silent he))
  | flushed lsn hle =>
    rw [State.stage_setPc, historyOf_silent (by simp [Event.silent])]
    exact Stage.quiet hst (logsNothing_silent (by simp [Event.silent]))
  | enterWait | notFlushed | block | wakeUp =>
    rw [State.stage_setPc, List.append_nil]
    exact hst
  | checkpoint cp hc =>
    rw [List.append_nil]
    exact (checkpointStep_effect hc).stage hpc (by rw [State.Stage, hpc]; exact hst)

/-- The stage is a matter of the transaction machine. -/
theorem State.Stage.of_core (h : s.Stage i st t tr) (hc : s'.core = s.core) : s'.Stage i st t tr := by
  have hparty : (s'.sessions i).party = (s.sessions i).party := congrFun (congrArg Core.parties hc) i
  obtain ⟨htxn, hphase⟩ := Party.mk.inj hparty
  rw [State.Stage, htxn, ← htxn, hphase, show s'.store = s.store from congrArg Core.store hc, htxn]
  exact h

theorem State.Stage.step {a : Action} (hst : s.Stage i st t tr) (hs : Kvdb.step s a = some (s', evs)) (hP : Alone i s a)
    (hown : OwnInv S (s.core.parties i) ((historyOf tr).current i).ops) : s'.Stage i st t (tr ++ evs) := by
  obtain ⟨hsession, hbegin⟩ := hP
  have own : ∀ {j : SessionId}, a.session = some j → j = i := by
    intro j hj
    rcases hsession with hi | hn
    · exact Option.some.inj (hj.symm.trans hi)
    · rw [hn] at hj
      cases hj
  cases (step_move hs).2 with
  | connect ha =>
    rw [List.append_nil]
    exact hst
  | command j cmd ha _ hpc hmove =>
    obtain rfl := own (by rw [ha]; rfl)
    exact hmove.stage hpc (fun level hcmd => hbegin (by rw [ha, hcmd]; rfl)) hst
  | thread j ha hmove =>
    obtain rfl := own (by rw [ha]; rfl)
    exact hmove.stage hown hst
  | copyStore j entries lsn file ha hpc _ =>
    obtain rfl := own (by rw [ha]; rfl)
    rw [List.append_nil]
    exact CheckpointEffect.stage (.next s.disk _) hpc hst
  | threadFault j n pc ha hpc hc =>
    obtain rfl := own (by rw [ha]; rfl)
    rw [List.append_nil]
    exact (checkpointFault_effect hc).stage hpc hst
  | worker fault ha hw =>
    obtain ⟨hc, he⟩ := workerStep_core hw
    refine State.Stage.of_core ?_ hc
    rw [State.Stage, historyOf_silent he]
    exact Stage.quiet hst (logsNothing_silent he)
  | disconnect j ha _ hpc =>
    obtain rfl := own (by rw [ha]; rfl)
    rw [List.append_nil, State.stage_setPc]
    rw [State.Stage, hpc] at hst
    exact hst

end Stage

/-- The records of a step have the next LSNs. -/
theorem CoreStep.lsns {c c' : Core} {l : Label} {evs : List Event} (h : CoreStep c l evs c') :
    c.nextLsn ≤ c'.nextLsn ∧ ∀ r ∈ logOf evs, c.nextLsn ≤ r.lsn := by
  cases h with
  | silent he => exact ⟨Nat.le_refl _, by simp [logOf_silent he]⟩
  | granted | waitGranted => exact ⟨Nat.le_refl _, by simp [(lockedEvents_logsNothing ..).log]⟩
  | reset _ _ he => exact ⟨Nat.le_refl _, by simp [logOf_silent he]⟩
  | logWrite =>
    refine ⟨Nat.le_succ _, fun r hr => ?_⟩
    obtain rfl := List.mem_singleton.mp hr
    unfold Write.record
    split <;> exact Nat.le_refl _
  | logBegin | logCommit | logAbort => exact ⟨Nat.le_succ _, by simp [logOf]⟩
  | begin | queued | waitFailed | read | release | startCommit | apply | applied | startAbort | abortRelease =>
    exact ⟨Nat.le_refl _, by simp [logOf]⟩

/-- A transaction alone, from its beginning over the store `st`. -/
structure AloneInv (i : SessionId) (st : Store) (t : TxnId) (first : Nat) (tr : List Event) (s : State) : Prop where
  own : OwnInv (· = st) (s.core.parties i) ((historyOf tr).current i).ops
  stage : s.Stage i st t tr
  next : first ≤ s.wal.nextLsn
  lsns : ∀ r ∈ logOf tr, first ≤ r.lsn

theorem AloneInv.step {i : SessionId} {st : Store} {t : TxnId} {first : Nat} {tr evs : List Event} {s s' : State}
    {a : Action} (h : AloneInv i st t first tr s) (hP : Alone i s a) (hs : Kvdb.step s a = some (s', evs)) :
    AloneInv i st t first (tr ++ evs) s' := by
  obtain ⟨hle, hlsns⟩ := (step_core hs).lsns
  refine ⟨(step_core hs).own h.own fun key hreading => ?_, h.stage.step hs hP h.own, h.next.trans hle, fun r hr => ?_⟩
  · have hst := h.stage
    rw [State.Stage, show (s.sessions i).pc.phase (s.sessions i).txn = .reading key from hreading] at hst
    exact hst.store
  · rw [logOf_append] at hr
    rcases List.mem_append.mp hr with hr | hr
    · exact h.lsns r hr
    · exact h.next.trans (hlsns r hr)

/-- Replaying what a committed transaction has logged. -/
theorem CommitsWith.replay {t : TxnId} {tr : List Event} {lsn ckpt : Nat} {writes : List Write}
    (h : CommitsWith t tr lsn writes) (hlsn : ∀ r ∈ logOf tr, ckpt < r.lsn) (st : Store) :
    replayRecords ckpt st ((logOf tr).map WALRecord.scanned) = applyWrites st writes := by
  have hops : ∀ c ∈ [Commit.mk lsn t writes],
      (recordsOf c.txnId (logOf tr)).foldl replayContent ([], false) = (c.writes.map Write.operation, true) := by
    intro c hc
    obtain rfl := List.mem_singleton.mp hc
    rw [h.records, List.foldl_append, foldl_replayContent]
    rfl
  have hrecord : (logOf tr).filter (·.type = .commit) = [Commit.mk lsn t writes].map Commit.record := h.record
  exact replayRecords_eq hlsn hrecord (List.pairwise_singleton _ _) hops st

theorem aloneInv_of_run {i : SessionId} {t : TxnId} {level : IsolationLevel} {s₀ s : State} {as : List Action}
    {tr : List Event}
    (hbegin : s₀.sessions i = ⟨{ txnId := t, isolationLevel := level, state := .active }, .logBegin⟩)
    (hrun : Run step (Alone i) s₀ as s tr) : AloneInv i s₀.store t s₀.wal.nextLsn tr s := by
  refine Run.invariant (AloneInv i s₀.store t s₀.wal.nextLsn) ?_ (fun hi hP hs => hi.step hP hs) hrun
  refine ⟨?_, ?_, Nat.le_refl _, by simp⟩
  · rw [show s₀.core.parties i = (s₀.sessions i).party from rfl, hbegin]
    exact ⟨fun _ => rfl, fun _ _ => rfl, reads_nil _⟩
  · rw [State.Stage, hbegin]
    exact ⟨rfl, rfl, rfl, rfl, rfl⟩

/-- **The write paths of a transaction agree.** Its calls, applied to a store one by one, do what the buffer does that
`commit` applies, and what replay makes of the records that `commit` logs; once `commit` is through, that is the store.
Every `get` has found what the calls before it would have left. -/
theorem write_paths_agree {i : SessionId} {t : TxnId} {level : IsolationLevel} {s₀ s : State} {as : List Action}
    {tr : List Event}
    (hbegin : s₀.sessions i = ⟨{ txnId := t, isolationLevel := level, state := .active }, .logBegin⟩)
    (hrun : Run step (Alone i) s₀ as s tr) :
    (∀ before key reply after, ((historyOf tr).current i).ops = before ++ .get key reply :: after →
      reply.found = (direct s₀.store before).get key) ∧
    ∀ c ∈ commitsOf tr,
      (∀ st, applyWrites st c.writes = direct st ((historyOf tr).current i).ops) ∧
      (∀ st ckpt, ckpt < s₀.wal.nextLsn → replayRecords ckpt st ((logOf tr).map WALRecord.scanned) =
        direct st ((historyOf tr).current i).ops) ∧
      ((s.sessions i).txn.state ≠ .active → s.store = direct s₀.store ((historyOf tr).current i).ops) := by
  have hinv := aloneInv_of_run hbegin hrun
  refine ⟨fun before key reply after heq => ?_, fun c hc => ?_⟩
  · obtain ⟨st, rfl, rfl⟩ := hinv.own.reads before key reply after heq
    rw [found_readKey, applyWrites_coalesce]
  · obtain ⟨lsn, hcommits⟩ := hinv.stage.committed hc
    obtain rfl : c = ⟨lsn, t, _⟩ := by
      rw [hcommits.commits] at hc
      exact List.mem_singleton.mp hc
    refine ⟨fun st => applyWrites_coalesce st _, fun st ckpt hckpt => ?_, fun hover => ?_⟩
    · rw [hcommits.replay (fun r hr => Nat.lt_of_lt_of_le hckpt (hinv.lsns r hr)), applyWrites_coalesce]
    · have hphase : (s.sessions i).pc.phase (s.sessions i).txn = .running := by
        by_contra hne
        exact hover (hinv.own.active hne)
      have hstage := hinv.stage
      rw [State.Stage, hphase] at hstage
      rcases hstage.2 hover with hnone | ⟨hstore, -⟩
      · rw [hnone] at hc
        cases hc
      · exact hstore

/-- Over a store with `a` and `b`, a transaction puts `a`, deletes it and puts it again, deletes `b`, reads both and
commits. -/
theorem write_paths_agree_rewritten : ∃ s₀ s as tr c, s₀.store.toList = [([97], [48]), ([98], [48])] ∧
    Run step (Alone 0) s₀ as s tr ∧ c ∈ commitsOf tr ∧ ((historyOf tr).current 0).ops =
      [.put [97] [49], .delete [97], .put [97] [50], .delete [98], .get [98] .deletedInTxn, .get [97] (.value [50])] ∧
    applyWrites s₀.store c.writes = direct s₀.store ((historyOf tr).current 0).ops ∧
    replayRecords 0 s₀.store ((logOf tr).map WALRecord.scanned) =
      direct s₀.store ((historyOf tr).current 0).ops ∧
    s.store = direct s₀.store ((historyOf tr).current 0).ops := by
  let store : Store := (ExtTreeMap.insert ∅ [97] [48]).insert [98] [48]
  let s₀ : State := { Server.boot {} store with sessionCount := 1, nextTxnId := 2 }.setTxn 0
    { txnId := 1, isolationLevel := .repeatableRead, state := .active } .logBegin
  have hrun := exists_run_of_exec step (Alone 0) s₀
    [.thread 0, .command 0 (.put [97] [49]), .command 0 (.delete [97]), .command 0 (.put [97] [50]),
      .command 0 (.delete [98]), .command 0 (.get [98]), .thread 0, .command 0 (.get [97]), .thread 0,
      .command 0 .commit, .thread 0, .thread 0, .thread 0, .worker, .worker, .worker, .worker, .worker, .worker,
      .worker, .worker, .worker, .thread 0, .thread 0, .thread 0, .thread 0, .thread 0, .thread 0]
    (fun s tr => decide (commitsOf tr ≠ [] ∧ ((historyOf tr).current 0).ops =
      [.put [97] [49], .delete [97], .put [97] [50], .delete [98], .get [98] .deletedInTxn, .get [97] (.value [50])] ∧
      (s.sessions 0).txn.state ≠ .active)) (by decide +kernel)
  obtain ⟨s, tr, hr, hp⟩ := hrun
  obtain ⟨hne, hops, hover⟩ := of_decide_eq_true hp
  obtain ⟨c, hc⟩ := List.exists_mem_of_ne_nil _ hne
  have hbegin : s₀.sessions 0 = ⟨{ txnId := 1, isolationLevel := .repeatableRead, state := .active }, .logBegin⟩ := rfl
  obtain ⟨happly, hreplay, hstore⟩ := (write_paths_agree hbegin hr).2 c hc
  exact ⟨s₀, s, _, tr, c, by decide +kernel, hr, hc, hops, happly _, hreplay _ 0 (by decide), hstore hover⟩

end Kvdb
