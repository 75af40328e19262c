import Kvdb.History

/-!
# What replay makes of a log

Recovery regroups the records by transaction id and sorts the commits by LSN. Here the two are undone: what it knows of
a transaction is the fold of that transaction's records alone (`replay_txns`), and on a log in LSN order the sort does
nothing. `Logged log cs` says that a log holds exactly the committed transactions `cs`, each with its complete pending
buffer followed by its `COMMIT` record; replaying such a log applies `cs` (`replayRecords_of_logged`).
-/

namespace Kvdb

/-! ## Records of one transaction -/

/-- What replay looks at in a record. -/
def WALRecord.content (r : WALRecord) : RecordType × Key × Value := (r.type, r.key, r.value)

def Write.content (w : Write) : RecordType × Key × Value := if w.2.2 then (.delete, w.1, []) else (.put, w.1, w.2.1)

/-- The records of a transaction in a log; `BEGIN` records say nothing. -/
def recordsOf (t : TxnId) (log : List WALRecord) : List (RecordType × Key × Value) :=
  (log.filter fun r => r.txnId = t ∧ r.type ≠ .begin).map WALRecord.content

@[simp] theorem recordsOf_append (t : TxnId) (log log' : List WALRecord) :
    recordsOf t (log ++ log') = recordsOf t log ++ recordsOf t log' := by simp [recordsOf]

theorem recordsOf_eq_nil {t : TxnId} {log : List WALRecord} (h : ∀ r ∈ log, r.txnId = t → r.type = .begin) :
    recordsOf t log = [] := by
  simp only [recordsOf, List.map_eq_nil_iff, List.filter_eq_nil_iff, decide_eq_true_eq, not_and, not_not]
  exact h

/-- The `COMMIT` record of a committed transaction. -/
def Commit.record (c : Commit) : WALRecord := ⟨c.lsn, c.txnId, .commit, [], []⟩

/-- The log holds the committed transactions `cs` and of every other transaction no `COMMIT` record. -/
structure Logged (log : List WALRecord) (cs : List Commit) : Prop where
  sorted : log.Pairwise fun a b => a.lsn < b.lsn
  commits : log.filter (·.type = .commit) = cs.map Commit.record
  writes : ∀ c ∈ cs, recordsOf c.txnId log = c.writes.map Write.content ++ [(.commit, [], [])]

theorem Logged.nil : Logged [] [] := ⟨List.Pairwise.nil, rfl, by simp⟩

/-! ## Replay by transaction -/

/-- What a record does to the operations and the state of its transaction. -/
def replayContent (s : List Operation × Bool) : RecordType × Key × Value → List Operation × Bool
  | (.put, key, value) => (s.1 ++ [⟨.put, key, value⟩], s.2)
  | (.delete, key, _) => (s.1 ++ [⟨.delete, key, []⟩], s.2)
  | (.commit, _, _) => (s.1, true)
  | (.abort, _, _) => (s.1, false)
  | (.begin, _, _) => s

def ReplayTxn.summary (txn : ReplayTxn) : List Operation × Bool := (txn.ops, txn.committed)

/-- One record, as replay takes it. -/
theorem replayRecord_txns {ckpt : Nat} {s : Replay} {r : WALRecord} (h : ckpt < r.lsn) (t : TxnId) :
    ((replayRecord ckpt s r.scanned).txns t).summary =
      if r.txnId = t then replayContent (s.txns t).summary r.content else (s.txns t).summary := by
  obtain ⟨lsn, u, type, key, value⟩ := r
  have hlsn : ¬ lsn ≤ ckpt := Nat.not_le.mpr h
  by_cases ht : u = t
  · subst ht
    cases type <;>
      simp [replayRecord, WALRecord.scanned, hlsn, RecordType.toByte, replayContent, WALRecord.content,
        ReplayTxn.summary]
  · cases type <;>
      simp [replayRecord, WALRecord.scanned, hlsn, RecordType.toByte, ReplayTxn.summary, ht, Ne.symm ht]

theorem replayRecord_commitOrder {ckpt : Nat} {s : Replay} {r : WALRecord} (h : ckpt < r.lsn) :
    (replayRecord ckpt s r.scanned).commitOrder =
      s.commitOrder ++ if r.type = .commit then [(r.txnId, r.lsn)] else [] := by
  obtain ⟨lsn, u, type, key, value⟩ := r
  have hlsn : ¬ lsn ≤ ckpt := Nat.not_le.mpr h
  cases type <;> simp [replayRecord, WALRecord.scanned, hlsn, RecordType.toByte]

/-- The bookkeeping for a log. -/
def replayLog (ckpt : Nat) (log : List WALRecord) : Replay :=
  (log.map WALRecord.scanned).foldl (replayRecord ckpt) {}

theorem replayLog_append (ckpt : Nat) (log : List WALRecord) (r : WALRecord) :
    replayLog ckpt (log ++ [r]) = replayRecord ckpt (replayLog ckpt log) r.scanned := by
  simp [replayLog]

/-- **Regrouping**: what replay knows of a transaction comes from its own records. -/
theorem replay_txns {ckpt : Nat} {log : List WALRecord} (h : ∀ r ∈ log, ckpt < r.lsn) (t : TxnId) :
    ((replayLog ckpt log).txns t).summary = (recordsOf t log).foldl replayContent ([], false) := by
  induction log using List.reverseRecOn with
  | nil => rfl
  | append_singleton log r ih =>
    have hr := h r (List.mem_append_right _ (List.mem_singleton_self r))
    rw [replayLog_append, replayRecord_txns hr, ih fun r hr => h r (List.mem_append_left _ hr), recordsOf_append,
      List.foldl_append]
    obtain ⟨lsn, u, type, key, value⟩ := r
    by_cases ht : u = t
    · subst ht
      cases type <;> simp [recordsOf, WALRecord.content, replayContent]
    · simp [recordsOf, ht]

theorem replay_commitOrder {ckpt : Nat} {log : List WALRecord} (h : ∀ r ∈ log, ckpt < r.lsn) :
    (replayLog ckpt log).commitOrder = (log.filter (·.type = .commit)).map fun r => (r.txnId, r.lsn) := by
  induction log using List.reverseRecOn with
  | nil => rfl
  | append_singleton log r ih =>
    have hr := h r (List.mem_append_right _ (List.mem_singleton_self r))
    rw [replayLog_append, replayRecord_commitOrder hr, ih fun r hr => h r (List.mem_append_left _ hr),
      List.filter_append, List.map_append]
    by_cases ht : r.type = .commit <;> simp [ht]

/-! ## Replay of a log that holds committed transactions -/

/-- The operation of a `PUT` or `DELETE` record. -/
def Write.operation (w : Write) : Operation := if w.2.2 then ⟨.delete, w.1, []⟩ else ⟨.put, w.1, w.2.1⟩

theorem applyOperation_eq (st : Store) (w : Write) : applyOperation st w.operation = applyWrite st w := by
  obtain ⟨k, v, _ | _⟩ := w <;> rfl

theorem foldl_applyOperation (st : Store) (ws : List Write) :
    (ws.map Write.operation).foldl applyOperation st = applyWrites st ws := by
  rw [List.foldl_map]
  simp only [applyOperation_eq]
  rfl

theorem foldl_replayContent (ws : List Write) (s : List Operation × Bool) :
    (ws.map Write.content).foldl replayContent s = (s.1 ++ ws.map Write.operation, s.2) := by
  induction ws generalizing s with
  | nil => simp
  | cons w ws ih =>
    rw [List.map_cons, List.foldl_cons, ih]
    obtain ⟨k, v, _ | _⟩ := w <;> simp [Write.content, Write.operation, replayContent]

/-- A transaction with a complete log is applied as a whole. -/
theorem applyCommitted_eq {txns : TxnId → ReplayTxn} {c : Commit}
    (h : (txns c.txnId).summary = (c.writes.map Write.operation, true)) (st : Store) :
    applyCommitted txns st (c.txnId, c.lsn) = applyWrites st c.writes := by
  obtain ⟨hops, hcom⟩ := Prod.mk.inj h
  simp [applyCommitted, hcom, hops, foldl_applyOperation]

theorem foldl_applyCommitted {txns : TxnId → ReplayTxn} : ∀ {cs : List Commit},
    (∀ c ∈ cs, (txns c.txnId).summary = (c.writes.map Write.operation, true)) → ∀ st : Store,
    (cs.map fun c => (c.txnId, c.lsn)).foldl (applyCommitted txns) st = applyCommits st cs
  | [], _, _ => rfl
  | c :: cs, h, st => by
    rw [List.map_cons, List.foldl_cons, applyCommitted_eq (h c List.mem_cons_self),
      foldl_applyCommitted fun c hc => h c (List.mem_cons_of_mem _ hc)]
    rfl

/-- **Replay** applies the committed transactions in the order of their LSNs, if the records of each of them, wherever
they are, amount to its pending buffer and a commit. -/
theorem replayRecords_eq {ckpt : Nat} {log : List WALRecord} {cs : List Commit} (hlsn : ∀ r ∈ log, ckpt < r.lsn)
    (hcommits : log.filter (·.type = .commit) = cs.map Commit.record) (hsorted : cs.Pairwise fun a b => a.lsn < b.lsn)
    (hops : ∀ c ∈ cs, (recordsOf c.txnId log).foldl replayContent ([], false) = (c.writes.map Write.operation, true))
    (st : Store) : replayRecords ckpt st (log.map WALRecord.scanned) = applyCommits st cs := by
  have horder : (replayLog ckpt log).commitOrder = cs.map fun c => (c.txnId, c.lsn) := by
    rw [replay_commitOrder hlsn, hcommits, List.map_map]
    rfl
  have hle : ((replayLog ckpt log).commitOrder).Pairwise fun a b => a.2 ≤ b.2 := by
    rw [horder, List.pairwise_map]
    exact hsorted.imp Nat.le_of_lt
  have hbuild : replayRecords ckpt st (log.map WALRecord.scanned) =
      ((replayLog ckpt log).commitOrder.insertionSort fun a b => a.2 ≤ b.2).foldl
        (applyCommitted (replayLog ckpt log).txns) st := rfl
  rw [hbuild, hle.insertionSort_eq, horder]
  exact foldl_applyCommitted (fun c hc => (replay_txns hlsn c.txnId).trans (hops c hc)) st

namespace Logged

variable {log : List WALRecord} {cs : List Commit}

theorem pairwise_commits (h : Logged log cs) : cs.Pairwise fun a b => a.lsn < b.lsn := by
  have hc : (cs.map Commit.record).Pairwise fun a b => a.lsn < b.lsn := h.commits ▸ h.sorted.filter _
  rwa [List.pairwise_map] at hc

theorem ops (h : Logged log cs) {c : Commit} (hc : c ∈ cs) :
    (recordsOf c.txnId log).foldl replayContent ([], false) = (c.writes.map Write.operation, true) := by
  rw [h.writes c hc, List.foldl_append, foldl_replayContent]
  rfl

end Logged

/-- **Replaying a log applies the transactions it holds.** -/
theorem replayRecords_of_logged {ckpt : Nat} {log : List WALRecord} {cs : List Commit} (h : Logged log cs)
    (hlsn : ∀ r ∈ log, ckpt < r.lsn) (st : Store) :
    replayRecords ckpt st (log.map WALRecord.scanned) = applyCommits st cs :=
  replayRecords_eq hlsn h.commits h.pairwise_commits (fun _ hc => h.ops hc) st

end Kvdb
