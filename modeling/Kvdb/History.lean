import Kvdb.Core

/-!
# Histories

What the events of a run say about its transactions: which ids have been handed out (`begunOf`), the latest
transaction of every session with the calls it has made (`History.current`), the transactions that have committed, in
the order of their `COMMIT` records, with their calls (`History.committed`) and with their writes (`commitsOf`), the
records that have been logged (`logOf`) and the bytes that have reached the log file (`flushedBytes`).
-/

namespace Kvdb

/-- The ids that have been handed out. -/
def begunOf (tr : List Event) : List TxnId :=
  tr.filterMap fun e => match e with
    | .began _ t _ => some t
    | _ => none

/-- A committed transaction: the LSN of its `COMMIT` record and its pending buffer. -/
structure Commit where
  lsn : Nat
  txnId : TxnId
  writes : List Write
  deriving DecidableEq, Repr

/-- The committed transactions, in the order of their `COMMIT` records. -/
def commitsOf (tr : List Event) : List Commit :=
  tr.filterMap fun e => match e with
    | .committed _ lsn t writes => some ⟨lsn, t, writes⟩
    | _ => none

/-- The records that have been logged. -/
def logOf (tr : List Event) : List WALRecord :=
  tr.filterMap fun e => match e with
    | .logged r => some r
    | _ => none

/-- The bytes that have reached the log file. -/
def flushedBytes (tr : List Event) : Bytes :=
  tr.flatMap fun e => match e with
    | .flushed bytes => bytes
    | _ => []

/-- The store after the transactions have been applied one after the other. -/
def applyCommits (st : Store) (cs : List Commit) : Store := cs.foldl (fun st c => applyWrites st c.writes) st

/-- A transaction as its session has seen it: the calls that have returned, with their answers. -/
structure Calls where
  txnId : TxnId := 0
  level : IsolationLevel := .readCommitted
  ops : List Op := []
  deriving DecidableEq, Repr

structure History where
  /-- The latest transaction of a session. -/
  current : SessionId → Calls := fun _ => {}
  /-- The committed transactions with the LSNs of their `COMMIT` records. -/
  committed : List (Nat × List Op) := []

def History.add (h : History) : Event → History
  | .began i t level => { h with current := Function.update h.current i ⟨t, level, []⟩ }
  | .done i _ op =>
    let calls := h.current i
    { h with current := Function.update h.current i { calls with ops := calls.ops ++ [op] } }
  | .committed i lsn _ _ => { h with committed := h.committed ++ [(lsn, (h.current i).ops)] }
  | _ => h

def historyOf (tr : List Event) : History := tr.foldl History.add {}

/-! ## Appending events -/

@[simp] theorem logOf_nil : logOf [] = [] := rfl

@[simp] theorem logOf_append (tr evs : List Event) : logOf (tr ++ evs) = logOf tr ++ logOf evs := by simp [logOf]

/-- Records that were logged stay where they are. -/
theorem take_logOf_append {tr : List Event} {n : Nat} (h : n ≤ (logOf tr).length) (evs : List Event) :
    (logOf (tr ++ evs)).take n = (logOf tr).take n := by
  rw [logOf_append, List.take_append_of_le_length h]

@[simp] theorem flushedBytes_append (tr evs : List Event) :
    flushedBytes (tr ++ evs) = flushedBytes tr ++ flushedBytes evs := by simp [flushedBytes]

@[simp] theorem begunOf_append (tr evs : List Event) : begunOf (tr ++ evs) = begunOf tr ++ begunOf evs := by
  simp [begunOf]

@[simp] theorem commitsOf_append (tr evs : List Event) : commitsOf (tr ++ evs) = commitsOf tr ++ commitsOf evs := by
  simp [commitsOf]

@[simp] theorem applyCommits_append (st : Store) (cs ds : List Commit) :
    applyCommits st (cs ++ ds) = applyCommits (applyCommits st cs) ds := by simp [applyCommits]

theorem historyOf_append (tr evs : List Event) : historyOf (tr ++ evs) = evs.foldl History.add (historyOf tr) := by
  simp [historyOf]

section Silent

variable {evs : List Event} (h : ∀ e ∈ evs, e.silent = true)
include h

theorem begunOf_silent : begunOf evs = [] := by
  refine List.filterMap_eq_nil_iff.mpr fun e he => ?_
  have := h e he
  cases e <;> simp_all [Event.silent]

theorem commitsOf_silent : commitsOf evs = [] := by
  refine List.filterMap_eq_nil_iff.mpr fun e he => ?_
  have := h e he
  cases e <;> simp_all [Event.silent]

theorem logOf_silent : logOf evs = [] := by
  refine List.filterMap_eq_nil_iff.mpr fun e he => ?_
  have := h e he
  cases e <;> simp_all [Event.silent]

theorem historyOf_silent (tr : List Event) : historyOf (tr ++ evs) = historyOf tr := by
  rw [historyOf_append]
  generalize historyOf tr = hist
  induction evs with
  | nil => rfl
  | cons e evs ih =>
    have he := h e List.mem_cons_self
    have hadd : hist.add e = hist := by cases e <;> simp_all [Event.silent, History.add]
    rw [List.foldl_cons, hadd]
    exact ih fun e' he' => h e' (List.mem_cons_of_mem _ he')

end Silent

/-- Events that hand out no id, log no record and commit nothing. -/
structure LogsNothing (evs : List Event) : Prop where
  begun : begunOf evs = []
  log : logOf evs = []
  commits : commitsOf evs = []

theorem logsNothing_silent {evs : List Event} (h : ∀ e ∈ evs, e.silent = true) : LogsNothing evs :=
  ⟨begunOf_silent h, logOf_silent h, commitsOf_silent h⟩

theorem LogsNothing.append {evs : List Event} (he : LogsNothing evs) (tr : List Event) :
    commitsOf (tr ++ evs) = commitsOf tr ∧ logOf (tr ++ evs) = logOf tr := by
  rw [commitsOf_append, he.commits, logOf_append, he.log, List.append_nil, List.append_nil]
  exact ⟨rfl, rfl⟩

theorem lockedEvents_logsNothing (i : SessionId) (t : TxnId) (op : LockOp) (key : Key) :
    LogsNothing (lockedEvents i t op key) := by cases op <;> exact ⟨rfl, rfl, rfl⟩

/-! ## The order of commits -/

theorem historyOf_committed (tr : List Event) :
    (historyOf tr).committed.map Prod.fst = (commitsOf tr).map (·.lsn) := by
  induction tr using List.reverseRecOn with
  | nil => rfl
  | append_singleton tr e ih =>
    rw [historyOf_append, commitsOf_append, List.map_append, ← ih, List.foldl_cons, List.foldl_nil]
    cases e <;> simp [History.add, commitsOf]

/-- Commits come in the order of their LSNs, and these have been handed out. -/
structure CommitOrder (cs : List Commit) (nextLsn : Nat) : Prop where
  sorted : cs.Pairwise fun a b => a.lsn < b.lsn
  below : ∀ c ∈ cs, c.lsn < nextLsn

/-- A step commits at most one transaction, at the next LSN, after its last write has been logged. -/
theorem CoreStep.commits {c c' : Core} {l : Label} {evs : List Event} (h : CoreStep c l evs c') :
    c.nextLsn ≤ c'.nextLsn ∧ (commitsOf evs = [] ∨ ∃ i writes, (c.parties i).phase = .logging [] ∧
      commitsOf evs = [⟨c.nextLsn, (c.parties i).txn.txnId, writes⟩] ∧ c'.nextLsn = c.nextLsn + 1) := by
  cases h with
  | silent he => exact ⟨le_refl _, Or.inl (commitsOf_silent he)⟩
  | granted | waitGranted => exact ⟨le_refl _, Or.inl (lockedEvents_logsNothing ..).commits⟩
  | logCommit hp hph => subst hp; exact ⟨Nat.le_succ _, Or.inr ⟨_, _, hph, rfl, rfl⟩⟩
  | reset _ _ he => exact ⟨le_refl _, Or.inl (commitsOf_silent he)⟩
  | logBegin | logWrite | logAbort => exact ⟨Nat.le_succ _, Or.inl rfl⟩
  | begin | queued | waitFailed | read | release | startCommit | apply | applied | startAbort | abortRelease =>
    exact ⟨le_refl _, Or.inl rfl⟩

theorem CoreStep.commitOrder {c c' : Core} {l : Label} {evs tr : List Event} (h : CoreStep c l evs c')
    (ho : CommitOrder (commitsOf tr) c.nextLsn) : CommitOrder (commitsOf (tr ++ evs)) c'.nextLsn := by
  obtain ⟨hle, he | ⟨i, writes, -, he, hn⟩⟩ := h.commits <;> rw [commitsOf_append, he]
  · rw [List.append_nil]
    exact ⟨ho.sorted, fun c hc => Nat.lt_of_lt_of_le (ho.below c hc) hle⟩
  · refine ⟨List.pairwise_append.mpr ⟨ho.sorted, List.pairwise_singleton _ _, ?_⟩, ?_⟩
    · intro a ha b hb
      obtain rfl := List.mem_singleton.mp hb
      exact ho.below a ha
    · intro a ha
      rw [hn]
      rcases List.mem_append.mp ha with ha | ha
      · exact Nat.lt_succ_of_lt (ho.below a ha)
      · obtain rfl := List.mem_singleton.mp ha
        exact Nat.lt_succ_self _

end Kvdb
