import Kvdb.RecordFormat
import Kvdb.Replay

/-!
# The reference model of the chaos suite

`chaos_tests/reference_model.cpp` is the oracle the chaos tests compare a recovered store with. It keeps one entry per
transaction, with one commit order, in a hash map. Recovery keeps the list of all `COMMIT` records and applies a
transaction once for each of its own. Here the two are compared on the same events (`recovery_agrees_with_reference`):
of the several times recovery applies a transaction only the last one counts, because whatever another transaction wrote
in between over the keys of an earlier time is written over again (`FinMap.update_flatMap_filter`).

The suite's `Operation` has the fields of recovery's, and its `Transaction` those of recovery's `TxnState`.
-/

namespace Kvdb

open Std

/-- `ReferenceModel::Transaction` -/
structure ReferenceTxn where
  ops : List Operation := []
  committed : Bool := false
  commitOrder : Nat := 0
  deriving DecidableEq, Repr

structure ReferenceModel where
  txns : ExtTreeMap TxnId ReferenceTxn := ∅
  db : Store := ∅

namespace ReferenceModel

/-- `txns_[id]`, which makes a missing entry. -/
def txn (m : ReferenceModel) (id : TxnId) : ReferenceTxn := m.txns.getD id {}

def setTxn (m : ReferenceModel) (id : TxnId) (txn : ReferenceTxn) : ReferenceModel :=
  { m with txns := m.txns.insert id txn }

def beginTxn (m : ReferenceModel) (id : TxnId) : ReferenceModel := m.setTxn id {}

def addPut (m : ReferenceModel) (id : TxnId) (key : Key) (value : Value) : ReferenceModel :=
  m.setTxn id { m.txn id with ops := (m.txn id).ops ++ [⟨.put, key, value⟩] }

def addDelete (m : ReferenceModel) (id : TxnId) (key : Key) : ReferenceModel :=
  m.setTxn id { m.txn id with ops := (m.txn id).ops ++ [⟨.delete, key, []⟩] }

def commitTxn (m : ReferenceModel) (id : TxnId) (commitOrder : Nat) : ReferenceModel :=
  m.setTxn id { m.txn id with committed := true, commitOrder := commitOrder }

def abortTxn (m : ReferenceModel) (id : TxnId) : ReferenceModel :=
  m.setTxn id { m.txn id with committed := false }

/-- The vector `order` before the sort; `entries` is `txns_` in the order in which its iterator visits it. -/
def committedOrder (entries : List (TxnId × ReferenceTxn)) : List (TxnId × Nat) :=
  (entries.filter fun p => p.2.committed).map fun p => (p.1, p.2.commitOrder)

/-- One turn of the inner loop of `replayCommitted`. -/
def applyOp (db : Store) (op : Operation) : Store :=
  match op.type with
  | .put => db.insert op.key op.value
  | .delete => db.erase op.key

/-- `replayCommitted`. `std::sort` may leave entries of one order in any order, here in that of `entries`. -/
def replayCommitted (m : ReferenceModel) (entries : List (TxnId × ReferenceTxn)) : ReferenceModel :=
  { m with
    db := ((committedOrder entries).insertionSort fun a b => a.2 ≤ b.2).foldl
      (fun db entry => (m.txn entry.1).ops.foldl applyOp db) ∅ }

def state (m : ReferenceModel) : Store := m.db

/-- The call of the model that corresponds to a log call whose record has the given LSN. -/
def event (m : ReferenceModel) : LogCall × Nat → ReferenceModel
  | (.begin id, _) => m.beginTxn id
  | (.put id key value, _) => m.addPut id key value
  | (.delete id key, _) => m.addDelete id key
  | (.commit id, lsn) => m.commitTxn id lsn
  | (.abort id, _) => m.abortTxn id

/-- The model that has been fed the calls, the first of which has the LSN 1. -/
def feed (calls : List LogCall) : ReferenceModel := (calls.zipIdx 1).foldl event {}

theorem txn_setTxn (m : ReferenceModel) (id : TxnId) (txn : ReferenceTxn) (t : TxnId) :
    (m.setTxn id txn).txn t = if id = t then txn else m.txn t := by
  rw [ReferenceModel.txn, setTxn, ExtTreeMap.getD_insert]
  simp only [Std.compare_eq_iff_eq, ReferenceModel.txn]

end ReferenceModel

/-! ## The records of numbered calls -/

def LogCall.txnId : LogCall → TxnId
  | .begin t | .put t _ _ | .delete t _ | .commit t | .abort t => t

/-- The record a log call writes under the given LSN. -/
def LogCall.record : LogCall × Nat → WALRecord
  | (.begin t, lsn) => ⟨lsn, t, .begin, [], []⟩
  | (.put t k v, lsn) => ⟨lsn, t, .put, k, v⟩
  | (.delete t k, lsn) => ⟨lsn, t, .delete, k, []⟩
  | (.commit t, lsn) => ⟨lsn, t, .commit, [], []⟩
  | (.abort t, lsn) => ⟨lsn, t, .abort, [], []⟩

theorem LogCall.record_lsn (e : LogCall × Nat) : (LogCall.record e).lsn = e.2 := by
  obtain ⟨_ | _ | _ | _ | _, lsn⟩ := e <;> rfl

/-- The log manager numbers its records one by one. -/
theorem LogCall.runAll_eq (wal : WALManager) (calls : List LogCall) :
    (runAll wal calls).2 = (calls.zipIdx wal.nextLsn).map LogCall.record := by
  induction calls generalizing wal with
  | nil => rfl
  | cons call calls ih =>
    have hrun : (call.run wal).2 = LogCall.record (call, wal.nextLsn) ∧ (call.run wal).1.nextLsn = wal.nextLsn + 1 := by
      cases call <;> exact ⟨rfl, rfl⟩
    rw [runAll, ih, hrun.1, hrun.2, List.zipIdx_cons, List.map_cons]

/-! ## What both know of a transaction -/

/-- Recovery's entry of a transaction, in the terms of the model. -/
def ReplayTxn.reference (txn : ReplayTxn) : ReferenceTxn := ⟨txn.ops, txn.committed, txn.commitLsn⟩

theorem replayRecord_txns_of_ne {ckpt : Nat} {s : Replay} {r : WALRecord} {t : TxnId} (h : r.txnId ≠ t) :
    (replayRecord ckpt s r.scanned).txns t = s.txns t := by
  obtain ⟨lsn, u, type, key, value⟩ := r
  by_cases hlsn : lsn ≤ ckpt
  · simp [replayRecord, WALRecord.scanned, hlsn]
  · cases type <;> simp [replayRecord, WALRecord.scanned, hlsn, RecordType.toByte, Ne.symm h]

theorem replayLog_txns_of_fresh {ckpt : Nat} {log : List WALRecord} {t : TxnId} (h : ∀ r ∈ log, r.txnId ≠ t) :
    (replayLog ckpt log).txns t = {} := by
  induction log using List.reverseRecOn with
  | nil => rfl
  | append_singleton log r ih =>
    rw [replayLog_append, replayRecord_txns_of_ne (h r (by simp)), ih fun r hr => h r (List.mem_append_left _ hr)]

theorem LogCall.record_txnId (e : LogCall × Nat) : (LogCall.record e).txnId = e.1.txnId := by
  obtain ⟨_ | _ | _ | _ | _, lsn⟩ := e <;> rfl

/-- One event, taken by both. A `BEGIN` makes a new entry in the model, where recovery has none yet. -/
theorem txn_event {s : Replay} {m : ReferenceModel} (h : ∀ t, m.txn t = (s.txns t).reference) {e : LogCall × Nat}
    (hlsn : 0 < e.2) (hbegin : ∀ t, e.1 = .begin t → s.txns t = {}) (t : TxnId) :
    (m.event e).txn t = ((replayRecord 0 s (LogCall.record e).scanned).txns t).reference := by
  by_cases ht : e.1.txnId = t
  · subst ht
    obtain ⟨call, lsn⟩ := e
    have hne : lsn ≠ 0 := Nat.ne_of_gt hlsn
    cases call <;>
      simp_all [ReferenceModel.event, ReferenceModel.beginTxn, ReferenceModel.addPut, ReferenceModel.addDelete,
        ReferenceModel.commitTxn, ReferenceModel.abortTxn, ReferenceModel.txn_setTxn, LogCall.txnId, LogCall.record,
        replayRecord, WALRecord.scanned, RecordType.toByte, ReplayTxn.reference]
  · rw [replayRecord_txns_of_ne (LogCall.record_txnId e ▸ ht), ← h t]
    obtain ⟨_ | _ | _ | _ | _, lsn⟩ := e <;> exact (ReferenceModel.txn_setTxn ..).trans (if_neg ht)

/-- No event of a transaction comes before its `BEGIN`. -/
def BeginsFirst (calls : List LogCall) : Prop := calls.Pairwise fun a b => b ≠ .begin a.txnId

instance (calls : List LogCall) : Decidable (BeginsFirst calls) := inferInstanceAs (Decidable (List.Pairwise _ _))

/-- The model and recovery know the same of every transaction. -/
theorem txn_feed {calls : List LogCall} (h : BeginsFirst calls) (t : TxnId) :
    (ReferenceModel.feed calls).txn t = ((replayLog 0 ((calls.zipIdx 1).map LogCall.record)).txns t).reference := by
  induction calls using List.reverseRecOn generalizing t with
  | nil => simp [ReferenceModel.feed, ReferenceModel.txn, replayLog, ReplayTxn.reference]
  | append_singleton calls call ih =>
    obtain ⟨hcalls, -, hlast⟩ := List.pairwise_append.mp h
    rw [ReferenceModel.feed, List.zipIdx_append, List.foldl_append, List.map_append]
    simp only [List.zipIdx_singleton, List.map_singleton, replayLog_append, List.foldl_cons, List.foldl_nil]
    refine txn_event (ih hcalls) (by omega) (fun u hu => replayLog_txns_of_fresh fun r hr => ?_) t
    obtain ⟨e, he, rfl⟩ := List.mem_map.mp hr
    rw [LogCall.record_txnId]
    rintro rfl
    exact hlast e.1 (List.fst_mem_of_mem_zipIdx he) call (List.mem_singleton_self _) hu

/-! ## The commits of a log -/

/-- What recovery knows of the commits of a log: the LSN of a transaction is that of its last `COMMIT` record. -/
structure LastCommits (s : Replay) : Prop where
  sorted : s.commitOrder.Pairwise fun a b => a.2 < b.2
  le_last : ∀ e ∈ s.commitOrder, e.2 ≤ (s.txns e.1).commitLsn
  last_mem : ∀ t, (s.txns t).committed → (t, (s.txns t).commitLsn) ∈ s.commitOrder

theorem replayRecord_commitLsn {ckpt : Nat} {s : Replay} {r : WALRecord} (h : ckpt < r.lsn) (t : TxnId) :
    ((replayRecord ckpt s r.scanned).txns t).commitLsn =
      if r.txnId = t ∧ r.type = .commit then r.lsn else (s.txns t).commitLsn := by
  by_cases ht : r.txnId = t
  · obtain ⟨lsn, u, type, key, value⟩ := r
    have hlsn : ¬ lsn ≤ ckpt := Nat.not_le.mpr h
    subst ht
    cases type <;> simp [replayRecord, WALRecord.scanned, hlsn, RecordType.toByte]
  · rw [replayRecord_txns_of_ne ht, if_neg fun h => ht h.1]

theorem replayRecord_committed {ckpt : Nat} {s : Replay} {r : WALRecord} (h : ckpt < r.lsn) {t : TxnId}
    (hc : ((replayRecord ckpt s r.scanned).txns t).committed) :
    (r.txnId = t ∧ r.type = .commit) ∨ (s.txns t).committed := by
  have hs : ((replayRecord ckpt s r.scanned).txns t).committed = _ := congrArg Prod.snd (replayRecord_txns h t)
  rw [hs] at hc
  by_cases ht : r.txnId = t
  · rw [if_pos ht] at hc
    obtain ⟨lsn, u, type, key, value⟩ := r
    cases type with
    | commit => exact .inl ⟨ht, rfl⟩
    | abort => exact absurd hc Bool.false_ne_true
    | begin | put | delete => exact .inr hc
  · rw [if_neg ht] at hc
    exact .inr hc

namespace LastCommits

/-- One more record, numbered after all the commits so far. -/
theorem step {s : Replay} (h : LastCommits s) {r : WALRecord} (hpos : 0 < r.lsn)
    (hlt : ∀ e ∈ s.commitOrder, e.2 < r.lsn) : LastCommits (replayRecord 0 s r.scanned) := by
  have horder := replayRecord_commitOrder (s := s) hpos
  refine ⟨?_, fun e he => ?_, fun t ht => ?_⟩
  · rw [horder]
    split
    · exact List.pairwise_append.mpr ⟨h.sorted, List.pairwise_singleton _ _, by simpa using hlt⟩
    · simpa using h.sorted
  · rw [horder, List.mem_append] at he
    rw [replayRecord_commitLsn hpos]
    rcases he with he | he
    · split
      · exact Nat.le_of_lt (hlt e he)
      · exact h.le_last e he
    · split at he
      · next hc =>
        obtain rfl := List.mem_singleton.mp he
        rw [if_pos ⟨rfl, hc⟩]
      · cases he
  · rw [horder, List.mem_append, replayRecord_commitLsn hpos]
    by_cases hr : r.txnId = t ∧ r.type = .commit
    · right
      rw [if_pos hr, if_pos hr.2, ← hr.1]
      exact List.mem_singleton_self _
    · left
      rw [if_neg hr]
      exact h.last_mem t ((replayRecord_committed hpos ht).resolve_left hr)

theorem of_log {log : List WALRecord} (hsorted : log.Pairwise fun a b => a.lsn < b.lsn) (hpos : ∀ r ∈ log, 0 < r.lsn) :
    LastCommits (replayLog 0 log) := by
  induction log using List.reverseRecOn with
  | nil => exact ⟨List.Pairwise.nil, by simp [replayLog], by simp [replayLog]⟩
  | append_singleton log r ih =>
    obtain ⟨hlog, -, hlast⟩ := List.pairwise_append.mp hsorted
    have hpos' : ∀ r ∈ log, 0 < r.lsn := fun r hr => hpos r (List.mem_append_left _ hr)
    rw [replayLog_append]
    refine (ih hlog hpos').step (hpos r (by simp)) fun e he => ?_
    rw [replay_commitOrder hpos'] at he
    obtain ⟨x, hx, rfl⟩ := List.mem_map.mp he
    exact hlast x (List.mem_of_mem_filter hx) r (List.mem_singleton_self r)

end LastCommits

/-! ## The order of the commits -/

/-- A list is sorted to any strictly increasing list of the same entries. -/
theorem insertionSort_eq_of_perm {α : Type} {rank : α → Nat} {l l' : List α} (hp : l.Perm l')
    (hl : l'.Pairwise fun a b => rank a < rank b) : l.insertionSort (fun a b => rank a ≤ rank b) = l' := by
  have htotal : Std.Total fun a b => rank a ≤ rank b := ⟨fun a b => Nat.le_total (rank a) (rank b)⟩
  have htrans : IsTrans α fun a b => rank a ≤ rank b := ⟨fun a b c => Nat.le_trans⟩
  have hperm := (List.perm_insertionSort (fun a b => rank a ≤ rank b) l).trans hp
  have hnodup : (l'.map rank).Nodup := List.pairwise_map.mpr (hl.imp Nat.ne_of_lt)
  refine hperm.eq_of_pairwise (fun a b ha hb hab hba => ?_) (List.pairwise_insertionSort _ l) (hl.imp Nat.le_of_lt)
  exact List.inj_on_of_nodup_map hnodup (hperm.mem_iff.mp ha) hb (Nat.le_antisymm hab hba)

/-- The `COMMIT` records that count: the last one of each transaction that is committed in the end. -/
def Replay.counts (s : Replay) (e : TxnId × Nat) : Bool := (s.txns e.1).committed && e.2 == (s.txns e.1).commitLsn

theorem Replay.counts_iff {s : Replay} {e : TxnId × Nat} :
    s.counts e ↔ (s.txns e.1).committed ∧ e.2 = (s.txns e.1).commitLsn := by
  simp [Replay.counts]

namespace ReferenceModel

variable {m : ReferenceModel} {entries : List (TxnId × ReferenceTxn)}

theorem mem_committedOrder (hp : entries.Perm m.txns.toList) {e : TxnId × Nat} :
    e ∈ committedOrder entries ↔ (m.txn e.1).committed ∧ e.2 = (m.txn e.1).commitOrder := by
  obtain ⟨t, n⟩ := e
  have hget : ∀ txn, (t, txn) ∈ entries ↔ m.txns[t]? = some txn := fun txn =>
    hp.mem_iff.trans ExtTreeMap.mem_toList_iff_getElem?_eq_some
  simp only [committedOrder, List.mem_map, List.mem_filter, Prod.mk.injEq, Prod.exists, ReferenceModel.txn,
    ExtTreeMap.getD_eq_getD_getElem?]
  constructor
  · rintro ⟨u, txn, ⟨hmem, hc⟩, rfl, rfl⟩
    simp [(hget txn).mp hmem, hc]
  · intro h
    cases ht : m.txns[t]? with
    | none => simp [ht] at h
    | some txn =>
      simp only [ht, Option.getD_some] at h
      exact ⟨t, txn, ⟨(hget txn).mpr ht, h.1⟩, rfl, h.2.symm⟩

theorem nodup_committedOrder (hp : entries.Perm m.txns.toList) : (committedOrder entries).Nodup := by
  have hkeys : (entries.map Prod.fst).Nodup := (hp.map Prod.fst).nodup_iff.mpr (FinMap.nodup_keys m.txns)
  refine List.Nodup.of_map Prod.fst ?_
  rw [committedOrder, List.map_map]
  exact (List.filter_sublist.map Prod.fst).nodup hkeys

/-- The sorted vector of `replayCommitted` is the part of `commit_order` that counts. -/
theorem sorted_committedOrder {s : Replay} (hs : LastCommits s) (ht : ∀ t, m.txn t = (s.txns t).reference)
    (hp : entries.Perm m.txns.toList) :
    (committedOrder entries).insertionSort (fun a b => a.2 ≤ b.2) = s.commitOrder.filter s.counts := by
  have hsorted : (s.commitOrder.filter s.counts).Pairwise fun a b => a.2 < b.2 := hs.sorted.filter _
  refine insertionSort_eq_of_perm ?_ hsorted
  refine (List.perm_ext_iff_of_nodup (nodup_committedOrder hp) (hsorted.imp fun h he => ?_)).mpr fun e => ?_
  · exact Nat.ne_of_lt h (congrArg Prod.snd he)
  · rw [mem_committedOrder hp, ht, List.mem_filter, Replay.counts_iff]
    refine ⟨fun h => ⟨?_, h⟩, fun h => h.2⟩
    have he : e = (e.1, (s.txns e.1).commitLsn) := Prod.ext rfl h.2
    exact he ▸ hs.last_mem e.1 h.1

end ReferenceModel

/-! ## The two stores -/

/-- What an operation does to its key. -/
def Operation.effect (op : Operation) : Key × Option Value :=
  (op.key, match op.type with | .put => some op.value | .delete => none)

theorem foldl_applyOperation_eq (st : Store) (ops : List Operation) :
    ops.foldl applyOperation st = FinMap.update st (ops.map Operation.effect) := by
  rw [FinMap.update, List.foldl_map]
  congr 1
  funext st op
  obtain ⟨_ | _, key, value⟩ := op <;> rfl

/-- The updates a turn of recovery's last loop makes. -/
def Replay.batch (s : Replay) (e : TxnId × Nat) : List (Key × Option Value) :=
  if (s.txns e.1).committed then (s.txns e.1).ops.map Operation.effect else []

theorem foldl_applyCommitted_eq (s : Replay) (st : Store) (order : List (TxnId × Nat)) :
    order.foldl (applyCommitted s.txns) st = FinMap.update st (order.flatMap s.batch) := by
  induction order generalizing st with
  | nil => rfl
  | cons e order ih =>
    rw [List.foldl_cons, ih, List.flatMap_cons, FinMap.update_append, applyCommitted, Replay.batch]
    split
    · rw [foldl_applyOperation_eq]
    · rfl

/-- What recovery applies for the records that do not count is written over. -/
theorem LastCommits.foldl_filter {s : Replay} (h : LastCommits s) (st : Store) :
    (s.commitOrder.filter s.counts).foldl (applyCommitted s.txns) st =
      s.commitOrder.foldl (applyCommitted s.txns) st := by
  rw [foldl_applyCommitted_eq, foldl_applyCommitted_eq]
  refine FinMap.update_flatMap_filter h.sorted (fun e he hc k hk => ?_) st
  by_cases hcom : (s.txns e.1).committed
  · refine ⟨(e.1, (s.txns e.1).commitLsn), h.last_mem e.1 hcom, ?_, hk⟩
    exact Nat.lt_of_le_of_ne (h.le_last e he) fun heq => hc (Replay.counts_iff.mpr ⟨hcom, heq⟩)
  · rw [Replay.batch, if_neg hcom] at hk
    cases hk

theorem ReferenceModel.applyOp_eq : ReferenceModel.applyOp = applyOperation := by
  funext db op
  obtain ⟨_ | _, key, value⟩ := op <;> rfl

/-- **The reference model agrees with recovery** on a log of numbered calls, however its hash map is iterated. -/
theorem ReferenceModel.replayCommitted_eq {m : ReferenceModel} {s : Replay} (hs : LastCommits s)
    (ht : ∀ t, m.txn t = (s.txns t).reference) {entries : List (TxnId × ReferenceTxn)}
    (hp : entries.Perm m.txns.toList) :
    (m.replayCommitted entries).state = s.commitOrder.foldl (applyCommitted s.txns) ∅ := by
  rw [← hs.foldl_filter, state, replayCommitted, sorted_committedOrder hs ht hp, applyOp_eq]
  refine List.foldl_ext _ _ _ fun db e he => ?_
  have hcom := (Replay.counts_iff.mp (List.mem_filter.mp he).2).1
  rw [applyCommitted, if_pos hcom, ht]
  rfl

theorem zipIdx_records_sorted (calls : List LogCall) (n : Nat) :
    ((calls.zipIdx n).map LogCall.record).Pairwise fun a b => a.lsn < b.lsn := by
  induction calls generalizing n with
  | nil => exact List.Pairwise.nil
  | cons call calls ih =>
    rw [List.zipIdx_cons, List.map_cons]
    refine List.pairwise_cons.mpr ⟨fun r hr => ?_, ih (n + 1)⟩
    obtain ⟨e, he, rfl⟩ := List.mem_map.mp hr
    rw [LogCall.record_lsn, LogCall.record_lsn]
    exact Nat.lt_of_succ_le (List.le_snd_of_mem_zipIdx he)

/-- **Recovery agrees with the reference model.** The store that recovery replays from the log of any calls in which no
transaction begins twice or late is the state of the reference model that was fed the same calls, each commit with the
LSN of its record. -/
theorem recovery_agrees_with_reference (calls : List LogCall) (h : BeginsFirst calls)
    (entries : List (TxnId × ReferenceTxn)) (hp : entries.Perm (ReferenceModel.feed calls).txns.toList) :
    replayRecords 0 ∅ ((LogCall.runAll {} calls).2.map WALRecord.scanned) =
      ((ReferenceModel.feed calls).replayCommitted entries).state := by
  have hlog : (LogCall.runAll {} calls).2 = (calls.zipIdx 1).map LogCall.record := LogCall.runAll_eq {} calls
  have hs : LastCommits (replayLog 0 ((calls.zipIdx 1).map LogCall.record)) := by
    refine LastCommits.of_log (zipIdx_records_sorted calls 1) fun r hr => ?_
    obtain ⟨e, he, rfl⟩ := List.mem_map.mp hr
    rw [LogCall.record_lsn]
    exact List.le_snd_of_mem_zipIdx he
  rw [ReferenceModel.replayCommitted_eq hs (txn_feed h) hp, hlog]
  show List.foldl _ _ (List.insertionSort _ (replayLog 0 ((calls.zipIdx 1).map LogCall.record)).commitOrder) = _
  rw [(hs.sorted.imp Nat.le_of_lt).insertionSort_eq]
  rfl

/-- A transaction commits, another one writes over its key and commits, and the first commits once more: its value is
the last one for both. -/
theorem recovery_agrees_with_reference_recommit :
    let calls : List LogCall := [.begin 1, .put 1 [97] [49], .commit 1, .put 2 [97] [50], .commit 2, .commit 1]
    BeginsFirst calls ∧
      (replayRecords 0 ∅ ((LogCall.runAll {} calls).2.map WALRecord.scanned)).get [97] = some [49] ∧
      replayRecords 0 ∅ ((LogCall.runAll {} calls).2.map WALRecord.scanned) =
        ((ReferenceModel.feed calls).replayCommitted (ReferenceModel.feed calls).txns.toList).state :=
  ⟨by decide, by decide +kernel, recovery_agrees_with_reference _ (by decide) _ (List.Perm.refl _)⟩

end Kvdb
