import Kvdb.LogShape
import Kvdb.Serial

/-!
# The records of a transaction, and the store they stand for

- `WellFormed`: the records of a transaction are `BEGIN ABORT`, or a beginning of `BEGIN`, one `PUT` or `DELETE` for
  each key of a pending buffer in the order of the keys, `COMMIT`;
- `Party.Recorded`: how far the log of an active transaction is, by its phase. One step keeps it for all sessions
  (`CoreStep.txnLog`), so in every run that hands out no id twice the log is well formed (`log_well_formed`);
- the store agrees with the log: replaying the records logged so far gives the store that the sessions have built,
  whenever no session is inside `commit` and no write lock has been given up (`live_store_replayed`).
-/

namespace Kvdb

open Std

/-! ## The records of one transaction -/

/-- The records with a transaction's id, in the order of the log. -/
def txnLog (t : TxnId) (log : List WALRecord) : List (RecordType × Key × Value) :=
  (log.filter (·.txnId = t)).map WALRecord.content

theorem txnLog_append (t : TxnId) (log log' : List WALRecord) :
    txnLog t (log ++ log') = txnLog t log ++ txnLog t log' := by
  simp [txnLog]

theorem txnLog_singleton (t : TxnId) (r : WALRecord) : txnLog t [r] = if r.txnId = t then [r.content] else [] := by
  by_cases h : r.txnId = t <;> simp [txnLog, h]

theorem txnLog_eq_nil {t : TxnId} {log : List WALRecord} (h : ∀ r ∈ log, r.txnId ≠ t) : txnLog t log = [] := by
  simp only [txnLog, List.map_eq_nil_iff, List.filter_eq_nil_iff, decide_eq_true_eq]
  exact h

/-- The records of a transaction that writes `ws` and commits. -/
def committedLog (ws : List Write) : List (RecordType × Key × Value) :=
  (.begin, [], []) :: (ws.map Write.content ++ [(.commit, [], [])])

/-- Entries with distinct keys, in increasing order. -/
def KeysIncrease (ws : List Write) : Prop := ws.Pairwise fun a b => compare a.1 b.1 = .lt

/-- `BEGIN ABORT`, or a beginning of `BEGIN`, the writes, `COMMIT`. -/
def WellFormed (rs : List (RecordType × Key × Value)) : Prop :=
  rs = [(.begin, [], []), (.abort, [], [])] ∨ ∃ ws, KeysIncrease ws ∧ rs <+: committedLog ws

theorem keysIncrease_toList (b : PendingBuffer) : KeysIncrease b.toList := ExtTreeMap.ordered_keys_toList

/-- A transaction that has logged its first entries. -/
theorem wellFormed_of_done {b : PendingBuffer} {done ws : List Write} (h : b.toList = done ++ ws) :
    WellFormed ((.begin, [], []) :: done.map Write.content) := by
  refine Or.inr ⟨b.toList, keysIncrease_toList b, ?_⟩
  rw [committedLog, h, List.map_append, List.append_assoc, List.prefix_cons_inj]
  exact List.prefix_append _ _

theorem wellFormed_nil : WellFormed [] := Or.inr ⟨[], List.Pairwise.nil, List.nil_prefix⟩

theorem wellFormed_begin : WellFormed [(.begin, [], [])] := by
  have h : (∅ : PendingBuffer).toList = [] ++ [] := rfl
  exact wellFormed_of_done h

/-- How far the log of a transaction is. Nothing is said of one that logs no more. -/
def Party.Recorded (p : Party) (rs : List (RecordType × Key × Value)) : Prop :=
  match p.phase with
  | .starting => rs = []
  | .running | .waiting _ _ _ | .reading _ | .releasing _ | .aborting => rs = [(.begin, [], [])]
  | .logging ws => ∃ done, p.txn.pendingBuffer.toList = done ++ ws ∧ rs = (.begin, [], []) :: done.map Write.content
  | .applying _ _ | .aborted | .released => True

/-- Phases between the `BEGIN` record and the end of the transaction. -/
def Phase.begun : Phase → Bool
  | .running | .waiting _ _ _ | .reading _ | .releasing _ | .aborting => true
  | _ => false

theorem Party.recorded_iff_of_begun {p : Party} {rs : List (RecordType × Key × Value)} (h : p.phase.begun = true) :
    p.Recorded rs ↔ rs = [(.begin, [], [])] := by
  unfold Recorded
  cases hp : p.phase <;> rw [hp] at h <;> first | rfl | cases h

theorem Party.locked_begun (txn : TransactionInfo) (op : LockOp) (key : Key) :
    (Party.locked txn op key).phase.begun = true := by cases op <;> rfl

structure TxnLogInv (ids : List TxnId) (log : List WALRecord) (c : Core) : Prop where
  ids : ∀ r ∈ log, r.txnId ∈ ids
  wellFormed : ∀ t, WellFormed (txnLog t log)
  parties : ∀ {i}, (c.parties i).active → (c.parties i).Recorded (txnLog (c.parties i).txn.txnId log)

namespace TxnLogInv

variable {ids ids' : List TxnId} {log : List WALRecord} {c c' : Core} {i : SessionId} {p' : Party}

/-- A step that logs nothing. -/
theorem update (h : TxnLogInv ids log c) (hids : ids ⊆ ids') (hps : c'.parties = Function.update c.parties i p')
    (hp : p'.active → p'.Recorded (txnLog p'.txn.txnId log)) : TxnLogInv ids' log c' where
  ids r hr := hids (h.ids r hr)
  wellFormed := h.wellFormed
  parties {j} hj := by
    rw [hps] at hj ⊢
    by_cases hji : j = i
    · subst hji
      rw [Function.update_self] at hj ⊢
      exact hp hj
    · rw [Function.update_of_ne hji] at hj ⊢
      exact h.parties hj

/-- A step whose events hand out no id and log nothing. -/
theorem quiet (h : TxnLogInv ids log c) {evs : List Event} (he : LogsNothing evs)
    (hps : c'.parties = Function.update c.parties i p')
    (hp : p'.active → p'.Recorded (txnLog p'.txn.txnId log)) :
    TxnLogInv (ids ++ begunOf evs) (log ++ logOf evs) c' := by
  rw [he.begun, he.log, List.append_nil, List.append_nil]
  exact h.update (List.Subset.refl _) hps hp

/-- A step inside the part of a transaction that logs nothing. -/
theorem move (h : TxnLogInv ids log c) {evs : List Event} (he : LogsNothing evs)
    (hps : c'.parties = Function.update c.parties i p')
    (hact : p'.active → (c.parties i).active) (hid : p'.txn.txnId = (c.parties i).txn.txnId)
    (hb : (c.parties i).phase.begun = true) (hb' : p'.phase.begun = true) :
    TxnLogInv (ids ++ begunOf evs) (log ++ logOf evs) c' := by
  refine h.quiet he hps fun hact' => ?_
  have hrec := h.parties (hact hact')
  rw [Party.recorded_iff_of_begun hb] at hrec
  rw [Party.recorded_iff_of_begun hb', hid]
  exact hrec

/-- A step in which session `i` logs a record. -/
theorem snoc (h : TxnLogInv ids log c) {r : WALRecord}
    (hunique : ∀ j, (c.parties j).active → (c.parties j).txn.txnId = (c.parties i).txn.txnId → j = i)
    (hid : (c.parties i).txn.txnId ∈ ids) (hr : r.txnId = (c.parties i).txn.txnId)
    (hps : c'.parties = Function.update c.parties i p')
    (hwf : WellFormed (txnLog (c.parties i).txn.txnId log ++ [r.content]))
    (hp : p'.Recorded (txnLog p'.txn.txnId (log ++ [r]))) : TxnLogInv ids (log ++ [r]) c' where
  ids r' hr' := by
    rcases List.mem_append.mp hr' with hr' | hr'
    · exact h.ids r' hr'
    · rw [List.mem_singleton.mp hr', hr]
      exact hid
  wellFormed t := by
    rw [txnLog_append, txnLog_singleton]
    split
    · rename_i ht
      rwa [← ht, hr]
    · rw [List.append_nil]
      exact h.wellFormed t
  parties {j} hj := by
    rw [hps] at hj ⊢
    by_cases hji : j = i
    · subst hji
      rw [Function.update_self]
      exact hp
    · -- another session's transaction has another id, and the record is not its own
      rw [Function.update_of_ne hji] at hj ⊢
      have hne : r.txnId ≠ (c.parties j).txn.txnId := fun heq => hji (hunique j hj (by rw [← heq, hr]))
      rw [txnLog_append, txnLog_singleton, if_neg hne, List.append_nil]
      exact h.parties hj

end TxnLogInv

/-- **Every step keeps the log well formed.** -/
theorem CoreStep.txnLog {c c' : Core} {l : Label} {evs tr : List Event} (h : CoreStep c l evs c')
    (hl : ∀ i, l = .begin i → ¬ (c.parties i).active → c.nextTxnId ≠ 0) (hi : IdInv (begunOf tr) c)
    (hlog : TxnLogInv (begunOf tr) (logOf tr) c) : TxnLogInv (begunOf (tr ++ evs)) (logOf (tr ++ evs)) c' := by
  have hunique : ∀ {i}, (c.parties i).active → ∀ j, (c.parties j).active →
      (c.parties j).txn.txnId = (c.parties i).txn.txnId → j = i := fun hia j hja he => hi.unique hja hia he
  rw [begunOf_append, logOf_append]
  cases h with
  | silent he =>
    rw [begunOf_silent he, logOf_silent he, List.append_nil, List.append_nil]
    exact hlog
  | @begin i level hph hact =>
    -- the id is new, so nothing has been logged under it
    have hnew := hi.next_notMem (hl i rfl hact)
    rw [show logOf [Event.began i c.nextTxnId level] = [] from rfl, List.append_nil]
    refine hlog.update (List.subset_append_left _ _) rfl fun _ => txnLog_eq_nil fun r hr heq => hnew ?_
    rw [show c.nextTxnId = r.txnId from heq.symm]
    exact hlog.ids r hr
  | @logBegin _ i p hp hph =>
    subst hp
    have hact := hi.busy i (by rw [hph]; simp)
    have hrec := hlog.parties hact
    rw [Party.Recorded, hph] at hrec
    rw [show begunOf [Event.logged _] = [] from rfl, List.append_nil]
    refine hlog.snoc (hunique hact) (hi.active i hact) rfl rfl ?_ ?_
    · rw [hrec]
      exact wellFormed_begin
    · rw [txnLog_append, hrec, txnLog_singleton, if_pos rfl]
      rfl
  | @logWrite _ i p w ws hp hph =>
    subst hp
    have hact := hi.busy i (by rw [hph]; simp)
    have hrec := hlog.parties hact
    rw [Party.Recorded, hph] at hrec
    obtain ⟨done, hdone, hrec⟩ := hrec
    obtain ⟨hcont, hid, -⟩ := Write.record_content c.nextLsn (c.parties i).txn.txnId w
    have hdone' : (c.parties i).txn.pendingBuffer.toList = (done ++ [w]) ++ ws := by rw [hdone]; simp
    have hnow : Kvdb.txnLog (c.parties i).txn.txnId (logOf tr) ++ [w.content] =
        (.begin, [], []) :: (done ++ [w]).map Write.content := by rw [hrec]; simp
    rw [show begunOf [Event.logged _] = [] from rfl, List.append_nil]
    refine hlog.snoc (hunique hact) (hi.active i hact) hid rfl ?_ ⟨done ++ [w], hdone', ?_⟩
    · rw [hcont, hnow]
      exact wellFormed_of_done hdone'
    · rw [txnLog_append, txnLog_singleton, if_pos hid, hcont, hnow]
  | @logCommit _ i p hp hph =>
    subst hp
    have hact := hi.busy i (by rw [hph]; simp)
    have hrec := hlog.parties hact
    rw [Party.Recorded, hph] at hrec
    obtain ⟨done, hdone, hrec⟩ := hrec
    rw [List.append_nil] at hdone
    rw [show begunOf [Event.logged _, Event.committed ..] = [] from rfl, List.append_nil]
    refine hlog.snoc (hunique hact) (hi.active i hact) rfl rfl ?_ trivial
    refine Or.inr ⟨done, hdone ▸ keysIncrease_toList _, ?_⟩
    rw [hrec]
    exact List.prefix_rfl
  | @logAbort _ i p hp hph =>
    subst hp
    have hact := hi.busy i (by rw [hph]; simp)
    have hrec := hlog.parties hact
    rw [Party.Recorded, hph] at hrec
    rw [show begunOf [Event.logged _] = [] from rfl, List.append_nil]
    refine hlog.snoc (hunique hact) (hi.active i hact) rfl rfl ?_ trivial
    rw [hrec]
    exact Or.inl rfl
  | @startCommit i p hp hph hact =>
    subst hp
    have hrec := hlog.parties hact
    rw [Party.Recorded, hph] at hrec
    exact hlog.quiet ⟨rfl, rfl, rfl⟩ rfl fun _ => ⟨[], rfl, hrec⟩
  | @granted i p op key locks hp hph hact _ =>
    subst hp
    exact hlog.move (lockedEvents_logsNothing ..) rfl (fun _ => hact) (Party.locked_active hact op key).2
      (by rw [hph]; rfl) (Party.locked_begun ..)
  | @waitGranted _ i p op key flags locks hp hph _ =>
    subst hp
    have hact := hi.busy i (by rw [hph]; simp)
    exact hlog.move (lockedEvents_logsNothing ..) rfl (fun _ => hact) (Party.locked_active hact op key).2
      (by rw [hph]; rfl) (Party.locked_begun ..)
  | @queued i p op key locks flags hp hph _ _ | @waitFailed _ i p op key flags locks hp hph _
  | @release _ i p key hp hph | @startAbort _ i p hp hph _ =>
    subst hp
    exact hlog.move ⟨rfl, rfl, rfl⟩ rfl (fun h => h) rfl (by rw [hph]; rfl) rfl
  | @read _ i p key hp hph =>
    subst hp
    exact hlog.move ⟨rfl, rfl, rfl⟩ rfl (fun h => h) rfl (by rw [hph]; rfl) (by dsimp only; split <;> rfl)
  | reset _ _ he => exact hlog.quiet (logsNothing_silent he) rfl fun hact => by cases hact
  | apply | applied | abortRelease => exact hlog.quiet ⟨rfl, rfl, rfl⟩ rfl fun _ => trivial

/-! ## Runs -/

open Machine

theorem txnLogInv_initial {st : Store} {s₀ : State} (h : Server.Initial st s₀) :
    TxnLogInv (begunOf []) (logOf []) s₀.core := by
  cases h <;> exact ⟨by simp, fun _ => wellFormed_nil, fun hi => by cases hi⟩

/-- **The log is well formed**: of every transaction it has `BEGIN ABORT` or a beginning of `BEGIN`, writes with
increasing keys, `COMMIT`, however the sessions interleave. -/
theorem log_well_formed {st : Store} {s₀ s : State} {as : List Action} {tr : List Event} (h0 : Server.Initial st s₀)
    (h : Run step (fun _ _ => True) s₀ as s tr) (hn : (begunOf tr).length < 2 ^ 32) (t : TxnId) :
    WellFormed (txnLog t (logOf tr)) := by
  have hfresh := (freshIds_of_length h0 h hn).1
  have hinv : IdInv (begunOf tr) s.core ∧ TxnLogInv (begunOf tr) (logOf tr) s.core := by
    refine Run.invariant (fun tr s => IdInv (begunOf tr) s.core ∧ TxnLogInv (begunOf tr) (logOf tr) s.core)
      ⟨idInv_initial h0, txnLogInv_initial h0⟩ ?_ hfresh
    rintro tr s a s' evs ⟨hi, hl⟩ hf hs
    have hne : ∀ i, a.label = .begin i → ¬ (s.core.parties i).active → s.core.nextTxnId ≠ 0 :=
      fun i hlabel hia => hf.2.next_ne hlabel hia
    exact ⟨(step_core hs).idInv hne hi, (step_core hs).txnLog hne hi hl⟩
  exact hinv.2.wellFormed t

/-- Two sessions whose records alternate; one deletes and puts, the other gives up. -/
theorem log_well_formed_two : ∃ as s tr, Run step (fun _ _ => True) (Server.boot {} ∅) as s tr ∧
    txnLog 1 (logOf tr) = committedLog [([97], [], true), ([98], [50], false)] ∧
    txnLog 2 (logOf tr) = [(.begin, [], []), (.abort, [], [])] ∧ ∀ t, WellFormed (txnLog t (logOf tr)) := by
  have hrun := exists_run_of_exec step (fun _ _ => True) (Server.boot {} ∅)
    [.connect, .connect, .command 0 (.begin .repeatableRead), .thread 0, .command 0 (.put [98] [50]),
      .command 1 (.begin .readCommitted), .thread 1, .command 0 (.delete [97]), .command 1 (.put [99] [51]),
      .command 0 .commit, .thread 0, .command 1 .abort, .thread 1, .thread 0, .thread 0]
    (fun _ tr => decide ((begunOf tr).length = 2 ∧
      txnLog 1 (logOf tr) = committedLog [([97], [], true), ([98], [50], false)] ∧
      txnLog 2 (logOf tr) = [(.begin, [], []), (.abort, [], [])])) (by decide +kernel)
  obtain ⟨s, tr, hr, hp⟩ := hrun
  obtain ⟨hn, h1, h2⟩ := of_decide_eq_true hp
  exact ⟨_, s, tr, hr, h1, h2, fun t => log_well_formed (.opened {}) hr (by omega) t⟩

/-! ## The live store and the log -/

theorem noCommit_of_run {P : State → Action → Prop} {st : Store} {s₀ s : State} {as : List Action} {tr : List Event}
    (h0 : Server.Initial st s₀) (h : Run step P s₀ as s tr)
    (hc : ∀ i < s.sessionCount, (s.sessions i).pc.inCommit = false) (i : SessionId) :
    (s.sessions i).pc.inCommit = false := by
  rcases Nat.lt_or_ge i s.sessionCount with hlt | hge
  · exact hc i hlt
  · rw [unconnected_of_run h0 h i hge]
    rfl

/-- **The live store agrees with the log** when no session is inside `commit`: replay rebuilds what the sessions have
applied, although they apply their buffers in the order in which they wake up. -/
theorem live_store_replayed {st : Store} {s₀ s : State} {as : List Action} {tr : List Event}
    (h0 : Server.Initial st s₀) (h : Run step KeepsWriteLocks s₀ as s tr) (hn : (begunOf tr).length < 2 ^ 32)
    (hc : ∀ i, (s.sessions i).pc.inCommit = false) :
    s.store = replayRecords 0 st ((logOf tr).map WALRecord.scanned) := by
  obtain ⟨_, hl⟩ := logInv_of_run h0 ((freshIds_of_length h0 h hn).1.mono fun _ _ hP => hP.2)
  have hpos : ∀ r ∈ logOf tr, 0 < r.lsn := fun r hr => (hl.numbered.lsn_bounds hr).1
  rw [replayRecords_of_logged hl.logged hpos]
  exact (txnInv_of_run h0 (keepsLocks_of_length h0 h hn)).store.store_of_noCommit hc

/-- Two transactions that commit in one order and are applied in the other. -/
theorem live_store_replayed_two : ∃ as s tr, Run step KeepsWriteLocks (Server.boot {} ∅) as s tr ∧
    s.store.toList = [([97], [49]), ([98], [50])] ∧ s.store = replayRecords 0 ∅ ((logOf tr).map WALRecord.scanned) := by
  have hrun := exists_run_of_exec step KeepsWriteLocks (Server.boot {} ∅)
    [.connect, .connect, .command 0 (.begin .readCommitted), .thread 0, .command 0 (.put [97] [49]),
      .command 1 (.begin .repeatableRead), .thread 1, .command 1 (.put [98] [50]), .command 0 .commit, .thread 0,
      .thread 0, .command 1 .commit, .thread 1, .thread 1, .worker, .worker, .worker, .worker, .worker, .worker,
      .worker, .worker, .worker, .worker, .worker, .thread 1, .thread 1, .thread 1, .thread 1, .thread 1, .thread 0,
      .thread 0, .thread 0, .thread 0, .thread 0]
    (fun s tr => decide ((begunOf tr).length = 2 ∧ s.store.toList = [([97], [49]), ([98], [50])] ∧
      ∀ i < s.sessionCount, (s.sessions i).pc.inCommit = false)) (by decide +kernel)
  obtain ⟨s, tr, hr, hp⟩ := hrun
  obtain ⟨hn, hst, hc⟩ := of_decide_eq_true hp
  exact ⟨_, s, tr, hr, hst, live_store_replayed (.opened {}) hr (by omega) (noCommit_of_run (.opened {}) hr hc)⟩

/-- A `READ_COMMITTED` transaction gives up the lock of the key it has put; a second one puts the key, logs its `COMMIT`
record after the first and applies its buffer before it. -/
theorem live_store_overtaken : ∃ as s tr, Run step (fun _ _ => True) (Server.boot {} ∅) as s tr ∧
    (begunOf tr).length = 2 ∧ (∀ i, (s.sessions i).pc.inCommit = false) ∧
    s.store ≠ replayRecords 0 ∅ ((logOf tr).map WALRecord.scanned) := by
  have hrun := exists_run_of_exec step (fun _ _ => True) (Server.boot {} ∅)
    [.connect, .connect, .command 0 (.begin .readCommitted), .thread 0, .command 0 (.put [97] [49]),
      .command 0 (.get [97]), .thread 0, .thread 0, .command 1 (.begin .readCommitted), .thread 1,
      .command 1 (.put [97] [50]), .command 0 .commit, .thread 0, .thread 0, .command 1 .commit, .thread 1, .thread 1,
      .worker, .worker, .worker, .worker, .worker, .worker, .worker, .worker, .worker, .worker, .worker,
      .thread 1, .thread 1, .thread 1, .thread 1, .thread 1, .thread 0, .thread 0, .thread 0, .thread 0, .thread 0]
    (fun s tr => decide ((begunOf tr).length = 2 ∧ (∀ i < s.sessionCount, (s.sessions i).pc.inCommit = false) ∧
      s.store[([97] : Key)]? = some [49] ∧
      (replayRecords 0 ∅ ((logOf tr).map WALRecord.scanned))[([97] : Key)]? = some [50])) (by decide +kernel)
  obtain ⟨s, tr, hr, hp⟩ := hrun
  obtain ⟨hn, hc, hlive, hreplay⟩ := of_decide_eq_true hp
  refine ⟨_, s, tr, hr, hn, noCommit_of_run (.opened {}) hr hc, fun heq => ?_⟩
  rw [heq, hreplay] at hlive
  cases hlive

end Kvdb
