import Kvdb.Lib.AtomicStore
import Kvdb.WritePaths

/-!
# The server is an atomic store

What clients can observe of a run (`observed`): transactions begin, their calls are answered, they commit when their
`COMMIT` record is logged and abort when their `ABORT` record is. In runs that keep the locks this history is accepted
by the atomic store of `Kvdb.Lib.AtomicStore`, in which a transaction's writes take effect at once, although the server
applies them one by one, after the flush, and other sessions run in between (`refines_atomic_store`). `Abstracts` is the
refinement mapping; a transaction at `REPEATABLE_READ` is a stable one.

So a transaction at `REPEATABLE_READ` sees one state of the committed data until it ends, whatever the isolation levels
of the others are and whether it commits or not (`consistent_view`).
-/

namespace Kvdb

open Std LockManager Machine

/-! ## Observations -/

/-- The answer of `get` from the own write of the key, if any, and the stored value. -/
def replyOf : Option (Option Value) → Option Value → GetReply
  | some (some value), _ | none, some value => .value value
  | some none, _ => .deletedInTxn
  | none, none => .notFound

def Op.call : Op → AtomicStore.Call Key Value GetReply
  | .put key value => .put key value
  | .delete key => .delete key
  | .get key reply => .get key reply

abbrev Observation := AtomicStore.Observation TxnId Key Value GetReply

abbrev AtomicState := AtomicStore.State TxnId Key Value GetReply

/-- What a client can tell of an event. -/
def observe : Event → Option Observation
  | .began _ t level => some (.began t (level = .repeatableRead))
  | .done _ t op => some (.called t op.call)
  | .committed _ _ t _ => some (.committed t)
  | .logged r => if r.type = .abort then some (.aborted r.txnId) else none
  | .failed .. | .waited .. | .acked .. | .flushed .. => none

def observed (tr : List Event) : List Observation := tr.filterMap observe

/-- The atomic store over the same contents, without transactions. -/
def atomicStore (st : Store) : AtomicState := { values := fun k => st[k]? }

/-- A transaction of the server as one of the atomic store. -/
def Calls.txn (calls : Calls) : AtomicStore.Txn Key Value GetReply :=
  ⟨calls.level = .repeatableRead, calls.ops.map Op.call⟩

theorem observed_append (tr evs : List Event) : observed (tr ++ evs) = observed tr ++ observed evs :=
  List.filterMap_append ..

theorem observed_silent {evs : List Event} (h : ∀ e ∈ evs, e.silent = true) : observed evs = [] := by
  refine List.filterMap_eq_nil_iff.mpr fun e he => ?_
  have := h e he
  cases e <;> simp_all [Event.silent, observe]

/-! ## Pending buffers -/

/-- What an entry of the pending buffer says about its key. -/
def entryValue (e : Value × Bool) : Option Value := if e.2 then none else some e.1

theorem readKey_eq (b : PendingBuffer) (st : Store) (k : Key) :
    readKey b st k = replyOf (b[k]?.map entryValue) st[k]? := by
  unfold readKey Store.get
  rcases b[k]? with _ | ⟨value, _ | _⟩
  · cases st[k]? <;> rfl
  · rfl
  · rfl

/-- The pending buffer holds the last write of every key. -/
theorem written_calls (ops : List Op) (k : Key) :
    AtomicStore.written (ops.map Op.call) k = (coalesce ops)[k]?.map entryValue := by
  induction ops using List.reverseRecOn with
  | nil => rfl
  | append_singleton ops op ih =>
    rw [List.map_append, List.map_singleton, AtomicStore.written_append, ih, coalesce_append]
    cases op with
    | get key reply => rfl
    | put key value | delete key =>
      rw [Op.buffer, FinMap.find_insert]
      by_cases hk : key = k <;> simp [Op.call, AtomicStore.Call.write, hk, entryValue]

theorem get_applyWrites_written (st : Store) (ops : List Op) (k : Key) :
    (applyWrites st (coalesce ops).toList)[k]? = AtomicStore.overlay (fun k => st[k]?) (ops.map Op.call) k := by
  rw [get_applyWrites_toList, AtomicStore.overlay, written_calls]
  rcases (coalesce ops)[k]? with _ | ⟨value, _ | _⟩ <;> rfl

/-! ## The refinement mapping -/

/-- The atomic store holds the committed values, and its transactions are the uncommitted ones of the sessions. -/
structure Abstracts (a : AtomicState) (serial : Store) (current : SessionId → Calls) (ps : SessionId → Party) :
    Prop where
  values : ∀ k, a.values k = serial[k]?
  live : ∀ {i}, (ps i).active → (ps i).phase.uncommitted = true →
    a.live (ps i).txn.txnId = some (current i).txn
  party : ∀ {t x}, a.live t = some x →
    ∃ i, (ps i).active ∧ (ps i).phase.uncommitted = true ∧ (ps i).txn.txnId = t

namespace Abstracts

variable {a : AtomicState} {serial serial' : Store} {current current' : SessionId → Calls} {ps : SessionId → Party}
  {i : SessionId} {p' : Party}

/-- One session changes, and with it the transaction `t` of the atomic store. -/
theorem update (h : Abstracts a serial current ps) {t : TxnId} {y : Option (AtomicStore.Txn Key Value GetReply)}
    {values' : Key → Option Value} (hvalues : ∀ k, values' k = serial'[k]?)
    (hcur : ∀ j, j ≠ i → current' j = current j)
    (hids : ∀ j, j ≠ i → (ps j).active → (ps j).txn.txnId ≠ t)
    (hold : (ps i).active → (ps i).phase.uncommitted = true → (ps i).txn.txnId = t)
    (hlive : p'.active → p'.phase.uncommitted = true → p'.txn.txnId = t ∧ y = some (current' i).txn)
    (hparty : y.isSome = true → p'.active ∧ p'.phase.uncommitted = true ∧ p'.txn.txnId = t) :
    Abstracts ⟨values', Function.update a.live t y⟩ serial' current' (Function.update ps i p') := by
  have hself : Function.update ps i p' i = p' := Function.update_self ..
  have hother : ∀ {j}, j ≠ i → Function.update ps i p' j = ps j := fun hj => Function.update_of_ne hj ..
  refine ⟨hvalues, fun {j} hj hu => ?_, fun {t' x} hx => ?_⟩
  · by_cases hji : j = i
    · subst hji
      rw [hself] at hj hu ⊢
      obtain ⟨rfl, hy⟩ := hlive hj hu
      exact (Function.update_self ..).trans hy
    · rw [hother hji] at hj hu ⊢
      rw [hcur j hji]
      exact (Function.update_of_ne (hids j hji hj) ..).trans (h.live hj hu)
  · by_cases ht : t' = t
    · subst ht
      have hy : Function.update a.live t' y t' = y := Function.update_self ..
      replace hy : y = some x := hy.symm.trans hx
      exact ⟨i, by rw [hself]; exact hparty (by rw [hy]; rfl)⟩
    · obtain ⟨j, hj, hu, hid⟩ := h.party ((Function.update_of_ne ht ..).symm.trans hx)
      have hji : j ≠ i := by
        rintro rfl
        exact ht (hid.symm.trans (hold hj hu))
      exact ⟨j, by rw [hother hji]; exact ⟨hj, hu, hid⟩⟩

/-- A session changes without an observation. -/
theorem keep (h : Abstracts a serial current ps)
    (hunique : ∀ j, j ≠ i → (ps j).active → (ps j).txn.txnId ≠ (ps i).txn.txnId)
    (hlive : p'.active ∧ p'.phase.uncommitted = true ↔ (ps i).active ∧ (ps i).phase.uncommitted = true)
    (hid : p'.active → p'.txn.txnId = (ps i).txn.txnId) : Abstracts a serial current (Function.update ps i p') := by
  have hupdate : Abstracts ⟨a.values, Function.update a.live (ps i).txn.txnId (a.live (ps i).txn.txnId)⟩ serial current
      (Function.update ps i p') := by
    refine h.update h.values (fun _ _ => rfl) hunique (fun _ _ => rfl)
      (fun hp hu => ⟨hid hp, h.live (hlive.mp ⟨hp, hu⟩).1 (hlive.mp ⟨hp, hu⟩).2⟩) fun hy => ?_
    obtain ⟨x, hx⟩ := Option.isSome_iff_exists.mp hy
    obtain ⟨j, hj, hu, hjid⟩ := h.party hx
    obtain rfl : j = i := by
      by_contra hji
      exact hunique j hji hj hjid
    obtain ⟨hp, hpu⟩ := hlive.mpr ⟨hj, hu⟩
    exact ⟨hp, hpu, hid hp⟩
  rwa [Function.update_eq_self] at hupdate

/-- A key that is pending in no other session. -/
theorem unwritten (h : Abstracts a serial current ps) (hbuf : ∀ j, (ps j).active → (ps j).phase.uncommitted = true →
      (ps j).txn.pendingBuffer = coalesce (current j).ops) {k : Key}
    (hk : ∀ j, j ≠ i → (ps j).active → k ∉ (ps j).txn.pendingBuffer) :
    AtomicStore.Unwritten a (ps i).txn.txnId k := by
  intro t x ht hx
  obtain ⟨j, hj, hu, rfl⟩ := h.party hx
  have hji : j ≠ i := by
    rintro rfl
    exact ht rfl
  obtain rfl := Option.some.inj (hx.symm.trans (h.live hj hu))
  have hnone : (coalesce (current j).ops)[k]? = none := by
    rw [← hbuf j hj hu]
    exact ExtTreeMap.getElem?_eq_none (hk j hji hj)
  rw [Calls.txn, written_calls, hnone]
  rfl

/-- A key that no other session has read at `REPEATABLE_READ`. -/
theorem unread (h : Abstracts a serial current ps) {k : Key} (hk : ∀ j r, j ≠ i → (ps j).active →
      (ps j).phase.uncommitted = true → (current j).level = .repeatableRead → .get k r ∉ (current j).ops) :
    AtomicStore.Unread a (ps i).txn.txnId k := by
  intro t x r ht hx hst hg
  obtain ⟨j, hj, hu, rfl⟩ := h.party hx
  have hji : j ≠ i := by
    rintro rfl
    exact ht rfl
  obtain rfl := Option.some.inj (hx.symm.trans (h.live hj hu))
  obtain ⟨op, hop, heq⟩ := List.mem_map.mp hg
  cases op with
  | get key reply => cases heq; exact hk j r hji hj hu (of_decide_eq_true hst) hop
  | put | delete => cases heq

/-- A session's call has been answered. -/
theorem called (h : Abstracts a serial current ps)
    (hunique : ∀ j, j ≠ i → (ps j).active → (ps j).txn.txnId ≠ (ps i).txn.txnId) (hact : (ps i).active)
    (hu : (ps i).phase.uncommitted = true) (op : Op) (hp : p'.active ∧ p'.phase.uncommitted = true)
    (hid : p'.txn.txnId = (ps i).txn.txnId) (hcur : ∀ j, j ≠ i → current' j = current j)
    (hcur' : current' i = { current i with ops := (current i).ops ++ [op] }) :
    Abstracts (AtomicStore.next a (.called (ps i).txn.txnId op.call)) serial current' (Function.update ps i p') := by
  refine h.update h.values hcur hunique (fun _ _ => rfl) (fun _ _ => ⟨hid, ?_⟩) fun _ => ⟨hp.1, hp.2, hid⟩
  rw [h.live hact hu, hcur']
  simp [Calls.txn]

/-- A session's transaction ends. -/
theorem ended (h : Abstracts a serial current ps)
    (hunique : ∀ j, j ≠ i → (ps j).active → (ps j).txn.txnId ≠ (ps i).txn.txnId)
    (hp : p'.phase.uncommitted = false) {values' : Key → Option Value} (hvalues : ∀ k, values' k = serial'[k]?) :
    Abstracts ⟨values', Function.update a.live (ps i).txn.txnId none⟩ serial' current (Function.update ps i p') :=
  h.update hvalues (fun _ _ => rfl) hunique (fun _ _ => rfl) (fun _ hu => by rw [hp] at hu; cases hu)
    (fun hy => by cases hy)

end Abstracts

/-! ## Steps -/

section Steps

variable {c c' : Core} {l : Label} {evs tr : List Event} {st : Store} {a : AtomicState}

/-- `acquireLock` has returned `true`: a `put` or `delete_key` is over, a `get` has still to read. -/
theorem Abstracts.locked {locks : LockManager} {i : SessionId} {op : LockOp} {key : Key}
    (h : Abstracts a (applyCommits st (commitsOf tr)) (historyOf tr).current c.parties)
    (hl : LockInv c.locks c.parties)
    (hl' : LockInv locks (Function.update c.parties i (.locked (c.parties i).txn op key)))
    (hr : ReadInv (applyCommits st (commitsOf tr)) (historyOf tr).current c.parties)
    (hbuf : ∀ j, (c.parties j).active → (c.parties j).phase.uncommitted = true →
      (c.parties j).txn.pendingBuffer = coalesce ((historyOf tr).current j).ops)
    (hact : (c.parties i).active) (hu : (c.parties i).phase.uncommitted = true) :
    AtomicStore.Accepts replyOf a (observed (lockedEvents i (c.parties i).txn.txnId op key)) ∧
      Abstracts (AtomicStore.after a (observed (lockedEvents i (c.parties i).txn.txnId op key)))
        (applyCommits st (commitsOf (tr ++ lockedEvents i (c.parties i).txn.txnId op key)))
        (historyOf (tr ++ lockedEvents i (c.parties i).txn.txnId op key)).current
        (Function.update c.parties i (.locked (c.parties i).txn op key)) := by
  set p' := Party.locked (c.parties i).txn op key with hp'
  have hself : Function.update c.parties i p' i = p' := Function.update_self ..
  have hother : ∀ {j}, j ≠ i → Function.update c.parties i p' j = c.parties j := fun hj => Function.update_of_ne hj ..
  have hunique : ∀ j, j ≠ i → (c.parties j).active → (c.parties j).txn.txnId ≠ (c.parties i).txn.txnId :=
    fun j hji hj => hl.ne_of_ne hact hj hji
  obtain ⟨hact', hid⟩ := Party.locked_active hact op key
  rw [commitsOf_append, (lockedEvents_logsNothing ..).commits, List.append_nil]
  -- a write lock excludes the other writers and the protected readers of the key
  have hguard : key ∈ p'.txn.pendingBuffer → AtomicStore.Unwritten a (c.parties i).txn.txnId key ∧
      AtomicStore.Unread a (c.parties i).txn.txnId key := by
    intro hkey
    have hkey' : key ∈ (Function.update c.parties i p' i).txn.pendingBuffer := by rw [hself]; exact hkey
    have hi' : (Function.update c.parties i p' i).active := by rw [hself]; exact hact'
    refine ⟨h.unwritten hbuf fun j hji hj hkj => hji ?_, h.unread fun j r hji hj hju hrr hg => hji ?_⟩
    · exact hl'.pending_disjoint (by rw [hother hji]; exact hj) hi' (by rw [hother hji]; exact hkj) hkey'
    · have hheld := hr.held hj ((hr.level hj).symm.trans hrr) hg
      refine hl'.eq_of_held (by rw [hother hji]; exact hj) hi' (by rw [hother hji]; exact hheld) ?_ hkey'
      rw [hother hji]
      rintro heq
      rw [heq] at hju
      cases hju
  cases op with
  | get =>
    refine ⟨trivial, ?_⟩
    rw [lockedEvents, List.append_nil]
    exact h.keep hunique ⟨fun _ => ⟨hact, hu⟩, fun _ => ⟨hact', rfl⟩⟩ fun _ => hid
  | put value | delete =>
    have hg := hguard (FinMap.mem_insert_iff.mpr (Or.inl rfl))
    refine ⟨⟨⟨_, h.live hact hu, hg⟩, trivial⟩, ?_⟩
    rw [historyOf_append]
    refine h.called hunique hact hu _ ⟨hact', rfl⟩ hid (fun j hj => Function.update_of_ne hj ..) ?_
    exact Function.update_self ..

/-- **A step of the server is at most one observation, which the atomic store accepts.** -/
theorem CoreStep.abstracts (h : CoreStep c l evs c') (hnew : ∀ n, c.NewId n l) (hl : LockInv c.locks c.parties)
    (hl' : LockInv c'.locks c'.parties) (hs : StoreInv (applyCommits st (commitsOf tr)) c.store c.parties)
    (hr : ReadInv (applyCommits st (commitsOf tr)) (historyOf tr).current c.parties)
    (hbuf : ∀ j, (c.parties j).active → (c.parties j).phase.uncommitted = true →
      (c.parties j).txn.pendingBuffer = coalesce ((historyOf tr).current j).ops)
    (ha : Abstracts a (applyCommits st (commitsOf tr)) (historyOf tr).current c.parties) :
    AtomicStore.Accepts replyOf a (observed evs) ∧ Abstracts (AtomicStore.after a (observed evs))
      (applyCommits st (commitsOf (tr ++ evs))) (historyOf (tr ++ evs)).current c'.parties := by
  have hunique : ∀ {i}, (c.parties i).active → ∀ j, j ≠ i → (c.parties j).active →
      (c.parties j).txn.txnId ≠ (c.parties i).txn.txnId := fun hi j hji hj => hl.ne_of_ne hi hj hji
  cases h with
  | silent he =>
    rw [observed_silent he, commitsOf_append, commitsOf_silent he, historyOf_silent he, List.append_nil]
    exact ⟨trivial, ha⟩
  | @begin i level hph hact =>
    -- the id is not in use, so no transaction of the atomic store has it
    have hfresh : a.live c.nextTxnId = none := by
      refine Option.eq_none_iff_forall_not_mem.mpr fun x hx => ?_
      obtain ⟨j, hj, -, hid⟩ := ha.party hx
      exact c.txnId_ne_next hnew hact j hj hid
    refine ⟨⟨hfresh, trivial⟩, ?_⟩
    rw [commitsOf_append, historyOf_append, show commitsOf [Event.began i _ level] = [] from rfl, List.append_nil]
    refine ha.update ha.values (fun j hj => Function.update_of_ne hj ..) (fun j _ hj => c.txnId_ne_next hnew hact j hj)
      (fun hi => absurd hi hact) (fun _ _ => ⟨rfl, ?_⟩) fun _ => ⟨rfl, rfl, rfl⟩
    simp [History.add, Calls.txn]
  | @granted i p op key locks hp hph hact hacq =>
    subst hp
    exact ha.locked hl hl' hr hbuf hact (by rw [hph]; rfl)
  | @waitGranted _ i p op key flags locks hp hph hfin =>
    subst hp
    exact ha.locked hl hl' hr hbuf (hl.active i (by rw [hph]; simp)) (by rw [hph]; rfl)
  | @read _ i p key hp hph =>
    subst hp
    have hact := hl.active i (by rw [hph]; simp)
    have hu : (c.parties i).phase.uncommitted = true := by rw [hph]; rfl
    refine ⟨⟨⟨_, ha.live hact hu, ?_, ?_⟩, trivial⟩, ?_⟩
    · rw [readKey_eq, Calls.txn, written_calls, ← hbuf i hact hu, ha.values, get_eq_of_reading hl hs hph]
    · refine ha.unwritten hbuf fun j hji hj hkj => hji ?_
      exact (hl.eq_of_held hact hj ((hl.parties hact).reading hph) (by rw [hph]; simp) hkj).symm
    · rw [commitsOf_append, historyOf_append, show commitsOf [Event.done i _ _] = [] from rfl, List.append_nil]
      refine ha.called (hunique hact) hact hu _ ⟨hact, ?_⟩ rfl (fun j hj => Function.update_of_ne hj ..)
        (Function.update_self ..)
      dsimp only
      split <;> rfl
  | @logCommit _ i p hp hph =>
    subst hp
    have hact := hl.active i (by rw [hph]; simp)
    have hu : (c.parties i).phase.uncommitted = true := by rw [hph]; rfl
    have hlive := ha.live hact hu
    refine ⟨⟨Option.isSome_of_mem hlive, trivial⟩, ?_⟩
    rw [commitsOf_append, historyOf_append, applyCommits_append]
    refine ha.ended (hunique hact) rfl fun k => ?_
    rw [hlive]
    show _ = (applyWrites _ (c.parties i).txn.pendingBuffer.toList)[k]?
    rw [hbuf i hact hu, get_applyWrites_written]
    simp only [Calls.txn, AtomicStore.overlay, ha.values]
  | @logAbort _ i p hp hph =>
    subst hp
    have hact := hl.active i (by rw [hph]; simp)
    have hlive := ha.live hact (by rw [hph]; rfl)
    refine ⟨⟨Option.isSome_of_mem hlive, trivial⟩, ?_⟩
    rw [commitsOf_append, historyOf_append, show commitsOf [Event.logged _] = [] from rfl, List.append_nil]
    exact ha.ended (hunique hact) rfl ha.values
  | reset hp hph he =>
    subst hp
    rw [observed_silent he, commitsOf_append, commitsOf_silent he, historyOf_silent he, List.append_nil]
    have hact := hl.active _ (by rw [hph]; simp)
    refine ⟨trivial, ha.keep (hunique hact) ⟨?_, ?_⟩ (fun h => by cases h)⟩
    · rintro ⟨h, -⟩
      cases h
    · rintro ⟨-, h⟩
      rw [hph] at h
      cases h
  | @logWrite _ i p w ws hp hph =>
    subst hp
    have hact := hl.active i (by rw [hph]; simp)
    have hobs : observed [.logged (Write.record c.nextLsn (c.parties i).txn.txnId w)] = [] := by
      obtain ⟨key, value, _ | _⟩ := w <;> rfl
    rw [hobs, historyOf_append, commitsOf_append, show commitsOf [Event.logged _] = [] from rfl, List.append_nil]
    exact ⟨trivial, ha.keep (hunique hact) (by rw [hph]; rfl) fun _ => rfl⟩
  | startCommit hp hph hact | startAbort hp hph hact | queued hp hph hact =>
    subst hp
    rw [List.append_nil]
    exact ⟨trivial, ha.keep (hunique hact) (by rw [hph]; rfl) fun _ => rfl⟩
  | logBegin hp hph =>
    subst hp
    rw [historyOf_append, commitsOf_append, show commitsOf [Event.logged _] = [] from rfl, List.append_nil]
    exact ⟨trivial, ha.keep (hunique (hl.active _ (by rw [hph]; simp))) (by rw [hph]; rfl) fun _ => rfl⟩
  | waitFailed hp hph | release hp hph | apply hp hph | applied hp hph | abortRelease hp hph =>
    subst hp
    rw [List.append_nil]
    exact ⟨trivial, ha.keep (hunique (hl.active _ (by rw [hph]; simp))) (by rw [hph]; rfl) fun _ => rfl⟩

end Steps

/-! ## Runs -/

/-- The refinement along a run. -/
structure RefineInv (st : Store) (tr : List Event) (s : State) : Prop extends TxnInv st tr s where
  own : ∀ i, OwnInv (fun _ => True) (s.core.parties i) ((historyOf tr).current i).ops
  accepted : AtomicStore.Accepts replyOf (atomicStore st) (observed tr)
  abstracts : Abstracts (AtomicStore.after (atomicStore st) (observed tr)) (applyCommits st (commitsOf tr))
    (historyOf tr).current s.core.parties

theorem RefineInv.step {st : Store} {tr evs : List Event} {s s' : State} {a : Action} (h : RefineInv st tr s)
    (hk : KeepsLocks s a) (hs : step s a = some (s', evs)) : RefineInv st (tr ++ evs) s' := by
  have htxn := h.toTxnInv.step hk hs
  have hbuf : ∀ j, (s.core.parties j).active → (s.core.parties j).phase.uncommitted = true →
      (s.core.parties j).txn.pendingBuffer = coalesce ((historyOf tr).current j).ops := by
    intro j hj hu
    refine (h.own j).buffer hj ?_
    revert hu
    cases (s.core.parties j).phase <;> simp [Phase.uncommitted, Phase.buffers]
  obtain ⟨hacc, habs⟩ := (step_core hs).abstracts (hk.allowed h.unconnected).1 h.locks htxn.locks h.store h.reads
    hbuf h.abstracts
  refine ⟨htxn, fun i => (step_core hs).own (h.own i) fun _ _ => trivial, ?_, ?_⟩
  · rw [observed_append, AtomicStore.accepts_append]
    exact ⟨h.accepted, hacc⟩
  · rw [observed_append, AtomicStore.after_append]
    exact habs

theorem refineInv_of_run {st : Store} {s₀ s : State} {as : List Action} {tr : List Event} (h0 : Server.Initial st s₀)
    (h : Run step KeepsLocks s₀ as s tr) : RefineInv st tr s := by
  refine Run.invariant (RefineInv st) ⟨txnInv_initial h0, ?_, trivial, ?_⟩ (fun hi hk hs => hi.step hk hs) h
  · exact fun i => ownInv_of_run h0 (P := fun _ _ => True) .nil i
  · cases h0 <;> exact ⟨fun _ => rfl, fun hi => (by cases hi), fun hx => (by cases hx)⟩

/-- **The server refines the atomic store**: what is observed of a run that keeps the locks is a history of it. Keys
that no committed session is still about to apply have the values of the atomic store. -/
theorem refines_atomic_store {st : Store} {s₀ s : State} {as : List Action} {tr : List Event}
    (h0 : Server.Initial st s₀) (h : Run step KeepsLocks s₀ as s tr) :
    AtomicStore.Accepts replyOf (atomicStore st) (observed tr) ∧
      ∀ k, (∀ i lsn ws, (s.sessions i).pc.phase (s.sessions i).txn = .applying lsn ws → k ∉ ws.map Prod.fst) →
        s.store[k]? = (AtomicStore.after (atomicStore st) (observed tr)).values k := by
  have hinv := refineInv_of_run h0 h
  refine ⟨hinv.accepted, fun k hk => ?_⟩
  rw [hinv.abstracts.values]
  exact hinv.store.settled k hk

/-- A writer commits while a reader's transaction is open and aborts later. -/
theorem refines_atomic_store_two_sessions : ∃ s tr, Run step KeepsLocks (Server.boot {} ∅)
    [.connect, .connect, .command 0 (.begin .repeatableRead), .thread 0, .command 1 (.begin .readCommitted), .thread 1,
      .command 1 (.put [97] [49]), .command 0 (.get [98]), .thread 0, .command 1 .commit, .thread 1, .thread 1,
      .command 0 .abort, .thread 0] s tr ∧
    observed tr = [.began 1 true, .began 2 false, .called 2 (.put [97] [49]), .called 1 (.get [98] .notFound),
      .committed 2, .aborted 1] ∧
    AtomicStore.Accepts replyOf (atomicStore ∅) (observed tr) := by
  have hrun := exists_run_of_exec step KeepsLocks (Server.boot {} ∅)
    [.connect, .connect, .command 0 (.begin .repeatableRead), .thread 0, .command 1 (.begin .readCommitted), .thread 1,
      .command 1 (.put [97] [49]), .command 0 (.get [98]), .thread 0, .command 1 .commit, .thread 1, .thread 1,
      .command 0 .abort, .thread 0]
    (fun _ tr => decide (observed tr = [.began 1 true, .began 2 false, .called 2 (.put [97] [49]),
      .called 1 (.get [98] .notFound), .committed 2, .aborted 1])) (by decide +kernel)
  obtain ⟨s, tr, hr, hp⟩ := hrun
  exact ⟨s, tr, hr, of_decide_eq_true hp, (refines_atomic_store (.opened {}) hr).1⟩

/-! ## Consistent views -/

/-- **Opacity at `REPEATABLE_READ`**: at every instant of a run, all calls a `REPEATABLE_READ` transaction has made so
far would be answered the same way by the committed values of that instant, whether it commits later or aborts and
whatever the isolation levels of the other transactions are. -/
theorem consistent_view {st : Store} {s₀ s : State} {as : List Action} {tr : List Event} (h0 : Server.Initial st s₀)
    (h : Run step KeepsLocks s₀ as s tr) {pre post : List Observation} (hobs : observed tr = pre ++ post) {t : TxnId}
    {x : AtomicStore.Txn Key Value GetReply} (hx : (AtomicStore.after (atomicStore st) pre).live t = some x)
    (hstable : x.stable = true) :
    AtomicStore.Replays replyOf (AtomicStore.after (atomicStore st) pre).values x.calls := by
  have hacc := (refineInv_of_run h0 h).accepted
  rw [hobs, AtomicStore.accepts_append] at hacc
  exact (hacc.1.consistent (AtomicStore.consistent_of_idle fun _ => rfl)).replays hx hstable

/-- The reader's view after the writer has committed. -/
theorem consistent_view_after_commit : ∃ s tr, Run step KeepsLocks (Server.boot {} ∅)
    [.connect, .connect, .command 0 (.begin .repeatableRead), .thread 0, .command 1 (.begin .readCommitted), .thread 1,
      .command 1 (.put [97] [49]), .command 0 (.get [98]), .thread 0, .command 1 .commit, .thread 1, .thread 1] s tr ∧
    (AtomicStore.after (atomicStore ∅) (observed tr)).live 1 = some ⟨true, [.get [98] .notFound]⟩ ∧
    AtomicStore.Replays replyOf (AtomicStore.after (atomicStore ∅) (observed tr)).values [.get [98] .notFound] := by
  have hrun := exists_run_of_exec step KeepsLocks (Server.boot {} ∅)
    [.connect, .connect, .command 0 (.begin .repeatableRead), .thread 0, .command 1 (.begin .readCommitted), .thread 1,
      .command 1 (.put [97] [49]), .command 0 (.get [98]), .thread 0, .command 1 .commit, .thread 1, .thread 1]
    (fun _ tr => decide ((AtomicStore.after (atomicStore ∅) (observed tr)).live 1 =
      some ⟨true, [.get [98] .notFound]⟩)) (by decide +kernel)
  obtain ⟨s, tr, hr, hp⟩ := hrun
  have hp := of_decide_eq_true hp
  exact ⟨s, tr, hr, hp, consistent_view (.opened {}) hr (List.append_nil _).symm hp rfl⟩

end Kvdb
