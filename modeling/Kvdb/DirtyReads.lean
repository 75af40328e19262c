import Kvdb.Waiting

/-!
# No dirty reads

What is in the store was put there by a committed transaction, at every isolation level and whatever becomes of the
locks. The pending buffer of a session holds what its current transaction has put (`PutInv.buffered`); when the `COMMIT`
record is logged the buffer becomes that of a committed transaction (`PutInv.committed`); and nothing reaches the store
but entries of such a buffer, once `flushed_lsn_` has reached the LSN of the record (`step_store`, `WaitedInv`). So
every binding of the store, and every value a `get` finds there, can be traced back to the step that applied it
(`AppliedPut`, `no_dirty_reads`).
-/

namespace Kvdb

/-! ## Buffers and the calls they come from -/

/-- What is in a pending buffer was put by the session's current transaction; what a session is applying was put by a
transaction whose `COMMIT` record is in the log. -/
structure PutInv (tr : List Event) (ps : SessionId → Party) : Prop where
  buffered : ∀ {i k v}, (ps i).txn.pendingBuffer[k]? = some (v, false) → .put k v ∈ ((historyOf tr).current i).ops
  committed : ∀ {i lsn ws}, (ps i).phase = .applying lsn ws →
    ⟨lsn, (ps i).txn.txnId, .commit, [], []⟩ ∈ logOf tr ∧
      ∃ ops, (lsn, ops) ∈ (historyOf tr).committed ∧ ∀ k v, (k, v, false) ∈ ws → .put k v ∈ ops

/-- Commits are not forgotten. -/
theorem History.committed_subset (h : History) (evs : List Event) :
    h.committed ⊆ (evs.foldl History.add h).committed := by
  induction evs generalizing h with
  | nil => exact List.Subset.refl _
  | cons e evs ih =>
    have hadd : h.committed ⊆ (h.add e).committed := by
      cases e <;> simp [History.add]
    exact List.Subset.trans hadd (ih _)

theorem committed_subset_append (tr evs : List Event) :
    (historyOf tr).committed ⊆ (historyOf (tr ++ evs)).committed := by
  rw [historyOf_append]
  exact History.committed_subset _ evs

namespace PutInv

variable {tr evs : List Event} {ps : SessionId → Party} {i : SessionId} {p' : Party}

/-- A step of one session. -/
theorem update (h : PutInv tr ps)
    (hcur : ∀ j, j ≠ i → (historyOf (tr ++ evs)).current j = (historyOf tr).current j)
    (hbuf : ∀ {k v}, p'.txn.pendingBuffer[k]? = some (v, false) → .put k v ∈ ((historyOf (tr ++ evs)).current i).ops)
    (hcom : ∀ {lsn ws}, p'.phase = .applying lsn ws →
      ⟨lsn, p'.txn.txnId, .commit, [], []⟩ ∈ logOf (tr ++ evs) ∧
        ∃ ops, (lsn, ops) ∈ (historyOf (tr ++ evs)).committed ∧ ∀ k v, (k, v, false) ∈ ws → .put k v ∈ ops) :
    PutInv (tr ++ evs) (Function.update ps i p') := by
  refine ⟨fun {j k v} hj => ?_, fun {j lsn ws} hj => ?_⟩ <;> by_cases hji : j = i
  · subst hji
    rw [Function.update_self] at hj
    exact hbuf hj
  · rw [Function.update_of_ne hji] at hj
    rw [hcur j hji]
    exact h.buffered hj
  · subst hji
    rw [Function.update_self] at hj ⊢
    exact hcom hj
  · rw [Function.update_of_ne hji] at hj ⊢
    obtain ⟨hlog, ops, hops, hput⟩ := h.committed hj
    exact ⟨by rw [logOf_append]; exact List.mem_append_left _ hlog, ops, committed_subset_append tr evs hops, hput⟩

/-- A step that tells nothing about calls, after which the session is not applying and has no more in its buffer. -/
theorem quiet (h : PutInv tr ps) (hcur : (historyOf (tr ++ evs)).current = (historyOf tr).current)
    (hbuf : p'.txn.pendingBuffer = (ps i).txn.pendingBuffer ∨ p'.txn.pendingBuffer = ∅)
    (hph : ∀ lsn ws, p'.phase ≠ .applying lsn ws) : PutInv (tr ++ evs) (Function.update ps i p') := by
  refine h.update (fun j _ => by rw [hcur]) (fun {k v} hk => ?_) fun hp => absurd hp (hph _ _)
  rw [hcur]
  rcases hbuf with hbuf | hbuf <;> rw [hbuf] at hk
  · exact h.buffered hk
  · simp at hk

/-- A `put`, `delete_key` or `get` has its lock. -/
theorem locked (h : PutInv tr ps) (op : LockOp) (key : Key) :
    PutInv (tr ++ lockedEvents i (ps i).txn.txnId op key) (Function.update ps i (.locked (ps i).txn op key)) := by
  cases op with
  | get => exact h.quiet (by rw [historyOf_append]; rfl) (Or.inl rfl) (by simp [Party.locked])
  | put value =>
    refine h.update (fun j hj => ?_) (fun {k v} hk => ?_) fun hp => (by cases hp) <;> rw [historyOf_append]
    · exact Function.update_of_ne hj ..
    · simp only [lockedEvents, List.foldl_cons, List.foldl_nil, History.add, Function.update_self, List.mem_append,
        List.mem_singleton]
      simp only [Party.locked, TransactionInfo.withLock, FinMap.find_insert] at hk
      split at hk
      · cases hk; subst_vars; exact Or.inr rfl
      · exact Or.inl (h.buffered hk)
  | delete =>
    refine h.update (fun j hj => ?_) (fun {k v} hk => ?_) fun hp => (by cases hp) <;> rw [historyOf_append]
    · exact Function.update_of_ne hj ..
    · simp only [lockedEvents, List.foldl_cons, List.foldl_nil, History.add, Function.update_self, List.mem_append]
      simp only [Party.locked, TransactionInfo.withLock, FinMap.find_insert] at hk
      split at hk
      · cases hk
      · exact Or.inl (h.buffered hk)

end PutInv

/-- **Buffers are filled by puts only, and only committed ones are applied.** -/
theorem CoreStep.putInv {c c' : Core} {l : Label} {evs tr : List Event} (h : CoreStep c l evs c')
    (hinv : PutInv tr c.parties) : PutInv (tr ++ evs) c'.parties := by
  cases h with
  | silent he =>
    refine ⟨fun {i k v} hk => ?_, fun {i lsn ws} hph => ?_⟩
    · rw [historyOf_silent he]; exact hinv.buffered hk
    · rw [historyOf_silent he, logOf_append, logOf_silent he, List.append_nil]; exact hinv.committed hph
  | @begin i level hph hact =>
    -- the calls of the session start anew, and so does its buffer
    refine hinv.update (fun j hj => ?_) (fun {k v} hk => by simp at hk) fun hp => by cases hp
    rw [historyOf_append]
    exact Function.update_of_ne hj ..
  | granted hp hph hact hacq => subst hp; exact hinv.locked _ _
  | waitGranted hp hph hfin => subst hp; exact hinv.locked _ _
  | @read _ i p key hp hph =>
    subst hp
    refine hinv.update (fun j hj => ?_) (fun {k v} hk => ?_) fun hp => ?_
    · rw [historyOf_append]
      exact Function.update_of_ne hj ..
    · rw [historyOf_append]
      simp only [List.foldl_cons, List.foldl_nil, History.add, Function.update_self, List.mem_append]
      exact Or.inl (hinv.buffered hk)
    · dsimp only at hp
      split at hp <;> cases hp
  | @logCommit _ i p hp hph =>
    subst hp
    refine hinv.update (fun j hj => by rw [historyOf_append]; rfl)
      (fun {k v} hk => by rw [historyOf_append]; exact hinv.buffered hk) fun {lsn ws} hp => ?_
    obtain ⟨rfl, rfl⟩ := Phase.applying.inj hp
    refine ⟨by rw [logOf_append]; exact List.mem_append_right _ List.mem_cons_self,
      ((historyOf tr).current i).ops, ?_, fun k v hkv => ?_⟩
    · rw [historyOf_append]
      exact List.mem_append_right _ (List.mem_singleton_self _)
    · exact hinv.buffered (Std.ExtTreeMap.mem_toList_iff_getElem?_eq_some.mp hkv)
  | @apply _ i p lsn w ws hp hph =>
    subst hp
    refine hinv.update (fun j hj => by rw [List.append_nil])
      (fun {k v} hk => by rw [List.append_nil]; exact hinv.buffered hk) fun {lsn' ws'} hp => ?_
    obtain ⟨rfl, rfl⟩ := Phase.applying.inj hp
    obtain ⟨hlog, ops, hops, hput⟩ := hinv.committed hph
    rw [List.append_nil]
    exact ⟨hlog, ops, hops, fun k v hkv => hput k v (List.mem_cons_of_mem _ hkv)⟩
  | reset hp hph he => exact hinv.quiet (congrArg History.current (historyOf_silent he tr)) (Or.inr rfl) (by simp)
  | logBegin hp hph | queued hp hph | waitFailed hp hph | release hp hph | startCommit hp hph | logWrite hp hph
  | startAbort hp hph | abortRelease hp hph =>
    subst hp
    exact hinv.quiet (by rw [historyOf_append]; rfl) (Or.inl rfl) (by simp)
  | applied hp hph | logAbort hp hph =>
    subst hp
    exact hinv.quiet (by rw [historyOf_append]; rfl) (Or.inr rfl) (by simp)

/-! ## Where the answers of `get` come from -/

/-- A `get` is answered from the session's pending buffer and the store. -/
theorem CoreStep.getReply {c c' : Core} {l : Label} {evs : List Event} (h : CoreStep c l evs c') {i : SessionId}
    {t : TxnId} {k : Key} {reply : GetReply} (he : .done i t (.get k reply) ∈ evs) :
    reply = readKey (c.parties i).txn.pendingBuffer c.store k := by
  cases h with
  | silent hs | reset _ _ hs => cases hs _ he
  | @granted _ _ op | @waitGranted _ _ _ op => cases op <;> simp [lockedEvents] at he
  | read hp hph =>
    obtain ⟨rfl, rfl, rfl, rfl⟩ : i = _ ∧ t = _ ∧ k = _ ∧ reply = _ := by simpa using he
    rw [hp]
  | logCommit => simp at he
  | begin | logBegin | queued | waitFailed | release | startCommit | logWrite | apply | applied | startAbort | logAbort
  | abortRelease => simp at he

/-! ## How values get into the store -/

section

variable {s s' : State} {a : Action} {evs : List Event}

/-- **The store changes only when a session applies its buffer.** -/
theorem step_store (h : step s a = some (s', evs)) :
    s'.store = s.store ∨ ∃ i lsn w ws, a = .thread i ∧ (s.sessions i).pc = .applying lsn (w :: ws) ∧
      s'.store = applyWrite s.store w := by
  have hcheckpoint : ∀ {i s'}, CheckpointEffect s i s' → s'.store = s.store := by
    intro i s' hmove
    cases hmove <;> rfl
  cases (step_move h).2 with
  | connect | copyStore | disconnect => exact Or.inl rfl
  | command i cmd _ _ _ hmove => cases hmove <;> exact Or.inl rfl
  | thread i ha hmove =>
    generalize hpc : (s.sessions i).pc = pc at hmove
    cases hmove with
    | apply lsn w ws => exact Or.inr ⟨i, lsn, w, ws, ha, hpc, rfl⟩
    | checkpoint _ hc => exact Or.inl (hcheckpoint (checkpointStep_effect hc))
    | _ => exact Or.inl rfl
  | threadFault i n pc _ _ hc => exact Or.inl (hcheckpoint (checkpointFault_effect hc))
  | worker fault _ hw => exact Or.inl (congrArg Core.store (workerStep_core hw).1)

/-- A session that goes on in `commit` has been told that its record is flushed. -/
def WaitedInv (tr : List Event) (s : State) : Prop :=
  ∀ i lsn, (s.sessions i).pc.waited = some lsn → .waited i lsn ∈ tr ∧ lsn ≤ s.wal.flushedLsn

theorem WaitedInv.step {tr : List Event} (hw : WaitedInv tr s) (h : Kvdb.step s a = some (s', evs)) :
    WaitedInv (tr ++ evs) s' := by
  intro i lsn hpc
  have hmono := step_flushedLsn h
  obtain ⟨-, hpc | ⟨-, hmem⟩⟩ := (step_commitPc h i).waited hpc
  · exact ⟨List.mem_append_left _ (hw i lsn hpc).1, Nat.le_trans (hw i lsn hpc).2 hmono⟩
  · refine ⟨List.mem_append_right _ hmem, ?_⟩
    obtain ⟨j, -, he⟩ := step_ofCommit h hmem rfl
    cases he with
    | waited _ hle => exact Nat.le_trans hle hmono

end

/-! ## Runs -/

open Machine

/-- A step of the run has put the value under the key, out of the buffer of a session whose transaction has put it
there: its `COMMIT` record was logged, `flushed_lsn_` had reached its LSN, and the wait for that was over. -/
structure AppliedPut.At (s₁ : State) (tr₁ : List Event) (i : SessionId) (k : Key) (v : Value) (lsn : Nat)
    (ops : List Op) : Prop where
  applying : ∃ ws, (s₁.sessions i).pc = .applying lsn ((k, v, false) :: ws)
  put : .put k v ∈ ops
  committed : (lsn, ops) ∈ (historyOf tr₁).committed
  logged : ⟨lsn, (s₁.sessions i).txn.txnId, .commit, [], []⟩ ∈ logOf tr₁
  waited : .waited i lsn ∈ tr₁
  flushed : lsn ≤ s₁.wal.flushedLsn

def AppliedPut (s₀ : State) (as : List Action) (tr : List Event) (k : Key) (v : Value) : Prop :=
  ∃ as₁ s₁ tr₁ i lsn ops, Run step (fun _ _ => True) s₀ as₁ s₁ tr₁ ∧ as₁ ++ [.thread i] <+: as ∧ tr₁ <+: tr ∧
    AppliedPut.At s₁ tr₁ i k v lsn ops

theorem AppliedPut.mono {s₀ : State} {as as' : List Action} {tr tr' : List Event} {k : Key} {v : Value}
    (h : AppliedPut s₀ as tr k v) : AppliedPut s₀ (as ++ as') (tr ++ tr') k v := by
  obtain ⟨as₁, s₁, tr₁, i, lsn, ops, hrun, has, htr, hat⟩ := h
  exact ⟨as₁, s₁, tr₁, i, lsn, ops, hrun, has.trans (List.prefix_append _ _), htr.trans (List.prefix_append _ _), hat⟩

/-- The buffers and the waits along a run. -/
theorem putInv_of_run {s₀ s : State} {as : List Action} {tr : List Event} (h0 : Server.Initial ∅ s₀)
    (h : Run step (fun _ _ => True) s₀ as s tr) : PutInv tr s.core.parties ∧ WaitedInv tr s := by
  refine Run.invariant (fun tr s => PutInv tr s.core.parties ∧ WaitedInv tr s) ?_ ?_ h
  · cases h0 <;> exact ⟨⟨fun h => by simp [State.core, Session.party, Server.boot, Server.bootUnopened] at h,
      fun h => by cases h⟩, fun i lsn h => by cases h⟩
  · rintro tr s a s' evs ⟨hput, hwait⟩ - hs
    exact ⟨(step_core hs).putInv hput, hwait.step hs⟩

/-- Every binding of the store has been applied. -/
theorem store_appliedPut {s₀ s : State} {as : List Action} {tr : List Event} (h0 : Server.Initial ∅ s₀)
    (h : Run step (fun _ _ => True) s₀ as s tr) {k : Key} {v : Value} (hk : s.store[k]? = some v) :
    AppliedPut s₀ as tr k v := by
  induction h with
  | nil => cases h0 <;> simp [Server.boot, Server.bootUnopened] at hk
  | @snoc as s s' tr evs a hrun _ hs ih =>
    rcases step_store hs with hst | ⟨i, lsn, w, ws, rfl, hpc, hst⟩
    · rw [hst] at hk
      exact (ih hk).mono
    · rw [hst, get_applyWrite] at hk
      split at hk
      · -- this step applies the binding
        obtain ⟨key, value, deleted⟩ := w
        subst ‹key = k›
        cases deleted with
        | true => cases hk
        | false =>
          cases hk
          obtain ⟨hput, hwait⟩ := putInv_of_run h0 hrun
          have hphase : (s.core.parties i).phase = .applying lsn ((key, value, false) :: ws) := by
            simp [State.core, Session.party, hpc, Pc.phase]
          obtain ⟨hlog, ops, hops, hall⟩ := hput.committed hphase
          obtain ⟨hw, hle⟩ := hwait i lsn (by rw [hpc]; rfl)
          exact ⟨as, s, tr, i, lsn, ops, hrun, List.prefix_refl _, List.prefix_append _ _,
            ⟨⟨ws, hpc⟩, hall key value List.mem_cons_self, hops, hlog, hw, hle⟩⟩
      · exact (ih hk).mono

/-- **No dirty reads.** Every binding of the store was put by a transaction that had committed and been flushed when it
was applied; so was every value that the next step answers to a `get` of a key outside the own pending buffer; and what
no transaction that has got past its wait has put is not in the store. -/
theorem no_dirty_reads {s₀ s : State} {as : List Action} {tr : List Event} (h0 : Server.Initial ∅ s₀)
    (h : Run step (fun _ _ => True) s₀ as s tr) :
    (∀ k v, s.store[k]? = some v → AppliedPut s₀ as tr k v) ∧
    (∀ a s' evs i t k v, step s a = some (s', evs) → .done i t (.get k (.value v)) ∈ evs →
      k ∉ (s.sessions i).txn.pendingBuffer → AppliedPut s₀ as tr k v) ∧
    ∀ k v, (∀ lsn ops, (lsn, ops) ∈ (historyOf tr).committed → .put k v ∈ ops → ∀ i, .waited i lsn ∉ tr) →
      s.store[k]? ≠ some v := by
  refine ⟨fun k v hk => store_appliedPut h0 h hk, fun a s' evs i t k v hs he hbuf => ?_, fun k v hno hk => ?_⟩
  · have hreply : .value v = readKey (s.sessions i).txn.pendingBuffer s.store k := (step_core hs).getReply he
    have hnone : (s.sessions i).txn.pendingBuffer[k]? = none := by
      cases hb : (s.sessions i).txn.pendingBuffer[k]? with
      | none => rfl
      | some w => exact absurd ((FinMap.mem_keys_iff _ _).mpr ⟨w, hb⟩) hbuf
    refine store_appliedPut h0 h ?_
    simp only [readKey, hnone, Store.get] at hreply
    split at hreply
    · rw [‹s.store[k]? = _›]
      cases hreply
      rfl
    · cases hreply
  · obtain ⟨as₁, s₁, tr₁, i, lsn, ops, -, -, ⟨tr₂, rfl⟩, hat⟩ := store_appliedPut h0 h hk
    exact hno lsn ops (committed_subset_append tr₁ tr₂ hat.committed) hat.put i (List.mem_append_left _ hat.waited)

/-- A value of a committed transaction in the store, beside one that an active transaction has put. -/
theorem no_dirty_reads_get : ∃ as s tr, Run step (fun _ _ => True) (Server.boot {} ∅) as s tr ∧
    s.store[([97] : Key)]? = some [49] ∧ AppliedPut (Server.boot {} ∅) as tr [97] [49] ∧
    Event.done 1 2 (.put [98] [50]) ∈ tr ∧ s.store[([98] : Key)]? ≠ some [50] := by
  have hrun := exists_run_of_exec step (fun _ _ => True) (Server.boot {} ∅)
    [.connect, .connect, .command 0 (.begin .readCommitted), .thread 0, .command 0 (.put [97] [49]),
      .command 0 .commit, .thread 0, .thread 0, .command 1 (.begin .readCommitted), .thread 1,
      .command 1 (.put [98] [50]), .worker, .worker, .worker, .worker, .worker, .worker, .worker, .worker, .worker,
      .thread 0, .thread 0, .thread 0, .thread 0, .thread 0]
    (fun s tr => decide (s.store[([97] : Key)]? = some [49] ∧ Event.done 1 2 (.put [98] [50]) ∈ tr ∧
      (historyOf tr).committed = [(3, [.put [97] [49]])])) (by decide +kernel)
  obtain ⟨s, tr, hr, hp⟩ := hrun
  obtain ⟨hstore, hput, hcom⟩ := of_decide_eq_true hp
  obtain ⟨happlied, -, hnone⟩ := no_dirty_reads (.opened {}) hr
  refine ⟨_, s, tr, hr, hstore, happlied _ _ hstore, hput, hnone _ _ fun lsn ops hmem hop => ?_⟩
  rw [hcom] at hmem
  cases List.mem_singleton.mp hmem
  cases List.mem_singleton.mp hop

end Kvdb
