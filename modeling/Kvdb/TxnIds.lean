import Kvdb.Locking

/-!
# Transaction ids

`allocateTxnId` counts in 32 bits and does not check for the end. Active transactions have different ids exactly in the
runs in which no `begin` is given an id in use (`newIds_iff`), among them all that begin fewer than `2 ^ 32`
transactions (`active_ids_distinct`).

A transaction that stays open while the counter goes once around shares its id with another one. The lock manager takes
the second for the first and grants it every lock that the first one holds (`ids_shared`).
-/

namespace Kvdb

open Machine LockManager

/-- No two active transactions have the same id. -/
def DistinctIds (s : State) : Prop :=
  ∀ i j, (s.sessions i).txn.state = .active → (s.sessions j).txn.state = .active →
    (s.sessions i).txn.txnId = (s.sessions j).txn.txnId → i = j

section Runs

variable {P : State → Action → Prop} {st : Store} {s₀ s : State} {as : List Action} {tr : List Event}

theorem HoldInv.distinctIds (h : HoldInv s.core.locks s.core.parties) : DistinctIds s := fun _ _ hi hj => h.unique hi hj

/-- A `begin` that is given an id in use makes two transactions share it. -/
theorem newIds_of_distinct {s' : State} {a : Action} {evs : List Event} (hs : step s a = some (s', evs))
    (hd : DistinctIds s') : NewIds s a := by
  unfold NewIds Core.NewId
  split
  · rename_i i hl
    obtain ⟨level, rfl⟩ := Action.eq_begin hl
    intro hi j hj hact hid
    have hij : j ≠ i := by rintro rfl; exact hi hact
    cases (step_move hs).2 with
    | command i' cmd ha _ _ hmove =>
      cases ha
      cases hmove with
      | begin level' hcmd _ =>
        have hself := sessions_setTxn { s with nextTxnId := s.nextTxnId + 1 } i
          { txnId := s.nextTxnId, isolationLevel := level', state := .active } .logBegin
        have hother : ∀ σ : Session,
            ({ s with nextTxnId := s.nextTxnId + 1 }.setSession i σ).sessions j = s.sessions j :=
          fun σ => Function.update_of_ne hij ..
        refine hij (hd j i ?_ ?_ ?_)
        · rw [State.setTxn, hother]; exact hact
        · rw [hself]
        · rw [hself, State.setTxn, hother]; exact hid
      | alreadyInTransaction _ _ hactive => exact hi hactive
      | notInTransaction hne _ => exact hne level rfl
      | granted op _ _ hop | queued op _ _ _ hop => cases op <;> cases hop
      | commit hcmd | abort hcmd | checkpoint hcmd | quitActive hcmd | quit hcmd => cases hcmd
    | connect ha | copyStore _ _ _ _ ha | threadFault _ _ _ ha | disconnect _ ha | thread _ ha => cases ha
    | worker fault ha => cases fault <;> cases ha
  · trivial

/-- **The ids are distinct** after every step of a run exactly if no step hands out an id in use. -/
theorem newIds_iff (h0 : Server.Initial st s₀) : Run step NewIds s₀ as s tr ↔
    Run step (fun s a => ∀ s' evs, step s a = some (s', evs) → DistinctIds s') s₀ as s tr := by
  constructor
  · intro h
    refine (Run.strengthen (fun _ => True) (fun _ s => s.Unconnected ∧ HoldInv s.core.locks s.core.parties)
      (fun _ => trivial) ⟨(lockInv_initial h0).1, (lockInv_initial h0).2.toHoldInv⟩ ?_ ?_ h trivial).1
    · rintro _ s a s' evs ⟨hu, hinv⟩ hn hs _
      exact ⟨step_unconnected hs hu, (step_core hs).holdInv (hn.newId hu) hinv⟩
    · rintro _ s a s' evs ⟨hu, hinv⟩ hn _ _ s₁ evs₁ hs
      exact ((step_core hs).holdInv (hn.newId hu) hinv).distinctIds
  · intro h
    refine (Run.strengthen (fun _ => True) (fun _ _ => True) (fun _ => trivial) trivial (fun _ _ _ _ => trivial) ?_ h
      trivial).1
    intro _ s a s' evs _ hd hs _
    exact newIds_of_distinct hs (hd s' evs hs)

/-- **Active transactions have different ids** in every run that hands out no id in use, and in every run that begins
fewer than `2 ^ 32` transactions. Every holder in the lock table is then the transaction of one session. -/
theorem active_ids_distinct (h0 : Server.Initial st s₀) (h : Run step P s₀ as s tr)
    (hids : (∀ s a, P s a → NewIds s a) ∨ (begunOf tr).length < 2 ^ 32) :
    DistinctIds s ∧ ∀ (k : Key), ∀ t ∈ s.locks.holders k,
      ∃! i, (s.sessions i).txn.state = .active ∧ (s.sessions i).txn.txnId = t := by
  have hnew : Run step NewIds s₀ as s tr := by
    rcases hids with hids | hn
    · exact h.mono hids
    · exact (newIds_of_length h0 h hn).mono fun _ _ hP => hP.2
  have hhold := (holdInv_of_newIds h0 hnew).2
  refine ⟨hhold.distinctIds, fun k t ht => ?_⟩
  obtain ⟨i, hi, -, hid⟩ := hhold.holder (k := k) (u := t) ht
  exact ⟨i, ⟨hi, hid⟩, fun j ⟨hj, hjd⟩ => hhold.distinctIds j i hj hi (hjd.trans hid.symm)⟩

end Runs

/-- Two sessions, one of which holds a lock. -/
theorem active_ids_distinct_two : ∃ as s tr, Run step (fun _ _ => True) (Server.boot {} ∅) as s tr ∧
    (s.sessions 0).txn.state = .active ∧ (s.sessions 1).txn.state = .active ∧
    (s.sessions 0).txn.txnId ≠ (s.sessions 1).txn.txnId ∧
    ∃! i, (s.sessions i).txn.state = .active ∧ (s.sessions i).txn.txnId = 1 := by
  have hrun := exists_run_of_exec step (fun _ _ => True) (Server.boot {} ∅)
    [.connect, .connect, .command 0 (.begin .readCommitted), .thread 0, .command 0 (.put [97] [49]),
      .command 1 (.begin .readCommitted)]
    (fun s tr => decide ((s.sessions 0).txn.state = .active ∧ (s.sessions 1).txn.state = .active ∧
      1 ∈ s.locks.holders [97] ∧ (begunOf tr).length < 2 ^ 32)) (by decide +kernel)
  obtain ⟨s, tr, hr, hp⟩ := hrun
  obtain ⟨h0, h1, hmem, hn⟩ := of_decide_eq_true hp
  obtain ⟨hd, hholder⟩ := active_ids_distinct (.opened {}) hr (Or.inr hn)
  exact ⟨_, s, tr, hr, h0, h1, fun hid => absurd (hd 0 1 h0 h1 hid) (by decide), hholder [97] 1 hmem⟩

/-! ## Once around -/

/-- A transaction that holds nothing releases nothing. -/
theorem releaseAllLocks_of_free {lm : LockManager} {t : TxnId} (h : ∀ k, t ∉ lm.holders k) :
    lm.releaseAllLocks t = lm := by
  have hkeys : lm.keysHeldBy t = [] := by
    rw [keysHeldBy, List.map_eq_nil_iff, List.filter_eq_nil_iff]
    rintro ⟨k, e⟩ hmem ht
    refine h k ?_
    rw [holders, entry_of_some (Std.ExtTreeMap.mem_toList_iff_getElem?_eq_some.mp hmem)]
    exact of_decide_eq_true ht
  rw [releaseAllLocks, hkeys]
  rfl

theorem step_command {s : State} {i : SessionId} (halive : s.alive = true) (hi : i < s.sessionCount)
    (hpc : (s.sessions i).pc = .idle) (cmd : Command) :
    step s (.command i cmd) = some (handleCommand s i cmd) := by
  simp only [step, halive, if_true, hi, hpc, and_self]

theorem step_thread {s : State} (halive : s.alive = true) (i : SessionId) : step s (.thread i) = threadStep s i := by
  simp only [step, halive, if_true]

/-- The first session is `σ`, the second one `τ`, and the next transaction gets the id `n`. -/
structure Cycling (σ : Session) (lm : LockManager) (n : TxnId) (τ : Session) (s : State) : Prop where
  alive : s.alive = true
  count : s.sessionCount = 2
  first : s.sessions 0 = σ
  second : s.sessions 1 = τ
  next : s.nextTxnId = n
  locks : s.locks = lm

section Cycling

variable {σ τ : Session} {lm : LockManager} {n : TxnId} {s : State}

theorem Cycling.setSession (h : Cycling σ lm n τ s) (τ' : Session) : Cycling σ lm n τ' (s.setSession 1 τ') := by
  have hne : (0 : SessionId) ≠ 1 := by decide
  have hfirst : (s.setSession 1 τ').sessions 0 = s.sessions 0 := Function.update_of_ne hne τ' s.sessions
  have hsecond : (s.setSession 1 τ').sessions 1 = τ' := by simp [State.setSession]
  exact ⟨h.alive, h.count, hfirst.trans h.first, hsecond, h.next, h.locks⟩

/-- What the log does has no influence. -/
theorem Cycling.logged (h : Cycling σ lm n τ s) (wal : WALManager) : Cycling σ lm n τ { s with wal := wal } :=
  ⟨h.alive, h.count, h.first, h.second, h.next, h.locks⟩

theorem Cycling.released (h : Cycling σ lm n τ s) {t : TxnId} (hfree : ∀ k, t ∉ lm.holders k) :
    Cycling σ lm n τ { s with locks := s.locks.releaseAllLocks t } :=
  ⟨h.alive, h.count, h.first, h.second, h.next, (releaseAllLocks_of_free (h.locks.symm ▸ hfree)).trans h.locks⟩

theorem Cycling.command (h : Cycling σ lm n τ s) (hpc : τ.pc = .idle) (cmd : Command) :
    step s (.command 1 cmd) = some (handleCommand s 1 cmd) :=
  step_command h.alive (by rw [h.count]; decide) (by rw [h.second]; exact hpc) cmd

/-- A transaction of the second session begins. -/
theorem Cycling.begin (h : Cycling σ lm n τ s) (hpc : τ.pc = .idle) (hidle : τ.txn.state ≠ .active) :
    ∃ as s' tr, Run step (fun _ _ => True) s as s' tr ∧
      Cycling σ lm (n + 1) ⟨{ txnId := n, state := .active }, .idle⟩ s' := by
  have hs := h.command hpc (.begin .readCommitted)
  simp only [handleCommand, beginTxn, h.second, if_neg hidle, h.next, State.setTxn] at hs
  have hcounted : Cycling σ lm (n + 1) τ { s with nextTxnId := n + 1 } :=
    ⟨h.alive, h.count, h.first, h.second, rfl, h.locks⟩
  have h₁ := hcounted.setSession ⟨{ txnId := n, state := .active }, .logBegin⟩
  have hs₁ := step_thread h₁.alive 1
  simp only [threadStep, h₁.second, State.setPc] at hs₁
  exact ⟨_, _, _, (Run.nil.snoc trivial hs).snoc trivial hs₁, (h₁.logged _).setSession _⟩

/-- It is aborted, and leaves nothing behind. -/
theorem Cycling.abort {txn : TransactionInfo} (h : Cycling σ lm n ⟨txn, .idle⟩ s) (hactive : txn.state = .active)
    (hfree : ∀ k, txn.txnId ∉ lm.holders k) :
    ∃ as s' tr, Run step (fun _ _ => True) s as s' tr ∧ Cycling σ lm n {} s' := by
  have hs := h.command rfl .abort
  have hn : ¬ txn.state ≠ .active := not_not.mpr hactive
  simp only [handleCommand, h.second, if_neg hn, State.setPc] at hs
  have h₁ := h.setSession ⟨txn, .logAbort .command⟩
  have hs₁ := step_thread h₁.alive 1
  simp only [threadStep, h₁.second, State.setTxn] at hs₁
  have h₂ := (h₁.logged (s.wal.logAbort txn.txnId).1).setSession
    ⟨{ txn with pendingBuffer := ∅ }, .abortRelease .command⟩
  have hs₂ := step_thread h₂.alive 1
  simp only [threadStep, h₂.second, State.setPc] at hs₂
  have h₃ := (h₂.released hfree).setSession ⟨{ txn with pendingBuffer := ∅ }, .abortReset .command⟩
  have hs₃ := step_thread h₃.alive 1
  simp only [threadStep, h₃.second, State.setTxn] at hs₃
  exact ⟨_, _, _, (((Run.nil.snoc trivial hs).snoc trivial hs₁).snoc trivial hs₂).snoc trivial hs₃, h₃.setSession _⟩

/-- The counter goes on by `m`. -/
theorem Cycling.turns (h : Cycling σ lm n {} s) : ∀ m : Nat, (∀ j < m, ∀ k, n + UInt32.ofNat j ∉ lm.holders k) →
    ∃ as s' tr, Run step (fun _ _ => True) s as s' tr ∧ Cycling σ lm (n + UInt32.ofNat m) {} s'
  | 0, _ => ⟨[], s, [], .nil, by simpa using h⟩
  | m + 1, hfree => by
    obtain ⟨as, s₁, tr, hr, h₁⟩ := h.turns m fun j hj => hfree j (by omega)
    obtain ⟨as₂, s₂, tr₂, hr₂, h₂⟩ := h₁.begin rfl (by decide)
    obtain ⟨as₃, s₃, tr₃, hr₃, h₃⟩ := h₂.abort rfl (hfree m (by omega))
    have hnext : n + UInt32.ofNat m + 1 = n + UInt32.ofNat (m + 1) := by
      rw [UInt32.ofNat_add, UInt32.add_assoc]
      rfl
    rw [hnext] at h₃
    exact ⟨_, s₃, _, (hr.append hr₂).append hr₃, h₃⟩

end Cycling

/-- A transaction stays open while the counter goes once around. The next transaction of another session is given its
id, and puts the key that the first one has locked. -/
theorem ids_shared : ∃ as s tr, Run step (fun _ _ => True) (Server.boot {} ∅) as s tr ∧
    (s.sessions 0).txn.state = .active ∧ (s.sessions 1).txn.state = .active ∧
    (s.sessions 0).txn.txnId = (s.sessions 1).txn.txnId ∧ s.locks.HeldAlone (s.sessions 0).txn.txnId [97] ∧
    [97] ∈ (s.sessions 0).txn.pendingBuffer ∧ [97] ∈ (s.sessions 1).txn.pendingBuffer := by
  obtain ⟨s₀, tr₀, hr₀, hp⟩ := exists_run_of_exec step KeepsLocks (Server.boot {} ∅)
    [.connect, .connect, .command 0 (.begin .readCommitted), .thread 0, .command 0 (.put [97] [49])]
    (fun s _ => decide (s.alive = true ∧ s.sessionCount = 2 ∧ s.nextTxnId = 2 ∧ (s.sessions 0).txn.state = .active ∧
      (s.sessions 0).txn.txnId = 1 ∧ [97] ∈ (s.sessions 0).txn.pendingBuffer ∧ (s.sessions 1).pc = .idle ∧
      (s.sessions 1).txn.state ≠ .active)) (by decide +kernel)
  obtain ⟨halive, hcount, hnext, hactive, hid, hbuffer, hpc, hidle⟩ := of_decide_eq_true hp
  obtain ⟨hunconnected, hinv⟩ := lockInv_of_run (.opened {}) hr₀
  have hsole : s₀.locks.Sole 1 [97] := hid ▸ (hinv.parties (i := 0) hactive).sole hbuffer
  -- the first session is the only one that holds anything
  have hfree : ∀ {t : TxnId}, t ≠ 1 → ∀ k, t ∉ s₀.locks.holders k := by
    intro t ht k hmem
    obtain ⟨i, hi, -, hit⟩ := hinv.holder (k := k) (u := t) hmem
    have hi : (s₀.sessions i).txn.state = .active := hi
    match i, hi, hit with
    | 0, _, hit => exact ht (hit.symm.trans hid)
    | 1, hi, _ => exact hidle hi
    | i + 2, hi, _ =>
      rw [hunconnected (i + 2) (by omega)] at hi
      cases hi
  have h₀ : Cycling (s₀.sessions 0) s₀.locks 2 (s₀.sessions 1) s₀ := ⟨halive, hcount, rfl, rfl, hnext, rfl⟩
  obtain ⟨as₁, s₁, tr₁, hr₁, h₁⟩ := h₀.begin hpc hidle
  obtain ⟨as₂, s₂, tr₂, hr₂, h₂⟩ := h₁.abort rfl (hfree (by decide))
  obtain ⟨as₃, s₃, tr₃, hr₃, h₃⟩ := h₂.turns (2 ^ 32 - 2) fun j hj => hfree fun heq => by
    have htoNat := congrArg UInt32.toNat heq
    simp at htoNat
    omega
  have haround : (2 : TxnId) + 1 + UInt32.ofNat (2 ^ 32 - 2) = 1 := by decide
  rw [haround] at h₃
  obtain ⟨as₄, s₄, tr₄, hr₄, h₄⟩ := h₃.begin rfl (by decide)
  have hs := h₄.command rfl (.put [97] [50])
  have hn : ¬ TxnState.active ≠ .active := not_not.mpr rfl
  simp only [handleCommand, requestLock, h₄.second, if_neg hn, h₄.locks, acquireLock_of_sole hsole, lockAcquired,
    State.setTxn] at hs
  have h₅ : Cycling (s₀.sessions 0) _ (1 + 1) _
      { s₄ with locks := ⟨s₀.locks.lockTable.insert [97] (s₀.locks.entry [97]), s₀.locks.flags⟩ } :=
    ⟨h₄.alive, h₄.count, h₄.first, h₄.second, h₄.next, rfl⟩
  have h₆ := h₅.setSession
    ⟨({ txnId := 1, state := .active } : TransactionInfo).withLock (.put [50]) [97], .idle⟩
  have hrun := ((((hr₀.mono fun _ _ _ => trivial).append hr₁).append hr₂).append hr₃).append hr₄
  refine ⟨_, _, _, hrun.snoc trivial hs, ?_⟩
  rw [h₆.first, h₆.second, h₆.locks, hid]
  refine ⟨hactive, rfl, rfl, ?_, hbuffer, FinMap.mem_insert_iff.mpr (Or.inl rfl)⟩
  exact ⟨s₀.locks.entry [97], by rw [FinMap.find_insert, if_pos rfl], hsole.1, hsole.2⟩

end Kvdb
