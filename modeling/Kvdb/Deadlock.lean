import Kvdb.LockBooks

/-!
# Deadlocks

`processWaiters` runs only when a key has lost its last holder. So a waiter is let in by nobody but the last holder,
and sessions that wait for each other's locks stay where they are until one of them runs into its timeout, whatever the
other sessions do (`deadlock_lasts`). The flag `deadlocked` is never set: the timeout is the only way out.

One session is enough for a deadlock. A transaction that holds a key and has to wait for the exclusive lock on the same
key is among the holders it waits for; its upgrade is never granted, even when all other holders have gone
(`waiting_upgrade_fails`).
-/

namespace Kvdb

open LockManager Machine

/-! ## Who lets waiters in -/

/-- A call of `t` takes no waiter of another transaction out of a queue while the key has another holder. -/
def KeepsWaiters (t : TxnId) (lm lm' : LockManager) : Prop :=
  ∀ k, ∀ w ∈ lm.queue k, w.txnId ≠ t → (∃ u ∈ lm.holders k, u ≠ t) → w ∈ lm'.queue k

section KeepsWaiters

variable {t : TxnId} {k : Key} {m : LockMode} {lm lm' lm'' : LockManager}

theorem KeepsWaiters.trans (h : KeepsWaiters t lm lm') (ha : Acts t lm lm') (h' : KeepsWaiters t lm' lm'') :
    KeepsWaiters t lm lm'' := by
  rintro k w hw hwt ⟨u, hu, hut⟩
  exact h' k w (h k w hw hwt ⟨u, hu, hut⟩) hwt ⟨u, ha.keep u k hut hu, hut⟩

theorem KeepsWaiters.of_same (h : ∀ a, lm'.entry a = lm.entry a) : KeepsWaiters t lm lm' := by
  intro k w hw _ _
  rw [queue, h]
  exact hw

/-- A waiter whose flags are not touched stays in its queue. -/
theorem Acts.keepsWaiters (h : Acts t lm lm') (hwf : lm.WF)
    (hf : ∀ c : Nat, lm.flags[c]? = some {} → lm'.flags[c]? = some {}) : KeepsWaiters t lm lm' := by
  intro k w hw hwt _
  have hcell := hwf.cells k w hw
  rcases h.waits w.txnId k w.requestedMode w.flags hwt (Or.inl ⟨hw, hcell⟩) with ⟨hq, -⟩ | ⟨hgranted, -⟩
  · exact hq
  · rw [hf _ hcell] at hgranted
    cases hgranted

theorem acquireLock_keepsWaiters (hwf : lm.WF) (hm : m ≠ .none) : KeepsWaiters t lm (lm.acquireLock t k m).1 := by
  refine (acquireLock_acts hwf hm).keepsWaiters hwf fun c hc => ?_
  rcases acquireLock_cases lm t k m with ⟨e', -, hr⟩ | ⟨hr, -⟩ <;> rw [hr]
  · exact hc
  · rw [List.getElem?_append_left (List.getElem?_eq_some_iff.mp hc).1]
    exact hc

theorem finishWait_keepsWaiters {c : Nat} (hwf : lm.WF) : KeepsWaiters t lm (lm.finishWait t k c).1 := by
  refine (finishWait_acts hwf).keepsWaiters hwf fun c' hc => ?_
  rcases finishWait_cases lm t k c with ⟨hr, -⟩ | hr <;> rw [hr]
  · exact hc
  · rw [flags_dropWaiter]
    exact hc

theorem dropHolder_keepsWaiters : KeepsWaiters t lm (lm.dropHolder t k) := by
  rintro a w hw hwt ⟨u, hu, hut⟩
  rw [queue, (dropHolder_eq lm t k).2]
  split
  · obtain rfl : k = a := ‹_›
    have hne : (lm.entry k).holders.erase t ≠ ∅ := by
      intro he
      have hmem : u ∈ (lm.entry k).holders.erase t := Finset.mem_erase.mpr ⟨hut, hu⟩
      rw [he] at hmem
      cases hmem
    rw [dropped, if_neg hne]
    exact hw
  · exact hw

theorem keepsWaiters_lifts (t : TxnId) : Lifts t (KeepsWaiters t) where
  same _ he _ := .of_same he
  trans _ ha h _ h' := h.trans ha h'
  dropHolder _ := dropHolder_keepsWaiters

end KeepsWaiters

/-- A request waits only if it cannot be granted. -/
theorem tryGrant_of_waiting {lm lm' : LockManager} {t : TxnId} {k : Key} {m : LockMode} {c : Nat}
    (h : lm.acquireLock t k m = (lm', .waiting c)) : (lm.entry k).tryGrant t m = none := by
  rcases acquireLock_cases lm t k m with ⟨e', -, hr⟩ | ⟨-, hnone⟩
  · rw [hr] at h
    cases h
  · exact hnone

/-- **What a step does to the lock table**: nothing, or it is a call of one active transaction, whose session goes on to
another phase or keeps what it holds. -/
theorem CoreStep.lockCall {c c' : Core} {l : Label} {evs : List Event} (h : CoreStep c l evs c')
    (hinv : HoldInv c.locks c.parties) : c'.locks = c.locks ∨ ∃ j, (c.parties j).active ∧
      Acts (c.parties j).txn.txnId c.locks c'.locks ∧ KeepsWaiters (c.parties j).txn.txnId c.locks c'.locks ∧
      ((c'.parties j).phase ≠ (c.parties j).phase ∨
        (c.parties j).phase = .running ∧ KeptBy (c.parties j).txn.txnId c.locks c'.locks) := by
  have hwf := hinv.wf
  have hself : ∀ (c₁ : Core) (j : SessionId) (p : Party), (c₁.setParty j p).parties j = p := fun _ _ _ =>
    Function.update_self ..
  cases h with
  | @granted j p op key locks hp hph hact hacq =>
    subst hp
    have ha := acquireLock_acts (t := (c.parties j).txn.txnId) (k := key) hwf op.mode_ne_none
    have hk := acquireLock_keepsWaiters (t := (c.parties j).txn.txnId) (k := key) hwf op.mode_ne_none
    have hkept := acquireLock_kept (t := (c.parties j).txn.txnId) (k := key) hwf op.mode_ne_none
    rw [hacq] at ha hk hkept
    exact Or.inr ⟨j, hact, ha, hk, Or.inr ⟨hph, hkept⟩⟩
  | @queued j p op key locks flags hp hph hact hacq =>
    subst hp
    have ha := acquireLock_acts (t := (c.parties j).txn.txnId) (k := key) hwf op.mode_ne_none
    have hk := acquireLock_keepsWaiters (t := (c.parties j).txn.txnId) (k := key) hwf op.mode_ne_none
    rw [hacq] at ha hk
    exact Or.inr ⟨j, hact, ha, hk, Or.inl (by rw [hself, hph]; simp)⟩
  | @waitGranted _ j p op key flags locks hp hph hfin =>
    subst hp
    have ha := finishWait_acts (t := (c.parties j).txn.txnId) (k := key) (c := flags) hwf
    have hk := finishWait_keepsWaiters (t := (c.parties j).txn.txnId) (k := key) (c := flags) hwf
    rw [hfin] at ha hk
    refine Or.inr ⟨j, hinv.active j (by rw [hph]; simp), ha, hk, Or.inl ?_⟩
    rw [hself, hph]
    exact (Party.locked_phase _ op key).2 _ _ _
  | @waitFailed _ j p op key flags locks hp hph hfin =>
    subst hp
    have ha := finishWait_acts (t := (c.parties j).txn.txnId) (k := key) (c := flags) hwf
    have hk := finishWait_keepsWaiters (t := (c.parties j).txn.txnId) (k := key) (c := flags) hwf
    rw [hfin] at ha hk
    exact Or.inr ⟨j, hinv.active j (by rw [hph]; simp), ha, hk, Or.inl (by rw [hself, hph]; simp)⟩
  | @release _ j p key hp hph =>
    subst hp
    exact Or.inr ⟨j, hinv.active j (by rw [hph]; simp), releaseLock_acts hwf, (keepsWaiters_lifts _).releaseLock hwf,
      Or.inl (by rw [hself, hph]; simp)⟩
  | @applied _ j p lsn hp hph | @abortRelease _ j p hp hph =>
    subst hp
    exact Or.inr ⟨j, hinv.active j (by rw [hph]; simp), releaseAllLocks_acts hwf _,
      (keepsWaiters_lifts _).releaseAllLocks hwf, Or.inl (by rw [hself, hph]; simp)⟩
  | silent | begin | logBegin | read | startCommit | logWrite | logCommit | apply | startAbort | logAbort | reset =>
    exact Or.inl rfl

/-! ## Sessions that wait for each other -/

/-- Every session of `D` is queued for a key that a session of `D` holds. -/
def Core.Deadlocked (c : Core) (D : Finset SessionId) : Prop :=
  ∀ i ∈ D, ∃ op k f, (c.parties i).phase = .waiting op k f ∧
    ⟨(c.parties i).txn.txnId, op.mode, f⟩ ∈ c.locks.queue k ∧ ∃ j ∈ D, (c.parties j).txn.txnId ∈ c.locks.holders k

section Deadlocked

variable {c c' : Core} {D : Finset SessionId} {l : Label} {evs : List Event}

theorem Core.Deadlocked.active (h : c.Deadlocked D) (hinv : HoldInv c.locks c.parties) {i : SessionId} (hi : i ∈ D) :
    (c.parties i).active := by
  obtain ⟨op, k, f, hph, -⟩ := h i hi
  exact hinv.active i (by rw [hph]; simp)

/-- A call of a transaction outside `D`. -/
theorem Core.Deadlocked.call (h : c.Deadlocked D) (hsame : ∀ i ∈ D, c'.parties i = c.parties i) {t : TxnId}
    (ht : ∀ i ∈ D, (c.parties i).txn.txnId ≠ t) (ha : Acts t c.locks c'.locks)
    (hk : KeepsWaiters t c.locks c'.locks) : c'.Deadlocked D := by
  intro i hi
  obtain ⟨op, k, f, hph, hq, j, hj, hheld⟩ := h i hi
  refine ⟨op, k, f, by rw [hsame i hi]; exact hph, ?_, j, hj, ?_⟩
  · rw [hsame i hi]
    exact hk k _ hq (ht i hi) ⟨_, hheld, ht j hj⟩
  · rw [hsame j hj]
    exact ha.keep _ k (ht j hj) hheld

/-- A step that leaves the lock table alone. -/
theorem Core.Deadlocked.frame (h : c.Deadlocked D) (hsame : ∀ i ∈ D, c'.parties i = c.parties i)
    (hlocks : c'.locks = c.locks) : c'.Deadlocked D := by
  intro i hi
  obtain ⟨op, k, f, hph, hq, j, hj, hheld⟩ := h i hi
  refine ⟨op, k, f, ?_⟩
  rw [hsame i hi, hlocks]
  exact ⟨hph, hq, j, hj, by rw [hsame j hj]; exact hheld⟩

/-- **Nobody outside a deadlock ends it.** -/
theorem CoreStep.deadlocked (h : CoreStep c l evs c') (hinv : HoldInv c.locks c.parties)
    (hsame : ∀ i ∈ D, c'.parties i = c.parties i) (hD : c.Deadlocked D) : c'.Deadlocked D := by
  rcases h.lockCall hinv with hlocks | ⟨j, hact, ha, hk, hphase⟩
  · exact hD.frame hsame hlocks
  have hj : j ∉ D := fun hj => by
    obtain ⟨op, k, f, hph, -⟩ := hD j hj
    rcases hphase with hne | ⟨hrun, -⟩
    · exact hne (by rw [hsame j hj])
    · rw [hrun] at hph
      cases hph
  refine hD.call hsame (fun i hi => ?_) ha hk
  exact hinv.ne_of_ne hact (hD.active hinv hi) fun he => hj (he ▸ hi)

end Deadlocked

/-! ## Deadlocks of the server -/

/-- The session is inside `acquireLock`, queued for a key that a session of `D` holds. -/
def State.WaitsFor (s : State) (D : Finset SessionId) (i : SessionId) : Prop :=
  match (s.sessions i).pc with
  | .waitLock op key flags => ⟨(s.sessions i).txn.txnId, op.mode, flags⟩ ∈ s.locks.queue key ∧
      ∃ j ∈ D, (s.sessions j).txn.txnId ∈ s.locks.holders key
  | _ => False

instance (s : State) (D : Finset SessionId) (i : SessionId) : Decidable (s.WaitsFor D i) := by
  dsimp only [State.WaitsFor]
  generalize (s.sessions i).pc = pc
  rcases pc with _ | _ <;> infer_instance

/-- Every session of `D` waits for one of `D`. -/
def State.Deadlocked (s : State) (D : Finset SessionId) : Prop := ∀ i ∈ D, s.WaitsFor D i

instance (s : State) (D : Finset SessionId) : Decidable (s.Deadlocked D) :=
  inferInstanceAs (Decidable (∀ i ∈ D, s.WaitsFor D i))

theorem Pc.phase_eq_waiting {pc : Pc} {txn : TransactionInfo} {op : LockOp} {k : Key} {f : Nat} :
    pc.phase txn = .waiting op k f ↔ pc = .waitLock op k f := by
  cases pc <;> simp [Pc.phase]

section Server

variable {s s' : State} {D : Finset SessionId} {a : Action} {evs : List Event} {i : SessionId}

theorem State.Deadlocked.waits (h : s.Deadlocked D) (hi : i ∈ D) : ∃ op k f, (s.sessions i).pc = .waitLock op k f ∧
    ⟨(s.sessions i).txn.txnId, op.mode, f⟩ ∈ s.locks.queue k ∧
      ∃ j ∈ D, (s.sessions j).txn.txnId ∈ s.locks.holders k := by
  have hi := h i hi
  unfold State.WaitsFor at hi
  split at hi
  case h_1 op k f hpc => exact ⟨op, k, f, hpc, hi⟩
  case h_2 => cases hi

theorem State.deadlocked_core : s.core.Deadlocked D ↔ s.Deadlocked D := by
  refine ⟨fun h i hi => ?_, fun h i hi => ?_⟩
  · obtain ⟨op, k, f, hph, hwait⟩ := h i hi
    rw [State.WaitsFor, Pc.phase_eq_waiting.mp hph]
    exact hwait
  · obtain ⟨op, k, f, hpc, hwait⟩ := h.waits hi
    exact ⟨op, k, f, Pc.phase_eq_waiting.mpr hpc, hwait⟩

/-- A session inside `acquireLock` takes no step but its thread's. -/
theorem session_ne_of_waitLock {op : LockOp} {k : Key} {f : Nat} (hs : step s a = some (s', evs))
    (hpc : (s.sessions i).pc = .waitLock op k f) (ha : a ≠ .thread i) : a.session ≠ some i := by
  cases (step_move hs).2 with
  | connect h => rw [h]; nofun
  | worker fault h => rw [h]; cases fault <;> nofun
  | thread j h =>
    rintro hi
    rw [h] at hi
    exact ha (h.trans (congrArg _ (Option.some.inj hi)))
  | command j cmd h _ hj | disconnect j h _ hj | copyStore j _ _ _ h hj | threadFault j _ _ h hj =>
    rintro hi
    rw [h] at hi
    obtain rfl := Option.some.inj hi
    rw [hj] at hpc
    cases hpc

theorem State.Deadlocked.sessions_eq (h : s.Deadlocked D) (hs : Kvdb.step s a = some (s', evs))
    (ha : ∀ i ∈ D, a ≠ .thread i) (hi : i ∈ D) : s'.sessions i = s.sessions i := by
  obtain ⟨op, k, f, hpc, -⟩ := h.waits hi
  rcases step_sessions_of_ne hs (session_ne_of_waitLock hs hpc (ha i hi)) with h | h
  · exact h
  · rw [h, Session.notified, hpc]

/-- One step of anybody outside the deadlock. -/
theorem State.Deadlocked.step (h : s.Deadlocked D) (hinv : HoldInv s.core.locks s.core.parties)
    (hs : Kvdb.step s a = some (s', evs)) (ha : ∀ i ∈ D, a ≠ .thread i) : s'.Deadlocked D := by
  refine State.deadlocked_core.mp ((step_core hs).deadlocked hinv (fun i hi => ?_) (State.deadlocked_core.mpr h))
  exact congrArg Session.party (h.sessions_eq hs ha hi)

/-- Whoever gives up waiting first gets the error: its flags are as `acquireLock` made them. -/
theorem State.Deadlocked.gives_up (h : s.Deadlocked D) (hwf : s.locks.WF) (hi : i ∈ D)
    (hs : Kvdb.step s (.thread i) = some (s', evs)) : (s'.sessions i).pc = .logAbort .deadlock ∧ evs = [] := by
  obtain ⟨op, k, f, hpc, hq, -⟩ := h.waits hi
  have hmove := threadStep_move (Option.ite_none_right_eq_some.mp hs).2
  rw [hpc] at hmove
  cases hmove with
  | waitGranted _ _ _ locks hfin =>
    have hcell : s.locks.flags[f]? = some {} := hwf.cells k _ hq
    rw [finishWait, List.getD_eq_getElem?_getD, hcell] at hfin
    cases hfin
  | waitFailed _ _ _ locks hfin => exact ⟨by simp [State.setPc, State.setSession], rfl⟩

end Server

/-- The thread of no session of `D` runs. -/
def Asleep (D : Finset SessionId) (a : Action) : Prop := ∀ i ∈ D, a ≠ .thread i

instance (D : Finset SessionId) (a : Action) : Decidable (Asleep D a) := inferInstanceAs (Decidable (∀ i ∈ D, _))

/-- **Run lemma.** -/
theorem State.Deadlocked.run {s s' : State} {as : List Action} {tr : List Event} {D : Finset SessionId}
    (hu : s.Unconnected) (hinv : HoldInv s.core.locks s.core.parties) (hD : s.Deadlocked D)
    (h : Run Kvdb.step (fun s a => NewIds s a ∧ Asleep D a) s as s' tr) :
    s'.Deadlocked D ∧ (∀ i ∈ D, s'.sessions i = s.sessions i) ∧ s'.locks.WF := by
  obtain ⟨-, hinv', hD', hsame⟩ := Run.invariant (fun _ r => r.Unconnected ∧ HoldInv r.core.locks r.core.parties ∧
    r.Deadlocked D ∧ ∀ i ∈ D, r.sessions i = s.sessions i) ⟨hu, hinv, hD, fun _ _ => rfl⟩
    (fun ⟨hu, hinv, hD, hsame⟩ hP hs => ⟨step_unconnected hs hu, (step_core hs).holdInv (hP.1.newId hu) hinv,
      hD.step hinv hs hP.2, fun i hi => (hD.sessions_eq hs hP.2 hi).trans (hsame i hi)⟩) h
  exact ⟨hD', hsame, hinv'.wf⟩

/-- **A deadlock lasts until a timeout.** However long the other sessions and the flush worker go on, connect, commit
and leave, the sessions of a deadlock stay as they are; and the first of them whose thread runs again has timed out and
aborts. -/
theorem deadlock_lasts {st : Store} {s₀ s s' : State} {as as' : List Action} {tr tr' : List Event}
    {D : Finset SessionId} (h0 : Server.Initial st s₀) (h : Run step NewIds s₀ as s tr) (hD : s.Deadlocked D)
    (h' : Run step (fun s a => NewIds s a ∧ Asleep D a) s as' s' tr') :
    s'.Deadlocked D ∧ (∀ i ∈ D, s'.sessions i = s.sessions i) ∧
      ∀ i ∈ D, ∀ s'' evs, step s' (.thread i) = some (s'', evs) →
        (s''.sessions i).pc = .logAbort .deadlock ∧ evs = [] := by
  obtain ⟨hu, hinv⟩ := holdInv_of_newIds h0 h
  obtain ⟨hD', hsame, hwf⟩ := hD.run hu hinv h'
  exact ⟨hD', hsame, fun i hi s'' evs hs => hD'.gives_up hwf hi hs⟩

/-- Two readers of a key that both want to write it: the third session's work changes nothing. -/
theorem deadlock_lasts_two_readers : ∃ s tr s' tr', Run step NewIds (Server.boot {} ∅)
    [.connect, .connect, .connect, .command 0 (.begin .repeatableRead), .thread 0, .command 1 (.begin .repeatableRead),
      .thread 1, .command 0 (.get [97]), .thread 0, .command 1 (.get [97]), .thread 1, .command 0 (.put [97] [49]),
      .command 1 (.put [97] [50])] s tr ∧
    Run step (fun s a => NewIds s a ∧ Asleep {0, 1} a) s
      [.command 2 (.begin .repeatableRead), .thread 2, .command 2 (.put [98] [51]), .command 2 .abort, .thread 2,
        .thread 2, .thread 2] s' tr' ∧ s'.Deadlocked {0, 1} := by
  have hruns := exists_runs_of_exec step NewIds (fun s a => NewIds s a ∧ Asleep {0, 1} a) (Server.boot {} ∅)
    [.connect, .connect, .connect, .command 0 (.begin .repeatableRead), .thread 0, .command 1 (.begin .repeatableRead),
      .thread 1, .command 0 (.get [97]), .thread 0, .command 1 (.get [97]), .thread 1, .command 0 (.put [97] [49]),
      .command 1 (.put [97] [50])]
    [.command 2 (.begin .repeatableRead), .thread 2, .command 2 (.put [98] [51]), .command 2 .abort, .thread 2,
      .thread 2, .thread 2] (fun s _ => decide (s.Deadlocked {0, 1})) (by decide +kernel)
  obtain ⟨s, tr, s', tr', hr, hr', hp⟩ := hruns
  exact ⟨s, tr, s', tr', hr, hr', (deadlock_lasts (.opened {}) hr (of_decide_eq_true hp) hr').1⟩

/-! ## Upgrades -/

/-- A transaction that is queued for a key it holds waits for itself. -/
theorem deadlocked_of_upgrade {s s' : State} {evs : List Event} {i : SessionId} {op : LockOp} {k : Key} {f : Nat}
    (hheld : (s.sessions i).txn.txnId ∈ s.locks.holders k) (hs : step s (.command i (op.command k)) = some (s', evs))
    (hwait : (s'.sessions i).pc = .waitLock op k f) : s'.Deadlocked {i} := by
  obtain ⟨⟨-, hidle⟩, hcmd⟩ := Option.ite_none_right_eq_some.mp (Option.ite_none_right_eq_some.mp hs).2
  have hmove := handleCommand_move s i (op.command k)
  rw [Option.some.inj hcmd] at hmove
  dsimp only at hmove
  cases hmove with
  | queued op' key locks flags _ hact hacq =>
    obtain ⟨rfl, rfl, rfl⟩ : op' = op ∧ key = k ∧ flags = f := by
      simpa [State.setPc, State.setSession] using hwait
    rcases acquireLock_cases s.locks (s.sessions i).txn.txnId key op'.mode with ⟨e', -, hr⟩ | ⟨hr, -⟩ <;>
      rw [hr] at hacq <;> cases hacq
    intro j hj
    obtain rfl := Finset.mem_singleton.mp hj
    rw [State.WaitsFor, hwait]
    refine ⟨?_, j, hj, ?_⟩
    · simp [queue, entry_insert, State.setPc, State.setSession]
    · simpa [holders, entry_insert, State.setPc, State.setSession] using hheld
  | granted op' key => cases op' <;> simp [LockOp.resume] at hwait
  | alreadyInTransaction | notInTransaction => rw [hidle] at hwait; cases hwait
  | _ => simp [State.setPc, State.setTxn, State.setSession] at hwait

/-- **A waiting upgrade fails.** A transaction that holds a key and whose `PUT` or `DELETE` of it has to wait gets the
deadlock error, whatever the other sessions do in the meantime: even when it has become the only holder. -/
theorem waiting_upgrade_fails {st : Store} {s₀ s s₁ s' s'' : State} {as as' : List Action}
    {tr evs tr' evs' : List Event} {i : SessionId} {op : LockOp} {k : Key} {f : Nat} (h0 : Server.Initial st s₀)
    (h : Run step NewIds s₀ as s tr) (hheld : (s.sessions i).txn.txnId ∈ s.locks.holders k)
    (hs : step s (.command i (op.command k)) = some (s₁, evs)) (hwait : (s₁.sessions i).pc = .waitLock op k f)
    (h' : Run step (fun s a => NewIds s a ∧ Asleep {i} a) s₁ as' s' tr')
    (hnext : step s' (.thread i) = some (s'', evs')) : (s''.sessions i).pc = .logAbort .deadlock := by
  have hnew : NewIds s (.command i (op.command k)) := by cases op <;> trivial
  obtain ⟨hu, hinv⟩ := holdInv_of_newIds h0 (h.snoc hnew hs)
  obtain ⟨hD, -, hwf⟩ := (deadlocked_of_upgrade hheld hs hwait).run hu hinv h'
  exact (hD.gives_up hwf (Finset.mem_singleton_self i) hnext).1

/-- The other reader aborts while the upgrade waits. -/
theorem waiting_upgrade_fails_alone : ∃ s tr s₁ evs s' tr' s'' evs', Run step NewIds (Server.boot {} ∅)
    [.connect, .connect, .command 0 (.begin .repeatableRead), .thread 0, .command 1 (.begin .repeatableRead),
      .thread 1, .command 0 (.get [97]), .thread 0, .command 1 (.get [97]), .thread 1] s tr ∧
    step s (.command 0 (.put [97] [49])) = some (s₁, evs) ∧
    Run step (fun s a => NewIds s a ∧ Asleep {0} a) s₁ [.command 1 .abort, .thread 1, .thread 1, .thread 1] s' tr' ∧
    s'.locks.holders [97] = {(s'.sessions 0).txn.txnId} ∧
    step s' (.thread 0) = some (s'', evs') ∧ (s''.sessions 0).pc = .logAbort .deadlock := by
  have hexec : ((exec step NewIds (Server.boot {} ∅)
      [.connect, .connect, .command 0 (.begin .repeatableRead), .thread 0, .command 1 (.begin .repeatableRead),
        .thread 1, .command 0 (.get [97]), .thread 0, .command 1 (.get [97]), .thread 1]).any fun r =>
      (step r.1 (.command 0 (.put [97] [49]))).any fun r₁ =>
      (exec step (fun s a => NewIds s a ∧ Asleep {0} a) r₁.1 [.command 1 .abort, .thread 1, .thread 1, .thread 1]).any
        fun r' => (step r'.1 (.thread 0)).any fun _ => decide (((r.1.sessions 0).txn.txnId ∈ r.1.locks.holders [97] ∧
          (r₁.1.sessions 0).pc = .waitLock (.put [49]) [97] 0) ∧
          r'.1.locks.holders [97] = {(r'.1.sessions 0).txn.txnId})) = true := by decide +kernel
  obtain ⟨⟨s, tr⟩, hs, hexec⟩ := (Option.any_eq_true _ _).mp hexec
  obtain ⟨⟨s₁, evs⟩, hs₁, hexec⟩ := (Option.any_eq_true _ _).mp hexec
  obtain ⟨⟨s', tr'⟩, hs', hexec⟩ := (Option.any_eq_true _ _).mp hexec
  obtain ⟨⟨s'', evs'⟩, hs'', hp⟩ := (Option.any_eq_true _ _).mp hexec
  obtain ⟨⟨hheld, hwait⟩, halone⟩ := of_decide_eq_true hp
  have h := exec_run hs
  have h' := exec_run hs'
  have hput : step s (.command 0 (LockOp.command [97] (.put [49]))) = some (s₁, evs) := hs₁
  exact ⟨s, tr, s₁, evs, s', tr', s'', evs', h, hs₁, h', halone, hs'',
    waiting_upgrade_fails (.opened {}) h hheld hput hwait h' hs''⟩

end Kvdb
