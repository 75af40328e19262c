import Kvdb.Deadlock

/-!
# Workloads without conflicts

Sessions that stay out of each other's way are never made to wait: if every key is either used by one session only or
read only, then every request is granted at once, no session is ever in a queue and no transaction is aborted for a
deadlock (`partitioned_never_waits`). The keys in use are taken from the records of the transactions, which agree with
the lock table (`BookInv`).
-/

namespace Kvdb

open LockManager Machine

/-! ## Requests are granted at once -/

/-- A key that has an owner is used by its owner only; the others are only read. -/
def Label.Parted (owner : Key → Option SessionId) : Label → Prop
  | .request i op key => owner key = some i ∨ owner key = none ∧ op = .get
  | _ => True

instance (owner : Key → Option SessionId) : DecidablePred (Label.Parted owner)
  | .request _ _ _ => inferInstanceAs (Decidable (_ ∨ _ ∧ _))
  | .begin _ | .commit _ | .other => .isTrue trivial

/-- Nobody waits, the keys without an owner are not locked for writing, and nobody has a key of another owner. -/
structure Calm (owner : Key → Option SessionId) (c : Core) : Prop where
  phases : ∀ i op k f, (c.parties i).phase ≠ .waiting op k f
  shared : ∀ k, owner k = none → c.locks.mode k ≠ .exclusive
  recorded : ∀ {i k}, k ∈ (c.parties i).txn.locksHeld → owner k = none ∨ owner k = some i

section Calm

variable {owner : Key → Option SessionId} {c c' : Core} {i : SessionId} {op : LockOp} {key : Key}

theorem Calm.queue_eq_nil (h : Calm owner c) (hold : HoldInv c.locks c.parties) (k : Key) : c.locks.queue k = [] := by
  refine List.eq_nil_iff_forall_not_mem.mpr fun w hw => ?_
  obtain ⟨j, op, hph, -⟩ := hold.waiter hw
  exact h.phases j op k _ hph

/-- Only the owner holds its key. -/
theorem Calm.holder_eq (h : Calm owner c) (hbooks : BookInv (fun _ _ => True) c.locks c.parties)
    (hown : owner key = some i) {u : TxnId} (hu : u ∈ c.locks.holders key) : u = (c.parties i).txn.txnId := by
  obtain ⟨j, hact, hph, rfl⟩ := hbooks.hold.holder hu
  have hheld := ((hbooks.books hact hph).mem_iff (h.phases j)).mp hu
  rcases h.recorded hheld with hnone | hj
  · rw [hown] at hnone
    cases hnone
  · rw [Option.some.inj (hown.symm.trans hj)]

theorem Calm.grants (h : Calm owner c) (hbooks : BookInv (fun _ _ => True) c.locks c.parties)
    (hl : (Label.request i op key).Parted owner) :
    (c.locks.entry key).tryGrant (c.parties i).txn.txnId op.mode ≠ none := by
  have hqueue : (c.locks.entry key).waitQueue = [] := h.queue_eq_nil hbooks.hold key
  by_cases hheld : (c.parties i).txn.txnId ∈ (c.locks.entry key).holders
  · rw [LockEntry.tryGrant, if_pos hheld]
    rcases hl with hown | ⟨-, rfl⟩
    · -- the owner is the only holder, and upgrades in place
      have hsole : (c.locks.entry key).holders.card = 1 :=
        Finset.card_eq_one.mpr ⟨_, Finset.eq_singleton_iff_unique_mem.mpr ⟨hheld, fun u => h.holder_eq hbooks hown⟩⟩
      rw [if_pos hsole, if_pos hqueue]
      split <;> simp
    · rw [if_pos (show _ ∨ LockOp.get.mode = .shared from Or.inr rfl)]
      simp
  · have hcompat : isCompatible (c.locks.entry key).currentMode op.mode = true := by
      have hwf := (hbooks.hold.wf.entries key).consistent
      rcases hl with hown | ⟨hnone, rfl⟩
      · have hempty : (c.locks.entry key).holders = ∅ :=
          Finset.eq_empty_of_forall_notMem fun u hu => hheld (h.holder_eq hbooks hown hu ▸ hu)
        cases hmode : (c.locks.entry key).currentMode with
        | none => rfl
        | shared => rw [hmode] at hwf; exact absurd hempty hwf
        | exclusive =>
          rw [hmode] at hwf
          obtain ⟨u, hu⟩ := hwf
          exact absurd (hu.symm.trans hempty) (Finset.singleton_ne_empty u)
      · have hmode := h.shared key hnone
        rw [LockManager.mode] at hmode
        cases hm : (c.locks.entry key).currentMode with
        | exclusive => exact absurd hm hmode
        | none | shared => rfl
    rw [LockEntry.tryGrant, if_neg hheld, if_pos ⟨hcompat, hqueue⟩]
    simp

/-- Without waiters, a release locks nothing for writing. -/
theorem mode_of_releaseLock {lm : LockManager} {t : TxnId} {k : Key} (hwf : lm.WF) (hqueue : lm.queue key = [])
    (h : (lm.releaseLock t key).mode k = .exclusive) : lm.mode k = .exclusive := by
  rw [LockManager.mode, (releaseLock_eq hwf t key).1, (dropHolder_eq lm t key).2] at h
  split at h
  · obtain rfl : key = k := ‹_›
    unfold dropped at h
    split at h
    · rw [show (lm.entry key).waitQueue = [] from hqueue] at h
      cases h
    · exact h
  · exact h

theorem mode_of_releaseAllLocks {lm : LockManager} {t : TxnId} {k : Key} (hwf : lm.WF) (hqueue : ∀ k, lm.queue k = [])
    (h : (lm.releaseAllLocks t).mode k = .exclusive) : lm.mode k = .exclusive := by
  have hothers := releaseAllLocks_others (t := t) hwf
  have hnot : lm.NotQueued t := fun a w hw => by rw [hqueue a] at hw; cases hw
  have hcons := (hothers.acts.wf.entries k).consistent
  rw [LockManager.mode] at h
  rw [h] at hcons
  obtain ⟨u, hu⟩ := hcons
  have hmem : u ∈ (lm.releaseAllLocks t).holders k := by
    rw [holders, hu]
    exact Finset.mem_singleton_self u
  have hne : u ≠ t := fun he => (releaseAllLocks_free hwf hnot).2 k (he ▸ hmem)
  rcases hothers.spares.grant hne hmem with hold | ⟨w, hw, -⟩
  · exact (hothers.spares.mode hne hold).symm.trans h
  · rw [hqueue k] at hw
    cases hw

/-- A granted request locks its own key only, and for writing only if it is asked to. -/
theorem mode_of_granted {lm lm' : LockManager} {t : TxnId} {k : Key} (hop : k = key → op = .get)
    (hacq : lm.acquireLock t key op.mode = (lm', .granted)) (h : lm'.mode k = .exclusive) : lm.mode k = .exclusive := by
  rcases acquireLock_cases lm t key op.mode with ⟨e', hgrant, hr⟩ | ⟨hr, -⟩
  · rw [hr] at hacq
    cases hacq
    rw [LockManager.mode, entry_insert] at h
    split at h
    · obtain rfl : key = k := ‹_›
      obtain rfl := hop rfl
      rcases tryGrant_cases (LockOp.mode_ne_none _) hgrant with ⟨rfl, -⟩ | ⟨-, hx, -⟩ | ⟨-, hcompat, -, rfl⟩
      · exact h
      · cases hx
      · have hgrant := (LockMode.grant_of_isCompatible hcompat (LockOp.mode_ne_none .get)).1
        cases hgrant.symm.trans h
    · exact h
  · rw [hr] at hacq
    cases hacq

/-- A step of one party. -/
theorem Calm.setParty {c₁ : Core} {p' : Party} (h : Calm owner c) (hps : c₁.parties = c.parties)
    (hmodes : ∀ k, owner k = none → c₁.locks.mode k = .exclusive → c.locks.mode k = .exclusive)
    (hph : ∀ op k f, p'.phase ≠ .waiting op k f)
    (hrec : ∀ k ∈ p'.txn.locksHeld, owner k = none ∨ owner k = some i) : Calm owner (c₁.setParty i p') := by
  have hparty : ∀ j, (c₁.setParty i p').parties j = if j = i then p' else c.parties j := fun j => by
    rw [← hps]
    exact Function.update_apply ..
  refine ⟨fun j => ?_, fun k hk hx => h.shared k hk (hmodes k hk hx), fun {j k} hk => ?_⟩
  · rw [hparty]
    split
    · exact hph
    · exact h.phases j
  · rw [hparty] at hk
    split at hk
    · subst_vars
      exact hrec k hk
    · exact h.recorded hk

/-- **Step lemma.** -/
theorem CoreStep.calm {l : Label} {evs : List Event} (h : CoreStep c l evs c') (hl : l.Parted owner)
    (hbooks : BookInv (fun _ _ => True) c.locks c.parties) (hcalm : Calm owner c) : Calm owner c' := by
  have hsame : ∀ k, owner k = none → c.locks.mode k = .exclusive → c.locks.mode k = .exclusive := fun _ _ => id
  have hwf := hbooks.hold.wf
  have hqueue := hcalm.queue_eq_nil hbooks.hold
  cases h with
  | silent _ => exact hcalm
  | @queued i p op key locks flags hp hph hact hacq =>
    subst hp
    exact absurd (tryGrant_of_waiting hacq) (hcalm.grants hbooks hl)
  | @waitGranted _ i p op key flags locks hp hph | @waitFailed _ i p op key flags locks hp hph =>
    subst hp
    exact absurd hph (hcalm.phases i op key flags)
  | @granted i p op key locks hp hph hact hacq =>
    subst hp
    refine hcalm.setParty rfl (fun k hnone => mode_of_granted (fun hk => ?_) hacq) (Party.locked_phase _ op key).2
      fun k hk => ?_
    · subst hk
      rcases hl with hown | ⟨-, hget⟩
      · cases hnone.symm.trans hown
      · exact hget
    · have hheld : (Party.locked (c.parties i).txn op key).txn.locksHeld = _ :=
        (TransactionInfo.withLock_locksHeld _ op key).1
      rw [hheld] at hk
      rcases Std.ExtTreeMap.mem_insert.mp hk with heq | hk
      · obtain rfl := Std.compare_eq_iff_eq.mp heq
        exact hl.symm.imp_left And.left
      · exact hcalm.recorded hk
  | @release _ i p key hp hph =>
    subst hp
    exact hcalm.setParty rfl (fun k _ => mode_of_releaseLock hwf (hqueue key)) (fun _ _ _ h => by cases h)
      fun k hk => hcalm.recorded (Std.ExtTreeMap.mem_of_mem_erase hk)
  | @applied _ i p _ hp | @abortRelease _ i p hp =>
    subst hp
    exact hcalm.setParty rfl (fun k _ => mode_of_releaseAllLocks hwf hqueue) (fun _ _ _ h => by cases h)
      fun k hk => hcalm.recorded hk
  | @read _ i p key hp =>
    subst hp
    exact hcalm.setParty rfl hsame (fun _ _ _ h => by dsimp only at h; split at h <;> cases h)
      fun k hk => hcalm.recorded hk
  | begin | reset => exact hcalm.setParty rfl hsame (fun _ _ _ h => by cases h) fun k hk => by simp at hk
  | @logBegin _ i p hp | @startCommit i p hp | @logWrite _ i p _ _ hp | @logCommit _ i p hp | @apply _ i p _ _ _ hp
  | @startAbort _ i p hp | @logAbort _ i p hp =>
    subst hp
    exact hcalm.setParty rfl hsame (fun _ _ _ h => by cases h) fun k hk => hcalm.recorded hk

end Calm

/-! ## Aborts for a deadlock -/

/-- Neither waiting for a lock nor on the way out because the wait has timed out. -/
def Pc.calm : Pc → Bool
  | .waitLock _ _ _ | .logAbort .deadlock | .abortRelease .deadlock | .abortReset .deadlock => false
  | _ => true

section Pcs

variable {s s' : State} {i : SessionId} {evs : List Event}

theorem calm_setSession {s₁ : State} {σ : Session} (h : ∀ j, (s.sessions j).pc.calm = true)
    (hs : s₁.sessions = s.sessions) (hσ : σ.pc.calm = true) (j : SessionId) :
    ((s₁.setSession i σ).sessions j).pc.calm = true := by
  rw [State.setSession]
  dsimp only
  rw [Function.update_apply]
  split
  · exact hσ
  · rw [hs]
    exact h j

theorem Session.calm_notified (σ : Session) : σ.notified.pc.calm = σ.pc.calm := by
  unfold Session.notified
  split
  · rename_i lsn hpc
    rw [hpc]
    rfl
  · rfl

theorem CheckpointEffect.calm (h : CheckpointEffect s i s') (hpc : ∀ j, (s.sessions j).pc.calm = true) (j : SessionId) :
    (s'.sessions j).pc.calm = true := by
  cases h with
  | next | done => exact calm_setSession hpc rfl rfl j
  | throw => exact hpc j

theorem CommandMove.calm {cmd : Command} (h : CommandMove s i cmd s' evs) (hpc : ∀ j, (s.sessions j).pc.calm = true)
    (hwait : ∀ op k f, (s'.sessions i).pc ≠ .waitLock op k f) :
    (∀ j, (s'.sessions j).pc.calm = true) ∧ ∀ j, .failed j .deadlock ∉ evs := by
  cases h with
  | alreadyInTransaction | notInTransaction => exact ⟨hpc, fun j hj => by simp at hj⟩
  | granted op key =>
    refine ⟨calm_setSession hpc rfl (by cases op <;> rfl), fun j hj => ?_⟩
    cases op <;> simp [lockedEvents] at hj
  | queued op key locks flags =>
    exact absurd (by simp [State.setPc, State.setSession]) (hwait op key flags)
  | begin | commit | abort | checkpoint | quitActive | quit =>
    exact ⟨calm_setSession hpc rfl rfl, fun j hj => by simp at hj⟩

theorem ThreadMove.calm (h : ThreadMove s i (s.sessions i).pc s' evs) (hpc : ∀ j, (s.sessions j).pc.calm = true) :
    (∀ j, (s'.sessions j).pc.calm = true) ∧ ∀ j, .failed j .deadlock ∉ evs := by
  have hown := hpc i
  generalize (s.sessions i).pc = pc at h hown
  cases h with
  | waitGranted | waitFailed => cases hown
  | checkpoint pc hs => exact ⟨(checkpointStep_effect hs).calm hpc, fun j hj => by cases hj⟩
  | read => exact ⟨calm_setSession hpc rfl (by dsimp only; split <;> rfl), fun j hj => by simp at hj⟩
  | logAbort cause | abortRelease cause =>
    exact ⟨calm_setSession hpc rfl (by cases cause <;> first | rfl | cases hown), fun j hj => by simp at hj⟩
  | abortReset cause =>
    cases cause with
    | deadlock => cases hown
    | command | quit => exact ⟨calm_setSession hpc rfl rfl, fun j hj => by simp at hj⟩
  | _ => exact ⟨calm_setSession hpc rfl rfl, fun j hj => by simp at hj⟩

theorem workerStep_not_failed {fault : Option Nat} (h : workerStep s fault = some (s', evs)) (error : TxnError) :
    .failed i error ∉ evs := by
  dsimp only [workerStep] at h
  split at h
  case h_5 => split at h <;> cases h <;> simp
  all_goals cases h; simp

theorem step_calm {a : Action} (hs : step s a = some (s', evs)) (hpc : ∀ j, (s.sessions j).pc.calm = true)
    (hwait : ∀ j op k f, (s'.sessions j).pc ≠ .waitLock op k f) :
    (∀ j, (s'.sessions j).pc.calm = true) ∧ ∀ j, .failed j .deadlock ∉ evs := by
  cases (step_move hs).2 with
  | connect => exact ⟨hpc, fun j hj => by cases hj⟩
  | command i cmd _ _ _ hmove => exact hmove.calm hpc (hwait i)
  | thread i _ hmove => exact hmove.calm hpc
  | copyStore | disconnect => exact ⟨calm_setSession hpc rfl rfl, fun j hj => by cases hj⟩
  | threadFault i n pc _ _ hf => exact ⟨(checkpointFault_effect hf).calm hpc, fun j hj => by cases hj⟩
  | worker fault _ hw =>
    refine ⟨fun j => ?_, fun j => workerStep_not_failed hw _⟩
    rcases (workerStep_sessions hw).2 j with hsame | hnote
    · rw [hsame]
      exact hpc j
    · rw [hnote, Session.calm_notified]
      exact hpc j

end Pcs

/-! ## Runs -/

/-- **Sessions that stay out of each other's way never wait.** If every key is used by its owner only, or read only,
then in no state does a session wait for a lock, and no call fails for a deadlock. -/
theorem partitioned_never_waits {owner : Key → Option SessionId} {st : Store} {s₀ s : State} {as : List Action}
    {tr : List Event} (h0 : Server.Initial st s₀) (h : Run step (fun _ a => a.label.Parted owner) s₀ as s tr)
    (hn : (begunOf tr).length < 2 ^ 32) :
    (∀ i op key flags, (s.sessions i).pc ≠ .waitLock op key flags) ∧ ∀ i, .failed i .deadlock ∉ tr := by
  have hinv : s.Unconnected ∧ BookInv (fun _ _ => True) s.core.locks s.core.parties ∧ Calm owner s.core ∧
      (∀ i, (s.sessions i).pc.calm = true) ∧ ∀ i, .failed i .deadlock ∉ tr := by
    refine Run.invariant (fun tr s => s.Unconnected ∧ BookInv (fun _ _ => True) s.core.locks s.core.parties ∧
      Calm owner s.core ∧ (∀ i, (s.sessions i).pc.calm = true) ∧ ∀ i, .failed i .deadlock ∉ tr) ?_ ?_
      (newIds_of_length h0 h hn)
    · refine ⟨(lockInv_initial h0).1, bookInv_initial h0, ?_⟩
      have hheld : ∀ {k : Key}, k ∉ (∅ : Std.ExtTreeMap Key LockMode) := Std.ExtTreeMap.not_mem_empty
      cases h0 <;> exact ⟨⟨fun _ _ _ _ hph => (by cases hph), fun _ _ hx => (by cases hx), fun hk => (hheld hk).elim⟩,
        fun _ => rfl, fun _ hj => by cases hj⟩
    · rintro tr s a s' evs ⟨hu, hbooks, hcalm, hpc, hnone⟩ ⟨hparted, hids⟩ hs
      have hcalm' := (step_core hs).calm hparted hbooks hcalm
      obtain ⟨hpc', hnone'⟩ := step_calm hs hpc fun j op k f hw =>
        hcalm'.phases j op k f (Pc.phase_eq_waiting.mpr hw)
      refine ⟨step_unconnected hs hu, (step_core hs).bookInv (fun _ => trivial) (hids.newId hu)
        (Core.records_true ..) hbooks, hcalm', hpc', fun i hi => ?_⟩
      rcases List.mem_append.mp hi with hi | hi
      · exact hnone i hi
      · exact hnone' i hi
  obtain ⟨-, -, hcalm, -, hnone⟩ := hinv
  exact ⟨fun i op key flags hw => hcalm.phases i op key flags (Pc.phase_eq_waiting.mpr hw), hnone⟩

/-- The first session has `a`, the second one `b`, and both read `c`; the second one also reads its own key before and
after it writes it. -/
theorem partitioned_never_waits_two : ∃ s tr, Run step (fun _ a => a.label.Parted fun key =>
      if key = [97] then some 0 else if key = [98] then some 1 else none) (Server.boot {} ∅)
    [.connect, .connect, .command 0 (.begin .repeatableRead), .thread 0, .command 1 (.begin .readCommitted), .thread 1,
      .command 0 (.get [99]), .command 1 (.get [99]), .thread 0, .command 0 (.put [97] [49]), .thread 1, .thread 1,
      .command 1 (.get [98]), .thread 1, .thread 1, .command 1 (.put [98] [50]), .command 1 (.get [98]), .thread 1]
      s tr ∧ (s.locks.holders [97] = {1} ∧ s.locks.holders [98] = {2} ∧ s.locks.holders [99] = {1}) ∧
    (∀ i op key flags, (s.sessions i).pc ≠ .waitLock op key flags) ∧ ∀ i, .failed i .deadlock ∉ tr := by
  have hrun := exists_run_of_exec step (fun _ a => a.label.Parted fun key =>
      if key = [97] then some 0 else if key = [98] then some 1 else none) (Server.boot {} ∅)
    [.connect, .connect, .command 0 (.begin .repeatableRead), .thread 0, .command 1 (.begin .readCommitted), .thread 1,
      .command 0 (.get [99]), .command 1 (.get [99]), .thread 0, .command 0 (.put [97] [49]), .thread 1, .thread 1,
      .command 1 (.get [98]), .thread 1, .thread 1, .command 1 (.put [98] [50]), .command 1 (.get [98]), .thread 1]
    (fun s tr => decide ((begunOf tr).length < 2 ^ 32 ∧ s.locks.holders [97] = {1} ∧ s.locks.holders [98] = {2} ∧
      s.locks.holders [99] = {1})) (by decide +kernel)
  obtain ⟨s, tr, hr, hp⟩ := hrun
  obtain ⟨hn, hholders⟩ := of_decide_eq_true hp
  exact ⟨s, tr, hr, hholders, partitioned_never_waits (.opened {}) hr hn⟩

end Kvdb
