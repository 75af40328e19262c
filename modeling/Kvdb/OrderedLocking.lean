import Kvdb.Deadlock
import Mathlib.Data.Finset.Max

/-!
# Requests in a fixed order

The server does not prevent deadlocks; its clients can. If every transaction asks for its keys in the order of some
rank, and asks a second time only for a key whose lock it already has in the mode it needs, then no set of sessions ever
waits for itself, and whoever waits has a holder before it that does not wait (`ordered_requests_never_deadlock`).

Along a run a waiting session holds only keys of a lower rank than the one it waits for (`Climbs`), so that the edges of
the wait-for graph go up.
-/

namespace Kvdb

open LockManager Machine

section Climbs

variable {α : Type} [LinearOrder α] (rank : Key → α)

/-- The transaction asks for a key above all that it has locked, or for a lock that it has. -/
def Ascending (lm : LockManager) (txn : TransactionInfo) (op : LockOp) (key : Key) : Prop :=
  (∀ k ∈ txn.locksHeld.keys, rank k < rank key) ∨ lm.hasLock txn.txnId key = .exclusive ∨
    op = .get ∧ lm.hasLock txn.txnId key ≠ .none

instance (lm : LockManager) (txn : TransactionInfo) (op : LockOp) (key : Key) :
    Decidable (Ascending rank lm txn op key) := inferInstanceAs (Decidable (_ ∨ _ ∨ _ ∧ _))

/-- Every request is in the order. -/
def Ascends (s : State) : Action → Prop
  | .command i (.put key value) => Ascending rank s.locks (s.sessions i).txn (.put value) key
  | .command i (.delete key) => Ascending rank s.locks (s.sessions i).txn .delete key
  | .command i (.get key) => Ascending rank s.locks (s.sessions i).txn .get key
  | _ => True

instance (s : State) : (a : Action) → Decidable (Ascends rank s a)
  | .command _ (.put _ _) | .command _ (.delete _) | .command _ (.get _) =>
    inferInstanceAs (Decidable (Ascending rank _ _ _ _))
  | .command _ (.begin _) | .command _ .commit | .command _ .abort | .command _ .checkpoint | .command _ .quit
  | .connect | .thread _ | .copyStore .. | .threadFault .. | .worker | .workerFault _ | .disconnect _ => .isTrue trivial

def Core.Ascends (c : Core) : Label → Prop
  | .request i op key => Ascending rank c.locks (c.parties i).txn op key
  | _ => True

theorem Ascends.core {s : State} {a : Action} (h : Ascends rank s a) : s.core.Ascends rank a.label := by
  cases a with
  | command i cmd => cases cmd <;> exact h
  | _ => trivial

/-- A waiting session holds only keys below the one it waits for. -/
def Party.Climbs (p : Party) : Prop :=
  ∀ {op key flags}, p.phase = .waiting op key flags → ∀ k ∈ p.txn.locksHeld, rank k < rank key

variable {rank}

/-- A lock that the transaction has is not waited for. -/
theorem not_waiting_of_hasLock {lm lm' : LockManager} {t : TxnId} {key : Key} {op : LockOp} {flags : Nat}
    (hacq : lm.acquireLock t key op.mode = (lm', .waiting flags))
    (h : lm.hasLock t key = .exclusive ∨ op = .get ∧ lm.hasLock t key ≠ .none) : False := by
  have hnone := tryGrant_of_waiting hacq
  rw [hasLock_eq] at h
  by_cases ht : t ∈ lm.holders key
  · rw [if_pos ht] at h
    have hsuffices : (lm.entry key).currentMode = .exclusive ∨ op.mode = .shared := by
      rcases h with hx | ⟨rfl, -⟩
      · exact Or.inl hx
      · exact Or.inr rfl
    rw [LockEntry.tryGrant, if_pos (show t ∈ (lm.entry key).holders from ht), if_pos hsuffices] at hnone
    cases hnone
  · rw [if_neg ht] at h
    rcases h with h | ⟨-, h⟩
    · cases h
    · exact h rfl

/-- **Step lemma.** -/
theorem CoreStep.climbs {c c' : Core} {l : Label} {evs : List Event} (h : CoreStep c l evs c')
    (hl : c.Ascends rank l) (hc : ∀ i, (c.parties i).Climbs rank) : ∀ i, (c'.parties i).Climbs rank := by
  have hset : ∀ {c₁ : Core} {i : SessionId} {p' : Party}, c₁.parties = c.parties → p'.Climbs rank →
      ∀ j, ((c₁.setParty i p').parties j).Climbs rank :=
    fun hps hp => Core.forall_setParty (Party.Climbs rank) hc hps hp
  cases h with
  | silent _ => exact hc
  | @queued i p op key locks flags hp hph hact hacq =>
    subst hp
    refine hset rfl ?_
    rintro op' key' flags' hw k hk
    cases hw
    rcases hl with hup | hhas
    · exact hup k (Std.ExtTreeMap.mem_keys.mpr hk)
    · exact (not_waiting_of_hasLock hacq hhas).elim
  | @granted _ _ op | @waitGranted _ _ _ op => exact hset rfl fun hw => ((Party.locked_phase _ _ _).2 _ _ _ hw).elim
  | read => exact hset rfl fun hw => by dsimp only at hw; split at hw <;> cases hw
  | begin | logBegin | waitFailed | release | startCommit | logWrite | logCommit | apply | applied | startAbort
  | logAbort | abortRelease | reset => exact hset rfl fun hw => by cases hw

end Climbs

/-! ## No deadlock -/

/-- The session is inside `acquireLock` and in the queue. -/
def State.Queued (s : State) (i : SessionId) : Prop :=
  match (s.sessions i).pc with
  | .waitLock op key flags => ⟨(s.sessions i).txn.txnId, op.mode, flags⟩ ∈ s.locks.queue key
  | _ => False

instance (s : State) (i : SessionId) : Decidable (s.Queued i) := by
  dsimp only [State.Queued]
  generalize (s.sessions i).pc = pc
  rcases pc with _ | _ <;> infer_instance

section Deadlock

variable {α : Type} [LinearOrder α] {rank : Key → α} {s : State} {D : Finset SessionId}

theorem State.Queued.waits {i : SessionId} (h : s.Queued i) : ∃ op k f, (s.sessions i).pc = .waitLock op k f ∧
    ⟨(s.sessions i).txn.txnId, op.mode, f⟩ ∈ s.locks.queue k := by
  unfold State.Queued at h
  split at h
  case h_1 op k f hpc => exact ⟨op, k, f, hpc, h⟩
  case h_2 => cases h

/-- In a deadlock the key that is waited for goes up from a session to the one it waits for. -/
theorem not_deadlocked (hbooks : BookInv (fun _ _ => True) s.core.locks s.core.parties)
    (hclimbs : ∀ i, (s.core.parties i).Climbs rank) (hne : D.Nonempty) : ¬ s.Deadlocked D := by
  intro hD
  have hwaits : ∀ i, ∃ key, i ∈ D → ∃ op f, (s.sessions i).pc = .waitLock op key f ∧
      ⟨(s.sessions i).txn.txnId, op.mode, f⟩ ∈ s.locks.queue key ∧
      ∃ j ∈ D, (s.sessions j).txn.txnId ∈ s.locks.holders key := by
    intro i
    by_cases hi : i ∈ D
    · obtain ⟨op, k, f, h⟩ := hD.waits hi
      exact ⟨k, fun _ => ⟨op, f, h⟩⟩
    · exact ⟨[], fun h => absurd h hi⟩
  choose key hkey using hwaits
  obtain ⟨i, hi, hmax⟩ := D.exists_max_image (fun i => rank (key i)) hne
  obtain ⟨-, -, -, -, j, hj, hheld⟩ := hkey i hi
  obtain ⟨op, f, hpc, hq, -⟩ := hkey j hj
  have hphase : (s.core.parties j).phase = .waiting op (key j) f := Pc.phase_eq_waiting.mpr hpc
  have hact : (s.core.parties j).active := hbooks.hold.active j (by rw [hphase]; simp)
  refine absurd (hmax j hj) (not_le.mpr ?_)
  rcases (hbooks.books hact (by rw [hphase]; simp)).listed hheld with hlisted | ⟨op', f', hph, hgranted⟩
  · exact hclimbs j hphase _ hlisted
  · -- a session in the queue has not been granted its lock
    obtain ⟨-, -, rfl⟩ : op = op' ∧ key j = key i ∧ f = f' := by simpa using hphase.symm.trans hph
    have hcell : s.core.locks.flags[f]? = some {} := hbooks.hold.wf.cells _ _ hq
    rw [hcell] at hgranted
    cases hgranted

/-- Whoever is in a queue has a holder before it. -/
theorem State.Queued.holder {i : SessionId} (h : s.Queued i) (hold : HoldInv s.core.locks s.core.parties) :
    ∃ op k f j, (s.sessions i).pc = .waitLock op k f ∧ (s.sessions j).txn.state = .active ∧
      (s.sessions j).txn.txnId ∈ s.locks.holders k := by
  obtain ⟨op, k, f, hpc, hq⟩ := h.waits
  obtain ⟨u, hu⟩ : (s.locks.holders k).Nonempty := by
    refine Finset.nonempty_iff_ne_empty.mpr fun he => ?_
    have hnil : s.locks.queue k = [] := (hold.wf.entries k).queued he
    rw [hnil] at hq
    cases hq
  obtain ⟨j, hact, -, rfl⟩ := hold.holder hu
  exact ⟨op, k, f, j, hpc, hact, hu⟩

/-- If every holder that is waited for waits, the sessions in the queues are a deadlock. -/
theorem exists_running_holder (hold : HoldInv s.core.locks s.core.parties) (hu : s.Unconnected)
    (hnot : ∀ D : Finset SessionId, D.Nonempty → ¬ s.Deadlocked D) {i : SessionId} (hi : s.Queued i) :
    ∃ i j op k f, s.Queued i ∧ (s.sessions i).pc = .waitLock op k f ∧ (s.sessions j).txn.state = .active ∧
      (s.sessions j).txn.txnId ∈ s.locks.holders k ∧ ¬ s.Queued j := by
  by_contra hall
  have hlt : ∀ {j}, s.Queued j → j < s.sessionCount := by
    intro j hj
    refine Nat.lt_of_not_le fun hle => ?_
    obtain ⟨op, k, f, hpc, -⟩ := hj.waits
    rw [hu j hle] at hpc
    cases hpc
  let D := (Finset.range s.sessionCount).filter s.Queued
  have hmem : ∀ {j}, s.Queued j → j ∈ D := fun hj => Finset.mem_filter.mpr ⟨Finset.mem_range.mpr (hlt hj), hj⟩
  refine hnot D ⟨i, hmem hi⟩ fun i' hi' => ?_
  have hq := (Finset.mem_filter.mp hi').2
  obtain ⟨op, k, f, j, hpc, hact, hheld⟩ := hq.holder hold
  have hj : s.Queued j := not_not.mp fun hj => hall ⟨i', j, op, k, f, hq, hpc, hact, hheld, hj⟩
  rw [State.Queued, hpc] at hq
  rw [State.WaitsFor, hpc]
  exact ⟨hq, j, hmem hj, hheld⟩

end Deadlock

/-- **Requests in a fixed order never deadlock.** If every transaction locks its keys in the order of a rank, no
sessions wait for each other, whatever their number and interleaving; and as long as somebody is in a queue, somebody in
a queue waits for a lock whose holder is not in a queue itself. -/
theorem ordered_requests_never_deadlock {α : Type} [LinearOrder α] {rank : Key → α} {st : Store} {s₀ s : State}
    {as : List Action} {tr : List Event} (h0 : Server.Initial st s₀)
    (h : Run step (fun s a => NewIds s a ∧ Ascends rank s a) s₀ as s tr) :
    (∀ D : Finset SessionId, D.Nonempty → ¬ s.Deadlocked D) ∧ ((∃ i, s.Queued i) →
      ∃ i j op k f, s.Queued i ∧ (s.sessions i).pc = .waitLock op k f ∧ (s.sessions j).txn.state = .active ∧
        (s.sessions j).txn.txnId ∈ s.locks.holders k ∧ ¬ s.Queued j) := by
  have hbooks : BookInv (fun _ _ => True) s.core.locks s.core.parties :=
    bookInv_of_run (fun _ => trivial) h0 (fun _ _ hP => hP.1) (fun _ _ _ _ => Core.records_true ..) h
  have hclimbs : ∀ i, (s.core.parties i).Climbs rank := by
    refine Run.invariant (fun _ s => ∀ i, (s.core.parties i).Climbs rank) ?_
      (fun hc hP hs => (step_core hs).climbs (hP.2.core) hc) h
    cases h0 <;> exact fun i => fun hw => by cases hw
  have hnot : ∀ D : Finset SessionId, D.Nonempty → ¬ s.Deadlocked D := fun D hne => not_deadlocked hbooks hclimbs hne
  exact ⟨hnot, fun ⟨i, hi⟩ => exists_running_holder hbooks.hold (unconnected_of_run h0 h) hnot hi⟩

/-- Two sessions lock `a` before `b`; the second one waits for the first one, which goes on. -/
theorem ordered_requests_never_deadlock_wait : ∃ s tr, Run step (fun s a => NewIds s a ∧
      Ascends (fun key => (key.headD 0).toNat) s a) (Server.boot {} ∅)
    [.connect, .connect, .command 0 (.begin .repeatableRead), .thread 0, .command 1 (.begin .repeatableRead), .thread 1,
      .command 0 (.put [97] [49]), .command 1 (.put [97] [50]), .command 0 (.get [97]), .thread 0,
      .command 0 (.put [98] [49])] s tr ∧ s.Queued 1 ∧ ¬ s.Deadlocked {0, 1} ∧
    ∃ i j op k f, s.Queued i ∧ (s.sessions i).pc = .waitLock op k f ∧ (s.sessions j).txn.state = .active ∧
      (s.sessions j).txn.txnId ∈ s.locks.holders k ∧ ¬ s.Queued j := by
  have hrun := exists_run_of_exec step (fun s a => NewIds s a ∧ Ascends (fun key => (key.headD 0).toNat) s a)
    (Server.boot {} ∅)
    [.connect, .connect, .command 0 (.begin .repeatableRead), .thread 0, .command 1 (.begin .repeatableRead), .thread 1,
      .command 0 (.put [97] [49]), .command 1 (.put [97] [50]), .command 0 (.get [97]), .thread 0,
      .command 0 (.put [98] [49])] (fun s _ => decide (s.Queued 1)) (by decide +kernel)
  obtain ⟨s, tr, hr, hp⟩ := hrun
  have hqueued := of_decide_eq_true hp
  obtain ⟨hnot, hgoes⟩ := ordered_requests_never_deadlock (.opened {}) hr
  exact ⟨s, tr, hr, hqueued, hnot {0, 1} ⟨0, by simp⟩, hgoes ⟨1, hqueued⟩⟩

end Kvdb
