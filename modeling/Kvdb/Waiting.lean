import Kvdb.Pipeline
import Kvdb.Serial

/-!
# From the `COMMIT` record to the answer

Between its `COMMIT` record and its answer a session first waits for the flush (`Pc.awaits`) and then applies its buffer
(`Pc.waited`). It gets from the one to the other only by a successful check of `flushed_lsn_` (`step_commitPc`). If it
never finds `flushed_lsn_` ahead of the file (`FlushedWait`), every transaction that has gone on, or has been answered,
has its `COMMIT` record in the file (`WaitInv`).

The predicate of the wait reads what another mutex guards, and `notify_all` is called without `mtx_`. A call between the
check of a waiter and its block is lost (`wakeup_lost`), and only such a call (`no_lost_wakeup`).
-/

namespace Kvdb

/-- The LSN a session waits for. -/
def Pc.awaits : Pc → Option Nat
  | .enterWait lsn | .checkFlushed lsn | .aboutToBlock lsn | .blocked lsn => some lsn
  | _ => none

/-- The LSN a session has waited for, until `commit` returns. -/
def Pc.waited : Pc → Option Nat
  | .applying lsn _ | .commitReset lsn => some lsn
  | _ => none

/-- How a session gets on in `commit`: it waits from the `COMMIT` record on until it is told to have waited. -/
structure CommitPc (a : Action) (i : SessionId) (evs : List Event) (σ σ' : Session) : Prop where
  awaits : ∀ {lsn}, σ.pc.awaits = some lsn → σ'.pc.awaits = some lsn ∨ .waited i lsn ∈ evs
  awaited : ∀ {lsn}, σ'.pc.awaits = some lsn → σ.pc.awaits = some lsn ∧ σ'.txn.txnId = σ.txn.txnId ∨
    ∃ writes, .committed i lsn σ'.txn.txnId writes ∈ evs
  waited : ∀ {lsn}, σ'.pc.waited = some lsn → σ'.txn.txnId = σ.txn.txnId ∧
    (σ.pc.waited = some lsn ∨ σ.pc.awaits = some lsn ∧ .waited i lsn ∈ evs)
  inCommit : σ'.pc.inCommit = true → σ.pc.inCommit = true ∨ a = .command i .commit ∧ σ.txn.state = .active

theorem Pc.awaits_inCommit {pc : Pc} {lsn : Nat} (h : pc.awaits = some lsn) : pc.inCommit = true := by
  cases pc <;> first | rfl | cases h

section

variable {s s' : State} {a : Action} {i : SessionId} {evs : List Event}

theorem CommitPc.same (σ : Session) : CommitPc a i evs σ σ :=
  ⟨Or.inl, fun h => Or.inl ⟨h, rfl⟩, fun h => ⟨rfl, Or.inl h⟩, Or.inl⟩

theorem CommitPc.outside {σ σ' : Session} (h : σ.pc.awaits = none) (h' : σ'.pc.inCommit = false) :
    CommitPc a i evs σ σ' where
  awaits hl := by rw [h] at hl; cases hl
  awaited hl := by rw [Pc.awaits_inCommit hl] at h'; cases h'
  waited hl := by
    obtain ⟨txn, pc⟩ := σ'
    cases pc <;> cases hl <;> cases h'
  inCommit hc := by rw [h'] at hc; cases hc

/-- A step that leads to the records of the pending buffer. -/
theorem CommitPc.logging {σ σ' : Session} {writes : List Write} (h : σ.pc.awaits = none)
    (h' : σ'.pc = .logWrites writes) (hin : σ.pc.inCommit = true ∨ a = .command i .commit ∧ σ.txn.state = .active) :
    CommitPc a i evs σ σ' where
  awaits hl := by rw [h] at hl; cases hl
  awaited hl := by rw [h'] at hl; cases hl
  waited hl := by rw [h'] at hl; cases hl
  inCommit _ := hin

/-- A step from one point of the wait to another. -/
theorem CommitPc.waiting {σ σ' : Session} {lsn : Nat} (h : σ.pc.awaits = some lsn) (h' : σ'.pc.awaits = some lsn)
    (ht : σ'.txn.txnId = σ.txn.txnId) : CommitPc a i evs σ σ' where
  awaits hl := by rw [h] at hl; rw [h']; exact Or.inl hl
  awaited hl := by rw [h'] at hl; rw [h]; exact Or.inl ⟨hl, ht⟩
  waited hl := by
    obtain ⟨txn, pc⟩ := σ'
    cases pc <;> cases hl <;> cases h'
  inCommit _ := Or.inl (Pc.awaits_inCommit h)

/-- A step after the wait. -/
theorem CommitPc.applying {σ σ' : Session} {lsn : Nat} {writes : List Write} (h : σ.pc = .applying lsn writes)
    (h' : σ'.pc.waited = some lsn) (haw : σ'.pc.awaits = none) (ht : σ'.txn.txnId = σ.txn.txnId) :
    CommitPc a i evs σ σ' where
  awaits hl := by rw [h] at hl; cases hl
  awaited hl := by rw [haw] at hl; cases hl
  waited hl := by
    rw [h'] at hl
    cases hl
    exact ⟨ht, Or.inl (by rw [h]; rfl)⟩
  inCommit _ := Or.inl (by rw [h]; rfl)

theorem LockOp.resume_inCommit (op : LockOp) (key : Key) : (op.resume key).inCommit = false := by cases op <;> rfl

theorem CommandMove.commitPc {cmd : Command} (hpc : (s.sessions i).pc = .idle) (h : CommandMove s i cmd s' evs) :
    CommitPc (.command i cmd) i evs (s.sessions i) (s'.sessions i) := by
  have hnone : (s.sessions i).pc.awaits = none := by rw [hpc]; rfl
  cases h with
  | alreadyInTransaction | notInTransaction => exact .same _
  | commit hcmd hactive => exact .logging hnone (pc_setPc ..) (Or.inr ⟨by rw [hcmd], hactive⟩)
  | granted op key =>
    refine .outside hnone ?_
    rw [sessions_setTxn]
    exact op.resume_inCommit key
  | _ => exact .outside hnone (by simp [Pc.inCommit])

theorem CheckpointEffect.commitPc {pc : CheckpointPc} (hpc : (s.sessions i).pc = .checkpoint pc)
    (h : CheckpointEffect s i s') : CommitPc a i evs (s.sessions i) (s'.sessions i) := by
  refine .outside (by rw [hpc]; rfl) ?_
  cases h <;> simp [hpc, Pc.inCommit]

theorem ThreadMove.commitPc (h : ThreadMove s i (s.sessions i).pc s' evs) :
    CommitPc (.thread i) i evs (s.sessions i) (s'.sessions i) := by
  generalize hpc : (s.sessions i).pc = pc at h
  cases h with
  | waitGranted op key =>
    refine .outside (by rw [hpc]; rfl) ?_
    rw [sessions_setTxn]
    exact op.resume_inCommit key
  | read key =>
    refine .outside (by rw [hpc]; rfl) ?_
    rw [pc_setPc]
    split <;> rfl
  | logWrite w ws => exact .logging (by rw [hpc]; rfl) (pc_setPc ..) (Or.inl (by rw [hpc]; rfl))
  | logCommit =>
    refine ⟨fun h => ?_, fun h => ?_, fun h => ?_, fun _ => Or.inl (by rw [hpc]; rfl)⟩
    · rw [hpc] at h; cases h
    · rw [pc_setPc] at h
      cases h
      rw [txn_setPc]
      exact Or.inr ⟨_, List.mem_cons_of_mem _ List.mem_cons_self⟩
    · rw [pc_setPc] at h; cases h
  | enterWait lsn | notFlushed lsn | block lsn | wakeUp lsn =>
    exact .waiting (by rw [hpc]; rfl) (by rw [pc_setPc]; rfl) (by rw [txn_setPc])
  | flushed lsn =>
    have haw : (s.sessions i).pc.awaits = some lsn := by rw [hpc]; rfl
    refine ⟨fun h => ?_, fun h => ?_, fun h => ⟨by rw [txn_setPc], ?_⟩, fun _ => Or.inl (Pc.awaits_inCommit haw)⟩
    · rw [haw] at h; cases h; exact Or.inr List.mem_cons_self
    · rw [pc_setPc] at h; cases h
    · rw [pc_setPc] at h; cases h; exact Or.inr ⟨haw, List.mem_cons_self⟩
  | apply lsn w ws => exact .applying hpc (by rw [pc_setPc]; rfl) (by rw [pc_setPc]; rfl) (by rw [txn_setPc])
  | applied lsn =>
    exact .applying hpc (by rw [sessions_setTxn]; rfl) (by rw [sessions_setTxn]; rfl) (by rw [sessions_setTxn])
  | abortReset cause =>
    refine .outside (by rw [hpc]; rfl) ?_
    rw [sessions_setTxn]
    split <;> rfl
  | checkpoint cp hc => exact (checkpointStep_effect hc).commitPc hpc
  | _ => exact .outside (by rw [hpc]; rfl) (by simp [Pc.inCommit])

theorem Session.notified_pc (σ : Session) : CommitPc a i evs σ σ.notified := by
  unfold Session.notified
  split
  · rename_i lsn hpc
    exact .waiting (by rw [hpc]; rfl) rfl rfl
  · exact .same _

/-- **Every session gets on in `commit` as it should**, whosever step it is. -/
theorem step_commitPc (hs : step s a = some (s', evs)) (j : SessionId) :
    CommitPc a j evs (s.sessions j) (s'.sessions j) := by
  by_cases hj : a.session = some j
  · cases (step_move hs).2 with
    | connect ha => rw [ha] at hj; cases hj
    | worker fault ha _ => rw [ha] at hj; cases fault <;> cases hj
    | command i cmd ha _ hpc hmove => subst ha; cases hj; exact hmove.commitPc hpc
    | thread i ha hmove => subst ha; cases hj; exact hmove.commitPc
    | copyStore i entries lsn file ha hpc _ => subst ha; cases hj; exact (CheckpointEffect.next s.disk _).commitPc hpc
    | threadFault i n pc ha hpc hc => subst ha; cases hj; exact (checkpointFault_effect hc).commitPc hpc
    | disconnect i ha _ hpc => subst ha; cases hj; exact .outside (by rw [hpc]; rfl) (by rw [pc_setPc]; rfl)
  · rcases step_sessions_of_ne hs hj with h | h <;> rw [h]
    · exact .same _
    · exact Session.notified_pc _

end

/-! ## Commits that are in the file -/

/-- A waiter whose check succeeds finds no record up to its LSN that the worker has fetched and not yet put into the
file. -/
def FlushedWait (s : State) (a : Action) : Prop := ChecksBefore s.worker.inFlight s a

instance (s : State) (a : Action) : Decidable (FlushedWait s a) := inferInstanceAs (Decidable (ChecksBefore _ _ _))

/-- A transaction that has logged its `COMMIT` record waits until this is in the file, the first `f` records being
there. -/
structure WaitInv (tr : List Event) (f : Nat) (s : State) : Prop where
  commits : ∀ c ∈ commitsOf tr, (∃ i, .waited i c.lsn ∈ tr) ∨ ∃ i, (s.sessions i).pc.awaits = some c.lsn
  waited : ∀ {i lsn}, .waited i lsn ∈ tr → lsn ≤ f ∧ lsn ≤ s.wal.flushedLsn
  awaiting : ∀ {i lsn}, (s.sessions i).pc.awaits = some lsn →
    ∃ c ∈ commitsOf tr, c.lsn = lsn ∧ c.txnId = (s.sessions i).txn.txnId
  onward : ∀ {i lsn}, (s.sessions i).pc.waited = some lsn →
    .waited i lsn ∈ tr ∧ ∃ c ∈ commitsOf tr, c.lsn = lsn ∧ c.txnId = (s.sessions i).txn.txnId
  acked : ∀ {i lsn t}, .acked i lsn t ∈ tr →
    .waited i lsn ∈ tr ∧ ∃ c ∈ commitsOf tr, c.lsn = lsn ∧ c.txnId = t

theorem waitInv_initial {st : Store} {s₀ : State} (h : Server.Initial st s₀) : WaitInv [] 0 s₀ where
  commits _ hc := by cases hc
  waited hmem := by cases hmem
  awaiting hpc := by cases h <;> cases hpc
  onward hpc := by cases h <;> cases hpc
  acked hmem := by cases hmem

theorem mem_commitsOf {tr : List Event} {c : Commit} :
    c ∈ commitsOf tr ↔ ∃ i, .committed i c.lsn c.txnId c.writes ∈ tr := by
  simp only [commitsOf, List.mem_filterMap]
  constructor
  · rintro ⟨e, he, hc⟩
    cases e with
    | committed i lsn t writes => cases hc; exact ⟨i, he⟩
    | _ => cases hc
  · rintro ⟨i, he⟩
    exact ⟨_, he, rfl⟩

theorem exists_commit_append {tr evs : List Event} {lsn : Nat} {t : TxnId}
    (h : ∃ c ∈ commitsOf tr, c.lsn = lsn ∧ c.txnId = t) : ∃ c ∈ commitsOf (tr ++ evs), c.lsn = lsn ∧ c.txnId = t := by
  obtain ⟨c, hc, he⟩ := h
  exact ⟨c, by rw [commitsOf_append]; exact List.mem_append_left _ hc, he⟩

theorem WaitInv.step {tr evs : List Event} {f f' : Nat} {s s' : State} {a : Action} (h : WaitInv tr f s)
    (hf : ∀ {lsn}, lsn ≤ s.wal.flushedLsn → (∀ record ∈ s.worker.inFlight, lsn < memcpyLSN record) → lsn ≤ f)
    (hle : f ≤ f') (hw : FlushedWait s a) (hs : Kvdb.step s a = some (s', evs)) : WaitInv (tr ++ evs) f' s' where
  commits c hc := by
    rw [commitsOf_append] at hc
    rcases List.mem_append.mp hc with hc | hc
    · rcases h.commits c hc with ⟨i, hi⟩ | ⟨i, hi⟩
      · exact Or.inl ⟨i, List.mem_append_left _ hi⟩
      · rcases (step_commitPc hs i).awaits hi with hi' | hi'
        · exact Or.inr ⟨i, hi'⟩
        · exact Or.inl ⟨i, List.mem_append_right _ hi'⟩
    · obtain ⟨j, hmem⟩ := mem_commitsOf.mp hc
      obtain ⟨i, -, he⟩ := step_ofCommit hs hmem rfl
      cases he with
      | committed hpc => exact Or.inr ⟨j, by rw [hpc]; rfl⟩
  waited {i lsn} hmem := by
    have hmono := step_flushedLsn hs
    rcases List.mem_append.mp hmem with hmem | hmem
    · exact ⟨Nat.le_trans (h.waited hmem).1 hle, Nat.le_trans (h.waited hmem).2 hmono⟩
    · obtain ⟨j, rfl, he⟩ := step_ofCommit hs hmem rfl
      cases he with
      | waited hpc hl =>
        have hcheck : lsn ≤ s.wal.flushedLsn → ∀ record ∈ s.worker.inFlight, lsn < memcpyLSN record := by
          simpa only [FlushedWait, ChecksBefore, hpc] using hw
        exact ⟨Nat.le_trans (hf hl (hcheck hl)) hle, Nat.le_trans hl hmono⟩
  awaiting {i lsn} hpc := by
    rcases (step_commitPc hs i).awaited hpc with ⟨hpc, ht⟩ | ⟨writes, hmem⟩
    · rw [ht]
      exact exists_commit_append (h.awaiting hpc)
    · exact ⟨⟨lsn, _, writes⟩, mem_commitsOf.mpr ⟨i, List.mem_append_right _ hmem⟩, rfl, rfl⟩
  onward {i lsn} hpc := by
    obtain ⟨ht, hpc | ⟨hpc, hmem⟩⟩ := (step_commitPc hs i).waited hpc <;> rw [ht]
    · exact ⟨List.mem_append_left _ (h.onward hpc).1, exists_commit_append (h.onward hpc).2⟩
    · exact ⟨List.mem_append_right _ hmem, exists_commit_append (h.awaiting hpc)⟩
  acked {i lsn t} hmem := by
    have hbefore : .waited i lsn ∈ tr ∧ ∃ c ∈ commitsOf tr, c.lsn = lsn ∧ c.txnId = t := by
      rcases List.mem_append.mp hmem with hmem | hmem
      · exact h.acked hmem
      · obtain ⟨j, -, he⟩ := step_ofCommit hs hmem rfl
        cases he with
        | acked hpc => exact h.onward (by rw [hpc]; rfl)
    exact ⟨List.mem_append_left _ hbefore.1, exists_commit_append hbefore.2⟩

/-! ## Wake-ups -/

/-- The LSN of a waiter between its failed check and its block. -/
def Pc.goingToBlock : Pc → Option Nat
  | .aboutToBlock lsn => some lsn
  | _ => none

/-- The LSN of a waiter whose check has failed and that has not been woken up. -/
def Pc.blocking : Pc → Option Nat
  | .aboutToBlock lsn | .blocked lsn => some lsn
  | _ => none

/-- `notify_all` is not called between the check and the block of a waiter whose record it announces. -/
def NotifiesAll (s : State) : Action → Prop
  | .worker | .workerFault _ => s.worker = .notifying →
      ∀ i < s.sessionCount, ∀ lsn ∈ (s.sessions i).pc.goingToBlock, s.wal.flushedLsn < lsn
  | _ => True

instance (s : State) : (a : Action) → Decidable (NotifiesAll s a)
  | .worker | .workerFault _ => by dsimp only [NotifiesAll]; infer_instance
  | .connect | .command .. | .thread _ | .copyStore .. | .threadFault .. | .disconnect _ => .isTrue trivial

theorem Pc.awaits_of_blocking {pc : Pc} {lsn : Nat} (h : pc.blocking = some lsn) : pc.awaits = some lsn := by
  cases pc <;> first | exact h | cases h

/-- Nobody is left blocking by a wake-up but those who have not yet blocked. -/
theorem Session.notified_blocking {σ : Session} {lsn : Nat} (h : σ.notified.pc.blocking = some lsn) :
    σ.pc = .aboutToBlock lsn := by
  obtain ⟨txn, pc⟩ := σ
  cases pc <;> cases h
  rfl

section

variable {s s' : State} {a : Action} {i : SessionId} {evs : List Event}

/-- A session begins to block only when its check has failed. -/
theorem step_blocking (hs : step s a = some (s', evs)) {lsn : Nat} (h : (s'.sessions i).pc.blocking = some lsn) :
    (s.sessions i).pc.blocking = some lsn ∨ a = .thread i ∧ s.wal.flushedLsn < lsn := by
  by_cases hi : a.session = some i
  · rcases (step_commitPc hs i).awaited (Pc.awaits_of_blocking h) with ⟨haw, -⟩ | ⟨writes, hmem⟩
    · -- a session that waits only takes steps of its thread
      cases (step_move hs).2 with
      | connect ha => rw [ha] at hi; cases hi
      | worker fault ha _ => rw [ha] at hi; cases fault <;> cases hi
      | command j _ ha _ hpc | copyStore j _ _ _ ha hpc | threadFault j _ _ ha hpc | disconnect j ha _ hpc =>
        subst ha
        cases hi
        rw [hpc] at haw
        cases haw
      | thread j ha hmove =>
        subst ha
        cases hi
        generalize hpc : (s.sessions i).pc = pc at hmove haw ⊢
        cases hmove with
        | enterWait | flushed | wakeUp => rw [pc_setPc] at h; cases h
        | notFlushed lsn' hlt => cases haw; exact Or.inr ⟨rfl, hlt⟩
        | block lsn' => cases haw; exact Or.inl rfl
        | _ => cases haw
    · obtain ⟨j, -, he⟩ := step_ofCommit hs hmem rfl
      cases he with
      | committed hpc => rw [hpc] at h; cases h
  · rcases step_sessions_of_ne hs hi with he | he <;> rw [he] at h
    · exact Or.inl h
    · rw [Session.notified_blocking h]
      exact Or.inl rfl

/-- The worker falls asleep only after `notify_all`, or when it finds nothing to flush. -/
theorem workerStep_sleeping {fault : Option Nat} (h : workerStep s fault = some (s', evs))
    (hw : s'.worker = .sleeping) : s'.wal.flushedLsn = s.wal.flushedLsn ∧
      (s.worker = .sleeping ∧ s'.sessions = s.sessions ∨
        s.worker = .notifying ∧ s'.sessions = fun i => (s.sessions i).notified) := by
  dsimp only [workerStep] at h
  split at h
  case h_1 hsleep => cases h; exact ⟨rfl, Or.inl ⟨hsleep, rfl⟩⟩
  case h_5 hup =>
    split at h <;> cases h
    · cases hw
    · rw [hup] at hw; cases hw
  case h_6 hnot => cases h; exact ⟨rfl, Or.inr ⟨hnot, rfl⟩⟩
  all_goals cases h; cases hw

end

open Machine

/-- While a waiter blocks although its record has been announced, the worker is in a flush. -/
def WakeInv (s : State) : Prop :=
  ∀ i lsn, (s.sessions i).pc.blocking = some lsn → lsn ≤ s.wal.flushedLsn → s.worker ≠ .sleeping

theorem WakeInv.step {s s' : State} {a : Action} {evs : List Event} (h : WakeInv s) (hu : s.Unconnected)
    (hP : NotifiesAll s a) (hs : Kvdb.step s a = some (s', evs)) : WakeInv s' := by
  intro i lsn hb hle hsleep
  rcases step_logOnly hs with ⟨fault, rfl, hw⟩ | hlog
  · obtain ⟨hlsn, ⟨hold, hsess⟩ | ⟨hold, hsess⟩⟩ := workerStep_sleeping hw hsleep <;> rw [hlsn] at hle <;>
      rw [hsess] at hb
    · exact h i lsn hb hle hold
    · -- whoever is still blocking after `notify_all` had not blocked yet
      have hpc := Session.notified_blocking hb
      have hi : i < s.sessionCount := by
        by_contra hge
        rw [hu i (Nat.le_of_not_lt hge)] at hpc
        cases hpc
      have hall : ∀ i < s.sessionCount, ∀ lsn ∈ (s.sessions i).pc.goingToBlock, s.wal.flushedLsn < lsn := by
        cases fault <;> exact hP hold
      exact absurd hle (Nat.not_le_of_lt (hall i hi lsn (by rw [hpc]; rfl)))
  · rw [hlog.worker] at hsleep
    rw [hlog.flushedLsn] at hle
    rcases step_blocking hs hb with hb | ⟨-, hlt⟩
    · exact h i lsn hb hle hsleep
    · exact absurd hle (Nat.not_le_of_lt hlt)

/-- **No wake-up is lost** as long as `notify_all` does not come between a waiter's check and its block: while a session
is blocked although `flushed_lsn_` has reached its LSN, the worker is in a flush and `notify_all` is still to come. -/
theorem no_lost_wakeup {st : Store} {s₀ s : State} {as : List Action} {tr : List Event} (h0 : Server.Initial st s₀)
    (h : Run step NotifiesAll s₀ as s tr) {i : SessionId} {lsn : Nat} (hi : (s.sessions i).pc = .blocked lsn)
    (hle : lsn ≤ s.wal.flushedLsn) : s.worker ≠ .sleeping := by
  have hinv : s.Unconnected ∧ WakeInv s := by
    refine Run.invariant (fun _ s => s.Unconnected ∧ WakeInv s) ⟨(lockInv_initial h0).1, ?_⟩ ?_ h
    · cases h0 <;> exact fun i lsn hb => by cases hb
    · rintro tr s a s' evs ⟨hu, hinv⟩ hP hs
      exact ⟨step_unconnected hs hu, hinv.step hu hP hs⟩
  exact hinv.2 i lsn (by rw [hi]; rfl) hle

/-- A session that has blocked before the flush of its records. -/
theorem no_lost_wakeup_blocked : ∃ as s tr, Run step NotifiesAll (Server.boot {} ∅) as s tr ∧
    (s.sessions 0).pc = .blocked 3 ∧ s.wal.flushedLsn = 3 ∧ s.worker ≠ .sleeping := by
  have hrun := exists_run_of_exec step NotifiesAll (Server.boot {} ∅)
    [.connect, .command 0 (.begin .readCommitted), .thread 0, .command 0 (.put [97] [49]), .command 0 .commit,
      .thread 0, .thread 0, .thread 0, .thread 0, .thread 0, .worker, .worker, .worker, .worker]
    (fun s _ => decide ((s.sessions 0).pc = .blocked 3 ∧ s.wal.flushedLsn = 3)) (by decide +kernel)
  obtain ⟨s, tr, hr, hp⟩ := hrun
  obtain ⟨hpc, hlsn⟩ := of_decide_eq_true hp
  exact ⟨_, s, tr, hr, hpc, hlsn, no_lost_wakeup (.opened {}) hr hpc (Nat.le_of_eq hlsn.symm)⟩

/-- The worker holds no mutex when it moves `flushed_lsn_` and calls `notify_all`: it does both between the check of a
session and its block, and the session sleeps on although its record is in the file and nothing is left to flush. -/
theorem wakeup_lost : ∃ as s tr, Run step (fun _ _ => True) (Server.boot {} ∅) as s tr ∧
    (s.sessions 0).pc = .blocked 3 ∧ s.wal.flushedLsn = 3 ∧ s.worker = .sleeping ∧ s.wal.buffer = [] := by
  have hrun := exists_run_of_exec step (fun _ _ => True) (Server.boot {} ∅)
    [.connect, .command 0 (.begin .readCommitted), .thread 0, .command 0 (.put [97] [49]), .command 0 .commit,
      .thread 0, .thread 0, .thread 0, .thread 0, .worker, .worker, .worker, .worker, .worker, .worker, .worker,
      .worker, .thread 0]
    (fun s _ => decide ((s.sessions 0).pc = .blocked 3 ∧ s.wal.flushedLsn = 3 ∧ s.worker = .sleeping ∧
      s.wal.buffer = [])) (by decide +kernel)
  obtain ⟨s, tr, hr, hp⟩ := hrun
  exact ⟨_, s, tr, hr, of_decide_eq_true hp⟩

end Kvdb
