import Kvdb.Faults
import Kvdb.TxnIds
import Mathlib.Algebra.Order.BigOperators.Group.Finset

/-!
# Every call returns

The server's own threads can only get so far: without new commands, in whatever order the threads of the sessions and
the flush worker run, they come to an end after a number of steps that the state bounds (`State.potential`), and before
that end some thread can go on until every session is back at its socket (`calls_return`). So no call waits for ever,
neither for a lock (a wait ends with a grant or with the timeout) nor for the group-commit mutex nor for its flush.

Three things must not happen: a failing file operation, a lost wake-up (`NotifiesAll`), and two checkpoints at once,
the second of which throws at its rename. A worker that polls an empty buffer and a wake-up that no notification caused
do not count as steps of `Works`, so that the result does not rest on them.
-/

namespace Kvdb

open Machine

/-! ## What is still to be done -/

def CheckpointPc.work : CheckpointPc → Nat
  | .check => 12
  | .fsyncWal => 11
  | .readLsn => 10
  | .openTmp _ => 9
  | .copyStore _ _ => 8
  | .writeTmp _ _ _ => 7
  | .fsyncTmp _ => 6
  | .rename _ => 5
  | .readWal _ => 4
  | .truncate _ => 3
  | .rewrite _ => 2
  | .fsyncRewritten => 1

/-- The steps a session has still to make in its call, where the wait for the flush counts as one. -/
def Session.work (σ : Session) : Nat :=
  match σ.pc with
  | .idle | .closed => 0
  | .logBegin | .releasing _ | .commitReset _ | .abortReset _ => 1
  | .reading _ | .abortRelease _ => 2
  | .logAbort _ => 3
  | .waitLock _ _ _ => 4
  | .applying _ writes => writes.length + 2
  | .enterWait _ | .checkFlushed _ | .aboutToBlock _ | .blocked _ => σ.txn.pendingBuffer.toList.length + 3
  | .logWrites writes => writes.length + σ.txn.pendingBuffer.toList.length + 4
  | .checkpoint pc => pc.work

/-- The steps of a waiting session until it is blocked. -/
def Session.waitWork (σ : Session) : Nat :=
  match σ.pc with
  | .enterWait _ => 3
  | .checkFlushed _ => 2
  | .aboutToBlock _ => 1
  | _ => 0

def WorkerPc.work : WorkerPc → Nat
  | .sleeping => 0
  | .writing _ rest => rest.length + 4
  | .fsyncing _ => 3
  | .updating _ => 2
  | .notifying => 1

/-- The steps of a pass over the buffer. -/
def bufferWork (n : Nat) : Nat := if n = 0 then 0 else n + 5

namespace State

def callWork (s : State) : Nat := ∑ i ∈ Finset.range s.sessionCount, (s.sessions i).work

def waitWork (s : State) : Nat := ∑ i ∈ Finset.range s.sessionCount, (s.sessions i).waitWork

def flushWork (s : State) : Nat := s.worker.work + bufferWork s.wal.buffer.length

/-- A notification can send every session once more to its wait, and a record can cost the worker one more pass. -/
def potential (s : State) : Nat :=
  s.callWork * (6 * (3 * s.sessionCount + 1) + 4) + s.flushWork * (3 * s.sessionCount + 1) + s.waitWork +
    if s.alive then 1 else 0

end State

def Pc.isBlocked : Pc → Bool
  | .blocked _ => true
  | _ => false

/-- The step of a thread of the server that gets something done. -/
def Works (s : State) : Action → Prop
  | .thread i => (s.sessions i).pc.isBlocked = false
  | .copyStore _ _ => True
  | .worker => s.worker = .sleeping → s.wal.buffer ≠ []
  | .connect | .command _ _ | .threadFault _ _ | .workerFault _ | .disconnect _ => False

instance (s : State) : (a : Action) → Decidable (Works s a)
  | .thread i => inferInstanceAs (Decidable ((s.sessions i).pc.isBlocked = false))
  | .copyStore _ _ => .isTrue trivial
  | .worker => inferInstanceAs (Decidable (s.worker = .sleeping → s.wal.buffer ≠ []))
  | .connect | .command _ _ | .threadFault _ _ | .workerFault _ | .disconnect _ => .isFalse not_false

/-! ## Every step lowers the potential -/

section Potential

variable {s s' : State} {i : SessionId} {evs : List Event}

/-- What a step of a session's thread costs. -/
inductive Spends (s : State) (i : SessionId) (s' : State) : Prop
  | works : (s'.sessions i).work < (s.sessions i).work → s'.wal.buffer.length ≤ s.wal.buffer.length + 1 → Spends s i s'
  | waits : (s'.sessions i).work = (s.sessions i).work → (s'.sessions i).waitWork < (s.sessions i).waitWork →
      s'.wal.buffer = s.wal.buffer → Spends s i s'
  | throws : s' = { s with alive := false } → Spends s i s'

theorem Session.waitWork_le (σ : Session) : σ.waitWork ≤ 3 := by
  unfold waitWork
  split <;> omega

theorem checkpointStep_spends {pc : CheckpointPc} (hpc : (s.sessions i).pc = .checkpoint pc)
    (h : checkpointStep s i pc = some s') : Spends s i s' := by
  have hwork : (s.sessions i).work = pc.work := by simp only [Session.work, hpc]
  cases pc <;> simp only [checkpointStep] at h
  case check =>
    cases h
    refine .works ?_ (Nat.le_succ _)
    rw [hwork]
    split <;> simp [Session.work, CheckpointPc.work]
  case copyStore => cases h
  case rename =>
    split at h <;> cases h
    · exact .works (by rw [hwork]; simp [Session.work, CheckpointPc.work]) (Nat.le_succ _)
    · exact .throws rfl
  case readWal =>
    split at h <;> cases h <;> exact .works (by rw [hwork]; simp [Session.work, CheckpointPc.work]) (Nat.le_succ _)
  all_goals cases h; exact .works (by rw [hwork]; simp [Session.work, CheckpointPc.work]) (Nat.le_succ _)

theorem ThreadMove.spends (h : ThreadMove s i (s.sessions i).pc s' evs) (hb : (s.sessions i).pc.isBlocked = false) :
    Spends s i s' := by
  generalize hpc : (s.sessions i).pc = pc at h
  cases h with
  | checkpoint cp hc => exact checkpointStep_spends hpc hc
  | wakeUp lsn => rw [hpc] at hb; cases hb
  | enterWait lsn _ => exact .waits (by simp [Session.work, hpc]) (by simp [Session.waitWork, hpc]) rfl
  | notFlushed lsn _ => exact .waits (by simp [Session.work, hpc]) (by simp [Session.waitWork, hpc]) rfl
  | block lsn => exact .waits (by simp [Session.work, hpc]) (by simp [Session.waitWork, hpc]) rfl
  | waitGranted op key flags locks _ =>
    refine .works ?_ (Nat.le_succ _)
    rw [sessions_setTxn]
    cases op <;> simp [Session.work, hpc, LockOp.resume]
  | read key =>
    refine .works ?_ (Nat.le_succ _)
    simp only [Session.work, hpc, pc_setPc]
    split <;> (rename_i h; split at h <;> simp_all)
  | abortReset cause =>
    refine .works ?_ (Nat.le_succ _)
    rw [sessions_setTxn]
    cases cause <;> simp [Session.work, hpc]
  | logBegin | logWrite | logCommit | logAbort =>
    exact .works (by simp [Session.work, hpc])
      (by simp [WALManager.log, State.setPc, State.setTxn, State.setSession])
  | _ => exact .works (by simp [Session.work, hpc]) (Nat.le_succ _)

theorem sum_update {n : Nat} (f : Session → Nat) (hi : i < n) (hother : ∀ j, j ≠ i → s'.sessions j = s.sessions j) :
    ∑ j ∈ Finset.range n, f (s'.sessions j) + f (s.sessions i) =
      ∑ j ∈ Finset.range n, f (s.sessions j) + f (s'.sessions i) := by
  have hmem : i ∈ Finset.range n := Finset.mem_range.mpr hi
  have h' := Finset.add_sum_erase (Finset.range n) (fun j => f (s'.sessions j)) hmem
  have h := Finset.add_sum_erase (Finset.range n) (fun j => f (s.sessions j)) hmem
  have hrest : ∑ j ∈ (Finset.range n).erase i, f (s'.sessions j) = ∑ j ∈ (Finset.range n).erase i, f (s.sessions j) :=
    Finset.sum_congr rfl fun j hj => by rw [hother j (Finset.ne_of_mem_erase hj)]
  rw [hrest] at h'
  omega

theorem bufferWork_le {m n : Nat} (h : m ≤ n + 1) : bufferWork m ≤ bufferWork n + 6 := by
  unfold bufferWork
  split <;> split <;> omega

theorem potential_throw (halive : s.alive = true) : ({ s with alive := false } : State).potential < s.potential := by
  rw [State.potential, State.potential, if_pos halive]
  exact Nat.lt_succ_self _

/-- A session's step is paid for by its own work. -/
theorem Spends.potential_lt (h : Spends s i s') (hi : i < s.sessionCount) (hcount : s'.sessionCount = s.sessionCount)
    (hother : ∀ j, j ≠ i → s'.sessions j = s.sessions j) (hworker : s'.worker = s.worker) (halive : s.alive = true) :
    s'.potential < s.potential := by
  have hle : (if s'.alive then 1 else 0) ≤ 1 := by split <;> omega
  have hcalls : s'.callWork + (s.sessions i).work = s.callWork + (s'.sessions i).work := by
    rw [State.callWork, hcount]
    exact sum_update Session.work hi hother
  have hwaits : s'.waitWork + (s.sessions i).waitWork = s.waitWork + (s'.sessions i).waitWork := by
    rw [State.waitWork, hcount]
    exact sum_update Session.waitWork hi hother
  cases h with
  | works hwork hbuf =>
    have hflush : s'.flushWork ≤ s.flushWork + 6 := by
      rw [State.flushWork, State.flushWork, hworker]
      have := bufferWork_le hbuf
      omega
    rw [State.potential, State.potential, hcount, if_pos halive]
    generalize 3 * s.sessionCount + 1 = r
    have h1 := Nat.mul_le_mul_right (6 * r + 4) (show s'.callWork + 1 ≤ s.callWork by omega)
    have h2 := Nat.mul_le_mul_right r hflush
    have h3 := (s'.sessions i).waitWork_le
    rw [Nat.add_mul] at h1 h2
    omega
  | waits hwork hlt hbuf =>
    have hflush : s'.flushWork = s.flushWork := by rw [State.flushWork, State.flushWork, hworker, hbuf]
    have hcallWork : s'.callWork = s.callWork := by omega
    rw [State.potential, State.potential, hcount, if_pos halive, hflush, hcallWork]
    omega
  | throws heq =>
    subst heq
    exact potential_throw halive

theorem Session.notified_work (σ : Session) : σ.notified.work = σ.work := by
  unfold notified
  split
  · rename_i lsn hpc
    simp only [work, hpc]
  · rfl

/-- What a step of the worker costs. -/
theorem workerStep_spends (h : workerStep s none = some (s', evs)) (hw : s.worker = .sleeping → s.wal.buffer ≠ []) :
    s' = { s with alive := false } ∨ s'.flushWork < s.flushWork ∧ s'.alive = s.alive ∧
      (s'.sessions = s.sessions ∨ s'.sessions = fun i => (s.sessions i).notified) := by
  unfold workerStep at h
  split at h
  case h_1 hworker =>
    cases h
    have hbuf := hw hworker
    have hpos : s.wal.buffer.length ≠ 0 := fun hz => hbuf (List.length_eq_zero_iff.mp hz)
    refine Or.inr ⟨?_, rfl, Or.inl rfl⟩
    simp only [State.flushWork, hworker, WALManager.fetchAndClearBuffer, hbuf, if_false, bufferWork, hpos,
      List.length_nil, if_true]
    cases s.logFile.isOpen <;> simp only [WorkerPc.work, if_true, Bool.false_eq_true, if_false] <;> omega
  case h_2 batch record rest hworker =>
    cases h
    refine Or.inr ⟨?_, rfl, Or.inl rfl⟩
    simp only [State.flushWork, hworker, WorkerPc.work, (Pipeline.noteWritten_flushedLsn s.wal record).2,
      List.length_cons]
    omega
  case h_3 batch hworker =>
    cases h
    exact Or.inr ⟨by simp [State.flushWork, hworker, WorkerPc.work], rfl, Or.inl rfl⟩
  case h_4 batch hworker =>
    cases h
    exact Or.inr ⟨by simp [State.flushWork, hworker, WorkerPc.work], rfl, Or.inl rfl⟩
  case h_5 batch hworker =>
    split at h <;> cases h
    · rename_i lsn _
      refine Or.inr ⟨?_, rfl, Or.inl rfl⟩
      simp only [State.flushWork, hworker, WorkerPc.work, (Pipeline.updateFlushedLSN_flushedLsn s.wal lsn).2]
      omega
    · exact Or.inl rfl
  case h_6 hworker =>
    cases h
    exact Or.inr ⟨by simp [State.flushWork, hworker, WorkerPc.work], rfl, Or.inr rfl⟩

/-- A step of the worker is paid for by the flush it works on. -/
theorem workerStep_potential_lt (h : workerStep s none = some (s', evs))
    (hw : s.worker = .sleeping → s.wal.buffer ≠ []) (halive : s.alive = true) : s'.potential < s.potential := by
  have hcount := (workerStep_sessions h).1
  rcases workerStep_spends h hw with rfl | ⟨hflush, halive', hsessions⟩
  · exact potential_throw halive
  · have hcall : s'.callWork = s.callWork := by
      rw [State.callWork, State.callWork, hcount]
      refine Finset.sum_congr rfl fun j _ => ?_
      rcases hsessions with heq | heq <;> rw [heq]
      exact Session.notified_work _
    have hwait : s'.waitWork ≤ s.waitWork + 3 * s.sessionCount := by
      have hle : s'.waitWork ≤ ∑ _j ∈ Finset.range s'.sessionCount, 3 :=
        Finset.sum_le_sum fun j _ => (s'.sessions j).waitWork_le
      rw [Finset.sum_const_nat fun _ _ => rfl, Finset.card_range, hcount] at hle
      omega
    unfold State.potential
    rw [hcount, hcall, halive']
    have hmul := Nat.mul_le_mul_right (3 * s.sessionCount + 1) (show s'.flushWork + 1 ≤ s.flushWork from hflush)
    rw [Nat.add_mul] at hmul
    generalize s'.flushWork * (3 * s.sessionCount + 1) = y' at hmul ⊢
    generalize s.flushWork * (3 * s.sessionCount + 1) = y at hmul ⊢
    omega

/-- **Every step of the server's own threads lowers the potential.** -/
theorem Works.potential_lt {a : Action} (hP : Works s a) (hu : s.Unconnected) (h : step s a = some (s', evs)) :
    s'.potential < s.potential := by
  have hi : ∀ {j}, (s.sessions j).pc ≠ .idle → j < s.sessionCount := by
    intro j hj
    by_contra hge
    exact hj (by rw [hu j (Nat.le_of_not_lt hge)])
  obtain ⟨halive, hmove⟩ := step_move h
  cases hmove with
  | connect ha | command _ _ ha | disconnect _ ha | threadFault _ _ _ ha => rw [ha] at hP; cases hP
  | thread i ha hmove =>
    subst ha
    obtain ⟨-, hcount, hother⟩ := step_own h rfl
    have hidle : (s.sessions i).pc ≠ .idle := by
      intro hpc
      rw [hpc] at hmove
      cases hmove
    have hworker : s'.worker = s.worker := by
      rcases step_logOnly h with ⟨fault, ha, -⟩ | hlog
      · cases fault <;> cases ha
      · exact hlog.worker
    exact (hmove.spends hP).potential_lt (hi hidle) hcount hother hworker halive
  | copyStore i entries lsn file ha hpc hentries =>
    subst ha
    obtain ⟨-, hcount, hother⟩ := step_own h rfl
    refine Spends.potential_lt (.works ?_ (Nat.le_succ _)) (hi (by rw [hpc]; simp)) hcount hother rfl halive
    simp [Session.work, hpc, CheckpointPc.work]
  | worker fault ha hw =>
    cases fault with
    | none => subst ha; exact workerStep_potential_lt hw hP halive
    | some n => subst ha; cases hP

end Potential

/-! ## What the waiting threads rely on -/

/-- Inside `waitForCommit` with `mtx_` held. -/
def Pc.holdsMtx : Pc → Bool
  | .checkFlushed _ | .aboutToBlock _ => true
  | _ => false

/-- The holder of `mtx_` is at a place from which it goes on by itself. -/
def MtxInv (s : State) : Prop := ∀ j, s.mtx = some j → (s.sessions j).pc.holdsMtx = true

/-- The records that the worker has fetched and not yet written. -/
def WorkerPc.rest : WorkerPc → List Bytes
  | .writing _ rest => rest
  | _ => []

/-- As long as LSNs fit in 64 bits, `flushed_lsn_` lags behind by what is still to be written. -/
def Backlog (s : State) : Prop :=
  s.wal.nextLsn ≤ 2 ^ 64 → s.wal.nextLsn ≤ 1 + s.wal.flushedLsn + s.worker.rest.length + s.wal.buffer.length

/-- Between opening the temporary snapshot and renaming it. -/
def CheckpointPc.holdsTmp : CheckpointPc → Bool
  | .copyStore _ _ | .writeTmp _ _ _ | .fsyncTmp _ | .rename _ => true
  | _ => false

/-- At most one session is in a checkpoint, and its temporary file is there until it is renamed. -/
structure CheckpointAlone (s : State) : Prop where
  alone : ∀ i j, (s.sessions i).pc.inCheckpoint = true → (s.sessions j).pc.inCheckpoint = true → i = j
  tmp : ∀ i pc, (s.sessions i).pc = .checkpoint pc → pc.holdsTmp = true → s.disk.dataDbTmp.isSome = true

/-- A checkpoint passes its check only when no other one is going on. -/
def OneCheckpoint (s : State) : Action → Prop
  | .thread i => (s.sessions i).pc = .checkpoint .check → hasActiveTransactions s = false →
      ∀ j < s.sessionCount, (s.sessions j).pc.inCheckpoint = false
  | _ => True

instance (s : State) : (a : Action) → Decidable (OneCheckpoint s a)
  | .thread i => inferInstanceAs (Decidable ((s.sessions i).pc = .checkpoint .check → hasActiveTransactions s = false →
      ∀ j < s.sessionCount, (s.sessions j).pc.inCheckpoint = false))
  | .connect | .command .. | .copyStore .. | .threadFault .. | .worker | .workerFault _ | .disconnect _ =>
    .isTrue trivial

section Steps

variable {s s' : State} {a : Action} {i : SessionId} {evs tr : List Event}

theorem Session.notified_holdsMtx (σ : Session) : σ.notified.pc.holdsMtx = σ.pc.holdsMtx := by
  unfold notified
  split
  · rename_i lsn hpc
    rw [hpc]
    rfl
  · rfl

theorem ThreadMove.mtx (h : ThreadMove s i (s.sessions i).pc s' evs) :
    s'.mtx = s.mtx ∧ ((s.sessions i).pc.holdsMtx = true → (s'.sessions i).pc.holdsMtx = true) ∨ s'.mtx = none ∨
      s'.mtx = some i ∧ (s'.sessions i).pc.holdsMtx = true := by
  generalize hpc : (s.sessions i).pc = pc at h
  cases h with
  | enterWait lsn _ => exact Or.inr (Or.inr ⟨rfl, by rw [pc_setPc]; rfl⟩)
  | flushed lsn _ => exact Or.inr (Or.inl rfl)
  | block lsn => exact Or.inr (Or.inl rfl)
  | notFlushed lsn _ => exact Or.inl ⟨rfl, fun _ => by rw [pc_setPc]; rfl⟩
  | checkpoint cp hc =>
    refine Or.inl ⟨?_, fun hin => by cases hin⟩
    cases checkpointStep_effect hc <;> rfl
  | _ => exact Or.inl ⟨rfl, fun hin => by cases hin⟩

theorem MtxInv.step (h : MtxInv s) (hs : step s a = some (s', evs)) : MtxInv s' := by
  -- what holds when a step of session `i` leaves the mutex alone and does not take `i` away from its place
  have hkeep : ∀ {i}, (∀ j, j ≠ i → s'.sessions j = s.sessions j) → s'.mtx = s.mtx →
      ((s.sessions i).pc.holdsMtx = true → (s'.sessions i).pc.holdsMtx = true) → MtxInv s' := by
    intro i hother hmtx hi j hj
    rw [hmtx] at hj
    by_cases hji : j = i
    · subst hji
      exact hi (h j hj)
    · rw [hother j hji]
      exact h j hj
  cases (step_move hs).2 with
  | connect ha => exact h
  | command i cmd ha hi hpc hmove =>
    subst ha
    have hmtx : s'.mtx = s.mtx := by cases hmove <;> rfl
    exact hkeep (step_own hs rfl).2.2 hmtx fun hin => by rw [hpc] at hin; cases hin
  | thread i ha hmove =>
    subst ha
    rcases hmove.mtx with ⟨hmtx, hin⟩ | hmtx | ⟨hmtx, hin⟩
    · exact hkeep (step_own hs rfl).2.2 hmtx hin
    · intro j hj
      rw [hmtx] at hj
      cases hj
    · intro j hj
      rw [hmtx] at hj
      cases hj
      exact hin
  | copyStore i entries lsn file ha hpc _ =>
    subst ha
    exact hkeep (step_own hs rfl).2.2 rfl fun hin => by rw [hpc] at hin; cases hin
  | threadFault i n pc ha hpc hc =>
    subst ha
    have hmtx : s'.mtx = s.mtx := by cases checkpointFault_effect hc <;> rfl
    exact hkeep (step_own hs rfl).2.2 hmtx fun hin => by rw [hpc] at hin; cases hin
  | disconnect i ha _ hpc =>
    subst ha
    exact hkeep (step_own hs rfl).2.2 rfl fun hin => by rw [hpc] at hin; cases hin
  | worker fault ha hw =>
    intro j hj
    have hmtx : s'.mtx = s.mtx := by
      unfold workerStep at hw
      split at hw <;> first | (cases hw; rfl) | (split at hw <;> cases hw <;> rfl)
    rw [hmtx] at hj
    rcases (workerStep_sessions hw).2 j with heq | heq <;> rw [heq]
    · exact h j hj
    · rw [Session.notified_holdsMtx]
      exact h j hj

/-- The LSN of the record that the worker writes next. -/
theorem Pipeline.memcpyLSN_next {f : Nat} (h : Pipeline tr f s) {batch rest : List Bytes} {record : Bytes}
    (hw : s.worker = .writing batch (record :: rest)) (hlsn : s.wal.nextLsn ≤ 2 ^ 64) :
    12 ≤ record.length ∧ memcpyLSN record + rest.length + s.wal.buffer.length + 1 = s.wal.nextLsn := by
  obtain ⟨done, hdone⟩ := h.rest hw
  have hin := h.inFlight
  rw [hw, WorkerPc.inFlight, ← hdone, List.append_assoc, List.cons_append] at hin
  obtain ⟨l₁, l₂, hdrop, -, hl₂⟩ := List.map_eq_append_iff.mp hin.symm
  obtain ⟨r, l₃, rfl, rfl, hl₃⟩ := List.map_eq_cons_iff.mp hl₂
  have hlog : logOf tr = ((logOf tr).take f ++ l₁) ++ r :: l₃ := by
    rw [List.append_assoc, ← hdrop, List.take_append_drop]
  have hnum := h.numbered
  rw [hlog] at hnum
  have heq := hnum.lsn_eq
  have hlen := congrArg List.length hlog
  have hlen₃ := congrArg List.length hl₃
  have hnext := h.next
  rw [List.length_append, List.length_cons] at hlen
  rw [List.length_map, List.length_append] at hlen₃
  have hraw := r.length_raw
  refine ⟨by omega, ?_⟩
  rw [memcpyLSN_raw, Nat.mod_eq_of_lt (by omega)]
  omega

theorem foldl_log_nextLsn (rs : List WALRecord) (wal : WALManager) :
    (rs.foldl WALManager.log wal).nextLsn = wal.nextLsn + rs.length := by
  induction rs generalizing wal with
  | nil => rfl
  | cons r rs ih =>
    rw [List.foldl_cons, ih, List.length_cons]
    show wal.nextLsn + 1 + rs.length = _
    omega

theorem Backlog.step {f : Nat} (h : Backlog s) (hp : Pipeline tr f s) (ha : a.faulty = false)
    (hs : Kvdb.step s a = some (s', evs)) : Backlog s' := by
  intro hlsn
  rcases step_logOnly hs with ⟨fault, rfl, hw⟩ | hlog
  · cases fault with
    | some n => cases ha
    | none =>
      cases workerStep_cases hp.isOpen hp.good hw with
      | idle => exact h hlsn
      | fetch hworker =>
        have hb := h hlsn
        rw [hworker] at hb
        simp only [WorkerPc.rest, List.length_nil] at hb ⊢
        omega
      | @write batch record rest hworker =>
        have hnext : s.wal.nextLsn = (s.wal.noteWritten record).nextLsn := by
          simp only [WALManager.noteWritten, WALManager.updateFlushedLSN]
          split <;> [split; skip] <;> rfl
        obtain ⟨hlen, hrec⟩ := hp.memcpyLSN_next hworker (by rw [hnext]; exact hlsn)
        have hflushed : (s.wal.noteWritten record).flushedLsn = max s.wal.flushedLsn (memcpyLSN record) := by
          rw [WALManager.noteWritten, if_pos hlen, (Pipeline.updateFlushedLSN_flushedLsn _ _).1]
        show (s.wal.noteWritten record).nextLsn ≤ 1 + (s.wal.noteWritten record).flushedLsn + rest.length +
          (s.wal.noteWritten record).buffer.length
        rw [← hnext, hflushed, (Pipeline.noteWritten_flushedLsn _ _).2]
        omega
      | flush hworker | fsync hworker =>
        have hb := h hlsn
        rw [hworker] at hb
        exact hb
      | @update batch lsn hworker _ =>
        have hnext : s.wal.nextLsn = (s.wal.updateFlushedLSN lsn).nextLsn := by
          rw [WALManager.updateFlushedLSN]
          split <;> rfl
        have hb := h (by rw [hnext]; exact hlsn)
        rw [hworker] at hb
        show (s.wal.updateFlushedLSN lsn).nextLsn ≤ 1 + (s.wal.updateFlushedLSN lsn).flushedLsn + 0 +
          (s.wal.updateFlushedLSN lsn).buffer.length
        rw [← hnext, (Pipeline.updateFlushedLSN_flushedLsn _ _).1, (Pipeline.updateFlushedLSN_flushedLsn _ _).2]
        simp only [WorkerPc.rest, List.length_nil] at hb
        omega
      | throw hworker _ => exact h hlsn
      | notify hworker =>
        have hb := h hlsn
        rw [hworker] at hb
        exact hb
  · have hnext : s'.wal.nextLsn = s.wal.nextLsn + (logOf evs).length := by rw [hlog.wal, foldl_log_nextLsn]
    have hbuf : s'.wal.buffer.length = s.wal.buffer.length + (logOf evs).length := by
      rw [hlog.wal, (Pipeline.foldl_log _ _).2, List.length_append, List.length_map]
    have hb := h (by omega)
    rw [hlog.worker, hlog.flushedLsn, hnext, hbuf]
    omega

/-- A step that leaves every session where it is in a checkpoint, or takes it out of it. -/
theorem CheckpointAlone.shrink (h : CheckpointAlone s) (htmp : s'.disk.dataDbTmp = s.disk.dataDbTmp)
    (hpc : ∀ j, (s'.sessions j).pc.inCheckpoint = true → (s'.sessions j).pc = (s.sessions j).pc) :
    CheckpointAlone s' := by
  refine ⟨fun i j hi hj => ?_, fun i pc hi hpc' => ?_⟩
  · have hi' := hpc i hi
    have hj' := hpc j hj
    exact h.alone i j (hi' ▸ hi) (hj' ▸ hj)
  · have hin : (s'.sessions i).pc.inCheckpoint = true := by
      rw [hi]
      cases pc <;> first | rfl | cases hpc'
    rw [htmp]
    exact h.tmp i pc ((hpc i hin).symm.trans hi) hpc'

/-- A step of the session that is in the checkpoint. -/
theorem CheckpointAlone.of_session {i : SessionId}
    (hother : ∀ j, j ≠ i → s'.sessions j = s.sessions j)
    (halone : ∀ j, j ≠ i → (s.sessions j).pc.inCheckpoint = false)
    (htmp : ∀ pc, (s'.sessions i).pc = .checkpoint pc → pc.holdsTmp = true → s'.disk.dataDbTmp.isSome = true) :
    CheckpointAlone s' := by
  have hout : ∀ j, j ≠ i → (s'.sessions j).pc.inCheckpoint = false := fun j hj => by rw [hother j hj]; exact halone j hj
  have hin : ∀ j, (s'.sessions j).pc.inCheckpoint = true → j = i := by
    intro j hj
    by_contra hji
    rw [hout j hji] at hj
    cases hj
  refine ⟨fun j j' hj hj' => (hin j hj).trans (hin j' hj').symm, fun j pc hj hpc => ?_⟩
  obtain rfl := hin j (by rw [hj]; cases pc <;> first | rfl | cases hpc)
  exact htmp pc hj hpc

theorem Disk.openTmp_tmp (d : Disk) : d.openTmp.1.dataDbTmp.isSome = true := by
  unfold openTmp
  split
  · rename_i file hfile
    simp [hfile]
  · rfl

/-- The worker has nothing to do with the snapshots. -/
theorem workerStep_disk {fault : Option Nat} (h : workerStep s fault = some (s', evs)) :
    ∃ log synced, s'.disk = { s.disk with walLog := log, walSynced := synced } := by
  unfold workerStep at h
  split at h
  case h_4 =>
    cases h
    obtain ⟨synced, hsynced⟩ := s.disk.fsyncWal_eq
    exact ⟨_, synced, hsynced⟩
  case h_5 => split at h <;> cases h <;> exact ⟨_, _, rfl⟩
  all_goals cases h; exact ⟨_, _, rfl⟩

/-- Inside a checkpoint the temporary file appears with `openTmp` and goes with `rename`. -/
theorem checkpointStep_tmp {pc : CheckpointPc} (h : CheckpointAlone s) (hpc : (s.sessions i).pc = .checkpoint pc)
    (hc : checkpointStep s i pc = some s') :
    s'.alive = s.alive ∧ ∀ pc', (s'.sessions i).pc = .checkpoint pc' → pc'.holdsTmp = true →
      s'.disk.dataDbTmp.isSome = true := by
  have htmp := h.tmp i pc hpc
  cases pc <;> simp only [checkpointStep] at hc
  case check =>
    cases hc
    refine ⟨rfl, fun pc' hpc' hh => ?_⟩
    rw [pc_setPc] at hpc'
    split at hpc' <;> cases hpc'
    cases hh
  case copyStore => cases hc
  case rename =>
    obtain ⟨file, hfile⟩ := Option.isSome_iff_exists.mp (htmp rfl)
    rw [hfile] at hc
    cases hc
    refine ⟨rfl, fun pc' hpc' hh => ?_⟩
    rw [pc_setPc] at hpc'
    cases hpc'
    cases hh
  case readWal =>
    split at hc <;> cases hc <;> refine ⟨rfl, fun pc' hpc' hh => ?_⟩ <;> rw [pc_setPc] at hpc' <;> cases hpc'
    cases hh
  case openTmp => cases hc; exact ⟨rfl, fun _ _ _ => Disk.openTmp_tmp _⟩
  case writeTmp | fsyncTmp => cases hc; exact ⟨rfl, fun _ _ _ => htmp rfl⟩
  all_goals
    cases hc
    refine ⟨rfl, fun pc' hpc' hh => ?_⟩
    rw [pc_setPc] at hpc'
    cases hpc'
    try cases hh

theorem Session.notified_inCheckpoint_pc (σ : Session) (h : σ.notified.pc.inCheckpoint = true) :
    σ.notified.pc = σ.pc := by
  revert h
  unfold notified
  split
  · intro h
    cases h
  · exact fun _ => rfl

/-- **A checkpoint that is alone does not throw, and neither does the worker.** -/
theorem CheckpointAlone.step {f : Nat} (h : CheckpointAlone s) (hp : Pipeline tr f s) (hu : s.Unconnected)
    (ha : a.faulty = false) (hP : OneCheckpoint s a) (hs : Kvdb.step s a = some (s', evs)) :
    CheckpointAlone s' ∧ s'.alive = true := by
  obtain ⟨halive, hby⟩ := step_cases hs
  cases hby with
  | connect _ heq => subst heq; exact ⟨⟨h.alone, h.tmp⟩, halive⟩
  | session i _ _ _ hsess =>
    refine ⟨h.shrink (by rw [hsess.disk]) fun j hj => ?_, hsess.alive.trans halive⟩
    by_cases hji : j = i
    · subst hji
      rw [hsess.pc] at hj
      cases hj
    · rw [hsess.sessions j hji]
  | checkpoint i pc ha hpc hc =>
    subst ha
    obtain ⟨halive', htmp⟩ := checkpointStep_tmp h hpc hc
    have hother := (step_own hs rfl).2.2
    refine ⟨?_, halive'.trans halive⟩
    by_cases hin : (s.sessions i).pc.inCheckpoint = true
    · refine .of_session hother (fun j hj => ?_) htmp
      exact eq_false_of_ne_true fun hj' => hj (h.alone j i hj' hin)
    · -- at the check
      obtain rfl : pc = .check := by
        rw [hpc] at hin
        cases pc <;> first | rfl | exact absurd rfl hin
      by_cases hactive : hasActiveTransactions s = true
      · simp only [checkpointStep, hactive, if_true] at hc
        cases hc
        refine h.shrink rfl fun j hj => ?_
        by_cases hji : j = i
        · subst hji
          rw [pc_setPc] at hj
          cases hj
        · rw [hother j hji]
      · refine .of_session hother (fun j _ => ?_) htmp
        by_cases hj : j < s.sessionCount
        · exact hP hpc (eq_false_of_ne_true hactive) j hj
        · rw [hu j (Nat.le_of_not_lt hj)]
          rfl
  | copyStore i entries lsn file ha hpc _ heq =>
    subst ha heq
    have hin : (s.sessions i).pc.inCheckpoint = true := by rw [hpc]; rfl
    refine ⟨.of_session (step_own hs rfl).2.2 (fun j hj => ?_) fun _ _ _ => h.tmp i _ hpc rfl, halive⟩
    exact eq_false_of_ne_true fun hj' => hj (h.alone j i hj' hin)
  | checkpointFault i n pc ha' => subst ha'; cases ha
  | worker fault ha' hw =>
    subst ha'
    obtain ⟨log, synced, hdisk⟩ := workerStep_disk hw
    refine ⟨h.shrink (by rw [hdisk]) fun j hj => ?_, ?_⟩
    · rcases (workerStep_sessions hw).2 j with heq | heq
      · rw [heq]
      · rw [heq] at hj ⊢
        exact Session.notified_inCheckpoint_pc _ hj
    · cases fault with
      | some n => cases ha
      | none =>
        cases workerStep_cases hp.isOpen hp.good hw with
        | throw hworker hmax =>
          obtain ⟨m, -, hm⟩ := hp.maxLSN_batch (Or.inr hworker)
          rw [hmax] at hm
          cases hm
        | _ => exact halive

end Steps

/-! ## Progress -/

/-- Nothing fails, no wake-up is lost, and checkpoints are made one at a time. -/
def Orderly (s : State) (a : Action) : Prop := a.faulty = false ∧ NotifiesAll s a ∧ OneCheckpoint s a

instance (s : State) (a : Action) : Decidable (Orderly s a) := inferInstanceAs (Decidable (_ ∧ _))

/-- What holds along orderly runs. -/
structure ProgressInv (tr : List Event) (s : State) : Prop where
  pipeline : ∃ f, Pipeline tr f s
  unconnected : s.Unconnected
  commits : CommitInv tr s
  wake : WakeInv s
  mtx : MtxInv s
  backlog : Backlog s
  checkpoint : CheckpointAlone s
  alive : s.alive = true

theorem progressInv_boot (d : Disk) (st : Store) : ProgressInv [] (Server.boot d st) where
  pipeline := ⟨0, .initial d st⟩
  unconnected _ _ := rfl
  commits := ⟨fun _ hc => (by cases hc), fun hpc => (by cases hpc), fun h => by cases h⟩
  wake _ _ h := by cases h
  mtx _ h := by cases h
  backlog _ := Nat.le_refl _
  checkpoint := ⟨fun _ _ h => (by cases h), fun _ _ h => (by cases h)⟩
  alive := rfl

theorem ProgressInv.step {tr evs : List Event} {s s' : State} {a : Action} (h : ProgressInv tr s) (hP : Orderly s a)
    (hs : step s a = some (s', evs)) : ProgressInv (tr ++ evs) s' := by
  obtain ⟨hfault, hnotify, hone⟩ := hP
  obtain ⟨f, hp⟩ := h.pipeline
  obtain ⟨f', -, hp', -⟩ := hp.step hfault hs
  obtain ⟨hck, halive⟩ := h.checkpoint.step hp h.unconnected hfault hone hs
  exact {
    pipeline := ⟨f', hp'⟩
    unconnected := step_unconnected hs h.unconnected
    commits := h.commits.step hs
    wake := h.wake.step h.unconnected hnotify hs
    mtx := h.mtx.step hs
    backlog := h.backlog.step hp hfault hs
    checkpoint := hck
    alive := halive }

/-- Every session is back at its socket, or its connection is over. -/
def State.Finished (s : State) : Prop := ∀ i, (s.sessions i).pc = .idle ∨ (s.sessions i).pc = .closed

/-- Places at which a session's thread waits for another one. -/
def Pc.stands : Pc → Bool
  | .idle | .closed | .enterWait _ | .blocked _ | .checkpoint (.copyStore _ _) => true
  | _ => false

/-- Everywhere else it can go on. -/
theorem threadStep_isSome {s : State} {i : SessionId} (h : (s.sessions i).pc.stands = false) :
    ∃ r, threadStep s i = some r := by
  dsimp only [threadStep]
  cases hpc : (s.sessions i).pc <;> rw [hpc] at h
  case idle | closed | enterWait | blocked => cases h
  case logWrites writes => cases writes <;> exact ⟨_, rfl⟩
  case applying lsn writes => cases writes <;> exact ⟨_, rfl⟩
  case waitLock op key flags | checkFlushed lsn =>
    dsimp only
    split <;> exact ⟨_, rfl⟩
  case checkpoint pc =>
    cases pc <;> dsimp only [checkpointStep]
    case copyStore => cases h
    case rename => cases s.disk.dataDbTmp <;> exact ⟨_, rfl⟩
    case readWal => cases s.disk.walLog <;> exact ⟨_, rfl⟩
    all_goals exact ⟨_, rfl⟩
  all_goals exact ⟨_, rfl⟩

theorem workerStep_isSome (s : State) : ∃ r, workerStep s none = some r := by
  unfold workerStep
  cases s.worker with
  | writing batch rest => cases rest <;> exact ⟨_, rfl⟩
  | updating batch => dsimp only; cases maxLSN batch <;> exact ⟨_, rfl⟩
  | _ => exact ⟨_, rfl⟩

section Progress

variable {s : State} {tr : List Event}

theorem step_worker (halive : s.alive = true) : step s .worker = workerStep s none := by
  rw [step, if_pos halive]

/-- A session that is inside a checkpoint goes on. -/
theorem progress_checkpoint (h : ProgressInv tr s) {i : SessionId} (hi : (s.sessions i).pc.inCheckpoint = true) :
    ∃ a r, (Orderly s a ∧ Works s a) ∧ step s a = some r := by
  by_cases hstand : (s.sessions i).pc.stands = true
  · obtain ⟨lsn, file, hpc⟩ : ∃ lsn file, (s.sessions i).pc = .checkpoint (.copyStore lsn file) := by
      revert hi hstand
      rcases (s.sessions i).pc with _ | _ | _ | _ | _ | _ | _ | _ | _ | _ | _ | _ | _ | _ | _ | (_ | _) | _ <;>
        simp [Pc.inCheckpoint, Pc.stands]
    refine ⟨.copyStore i s.store.toList, (s.setPc i (.checkpoint (.writeTmp lsn file s.store.toList)), []),
      ⟨⟨rfl, trivial, trivial⟩, trivial⟩, ?_⟩
    have hentries : s.store.IsEntries s.store.toList := List.Perm.refl _
    rw [step, if_pos h.alive]
    simp only [hpc, hentries, if_true]
  · obtain ⟨r, hr⟩ := threadStep_isSome (eq_false_of_ne_true hstand)
    refine ⟨.thread i, r, ⟨⟨rfl, trivial, fun hpc => ?_⟩, ?_⟩, by rw [step_thread h.alive]; exact hr⟩
    · rw [hpc] at hi
      cases hi
    · show (s.sessions i).pc.isBlocked = false
      revert hi
      cases (s.sessions i).pc <;> simp [Pc.inCheckpoint, Pc.isBlocked]

/-- **Some thread can go on** as long as a call has not returned. -/
theorem ProgressInv.progress (h : ProgressInv tr s) (hlsn : s.wal.nextLsn ≤ 2 ^ 64) (hf : ¬ s.Finished) :
    ∃ a r, (Orderly s a ∧ Works s a) ∧ Kvdb.step s a = some r := by
  by_cases hck : ∃ i, (s.sessions i).pc.inCheckpoint = true
  · obtain ⟨i, hi⟩ := hck
    exact progress_checkpoint h hi
  have hout : ∀ i, (s.sessions i).pc.inCheckpoint = false := fun i => eq_false_of_ne_true fun hi => hck ⟨i, hi⟩
  -- a thread that does not wait for another one
  by_cases hgo : ∃ i, (s.sessions i).pc.stands = false
  · obtain ⟨i, hi⟩ := hgo
    obtain ⟨r, hr⟩ := threadStep_isSome hi
    refine ⟨.thread i, r, ⟨⟨rfl, trivial, fun _ _ j _ => hout j⟩, ?_⟩, by rw [step_thread h.alive]; exact hr⟩
    show (s.sessions i).pc.isBlocked = false
    revert hi
    cases (s.sessions i).pc <;> simp [Pc.stands, Pc.isBlocked]
  have hstands : ∀ i, (s.sessions i).pc.stands = true := fun i => Bool.of_not_eq_false fun hi => hgo ⟨i, hi⟩
  -- so the mutex is free
  have hmtx : s.mtx = none := by
    refine Option.eq_none_iff_forall_not_mem.mpr fun j hj => ?_
    have hh := h.mtx j hj
    have hst := hstands j
    revert hh hst
    cases (s.sessions j).pc <;> simp [Pc.holdsMtx, Pc.stands]
  by_cases hwait : ∃ i lsn, (s.sessions i).pc = .enterWait lsn
  · obtain ⟨i, lsn, hpc⟩ := hwait
    refine ⟨.thread i, ({ s with mtx := some i }.setPc i (.checkFlushed lsn), []),
      ⟨⟨rfl, trivial, fun hc => ?_⟩, ?_⟩, ?_⟩
    · rw [hpc] at hc
      cases hc
    · show (s.sessions i).pc.isBlocked = false
      rw [hpc]
      rfl
    · rw [step_thread h.alive, threadStep, hpc]
      simp only [hmtx]
  -- all calls that have not returned are blocked on the condition variable
  obtain ⟨i, lsn, hi⟩ : ∃ i lsn, (s.sessions i).pc = .blocked lsn := by
    obtain ⟨i, hi⟩ := not_forall.mp hf
    have hst := hstands i
    have hin := hout i
    cases hpc : (s.sessions i).pc <;> rw [hpc] at hi hst hin
    case blocked lsn => exact ⟨i, lsn, hpc⟩
    case enterWait lsn => exact absurd ⟨i, lsn, hpc⟩ hwait
    case idle => exact absurd (Or.inl rfl) hi
    case closed => exact absurd (Or.inr rfl) hi
    case checkpoint pc => cases pc <;> simp [Pc.stands, Pc.inCheckpoint] at hst hin
    all_goals cases hst
  obtain ⟨r, hr⟩ := workerStep_isSome s
  refine ⟨.worker, r, ⟨⟨rfl, fun _ j _ lsn' hl => ?_, trivial⟩, fun hsleep hbuf => ?_⟩,
    by rw [step_worker h.alive]; exact hr⟩
  · have hst := hstands j
    revert hl hst
    cases (s.sessions j).pc <;> simp [Pc.goingToBlock, Pc.stands]
  · -- everything logged has been flushed, and the notification for it has been given
    obtain ⟨f, hp⟩ := h.pipeline
    obtain ⟨c, hc, rfl⟩ := h.commits.awaiting (show (s.sessions i).pc.awaits = some lsn by rw [hi]; rfl)
    have hle := (hp.numbered.lsn_bounds (h.commits.logged c hc)).2
    have hb := h.backlog hlsn
    have hnext := hp.next
    rw [hsleep, hbuf] at hb
    simp only [WorkerPc.rest, List.length_nil] at hb
    have hcl : c.record.lsn = c.lsn := rfl
    exact h.wake i c.lsn (by rw [hi]; rfl) (by omega) hsleep

end Progress

/-- **Every call returns.** From any state of an orderly run, the server's threads alone can take only a bounded number
of steps, in whatever order; and as long as a session's call has not returned, one of them can take a step. -/
theorem calls_return {d : Disk} {st : Store} {s : State} {as : List Action} {tr : List Event}
    (h : Run step Orderly (Server.boot d st) as s tr) {as' : List Action} {s' : State} {tr' : List Event}
    (h' : Run step (fun s a => Orderly s a ∧ Works s a) s as' s' tr') :
    as'.length ≤ s.potential ∧ (s'.wal.nextLsn ≤ 2 ^ 64 → ¬ s'.Finished →
      ∃ a r, (Orderly s' a ∧ Works s' a) ∧ step s' a = some r) := by
  have hinv : ProgressInv tr s := Run.invariant ProgressInv (progressInv_boot d st) (fun hi hP hs => hi.step hP hs) h
  have hinv' : ProgressInv (tr ++ tr') s' :=
    Run.invariant ProgressInv (progressInv_boot d st) (fun hi hP hs => hi.step hP hs)
      (h.append (h'.mono fun _ _ hP => hP.1))
  obtain ⟨-, hlen⟩ := Run.length_add_le State.Unconnected State.potential hinv.unconnected
    (fun hu hP hs => ⟨step_unconnected hs hu, hP.2.potential_lt hu hs⟩) h'
  exact ⟨by omega, hinv'.progress⟩

/-- Two sessions that wait for each other's lock: both run into the timeout. -/
theorem calls_return_deadlock : ∃ s tr s' tr', Run step Orderly (Server.boot {} ∅)
    [.connect, .connect, .command 0 (.begin .repeatableRead), .thread 0, .command 1 (.begin .repeatableRead), .thread 1,
      .command 0 (.get [97]), .thread 0, .command 1 (.get [97]), .thread 1, .command 0 (.put [97] [49]),
      .command 1 (.put [97] [50])] s tr ∧
    (s.sessions 0).work = 4 ∧ (s.sessions 1).work = 4 ∧
    Run step (fun s a => Orderly s a ∧ Works s a) s [.thread 0, .thread 0, .thread 0, .thread 0, .thread 1, .thread 1,
      .thread 1, .thread 1] s' tr' ∧
    (s'.sessions 0).pc = .idle ∧ (s'.sessions 1).pc = .idle ∧ 8 ≤ s.potential := by
  have hruns := exists_runs_of_exec step Orderly (fun s a => Orderly s a ∧ Works s a) (Server.boot {} ∅)
    [.connect, .connect, .command 0 (.begin .repeatableRead), .thread 0, .command 1 (.begin .repeatableRead), .thread 1,
      .command 0 (.get [97]), .thread 0, .command 1 (.get [97]), .thread 1, .command 0 (.put [97] [49]),
      .command 1 (.put [97] [50])] [.thread 0, .thread 0, .thread 0, .thread 0, .thread 1, .thread 1,
      .thread 1, .thread 1]
    (fun s s' => decide (((s.sessions 0).work = 4 ∧ (s.sessions 1).work = 4) ∧
      (s'.sessions 0).pc = .idle ∧ (s'.sessions 1).pc = .idle)) (by decide +kernel)
  obtain ⟨s, tr, s', tr', hr, hr', hp⟩ := hruns
  obtain ⟨⟨h0, h1⟩, h2, h3⟩ := of_decide_eq_true hp
  exact ⟨s, tr, s', tr', hr, h0, h1, hr', h2, h3, (calls_return hr hr').1⟩

end Kvdb
