import Kvdb.Waiting

/-!
# A log that cannot be written

What the server makes of a log that cannot be opened or of a write to it that fails. Nobody looks at the state of the
stream.

The flush worker advances `flushed_lsn_` past every record it has handed to `log_file_`, and past the batch even when
there is no log file; so a commit is acknowledged whose record never reaches the log (`lost_write_acknowledged`). Only a
write that fails does this: as long as the worker's writes get through (`WritesThrough`), whatever else fails, what has
been acknowledged is in the file (`failed_write_not_acknowledged`). The condition is exact: the first write that does
not get through is counted all the same (`writesThrough_iff`).
-/

namespace Kvdb

open Machine

/-! ## Writes to the log -/

/-- What the worker does next to the log gets through: the record into the stream, the bytes of the stream into the
file; and a batch moves `flushed_lsn_` only when there is a file. -/
def WorkerSucceeds (s : State) (fault : Option Nat) : Prop :=
  match s.worker with
  | .writing _ (_ :: _) => s.logFile.bad = false ∧ fault = none
  | .writing _ [] => s.logFile.flushed fault = s.logFile.pending
  | .updating batch => s.logFile.isOpen = true ∨ ∀ lsn ∈ maxLSN batch, lsn ≤ s.wal.flushedLsn
  | _ => True

instance (s : State) (fault : Option Nat) : Decidable (WorkerSucceeds s fault) := by
  dsimp only [WorkerSucceeds]
  generalize s.worker = w
  rcases w with _ | ⟨_, _ | _⟩ | _ | _ | _ <;> infer_instance

def WritesThrough (s : State) : Action → Prop
  | .worker => WorkerSucceeds s none
  | .workerFault n => WorkerSucceeds s (some n)
  | _ => True

instance (s : State) : (a : Action) → Decidable (WritesThrough s a)
  | .worker => inferInstanceAs (Decidable (WorkerSucceeds s none))
  | .workerFault n => inferInstanceAs (Decidable (WorkerSucceeds s (some n)))
  | .connect | .command .. | .thread _ | .copyStore .. | .threadFault .. | .disconnect _ => .isTrue trivial

/-- The state with a stream that has not failed. -/
def State.healed (s : State) : State := { s with logFile := { s.logFile with bad := false } }

/-- A step of the worker that succeeds is one in which nothing fails, but for the state it leaves the stream in. -/
theorem workerStep_healed {s s' : State} {evs : List Event} {fault : Option Nat} (hw : WorkerSucceeds s fault)
    (h : workerStep s fault = some (s', evs)) : workerStep s.healed none = some (s'.healed, evs) := by
  obtain ⟨store, locks, wal, ⟨isOpen, bad, pending⟩, disk, worker, mtx, nextId, count, sessions, alive⟩ := s
  cases worker with
  | sleeping => cases h; rfl
  | writing batch rest =>
    cases rest with
    | nil =>
      have hall : LogFile.flushed ⟨isOpen, bad, pending⟩ fault = pending := hw
      simp only [workerStep, hall, Option.some.injEq, Prod.mk.injEq] at h
      obtain ⟨rfl, rfl⟩ := h
      cases bad with
      | false => rfl
      | true =>
        obtain rfl : [] = pending := hall
        rfl
    | cons record rest =>
      obtain ⟨hbad, hnone⟩ : bad = false ∧ fault = none := hw
      subst hbad hnone
      cases h
      rfl
  | fsyncing batch => cases h; rfl
  | updating batch =>
    simp only [workerStep] at h
    cases hm : maxLSN batch with
    | none =>
      simp only [hm] at h
      cases h
      simp [workerStep, State.healed, hm]
    | some lsn =>
      simp only [hm] at h
      cases h
      simp [workerStep, State.healed, hm]
  | notifying => cases h; rfl

/-- How far the log file is: an open one as `Pipeline` says, and a log without a file nowhere. -/
inductive LogProgress (tr : List Event) (f : Nat) (s : State) : Prop
  | opened : Pipeline tr f s.healed → LogProgress tr f s
  | unopened : LogNumbers tr s → s.logFile.isOpen = false → (∀ batch rest, s.worker ≠ .writing batch rest) →
      s.wal.flushedLsn = 0 → flushedBytes tr = [] → f = 0 → LogProgress tr f s

namespace LogProgress

variable {tr evs : List Event} {f : Nat} {s s' : State} {a : Action}

theorem initial {st : Store} (h : Server.Initial st s) : LogProgress [] 0 s := by
  cases h with
  | opened d => exact .opened (.initial d st)
  | unopened d => exact .unopened (logNumbers_initial (.unopened d)) rfl (fun _ _ h => by cases h) rfl rfl rfl

theorem numbers (h : LogProgress tr f s) : LogNumbers tr s := by
  cases h with
  | opened hp => exact ⟨hp.numbered, hp.next, hp.wellTyped⟩
  | unopened hn => exact hn

/-- Without a file the worker skips the writes. -/
theorem unopened_worker {fault : Option Nat} (hn : LogNumbers (tr ++ evs) s') (hopen : s.logFile.isOpen = false)
    (hwr : ∀ batch rest, s.worker ≠ .writing batch rest) (hlsn : s.wal.flushedLsn = 0) (hbytes : flushedBytes tr = [])
    (hsucc : WorkerSucceeds s fault) (h : workerStep s fault = some (s', evs)) : LogProgress (tr ++ evs) 0 s' := by
  cases hw : s.worker with
  | writing batch rest => exact absurd hw (hwr batch rest)
  | updating batch =>
    simp only [WorkerSucceeds, hw, hopen, Bool.false_eq_true, false_or] at hsucc
    simp only [workerStep, hw] at h
    split at h <;> cases h
    · rename_i lsn hmax
      refine .unopened hn hopen (fun _ _ h => by cases h) ?_ (by rw [List.append_nil]; exact hbytes) rfl
      rw [(Pipeline.updateFlushedLSN_flushedLsn s.wal lsn).1, Nat.max_eq_left (hsucc lsn hmax), hlsn]
    · exact .unopened hn hopen (fun _ _ h => by cases h) hlsn (by rw [List.append_nil]; exact hbytes) rfl
  | sleeping =>
    simp only [workerStep, hw, hopen] at h
    cases h
    refine .unopened hn hopen (fun batch rest => ?_) hlsn (by rw [List.append_nil]; exact hbytes) rfl
    dsimp only
    split <;> simp
  | fsyncing batch | notifying =>
    simp only [workerStep, hw] at h
    cases h
    exact .unopened hn hopen (fun _ _ h => by cases h) hlsn (by rw [List.append_nil]; exact hbytes) rfl

/-- **The log gets on record by record** as long as the writes of the worker get through. -/
theorem step (h : LogProgress tr f s) (hP : WritesThrough s a) (hs : Kvdb.step s a = some (s', evs)) :
    ∃ f', f ≤ f' ∧ LogProgress (tr ++ evs) f' s' := by
  have hn := h.numbers.step hs
  rcases step_logOnly hs with ⟨fault, rfl, hw⟩ | hlog
  · have hsucc : WorkerSucceeds s fault := by cases fault <;> exact hP
    cases h with
    | opened hp =>
      have hstep := workerStep_cases hp.isOpen hp.good (workerStep_healed hsucc hw)
      obtain ⟨f', hle, hp', -⟩ := hp.worker hstep ⟨hn.numbered, hn.next, hn.wellTyped⟩
      exact ⟨f', hle, .opened hp'⟩
    | unopened _ hopen hwr hlsn hbytes hf =>
      subst hf
      exact ⟨0, Nat.le_refl 0, unopened_worker hn hopen hwr hlsn hbytes hsucc hw⟩
  · refine ⟨f, Nat.le_refl f, ?_⟩
    cases h with
    | opened hp =>
      refine .opened (hp.other ⟨hn.numbered, hn.next, hn.wellTyped⟩ hlog.wal hlog.flushed ?_ hlog.worker)
      rw [State.healed, hlog.logFile]
      rfl
    | unopened _ hopen hwr hlsn hbytes hf =>
      refine .unopened hn ?_ ?_ (hlog.flushedLsn.trans hlsn) ?_ hf
      · rw [hlog.logFile]; exact hopen
      · rw [hlog.worker]; exact hwr
      · rw [flushedBytes_append, hbytes, hlog.flushed]; rfl

/-- What a waiter whose check succeeds may rely on. -/
theorem le_flushed (h : LogProgress tr f s) {lsn : Nat} (hle : lsn ≤ s.wal.flushedLsn)
    (hu : ∀ record ∈ s.worker.inFlight, lsn < memcpyLSN record) : lsn ≤ f := by
  cases h with
  | opened hp => exact hp.le_flushed hle hu
  | unopened _ _ _ hlsn _ hf => omega

/-- The records that have been put into the file. -/
theorem flushed (h : LogProgress tr f s) : flushedBytes tr = serialize ((logOf tr).take f) := by
  cases h with
  | opened hp => exact hp.flushed
  | unopened _ _ _ _ hbytes hf => rw [hbytes, hf]; rfl

/-- Records up to `flushed_lsn_` are in the file or in the stream. -/
theorem mem_written (h : LogProgress tr f s) {r : WALRecord} (hr : r ∈ logOf tr) (hle : r.lsn ≤ s.wal.flushedLsn) :
    r ∈ (logOf tr).take f ∨ r.raw ∈ s.worker.written := by
  cases h with
  | opened hp =>
    obtain ⟨fetched, buffered, hdrop, hf, -⟩ := List.map_eq_append_iff.mp hp.inFlight.symm
    refine (List.mem_append.mp (hp.mem_written hf.symm hdrop hr hle)).imp id fun hmem => ?_
    have hraw := List.mem_map_of_mem (f := WALRecord.raw) hmem
    rwa [List.map_take, hf, WorkerPc.take_inFlight] at hraw
  | unopened hn _ _ hlsn _ _ =>
    have := (hn.numbered.lsn_bounds hr).1
    omega

end LogProgress

/-! ## Records that are counted -/

/-- What the stream will still put into the file. -/
def LogFile.live (f : LogFile) : Bytes := if f.bad then [] else f.pending

namespace LogFile

variable (f : LogFile) {fault : Option Nat}

theorem length_live_le : f.live.length ≤ f.pending.length := by
  unfold live
  split
  · exact Nat.zero_le _
  · exact Nat.le_refl _

/-- A stream that has failed puts nothing more into the file. -/
theorem live_write (record : Bytes) (h : ¬ (f.bad = false ∧ fault = none)) : (f.write record fault).live = [] := by
  cases hbad : f.bad with
  | true => simp [write, live, hbad]
  | false =>
    cases fault with
    | none => exact absurd ⟨hbad, rfl⟩ h
    | some n => simp [write, live, hbad]

theorem live_flush (fault : Option Nat) : (f.flush fault).live = [] := by
  cases hbad : f.bad <;> simp [live, flush, hbad]

theorem flushed_le_pending (fault : Option Nat) : f.flushed fault <+: f.pending := by
  unfold flushed
  split
  · exact List.nil_prefix
  · split
    · exact List.prefix_rfl
    · exact List.take_prefix ..

end LogFile

/-- The records that `flushed_lsn_` counts are in the file or in a stream that has not failed. -/
def Accounted (tr : List Event) (s : State) : Prop :=
  serialize ((logOf tr).filter (·.lsn ≤ s.wal.flushedLsn)) <+: flushedBytes tr ++ s.logFile.live

/-- While the writes get through, `flushed_lsn_` counts the records in the file and in the stream, and no others. -/
structure CountInv (tr : List Event) (s : State) : Prop where
  progress : ∃ f, LogProgress tr f s
  bytes : flushedBytes tr ++ s.logFile.pending = serialize ((logOf tr).take s.wal.flushedLsn)
  live : s.logFile.bad = true → s.logFile.pending = []
  fetched : logOf tr = [] → s.wal.buffer = [] ∧ s.worker = .sleeping

namespace CountInv

variable {tr evs : List Event} {s s' : State} {a : Action} {fault : Option Nat}

theorem initial {st : Store} (h : Server.Initial st s) : CountInv [] s := by
  refine ⟨⟨0, .initial h⟩, ?_, ?_, ?_⟩ <;> cases h <;> simp [Server.boot, Server.bootUnopened, flushedBytes, logOf]

theorem numbers (h : CountInv tr s) : LogNumbers tr s := h.progress.elim fun _ hf => hf.numbers

theorem accounted (h : CountInv tr s) : Accounted tr s := by
  have hlive : s.logFile.live = s.logFile.pending := by
    unfold LogFile.live
    split
    · exact (h.live ‹_›).symm
    · rfl
  rw [Accounted, h.numbers.numbered.filter_le, hlive, h.bytes]

/-- As many records are counted as have been written. -/
theorem flushedLsn_eq (h : CountInv tr s) {f : Nat} (hp : Pipeline tr f s.healed) :
    s.wal.flushedLsn = f + s.worker.written.length := by
  have hlen := congrArg List.length (h.bytes.symm.trans hp.bytes)
  refine Nat.le_antisymm hp.flushedLsn (Nat.le_of_not_lt fun hlt => ?_)
  exact absurd hlen (Nat.ne_of_lt (length_serialize_take_lt hlt (Nat.lt_of_lt_of_le hlt hp.written_le)))

/-- The record that the worker writes next is the next one to be counted. -/
theorem next (h : CountInv tr s) {batch rest : List Bytes} {record : Bytes}
    (hw : s.worker = .writing batch (record :: rest)) : ∃ r, record = r.raw ∧ r.lsn = s.wal.flushedLsn + 1 ∧
      r ∈ logOf tr ∧ (logOf tr).take (s.wal.flushedLsn + 1) = (logOf tr).take s.wal.flushedLsn ++ [r] := by
  obtain ⟨f, hp | ⟨-, -, hwr, -⟩⟩ := h.progress
  · obtain ⟨done, hdone⟩ := hp.rest hw
    have hwritten : s.worker.written = done := by simp [hw, WorkerPc.written, ← hdone]
    have hlsn := h.flushedLsn_eq hp
    rw [hwritten] at hlsn
    have hin := hp.inFlight
    rw [show s.healed.worker = _ from hw, WorkerPc.inFlight, ← hdone, List.append_assoc, List.cons_append] at hin
    obtain ⟨l₁, l₂, hlog, hl₁, hl₂⟩ := List.map_eq_append_iff.mp hin.symm
    obtain ⟨r, l₃, rfl, rfl, -⟩ := List.map_eq_cons_iff.mp hl₂
    have hlen : ((logOf tr).take f ++ l₁).length = s.wal.flushedLsn := by
      rw [List.length_append, List.length_take, Nat.min_eq_left hp.le, hlsn, ← hl₁, List.length_map]
    have hsplit : logOf tr = ((logOf tr).take f ++ l₁) ++ r :: l₃ := by
      rw [List.append_assoc, ← hlog, List.take_append_drop]
    have hnum := h.numbers.numbered
    rw [hsplit] at hnum
    refine ⟨r, rfl, by rw [hnum.lsn_eq, hlen], ?_, ?_⟩
    · rw [hsplit]
      exact List.mem_append_right _ List.mem_cons_self
    · rw [hsplit, List.take_left' hlen, List.append_cons, List.take_left' (by rw [List.length_append, hlen]; rfl)]
  · exact absurd hw (hwr _ _)

/-- Counting the next record. -/
theorem noteWritten_next (h : CountInv tr s) (hn : (logOf tr).length < 2 ^ 64) {r : WALRecord} (hr : r ∈ logOf tr)
    (hlsn : r.lsn = s.wal.flushedLsn + 1) : (s.wal.noteWritten r.raw).flushedLsn = s.wal.flushedLsn + 1 := by
  have hlt : r.lsn < 2 ^ 64 := Nat.lt_of_le_of_lt (h.numbers.numbered.lsn_bounds hr).2 hn
  have hlen := r.length_raw
  rw [WALManager.noteWritten, if_pos (by omega), (Pipeline.updateFlushedLSN_flushedLsn _ _).1, memcpyLSN_raw,
    Nat.mod_eq_of_lt hlt, hlsn]
  exact Nat.max_eq_right (Nat.le_succ _)

/-- A batch that has been written moves `flushed_lsn_` no further. -/
theorem maxLSN_le (h : CountInv tr s) {batch : List Bytes} (hw : s.worker = .updating batch)
    (hsucc : WorkerSucceeds s fault) {lsn : Nat} (hmax : maxLSN batch = some lsn) : lsn ≤ s.wal.flushedLsn := by
  simp only [WorkerSucceeds, hw] at hsucc
  rcases hsucc with hopen | hle
  · obtain ⟨f, hp | ⟨-, hclosed, -⟩⟩ := h.progress
    · obtain ⟨m, hm, hmax'⟩ := hp.maxLSN_batch (Or.inr hw)
      obtain rfl : m = lsn := Option.some.inj (hmax'.symm.trans hmax)
      have hlsn := h.flushedLsn_eq hp
      omega
    · rw [hopen] at hclosed
      cases hclosed
  · exact hle lsn hmax

/-- A step of the worker that succeeds. -/
theorem worker (h : CountInv tr s) (hprogress : ∃ f, LogProgress (tr ++ evs) f s') (hn : (logOf tr).length < 2 ^ 64)
    (hsucc : WorkerSucceeds s fault) (hs : workerStep s fault = some (s', evs)) : CountInv (tr ++ evs) s' := by
  have hsame : evs = [] → s'.logFile = s.logFile → s'.wal.flushedLsn = s.wal.flushedLsn →
      (logOf tr = [] → s'.wal.buffer = [] ∧ s'.worker = .sleeping) → CountInv (tr ++ evs) s' := by
    rintro rfl hfile hlsn hfetched
    rw [List.append_nil] at hprogress ⊢
    exact ⟨hprogress, by rw [hfile, hlsn]; exact h.bytes, by rw [hfile]; exact h.live, hfetched⟩
  have hawake : s.worker ≠ .sleeping → logOf tr = [] → s'.wal.buffer = [] ∧ s'.worker = .sleeping :=
    fun hne hnil => absurd (h.fetched hnil).2 hne
  cases hw : s.worker with
  | sleeping =>
    simp only [workerStep, hw] at hs
    cases hs
    refine hsame rfl rfl rfl fun hnil => ?_
    simp [WALManager.fetchAndClearBuffer, (h.fetched hnil).1]
  | writing batch rest =>
    cases rest with
    | nil =>
      have hall : s.logFile.flushed fault = s.logFile.pending := by simpa only [WorkerSucceeds, hw] using hsucc
      have hpending : (s.logFile.flush fault).pending = [] := by
        unfold LogFile.flush
        split
        · exact h.live ‹_›
        · rfl
      simp only [workerStep, hw, hall] at hs
      cases hs
      have hlog : logOf (tr ++ [.flushed s.logFile.pending]) = logOf tr := by rw [logOf_append]; simp [logOf]
      refine ⟨hprogress, ?_, fun _ => hpending, fun hnil => ?_⟩
      · rw [hlog, hpending, List.append_nil, flushedBytes_append]
        simpa [flushedBytes] using h.bytes
      · exact absurd (h.fetched (hlog ▸ hnil)).2 (by simp [hw])
    | cons record rest =>
      obtain ⟨hbad, rfl⟩ : s.logFile.bad = false ∧ fault = none := by simpa only [WorkerSucceeds, hw] using hsucc
      obtain ⟨r, rfl, hlsn, hr, htake⟩ := h.next hw
      simp only [workerStep, hw, LogFile.write_good hbad] at hs
      cases hs
      rw [List.append_nil] at hprogress ⊢
      refine ⟨hprogress, ?_, fun hbad' => ?_, fun hnil => ?_⟩
      · dsimp only
        rw [h.noteWritten_next hn hr hlsn, htake, serialize_append, ← h.bytes, List.append_assoc]
        simp [serialize]
      · cases hbad.symm.trans hbad'
      · rw [hnil] at hr
        cases hr
  | fsyncing batch | notifying =>
    simp only [workerStep, hw] at hs
    cases hs
    exact hsame rfl rfl rfl (hawake (by simp [hw]))
  | updating batch =>
    simp only [workerStep, hw] at hs
    split at hs <;> cases hs
    · rename_i lsn hmax
      refine hsame rfl rfl ?_ (hawake (by simp [hw]))
      rw [(Pipeline.updateFlushedLSN_flushedLsn s.wal lsn).1]
      exact Nat.max_eq_left (h.maxLSN_le hw hsucc hmax)
    · exact hsame rfl rfl rfl (hawake (by simp [hw]))

theorem step (h : CountInv tr s) (hP : WritesThrough s a) (hs : Kvdb.step s a = some (s', evs))
    (hn : (logOf (tr ++ evs)).length < 2 ^ 64) : CountInv (tr ++ evs) s' := by
  obtain ⟨f, hf⟩ := h.progress
  obtain ⟨f', -, hf'⟩ := hf.step hP hs
  rw [logOf_append, List.length_append] at hn
  rcases step_logOnly hs with ⟨fault, rfl, hw⟩ | hlog
  · have hsucc : WorkerSucceeds s fault := by cases fault <;> exact hP
    exact h.worker ⟨f', hf'⟩ (by omega) hsucc hw
  · obtain ⟨hlsn, hbuffer⟩ := Pipeline.foldl_log (logOf evs) s.wal
    rw [← hlog.wal] at hlsn hbuffer
    refine ⟨⟨f', hf'⟩, ?_, by rw [hlog.logFile]; exact h.live, fun hnil => ?_⟩
    · have hle : s.wal.flushedLsn ≤ (logOf tr).length := by
        cases hf with
        | opened hp => exact hp.flushedLsn_le
        | unopened _ _ _ hzero => rw [hzero]; exact Nat.zero_le _
      rw [flushedBytes_append, hlog.flushed, List.append_nil, hlog.logFile, hlsn, take_logOf_append hle]
      exact h.bytes
    · rw [logOf_append, List.append_eq_nil_iff] at hnil
      obtain ⟨hbuf, hworker⟩ := h.fetched hnil.1
      rw [hbuffer, hbuf, hnil.2, hlog.worker]
      exact ⟨rfl, hworker⟩

/-- **A write that gets lost is counted.** -/
theorem workerSucceeds (h : CountInv tr s) (hn : (logOf tr).length < 2 ^ 64) (hs : workerStep s fault = some (s', evs))
    (hnum : Numbered (logOf (tr ++ evs))) (hacc : Accounted (tr ++ evs) s') : WorkerSucceeds s fault := by
  rw [Accounted, hnum.filter_le] at hacc
  unfold WorkerSucceeds
  split
  · -- a record that the stream does not take
    rename_i batch record rest hw
    obtain ⟨r, rfl, hlsn, hr, htake⟩ := h.next hw
    simp only [workerStep, hw] at hs
    cases hs
    by_contra hfails
    have hlen := hacc.length_le
    dsimp only at hlen
    rw [s.logFile.live_write r.raw hfails, List.append_nil, List.append_nil, h.noteWritten_next hn hr hlsn, htake,
      serialize_append, ← h.bytes, List.length_append, List.length_append] at hlen
    have hpos := List.length_pos_of_ne_nil (raw_ne_nil r)
    have hser : serialize [r] = r.raw := by simp [serialize]
    rw [hser] at hlen
    omega
  · -- bytes that do not reach the file
    rename_i batch hw
    simp only [workerStep, hw] at hs
    cases hs
    have hlog : logOf (tr ++ [.flushed (s.logFile.flushed fault)]) = logOf tr := by rw [logOf_append]; simp [logOf]
    have hflushed : flushedBytes [.flushed (s.logFile.flushed fault)] = s.logFile.flushed fault := by
      simp [flushedBytes]
    dsimp only at hacc
    rw [hlog, s.logFile.live_flush, List.append_nil, flushedBytes_append, hflushed, ← h.bytes,
      List.prefix_append_right_inj] at hacc
    exact (s.logFile.flushed_le_pending fault).eq_of_length_le hacc.length_le
  · -- a batch without a file
    rename_i batch hw
    by_contra hfails
    obtain ⟨hopen, hmoves⟩ := not_or.mp hfails
    obtain ⟨lsn, hmax, hlt⟩ : ∃ lsn, maxLSN batch = some lsn ∧ s.wal.flushedLsn < lsn := by simpa using hmoves
    have hzero : s.wal.flushedLsn = 0 := by
      obtain ⟨f, hp | ⟨-, -, -, hzero, -⟩⟩ := h.progress
      · exact absurd hp.isOpen hopen
      · exact hzero
    have hlog : 0 < (logOf tr).length := by
      refine List.length_pos_of_ne_nil fun hnil => ?_
      rw [(h.fetched hnil).2] at hw
      cases hw
    simp only [workerStep, hw, hmax] at hs
    cases hs
    have hlen := hacc.length_le
    have hlive := s.logFile.length_live_le
    have hbytes := congrArg List.length h.bytes
    have hgrows : (serialize ((logOf tr).take s.wal.flushedLsn)).length < (serialize ((logOf tr).take lsn)).length :=
      length_serialize_take_lt hlt (by rw [hzero]; exact hlog)
    rw [List.append_nil, (Pipeline.updateFlushedLSN_flushedLsn s.wal lsn).1, Nat.max_eq_right hlt.le,
      List.length_append] at hlen
    rw [List.length_append] at hbytes
    dsimp only at hlen
    omega
  · trivial

theorem writesThrough (h : CountInv tr s) (hs : Kvdb.step s a = some (s', evs))
    (hn : (logOf (tr ++ evs)).length < 2 ^ 64) (hacc : Accounted (tr ++ evs) s') : WritesThrough s a := by
  have hnum := (h.numbers.step hs).numbered
  have hn : (logOf tr).length < 2 ^ 64 := by
    rw [logOf_append, List.length_append] at hn
    omega
  have hworker : ∀ {fault}, workerStep s fault = some (s', evs) → WorkerSucceeds s fault :=
    fun hw => h.workerSucceeds hn hw hnum hacc
  cases a with
  | worker | workerFault n => exact hworker (Option.ite_none_right_eq_some.mp hs).2
  | connect | command | thread | copyStore | threadFault | disconnect => trivial

end CountInv

/-- **No record is counted that is lost**, at any moment of a run, exactly if the writes of the worker get through. -/
theorem writesThrough_iff {P : State → Action → Prop} {st : Store} {s₀ s : State} {as : List Action} {tr : List Event}
    (h0 : Server.Initial st s₀) (h : Run step P s₀ as s tr) (hn : (logOf tr).length < 2 ^ 64) :
    Run step WritesThrough s₀ as s tr ↔
      ∀ bs s₁ tr₁, bs <+: as → Run step P s₀ bs s₁ tr₁ → Accounted tr₁ s₁ := by
  have hshort : ∀ {tr evs : List Event}, (logOf (tr ++ evs)).length < 2 ^ 64 → (logOf tr).length < 2 ^ 64 := by
    intro tr evs hlt
    rw [logOf_append, List.length_append] at hlt
    omega
  have hcount : ∀ {as s tr}, Run step WritesThrough s₀ as s tr → (logOf tr).length < 2 ^ 64 → CountInv tr s :=
    fun h hn => (Run.strengthen (fun tr => (logOf tr).length < 2 ^ 64) CountInv hshort (.initial h0)
      (fun hinv hP hs hB => hinv.step hP hs hB) (fun _ hP _ _ => hP) h hn).2
  constructor
  · intro hthrough bs s₁ tr₁ hbs h₁
    obtain ⟨hrun, evs, rfl⟩ := hthrough.beginning hbs h₁
    exact (hcount hrun (hshort hn)).accounted
  · intro hacc
    -- along the beginnings of the run
    have hthrough := h.invariant_actions (fun done tr s => done <+: as → (logOf tr).length < 2 ^ 64 →
      Run step WritesThrough s₀ done s tr) (fun _ _ => .nil) fun hrun ih hP hs hdone hn => by
        have hbefore := ih ((List.prefix_append ..).trans hdone) (hshort hn)
        have hthrough := (hcount hbefore (hshort hn)).writesThrough hs hn (hacc _ _ _ hdone (hrun.snoc hP hs))
        exact hbefore.snoc hthrough hs
    exact hthrough List.prefix_rfl hn

/-! ## Commits and their records -/

section

variable {s s' : State} {a : Action} {tr evs : List Event}

/-- A commit is reported together with its record. -/
theorem CoreStep.commit_logged {c c' : Core} {l : Label} (h : CoreStep c l evs c') {cm : Commit}
    (hcm : cm ∈ commitsOf evs) : cm.record ∈ logOf evs := by
  cases h with
  | silent he | reset _ _ he => rw [commitsOf_silent he] at hcm; cases hcm
  | granted | waitGranted => rw [(lockedEvents_logsNothing ..).commits] at hcm; cases hcm
  | logCommit => rw [List.mem_singleton.mp hcm]; exact List.mem_singleton_self _
  | begin | logBegin | queued | waitFailed | read | release | startCommit | logWrite | apply | applied | startAbort
  | logAbort | abortRelease => cases hcm

/-- Every commit has its record in the log, and `waitForCommit` is called, and returns, for commits only. -/
structure CommitInv (tr : List Event) (s : State) : Prop where
  logged : ∀ c ∈ commitsOf tr, c.record ∈ logOf tr
  awaiting : ∀ {i lsn}, (s.sessions i).pc.awaits = some lsn → ∃ c ∈ commitsOf tr, c.lsn = lsn
  waited : ∀ {i lsn}, .waited i lsn ∈ tr → ∃ c ∈ commitsOf tr, c.lsn = lsn

theorem CommitInv.step (h : CommitInv tr s) (hs : Kvdb.step s a = some (s', evs)) : CommitInv (tr ++ evs) s' := by
  have hmono : ∀ {lsn}, (∃ c ∈ commitsOf tr, c.lsn = lsn) → ∃ c ∈ commitsOf (tr ++ evs), c.lsn = lsn := by
    rintro lsn ⟨c, hc, he⟩
    exact ⟨c, by rw [commitsOf_append]; exact List.mem_append_left _ hc, he⟩
  refine ⟨fun c hc => ?_, fun {i lsn} hpc => ?_, fun {i lsn} hmem => ?_⟩
  · rw [commitsOf_append] at hc
    rw [logOf_append]
    rcases List.mem_append.mp hc with hc | hc
    · exact List.mem_append_left _ (h.logged c hc)
    · exact List.mem_append_right _ ((step_core hs).commit_logged hc)
  · rcases (step_commitPc hs i).awaited hpc with ⟨hpc, -⟩ | ⟨writes, hmem⟩
    · exact hmono (h.awaiting hpc)
    · exact ⟨⟨lsn, _, writes⟩, mem_commitsOf.mpr ⟨i, List.mem_append_right _ hmem⟩, rfl⟩
  · rcases List.mem_append.mp hmem with hmem | hmem
    · exact hmono (h.waited hmem)
    · obtain ⟨j, -, he⟩ := step_ofCommit hs hmem rfl
      cases he with
      | waited hpc _ => exact hmono (h.awaiting (by rw [hpc]; rfl))

end

/-! ## Acknowledged commits -/

/-- **What is acknowledged is in the file**, whatever fails, as long as the worker does not count what has not got
through: the records up to `flushed_lsn_` are written, and a commit whose wait is over, whose buffer is being applied or
that has been answered has its record in the file. -/
theorem failed_write_not_acknowledged {st : Store} {s₀ s : State} {as : List Action} {tr : List Event}
    (h0 : Server.Initial st s₀) (h : Run step (fun s a => WritesThrough s a ∧ FlushedWait s a) s₀ as s tr) :
    ∃ written, written <+: logOf tr ∧ flushedBytes tr = serialize written ∧
      (∀ r ∈ logOf tr, r.lsn ≤ s.wal.flushedLsn → r ∈ written ∨ r.raw ∈ s.worker.written) ∧
      (∀ i lsn, .waited i lsn ∈ tr → ∃ t, ⟨lsn, t, .commit, [], []⟩ ∈ written) ∧
      (∀ i lsn ws, (s.sessions i).pc = .applying lsn ws →
        ⟨lsn, (s.sessions i).txn.txnId, .commit, [], []⟩ ∈ written) ∧
      ∀ i lsn t, .acked i lsn t ∈ tr → ⟨lsn, t, .commit, [], []⟩ ∈ written := by
  obtain ⟨f, hlog, hwait, hcom⟩ : ∃ f, LogProgress tr f s ∧ WaitInv tr f s ∧ CommitInv tr s := by
    refine Run.invariant (fun tr s => ∃ f, LogProgress tr f s ∧ WaitInv tr f s ∧ CommitInv tr s) ?_ ?_ h
    · refine ⟨0, .initial h0, waitInv_initial h0, fun c hc => (by cases hc), fun {i lsn} hpc => ?_, fun h => by cases h⟩
      cases h0 <;> cases hpc
    · rintro tr s a s' evs ⟨f, hlog, hwait, hcom⟩ ⟨hP, hW⟩ hs
      obtain ⟨f', hle, hlog'⟩ := hlog.step hP hs
      exact ⟨f', hlog', hwait.step hlog.le_flushed hle hW hs, hcom.step hs⟩
  -- a commit whose LSN the file has reached has its record there
  have hin : ∀ c ∈ commitsOf tr, c.lsn ≤ f → c.record ∈ (logOf tr).take f := by
    intro c hc hle
    rw [← hlog.numbers.numbered.filter_le]
    exact List.mem_filter.mpr ⟨hcom.logged c hc, decide_eq_true hle⟩
  refine ⟨(logOf tr).take f, List.take_prefix _ _, hlog.flushed, fun r hr hle => hlog.mem_written hr hle, ?_, ?_, ?_⟩
  · intro i lsn hw
    obtain ⟨c, hc, rfl⟩ := hcom.waited hw
    exact ⟨c.txnId, hin c hc (hwait.waited hw).1⟩
  · intro i lsn ws hpc
    have hon : (s.sessions i).pc.waited = some lsn := by rw [hpc]; rfl
    obtain ⟨hw, c, hc, rfl, ht⟩ := hwait.onward hon
    rw [← ht]
    exact hin c hc (hwait.waited hw).1
  · intro i lsn t hack
    obtain ⟨hw, c, hc, rfl, rfl⟩ := hwait.acked hack
    exact hin c hc (hwait.waited hw).1

/-- A stream that fails after its bytes have got through, and a commit that is answered. -/
theorem failed_write_not_acknowledged_flush : ∃ as s tr,
    Run step (fun s a => WritesThrough s a ∧ FlushedWait s a) (Server.boot {} ∅) as s tr ∧ s.logFile.bad = true ∧
      ∃ written, flushedBytes tr = serialize written ∧ ⟨3, 1, .commit, [], []⟩ ∈ written := by
  have hrun := exists_run_of_exec step (fun s a => WritesThrough s a ∧ FlushedWait s a) (Server.boot {} ∅)
    [.connect, .command 0 (.begin .readCommitted), .thread 0, .command 0 (.put [97] [49]), .command 0 .commit,
      .thread 0, .thread 0, .worker, .worker, .worker, .worker, .workerFault 100, .thread 0, .thread 0, .thread 0,
      .thread 0, .thread 0]
    (fun s tr => decide (s.logFile.bad = true ∧ .acked 0 3 1 ∈ tr)) (by decide +kernel)
  obtain ⟨s, tr, hr, hp⟩ := hrun
  obtain ⟨hbad, hack⟩ := of_decide_eq_true hp
  obtain ⟨written, -, hbytes, -, -, -, hacked⟩ := failed_write_not_acknowledged (.opened {}) hr
  exact ⟨_, s, tr, hr, hbad, written, hbytes, hacked 0 3 1 hack⟩

/-- A commit is acknowledged and applied although there is no log file; and one whose `COMMIT` record the stream did not
take. -/
theorem lost_write_acknowledged :
    (∃ as s tr, Run step FlushedWait (Server.bootUnopened {} ∅) as s tr ∧ .acked 0 3 1 ∈ tr ∧
      s.store.get [97] = some [49] ∧ s.wal.flushedLsn = 3 ∧ flushedBytes tr = []) ∧
    ∃ as s tr, Run step FlushedWait (Server.boot {} ∅) as s tr ∧ .workerFault 0 ∈ as ∧ .acked 0 3 1 ∈ tr ∧
      s.store.get [97] = some [49] ∧ s.wal.flushedLsn = 3 ∧ flushedBytes tr = [] := by
  have hunopened := exists_run_of_exec step FlushedWait (Server.bootUnopened {} ∅)
    [.connect, .command 0 (.begin .readCommitted), .thread 0, .command 0 (.put [97] [49]), .command 0 .commit,
      .thread 0, .thread 0, .worker, .worker, .worker, .thread 0, .thread 0, .thread 0, .thread 0, .thread 0]
    (fun s tr => decide (.acked 0 3 1 ∈ tr ∧ s.store.get [97] = some [49] ∧ s.wal.flushedLsn = 3 ∧
      flushedBytes tr = [])) (by decide +kernel)
  have hfailed := exists_run_of_exec step FlushedWait (Server.boot {} ∅)
    [.connect, .command 0 (.begin .readCommitted), .thread 0, .command 0 (.put [97] [49]), .command 0 .commit,
      .thread 0, .thread 0, .worker, .worker, .worker, .workerFault 0, .worker, .worker, .worker, .thread 0, .thread 0,
      .thread 0, .thread 0, .thread 0]
    (fun s tr => decide (.acked 0 3 1 ∈ tr ∧ s.store.get [97] = some [49] ∧ s.wal.flushedLsn = 3 ∧
      flushedBytes tr = [])) (by decide +kernel)
  obtain ⟨s, tr, hr, hp⟩ := hunopened
  obtain ⟨s', tr', hr', hp'⟩ := hfailed
  exact ⟨⟨_, s, tr, hr, of_decide_eq_true hp⟩, _, s', tr', hr', by simp, of_decide_eq_true hp'⟩

end Kvdb
