import Kvdb.LogShape
import Kvdb.RecordFormat
import Kvdb.Steps

/-!
# From the log buffer to the disk

Every record that is logged goes through the buffer of the log manager, the batch of the flush worker, the stream and
the file to the disk. `Pipeline tr f s` says where the records of a run are: the first `f` are in the file, then come
those the worker has fetched, then those in the buffer, in the order of their LSNs and without a gap. It holds along
every run in which no write fails (`pipeline_of_run`), so no record is lost on the way (`no_record_lost`).

`flushed_lsn_` runs ahead of the file: the worker advances it while it writes, before the stream is flushed and the
file synced. A waiter that looks at it in between returns too early (`acknowledged_before_sync`); it returns in time
when no fetched record up to its LSN is still on the way (`acknowledged_durable`).
-/

namespace Kvdb

/-! ## The LSN in the bytes of a record -/

theorem WALRecord.raw_lsn (r : WALRecord) : (r.raw.drop 4).take 8 = leBytes 8 r.lsn := by
  rw [r.raw_eq, ScannedRecord.bytes, ScannedRecord.body_eq, List.drop_left' (by simp), List.append_assoc,
    List.append_assoc, List.take_left' (by simp)]
  rfl

theorem WALRecord.length_raw (r : WALRecord) : 17 ≤ r.raw.length := by
  rw [r.raw_eq, ScannedRecord.length_bytes]
  omega

theorem memcpyLSN_raw (r : WALRecord) : memcpyLSN r.raw = r.lsn % 2 ^ 64 := by
  rw [memcpyLSN, r.raw_lsn, leVal_leBytes, show 256 ^ 8 = 2 ^ 64 from rfl]

theorem parseLSN_raw (r : WALRecord) : parseLSN r.raw = some (r.lsn % 2 ^ 64) := by
  have hl := r.length_raw
  have hget : ∀ i, r.raw.getD (4 + i) 0 = (r.raw.drop 4).getD i 0 := by
    intro i
    rw [List.getD_eq_getElem?_getD, List.getD_eq_getElem?_getD, List.getElem?_drop]
  rw [parseLSN, if_neg (by omega)]
  simp only [hget]
  rw [foldl_or_eq _ 8 (by rw [List.length_drop]; omega), r.raw_lsn, leVal_leBytes,
    show 256 ^ 8 = 2 ^ 64 from rfl]

/-- `flushOnce` finds the LSNs of its batch. -/
theorem maxLSN_raw {rs : List WALRecord} {n : Nat} (h : ∀ r ∈ rs, r.lsn ≤ n) :
    ∃ m ≤ n, maxLSN (rs.map WALRecord.raw) = some m := by
  suffices ∀ k ≤ n, ∃ m ≤ n, (rs.map WALRecord.raw).foldlM (fun m record => (parseLSN record).map (max m)) k = some m
    from this 0 (Nat.zero_le n)
  induction rs with
  | nil => exact fun k hk => ⟨k, hk, rfl⟩
  | cons r rs ih =>
    intro k hk
    have hr : r.lsn % 2 ^ 64 ≤ n := Nat.le_trans (Nat.mod_le _ _) (h r List.mem_cons_self)
    rw [List.map_cons, List.foldlM_cons, parseLSN_raw]
    exact ih (fun r hr => h r (List.mem_cons_of_mem _ hr)) _ (Nat.max_le.mpr ⟨hk, hr⟩)

/-! ## What a step logs -/

theorem Write.record_wellTyped (lsn : Nat) (t : TxnId) (w : Write) : (w.record lsn t).WellTyped := by
  obtain ⟨k, v, _ | _⟩ := w <;> constructor <;> simp [Write.record]

/-- A step logs at most one record, under the next LSN. -/
theorem CoreStep.logs {c c' : Core} {l : Label} {evs : List Event} (h : CoreStep c l evs c') :
    (logOf evs = [] ∧ c'.nextLsn = c.nextLsn) ∨
      ∃ r, logOf evs = [r] ∧ r.lsn = c.nextLsn ∧ r.WellTyped ∧ c'.nextLsn = c.nextLsn + 1 := by
  cases h with
  | silent he => exact Or.inl ⟨logOf_silent he, rfl⟩
  | granted | waitGranted => exact Or.inl ⟨(lockedEvents_logsNothing ..).log, rfl⟩
  | logBegin | logCommit | logAbort => exact Or.inr ⟨_, rfl, rfl, ⟨fun _ _ => rfl, fun _ => rfl⟩, rfl⟩
  | logWrite => exact Or.inr ⟨_, rfl, (Write.record_content ..).2.2.1, Write.record_wellTyped .., rfl⟩
  | reset _ _ he => exact Or.inl ⟨logOf_silent he, rfl⟩
  | begin | queued | waitFailed | read | release | startCommit | apply | applied | startAbort | abortRelease =>
    exact Or.inl ⟨rfl, rfl⟩

/-- The log of a run is numbered from `1` on. -/
structure LogNumbers (tr : List Event) (s : State) : Prop where
  numbered : Numbered (logOf tr)
  next : s.wal.nextLsn = (logOf tr).length + 1
  wellTyped : ∀ r ∈ logOf tr, r.WellTyped

theorem logNumbers_initial {st : Store} {s₀ : State} (h : Server.Initial st s₀) : LogNumbers [] s₀ := by
  cases h <;> exact ⟨rfl, rfl, by simp⟩

theorem LogNumbers.step {tr evs : List Event} {s s' : State} {a : Action} (h : LogNumbers tr s)
    (hs : step s a = some (s', evs)) : LogNumbers (tr ++ evs) s' := by
  obtain ⟨hlog, hn⟩ | ⟨r, hlog, hlsn, hr, hn⟩ := (step_core hs).logs
  · refine ⟨?_, ?_, ?_⟩ <;> rw [logOf_append, hlog, List.append_nil]
    · exact h.numbered
    · exact hn.trans h.next
    · exact h.wellTyped
  · refine ⟨?_, ?_, ?_⟩ <;> rw [logOf_append, hlog]
    · exact h.numbered.snoc (hlsn.trans h.next)
    · rw [List.length_append, List.length_singleton, ← h.next]
      exact hn
    · intro r' hr'
      rcases List.mem_append.mp hr' with hr' | hr'
      · exact h.wellTyped r' hr'
      · rw [List.mem_singleton.mp hr']; exact hr

/-! ## Where the records are -/

/-- A write or another operation on a file fails. -/
def Action.faulty : Action → Bool
  | .threadFault _ _ | .workerFault _ => true
  | _ => false

/-- The records the worker has fetched and not yet put into the file. -/
def WorkerPc.inFlight : WorkerPc → List Bytes
  | .writing batch _ => batch
  | _ => []

/-- Those of them it has written to the stream. -/
def WorkerPc.written : WorkerPc → List Bytes
  | .writing batch rest => batch.take (batch.length - rest.length)
  | _ => []

/-- The records the worker has fetched and not yet synced. -/
def WorkerPc.unsynced : WorkerPc → List Bytes
  | .writing batch _ | .fsyncing batch => batch
  | _ => []

/-- How many records are synced when `f` are in the file. -/
def WorkerPc.synced (f : Nat) : WorkerPc → Nat
  | .fsyncing batch => f - batch.length
  | _ => f

/-- The first `f` records are in the file and the others on the way, in order. -/
structure Pipeline (tr : List Event) (f : Nat) (s : State) : Prop extends LogNumbers tr s where
  isOpen : s.logFile.isOpen = true
  good : s.logFile.bad = false
  le : f ≤ (logOf tr).length
  flushed : flushedBytes tr = serialize ((logOf tr).take f)
  inFlight : s.worker.inFlight ++ s.wal.buffer = ((logOf tr).drop f).map WALRecord.raw
  rest : ∀ {batch rest}, s.worker = .writing batch rest → rest <:+ batch
  pending : s.logFile.pending = s.worker.written.flatten
  flushedLsn : s.wal.flushedLsn ≤ f + s.worker.written.length
  batch : ∀ {batch}, s.worker = .fsyncing batch ∨ s.worker = .updating batch →
    batch <:+ ((logOf tr).take f).map WALRecord.raw

namespace Pipeline

variable {tr evs : List Event} {f : Nat} {s s' : State}

theorem initial (d : Disk) (st : Store) : Pipeline [] 0 (Server.boot d st) where
  toLogNumbers := logNumbers_initial (.opened d)
  isOpen := rfl
  good := rfl
  le := Nat.le_refl 0
  flushed := rfl
  inFlight := rfl
  rest h := by cases h
  pending := rfl
  flushedLsn := Nat.le_refl 0
  batch h := by rcases h with h | h <;> cases h

theorem foldl_log (rs : List WALRecord) (wal : WALManager) :
    (rs.foldl WALManager.log wal).flushedLsn = wal.flushedLsn ∧
      (rs.foldl WALManager.log wal).buffer = wal.buffer ++ rs.map WALRecord.raw := by
  induction rs generalizing wal with
  | nil => simp
  | cons r rs ih =>
    rw [List.foldl_cons, (ih _).1, (ih _).2]
    simp [WALManager.log]

/-- A step that touches neither the stream nor the worker, and the log manager only to log. -/
theorem other (h : Pipeline tr f s) (hn : LogNumbers (tr ++ evs) s')
    (hw : s'.wal = (logOf evs).foldl WALManager.log s.wal) (hf : flushedBytes evs = [])
    (hfile : s'.logFile = s.logFile) (hworker : s'.worker = s.worker) : Pipeline (tr ++ evs) f s' := by
  have hwal := foldl_log (logOf evs) s.wal
  rw [← hw] at hwal
  have hle := h.le
  have hdrop : (logOf (tr ++ evs)).drop f = (logOf tr).drop f ++ logOf evs := by
    rw [logOf_append, List.drop_append_of_le_length hle]
  have htake := take_logOf_append hle evs
  constructor
  · exact hn
  · rw [hfile]; exact h.isOpen
  · rw [hfile]; exact h.good
  · rw [logOf_append, List.length_append]; omega
  · rw [flushedBytes_append, hf, List.append_nil, htake]; exact h.flushed
  · rw [hworker, hwal.2, hdrop, List.map_append, ← h.inFlight, List.append_assoc]
  · rw [hworker]; exact h.rest
  · rw [hfile, hworker]; exact h.pending
  · rw [hwal.1, hworker]; exact h.flushedLsn
  · rw [hworker, htake]; exact h.batch

/-- What a step of the worker does to the disk, from `f` to `f'` records in the file. -/
inductive DiskStep (log : List WALRecord) (s : State) (f : Nat) (s' : State) : Nat → Prop
  | keep : s'.disk = s.disk → s'.worker.synced f = s.worker.synced f → DiskStep log s f s' f
  | flush {f' : Nat} : f ≤ f' → f' ≤ log.length → s'.disk = { s.disk with
      walLog := s.disk.walLog.map (· ++ serialize ((log.take f').drop f)) } →
      s.worker.synced f = f → s'.worker.synced f' = f → DiskStep log s f s' f'
  | sync : s'.disk = s.disk.fsyncWal → s'.worker.synced f = f → DiskStep log s f s' f

/-- A checkpoint leaves the log manager, its stream and the worker alone. -/
theorem checkpointEffect_wal {i : SessionId} (h : CheckpointEffect s i s') :
    s'.wal = s.wal ∧ s'.logFile = s.logFile ∧ s'.worker = s.worker := by
  cases h <;> exact ⟨rfl, rfl, rfl⟩

theorem noteWritten_flushedLsn (wal : WALManager) (record : Bytes) :
    (wal.noteWritten record).flushedLsn ≤ max wal.flushedLsn (memcpyLSN record) ∧
      (wal.noteWritten record).buffer = wal.buffer := by
  unfold WALManager.noteWritten WALManager.updateFlushedLSN
  split <;> [split; skip] <;> simp

theorem updateFlushedLSN_flushedLsn (wal : WALManager) (lsn : Nat) :
    (wal.updateFlushedLSN lsn).flushedLsn = max wal.flushedLsn lsn ∧
      (wal.updateFlushedLSN lsn).buffer = wal.buffer := by
  unfold WALManager.updateFlushedLSN
  split <;> simp <;> omega

/-- The next record the worker writes has the next LSN. -/
theorem next_lsn (h : Pipeline tr f s) {done rest : List Bytes} {record : Bytes}
    (hb : s.worker.inFlight = done ++ record :: rest) : memcpyLSN record ≤ f + done.length + 1 := by
  have hmap := h.inFlight
  rw [hb, List.append_assoc, List.cons_append] at hmap
  obtain ⟨l₁, l₂, hlog, hl₁, hl₂⟩ := List.map_eq_append_iff.mp hmap.symm
  obtain ⟨r, l₃, rfl, rfl, -⟩ := List.map_eq_cons_iff.mp hl₂
  have hnum : Numbered (((logOf tr).take f ++ l₁) ++ r :: l₃) := by
    rw [List.append_assoc, ← hlog, List.take_append_drop]
    exact h.numbered
  have hlsn := hnum.lsn_eq
  have hle := h.le
  rw [List.length_append, List.length_take, Nat.min_eq_left hle, ← List.length_map (f := WALRecord.raw), hl₁] at hlsn
  rw [memcpyLSN_raw, ← hlsn]
  exact Nat.mod_le _ _

/-- The batch has reached the file. -/
theorem batch_eq (h : Pipeline tr f s) {batch : List Bytes} (hw : s.worker = .writing batch []) :
    f + batch.length ≤ (logOf tr).length ∧ batch = (((logOf tr).take (f + batch.length)).drop f).map WALRecord.raw ∧
      s.wal.buffer = ((logOf tr).drop (f + batch.length)).map WALRecord.raw := by
  have hmap := h.inFlight
  have hle := h.le
  rw [hw] at hmap
  have hlen := congrArg List.length hmap
  rw [List.length_append, List.length_map, List.length_drop] at hlen
  refine ⟨by simp only [WorkerPc.inFlight] at hlen; omega, ?_, ?_⟩
  · have htake := congrArg (List.take batch.length) hmap
    rw [WorkerPc.inFlight, List.take_left' rfl, ← List.map_take] at htake
    rw [List.drop_take, Nat.add_sub_cancel_left]
    exact htake
  · have hdrop := congrArg (List.drop batch.length) hmap
    rw [WorkerPc.inFlight, List.drop_left' rfl, ← List.map_drop, List.drop_drop] at hdrop
    exact hdrop

/-- `parseLSN` finds no LSN in the batch that is not in the file. -/
theorem maxLSN_batch (h : Pipeline tr f s) {batch : List Bytes}
    (hw : s.worker = .fsyncing batch ∨ s.worker = .updating batch) : ∃ m ≤ f, maxLSN batch = some m := by
  obtain ⟨pre, hpre⟩ := h.batch hw
  obtain ⟨l₁, l₂, hlog, -, rfl⟩ := List.map_eq_append_iff.mp hpre.symm
  refine maxLSN_raw fun r hr => ?_
  have hmem : r ∈ (logOf tr).take f := hlog ▸ List.mem_append_right _ hr
  have hle := ((h.numbered.take f).lsn_bounds hmem).2
  rw [List.length_take] at hle
  omega

/-- The worker writes a record to the stream. -/
theorem write (h : Pipeline tr f s) {batch rest : List Bytes} {record : Bytes}
    (hw : s.worker = .writing batch (record :: rest)) (hn : LogNumbers tr s')
    (hs : s' = { s with
      logFile := { s.logFile with pending := s.logFile.pending ++ record }
      wal := s.wal.noteWritten record
      worker := .writing batch rest }) : Pipeline tr f s' := by
  subst hs
  have hin := h.inFlight
  have hpend := h.pending
  have hlsn := h.flushedLsn
  obtain ⟨done, hdone⟩ := h.rest hw
  have hwritten : (WorkerPc.writing batch (record :: rest)).written = done := by simp [WorkerPc.written, ← hdone]
  have hwritten' : (WorkerPc.writing batch rest).written = done ++ [record] := by
    rw [WorkerPc.written, ← hdone, List.append_cons, List.length_append, Nat.add_sub_cancel, List.take_left' rfl]
  have hnext : memcpyLSN record ≤ f + done.length + 1 := h.next_lsn (by rw [hw, ← hdone]; rfl)
  obtain ⟨hnew, hbuf⟩ := noteWritten_flushedLsn s.wal record
  rw [hw] at hin hpend hlsn
  rw [hwritten] at hpend hlsn
  exact { h with
    toLogNumbers := hn
    inFlight := by dsimp only; rw [hbuf]; exact hin
    rest := fun he => by
      cases he
      exact ⟨done ++ [record], by rw [← hdone, List.append_assoc, List.singleton_append]⟩
    pending := by dsimp only; rw [hwritten', hpend, List.flatten_append, List.flatten_singleton]
    flushedLsn := by
      dsimp only
      rw [hwritten', List.length_append, List.length_singleton]
      omega
    batch := fun he => by rcases he with he | he <;> cases he }

/-- The worker has written its batch; the flush puts its records into the file. -/
theorem flush (h : Pipeline tr f s) {batch : List Bytes} (hw : s.worker = .writing batch [])
    (hn : LogNumbers (tr ++ [.flushed s.logFile.pending]) s')
    (hs : s' = { s with
      logFile := { s.logFile with pending := [] }
      disk := { s.disk with walLog := s.disk.walLog.map (· ++ s.logFile.pending) }
      worker := .fsyncing batch }) :
    Pipeline (tr ++ [.flushed s.logFile.pending]) (f + batch.length) s' ∧
      DiskStep (logOf tr) s f s' (f + batch.length) := by
  obtain ⟨hlen, hbatch, hbuf⟩ := h.batch_eq hw
  have hpend := h.pending
  have hlsn := h.flushedLsn
  have hwritten : (WorkerPc.writing batch []).written = batch := by simp [WorkerPc.written]
  rw [hw, hwritten] at hpend hlsn
  have hser : s.logFile.pending = serialize (((logOf tr).take (f + batch.length)).drop f) := by
    rw [hpend, serialize, List.flatMap_def, ← hbatch]
  have htr : logOf (tr ++ [Event.flushed s.logFile.pending]) = logOf tr := by rw [logOf_append]; simp [logOf]
  have hsplit : (logOf tr).take (f + batch.length) =
      (logOf tr).take f ++ ((logOf tr).take (f + batch.length)).drop f := by
    conv_lhs => rw [← List.take_append_drop f ((logOf tr).take (f + batch.length))]
    rw [List.take_take, Nat.min_eq_left (Nat.le_add_right _ _)]
  subst hs
  refine ⟨?_, .flush (Nat.le_add_right _ _) hlen ?_ (by rw [hw]; rfl) ?_⟩
  · exact { h with
      toLogNumbers := hn
      le := by rw [htr]; exact hlen
      flushed := by
        rw [flushedBytes_append, h.flushed, htr, hsplit, serialize_append, ← hser]
        simp [flushedBytes]
      inFlight := by rw [htr]; exact hbuf
      rest := fun he => by cases he
      pending := rfl
      flushedLsn := hlsn
      batch := fun he => by
        rcases he with he | he <;> cases he
        rw [htr]
        refine ⟨((logOf tr).take f).map WALRecord.raw, ?_⟩
        rw [hsplit, List.map_append, ← hbatch] }
  · dsimp only
    rw [hser]
  · simp [WorkerPc.synced]

/-- **A step of the worker keeps the records in order**, whatever it does to the disk. -/
theorem worker (h : Pipeline tr f s) (hs : WorkerStep s s' evs) (hn : LogNumbers (tr ++ evs) s') :
    ∃ f', f ≤ f' ∧ Pipeline (tr ++ evs) f' s' ∧ DiskStep (logOf tr) s f s' f' := by
  have hin := h.inFlight
  have hpend := h.pending
  have hlsn := h.flushedLsn
  cases hs with
  | idle => exact ⟨f, Nat.le_refl f, by rw [List.append_nil]; exact h, .keep rfl rfl⟩
  | fetch hw =>
    rw [hw] at hin hpend hlsn
    refine ⟨f, Nat.le_refl f, ?_, .keep rfl (by rw [hw]; rfl)⟩
    rw [List.append_nil] at hn ⊢
    exact { h with
      toLogNumbers := hn
      inFlight := by rw [← hin]; simp [WorkerPc.inFlight]
      rest := fun he => by cases he; exact List.suffix_refl _
      pending := by rw [hpend]; simp [WorkerPc.written]
      flushedLsn := by simpa [WorkerPc.written] using hlsn
      batch := fun he => by rcases he with he | he <;> cases he }
  | write hw =>
    rw [List.append_nil] at hn ⊢
    exact ⟨f, Nat.le_refl f, h.write hw hn rfl, .keep rfl (by rw [hw]; rfl)⟩
  | @flush batch hw => exact ⟨f + batch.length, Nat.le_add_right _ _, h.flush hw hn rfl⟩
  | fsync hw =>
    rw [hw] at hin hpend hlsn
    refine ⟨f, Nat.le_refl f, ?_, .sync rfl rfl⟩
    rw [List.append_nil] at hn ⊢
    exact { h with
      toLogNumbers := hn
      inFlight := hin
      rest := fun he => by cases he
      pending := hpend
      flushedLsn := hlsn
      batch := fun he => by
        rcases he with he | he <;> cases he
        exact h.batch (Or.inl hw) }
  | @update batch lsn hw hmax =>
    obtain ⟨m, hle', hm⟩ := h.maxLSN_batch (Or.inr hw)
    obtain rfl : m = lsn := Option.some.inj (hm.symm.trans hmax)
    rw [hw] at hin hpend hlsn
    refine ⟨f, Nat.le_refl f, ?_, .keep rfl (by rw [hw]; rfl)⟩
    rw [List.append_nil] at hn ⊢
    obtain ⟨hnew, hbuf⟩ := updateFlushedLSN_flushedLsn s.wal m
    exact { h with
      toLogNumbers := hn
      inFlight := by dsimp only; rw [hbuf]; exact hin
      rest := fun he => by cases he
      pending := hpend
      flushedLsn := by
        dsimp only
        rw [hnew]
        exact Nat.max_le.mpr ⟨hlsn, hle'⟩
      batch := fun he => by rcases he with he | he <;> cases he }
  | throw hw hmax =>
    obtain ⟨m, -, hm⟩ := h.maxLSN_batch (Or.inr hw)
    rw [hmax] at hm
    cases hm
  | notify hw =>
    rw [hw] at hin hpend hlsn
    refine ⟨f, Nat.le_refl f, ?_, .keep rfl (by rw [hw]; rfl)⟩
    rw [List.append_nil] at hn ⊢
    exact { h with
      toLogNumbers := hn
      inFlight := hin
      rest := fun he => by cases he
      pending := hpend
      flushedLsn := hlsn
      batch := fun he => by rcases he with he | he <;> cases he }

/-- A step of `handleCheckpoint`. -/
inductive CheckpointMove (s : State) : Action → State → Prop
  | step {i pc s'} : (s.sessions i).pc = .checkpoint pc → checkpointStep s i pc = some s' →
      CheckpointMove s (.thread i) s'
  | copy {i entries lsn file} : (s.sessions i).pc = .checkpoint (.copyStore lsn file) → s.store.IsEntries entries →
      CheckpointMove s (.copyStore i entries) (s.setPc i (.checkpoint (.writeTmp lsn file entries)))

/-- **Along every step in which no write fails**, the records stay in order. Only checkpoints touch the disk besides the
worker. -/
theorem step {a : Action} (h : Pipeline tr f s) (ha : a.faulty = false) (hs : step s a = some (s', evs)) :
    ∃ f', f ≤ f' ∧ Pipeline (tr ++ evs) f' s' ∧
      (DiskStep (logOf tr) s f s' f' ∧ ¬ CheckpointMove s a s' ∨
        f' = f ∧ evs = [] ∧ s'.worker = s.worker ∧ CheckpointMove s a s') := by
  have hn := h.toLogNumbers.step hs
  cases (step_cases hs).2 with
  | connect ha hs' he =>
    subst ha hs' he
    exact ⟨f, Nat.le_refl f, h.other hn rfl rfl rfl rfl, Or.inl ⟨.keep rfl rfl, fun hm => by cases hm⟩⟩
  | session i ha hpc _ hst =>
    refine ⟨f, Nat.le_refl f, h.other hn hst.wal hst.flushed hst.logFile hst.worker,
      Or.inl ⟨.keep hst.disk (by rw [hst.worker]), fun hm => ?_⟩⟩
    cases hm with
    | step hpc' _ | copy hpc' _ => cases ha; exact hpc _ hpc'
  | checkpoint i pc hact hpc hc he =>
    subst hact he
    obtain ⟨hwal, hfile, hworker⟩ := checkpointEffect_wal (checkpointStep_effect hc)
    exact ⟨f, Nat.le_refl f, h.other hn hwal rfl hfile hworker, Or.inr ⟨rfl, rfl, hworker, .step hpc hc⟩⟩
  | copyStore i entries lsn file hact hpc hent hs' he =>
    subst hact hs' he
    exact ⟨f, Nat.le_refl f, h.other hn rfl rfl rfl rfl, Or.inr ⟨rfl, rfl, rfl, .copy hpc hent⟩⟩
  | checkpointFault i n pc hact => rw [hact] at ha; cases ha
  | worker fault hact hw =>
    cases fault with
    | some n => rw [hact] at ha; cases ha
    | none =>
      subst hact
      obtain ⟨f', hle, hp, hd⟩ := h.worker (workerStep_cases h.isOpen h.good hw) hn
      exact ⟨f', hle, hp, Or.inl ⟨hd, fun hm => by cases hm⟩⟩

end Pipeline

/-! ## Nothing is lost on the way -/

theorem workerStep_flushedLsn {s s' : State} {evs : List Event} {fault : Option Nat}
    (h : workerStep s fault = some (s', evs)) : s.wal.flushedLsn ≤ s'.wal.flushedLsn := by
  have hupdate : ∀ lsn, s.wal.flushedLsn ≤ (s.wal.updateFlushedLSN lsn).flushedLsn := by
    intro lsn
    rw [(Pipeline.updateFlushedLSN_flushedLsn s.wal lsn).1]
    exact Nat.le_max_left _ _
  dsimp only [workerStep] at h
  split at h
  case h_2 =>
    cases h
    dsimp only [WALManager.noteWritten]
    split
    · exact hupdate _
    · exact Nat.le_refl _
  case h_5 => split at h <;> cases h <;> [exact hupdate _; exact Nat.le_refl _]
  all_goals cases h; exact Nat.le_refl _

/-- What everybody but the worker leaves alone: the log manager only gets records, the stream and the worker stay. -/
structure LogOnly (s s' : State) (evs : List Event) : Prop where
  wal : s'.wal = (logOf evs).foldl WALManager.log s.wal
  flushed : flushedBytes evs = []
  logFile : s'.logFile = s.logFile
  worker : s'.worker = s.worker

theorem LogOnly.flushedLsn {s s' : State} {evs : List Event} (h : LogOnly s s' evs) :
    s'.wal.flushedLsn = s.wal.flushedLsn := by rw [h.wal, (Pipeline.foldl_log _ _).1]

/-- **The worker alone writes the log.** -/
theorem step_logOnly {s s' : State} {a : Action} {evs : List Event} (hs : step s a = some (s', evs)) :
    (∃ fault, a = .ofFault fault ∧ workerStep s fault = some (s', evs)) ∨ LogOnly s s' evs := by
  cases (step_cases hs).2 with
  | connect _ hs' he | copyStore _ _ _ _ _ _ _ hs' he => subst hs' he; exact Or.inr ⟨rfl, rfl, rfl, rfl⟩
  | session i _ _ _ hst => exact Or.inr ⟨hst.wal, hst.flushed, hst.logFile, hst.worker⟩
  | checkpoint i pc _ _ hc he =>
    subst he
    obtain ⟨hwal, hfile, hworker⟩ := Pipeline.checkpointEffect_wal (checkpointStep_effect hc)
    exact Or.inr ⟨hwal, rfl, hfile, hworker⟩
  | checkpointFault i n pc _ _ hc he =>
    subst he
    obtain ⟨hwal, hfile, hworker⟩ := Pipeline.checkpointEffect_wal (checkpointFault_effect hc)
    exact Or.inr ⟨hwal, rfl, hfile, hworker⟩
  | worker fault hact hw => exact Or.inl ⟨fault, hact, hw⟩

/-- `flushed_lsn_` never goes back. -/
theorem step_flushedLsn {s s' : State} {a : Action} {evs : List Event} (hs : step s a = some (s', evs)) :
    s.wal.flushedLsn ≤ s'.wal.flushedLsn := by
  rcases step_logOnly hs with ⟨fault, -, hw⟩ | hlog
  · exact workerStep_flushedLsn hw
  · rw [hlog.flushedLsn]

open Machine

theorem pipeline_of_run {d : Disk} {st : Store} {s : State} {as : List Action} {tr : List Event}
    (h : Run step (fun _ a => a.faulty = false) (Server.boot d st) as s tr) : ∃ f, Pipeline tr f s := by
  refine Run.invariant (fun tr s => ∃ f, Pipeline tr f s) ⟨0, .initial d st⟩ ?_ h
  rintro tr s a s' evs ⟨f, hp⟩ ha hs
  obtain ⟨f', -, hp', -⟩ := hp.step ha hs
  exact ⟨f', hp'⟩

theorem WorkerPc.length_written (w : WorkerPc) : w.written.length ≤ w.inFlight.length := by
  unfold written inFlight
  split
  · exact List.length_take_le' _ _
  · exact Nat.le_refl 0

/-- Records up to `flushed_lsn_` are in the file or written to the stream. -/
theorem Pipeline.mem_written {tr : List Event} {f : Nat} {s : State} (h : Pipeline tr f s)
    {fetched buffered : List WALRecord} (hf : s.worker.inFlight = fetched.map WALRecord.raw)
    (hdrop : (logOf tr).drop f = fetched ++ buffered) {r : WALRecord} (hr : r ∈ logOf tr)
    (hle : r.lsn ≤ s.wal.flushedLsn) : r ∈ (logOf tr).take f ++ fetched.take s.worker.written.length := by
  have hlen : s.worker.written.length ≤ fetched.length := by
    have hw := s.worker.length_written
    rwa [hf, List.length_map] at hw
  have hmem : r ∈ (logOf tr).take (f + s.worker.written.length) := by
    rw [← h.numbered.filter_le]
    exact List.mem_filter.mpr ⟨hr, by simpa using Nat.le_trans hle h.flushedLsn⟩
  rwa [List.take_add, hdrop, List.take_append_of_le_length hlen] at hmem

theorem WorkerPc.take_inFlight (w : WorkerPc) : w.inFlight.take w.written.length = w.written := by
  cases w with
  | writing batch rest => rw [inFlight, written, List.length_take, Nat.min_eq_left (Nat.sub_le _ _)]
  | _ => rfl

theorem Pipeline.written_le {tr : List Event} {f : Nat} {s : State} (h : Pipeline tr f s) :
    f + s.worker.written.length ≤ (logOf tr).length := by
  have hlen := congrArg List.length h.inFlight
  have hle := h.le
  rw [List.length_append, List.length_map, List.length_drop] at hlen
  have hw := s.worker.length_written
  omega

theorem Pipeline.flushedLsn_le {tr : List Event} {f : Nat} {s : State} (h : Pipeline tr f s) :
    s.wal.flushedLsn ≤ (logOf tr).length := h.flushedLsn.trans h.written_le

/-- What is in the file and in the stream. -/
theorem Pipeline.bytes {tr : List Event} {f : Nat} {s : State} (h : Pipeline tr f s) :
    flushedBytes tr ++ s.logFile.pending = serialize ((logOf tr).take (f + s.worker.written.length)) := by
  have hwritten : s.worker.written = (((logOf tr).drop f).take s.worker.written.length).map WALRecord.raw := by
    rw [List.map_take, ← h.inFlight, List.take_append_of_le_length s.worker.length_written, s.worker.take_inFlight]
  rw [h.flushed, h.pending, List.take_add, serialize_append, List.append_cancel_left_eq, serialize, List.flatMap_def,
    ← hwritten]

/-! ## Waiting for a flush -/

/-- The LSN a session waits for is that of a record. -/
theorem CoreStep.applying_pos {c c' : Core} {l : Label} {evs : List Event} (h : CoreStep c l evs c')
    (hn : 0 < c.nextLsn) (hpos : ∀ i lsn ws, (c.parties i).phase = .applying lsn ws → 0 < lsn) :
    ∀ i lsn ws, (c'.parties i).phase = .applying lsn ws → 0 < lsn := by
  let pos (p : Party) : Prop := ∀ lsn ws, p.phase = .applying lsn ws → 0 < lsn
  have hset : ∀ {c₁ : Core} {i : SessionId} {p' : Party}, c₁.parties = c.parties → pos p' →
      ∀ j, pos ((c₁.setParty i p').parties j) := fun hps hp => Core.forall_setParty pos hpos hps hp
  cases h with
  | silent _ => exact hpos
  | @granted _ _ op | @waitGranted _ _ _ op => exact hset rfl fun lsn ws h => by cases op <;> cases h
  | read => exact hset rfl fun lsn ws h => by dsimp only at h; split at h <;> cases h
  | logCommit => exact hset rfl fun lsn ws h => by cases h; exact hn
  | apply hp hph => subst hp; exact hset rfl fun lsn ws h => by cases h; exact hpos _ _ _ hph
  | begin | logBegin | queued | waitFailed | release | startCommit | logWrite | applied | startAbort | logAbort
  | abortRelease | reset => exact hset rfl fun lsn ws h => by cases h

/-- No checkpoint gets past its check for active transactions. -/
def NoCheckpoint (s : State) : Action → Prop
  | .thread i => (s.sessions i).pc = .checkpoint .check → hasActiveTransactions s = true
  | _ => True

instance (s : State) (a : Action) : Decidable (NoCheckpoint s a) := by
  unfold NoCheckpoint
  split <;> infer_instance

theorem Session.notified_inCheckpoint (σ : Session) : σ.notified.pc.inCheckpoint = σ.pc.inCheckpoint := by
  unfold Session.notified
  split
  · rename_i lsn hpc
    rw [hpc]
    rfl
  · rfl

/-- A checkpoint that is not let past its check is over. -/
theorem NoCheckpoint.refused {s s' : State} {i : SessionId} {pc : CheckpointPc} (hP : NoCheckpoint s (.thread i))
    (h : (s.sessions i).pc.inCheckpoint = false) (hpc : (s.sessions i).pc = .checkpoint pc)
    (hc : checkpointStep s i pc = some s') : s' = s.setPc i .idle := by
  rw [hpc] at h
  cases pc with
  | check =>
    rw [checkpointStep, if_pos (hP hpc)] at hc
    exact (Option.some.inj hc).symm
  | _ => cases h

theorem NoCheckpoint.step {s s' : State} {a : Action} {evs : List Event} (hP : NoCheckpoint s a)
    (hs : step s a = some (s', evs)) (h : ∀ i, (s.sessions i).pc.inCheckpoint = false) (j : SessionId) :
    (s'.sessions j).pc.inCheckpoint = false := by
  have houtside : ∀ {i pc}, (s.sessions i).pc = .checkpoint pc → pc = .check := by
    intro i pc hpc
    have hi := h i
    rw [hpc] at hi
    cases pc with
    | check => rfl
    | _ => cases hi
  cases (step_cases hs).2 with
  | connect _ hs' _ => subst hs'; exact h j
  | session i _ _ _ hst =>
    by_cases hji : j = i
    · subst hji; exact hst.pc
    · rw [hst.sessions j hji]; exact h j
  | checkpoint i pc hact hpc hc _ =>
    subst hact
    rw [hP.refused (h i) hpc hc]
    by_cases hji : j = i
    · subst hji; simp [State.setPc, State.setSession, Pc.inCheckpoint]
    · rw [sessions_setPc_of_ne hji]; exact h j
  | copyStore i entries lsn file _ hpc _ _ _ => cases houtside hpc
  | checkpointFault i n pc _ hpc hc _ => rw [houtside hpc] at hc; cases hc
  | worker fault _ hw =>
    rcases (workerStep_sessions hw).2 j with hj | hj <;> rw [hj]
    · exact h j
    · rw [Session.notified_inCheckpoint]; exact h j

/-- A waiter whose check succeeds finds no record up to its LSN among `records`. -/
def ChecksBefore (records : List Bytes) (s : State) : Action → Prop
  | .thread i =>
    match (s.sessions i).pc with
    | .checkFlushed lsn => lsn ≤ s.wal.flushedLsn → ∀ record ∈ records, lsn < memcpyLSN record
    | _ => True
  | _ => True

instance (records : List Bytes) (s : State) : (a : Action) → Decidable (ChecksBefore records s a)
  | .thread i => by
    dsimp only [ChecksBefore]
    generalize (s.sessions i).pc = pc
    rcases pc with _ | _ <;> infer_instance
  | .connect | .command .. | .copyStore .. | .threadFault .. | .worker | .workerFault _ | .disconnect _ =>
    .isTrue trivial

/-- A waiter whose check succeeds finds no record up to its LSN that the worker has fetched and not yet synced. -/
def SyncedWait (s : State) (a : Action) : Prop := ChecksBefore s.worker.unsynced s a

instance (s : State) (a : Action) : Decidable (SyncedWait s a) := inferInstanceAs (Decidable (ChecksBefore _ _ _))

/-- No fetched record up to an LSN that `flushed_lsn_` has reached is on its way to the file: then they are all there.
-/
theorem Pipeline.le_flushed {tr : List Event} {f : Nat} {s : State} (h : Pipeline tr f s) {lsn : Nat}
    (hle : lsn ≤ s.wal.flushedLsn) (hu : ∀ record ∈ s.worker.inFlight, lsn < memcpyLSN record) : lsn ≤ f := by
  have hlsn := h.flushedLsn
  cases hw : s.worker with
  | sleeping | fsyncing | updating | notifying =>
    rw [hw] at hlsn
    exact Nat.le_trans hle hlsn
  | writing batch rest =>
    rw [hw] at hlsn hu
    cases batch with
    | nil => simpa [WorkerPc.written] using Nat.le_trans hle hlsn
    | cons record batch =>
      have hnext : memcpyLSN record ≤ f + ([] : List Bytes).length + 1 := h.next_lsn (by rw [hw]; rfl)
      have hlt := hu record List.mem_cons_self
      simp only [List.length_nil] at hnext
      omega

/-- Then the records up to its LSN are synced. -/
theorem Pipeline.le_synced {tr : List Event} {f : Nat} {s : State} (h : Pipeline tr f s) {lsn : Nat}
    (hle : lsn ≤ s.wal.flushedLsn) (hu : ∀ record ∈ s.worker.unsynced, lsn < memcpyLSN record) :
    lsn ≤ s.worker.synced f := by
  cases hw : s.worker with
  | sleeping | updating | notifying | writing batch rest => exact h.le_flushed hle (by rw [hw] at hu ⊢; exact hu)
  | fsyncing batch =>
    have hin : lsn ≤ f := h.le_flushed hle (by rw [hw]; simp [WorkerPc.inFlight])
    obtain ⟨pre, hpre⟩ := h.batch (Or.inl hw)
    obtain ⟨l₁, l₂, hlog, -, rfl⟩ := List.map_eq_append_iff.mp hpre.symm
    rw [hw] at hu
    have hlen := congrArg List.length hlog
    have hf := h.le
    rw [List.length_take, List.length_append] at hlen
    show lsn ≤ f - (l₂.map WALRecord.raw).length
    rw [List.length_map]
    cases l₂ with
    | nil => exact hin
    | cons r l₂ =>
      have hnum : Numbered (l₁ ++ r :: l₂) := hlog ▸ h.numbered.take f
      have hlt := hu r.raw List.mem_cons_self
      have hmod := Nat.mod_le r.lsn (2 ^ 64)
      rw [memcpyLSN_raw] at hlt
      have := hnum.lsn_eq
      omega

open Machine

/-- Without checkpoints the files are what they were at the start, and the first records follow in the log file. -/
structure FileInv (d : Disk) (tr : List Event) (f : Nat) (s : State) : Prop extends Pipeline tr f s where
  outside : ∀ i, (s.sessions i).pc.inCheckpoint = false
  walLog : s.disk.walLog = some (d.walLog.getD [] ++ serialize ((logOf tr).take f))
  dataDb : s.disk.read .dataDb = d.read .dataDb

theorem fileInv_boot (d : Disk) (st : Store) : FileInv d [] 0 (Server.boot d st) where
  toPipeline := .initial d st
  outside _ := rfl
  walLog := by simp [Server.boot]
  dataDb := rfl

theorem Disk.fsyncWal_eq (d : Disk) : ∃ file, d.fsyncWal = { d with walSynced := file } := by
  unfold Disk.fsyncWal
  split
  · exact ⟨_, rfl⟩
  · exact ⟨d.walSynced, rfl⟩

theorem Disk.fsyncWal_read (d : Disk) (path : FilePath) : d.fsyncWal.read path = d.read path := by
  unfold Disk.fsyncWal
  split <;> cases path <;> rfl

/-- What the worker has flushed comes behind what was in the log file. -/
theorem Pipeline.DiskStep.walLog {log : List WALRecord} {s s' : State} {f f' : Nat}
    (h : Pipeline.DiskStep log s f s' f') {file : Bytes} (hw : s.disk.walLog = some file) :
    s'.disk.walLog = some (file ++ serialize ((log.take f').drop f)) := by
  have hnil : serialize ((log.take f).drop f) = [] := by
    rw [List.drop_eq_nil_of_le (List.length_take_le f log), serialize_nil]
  cases h with
  | keep hd _ => rw [hd, hw, hnil, List.append_nil]
  | flush _ _ hd _ _ => rw [hd, hw]; rfl
  | sync hd _ =>
    rw [hd, hnil, List.append_nil, ← hw]
    exact Disk.fsyncWal_read s.disk .walLog

theorem Pipeline.DiskStep.le {log : List WALRecord} {s s' : State} {f f' : Nat}
    (h : Pipeline.DiskStep log s f s' f') : f ≤ f' := by
  cases h with
  | keep | sync => exact Nat.le_refl f
  | flush hle => exact hle

theorem Pipeline.DiskStep.le_length {log : List WALRecord} {s s' : State} {f f' : Nat}
    (h : Pipeline.DiskStep log s f s' f') (hf : f ≤ log.length) : f' ≤ log.length := by
  cases h with
  | keep | sync => exact hf
  | flush _ hle => exact hle

/-- Only the log file changes. -/
theorem Pipeline.DiskStep.snapshots {log : List WALRecord} {s s' : State} {f f' : Nat}
    (h : Pipeline.DiskStep log s f s' f') : s'.disk.snapshots = s.disk.snapshots ∧
      s'.disk.dataDb = s.disk.dataDb ∧ s'.disk.dataDbTmp = s.disk.dataDbTmp := by
  cases h with
  | keep hd _ | flush _ _ hd _ _ => rw [hd]; exact ⟨rfl, rfl, rfl⟩
  | sync hd _ =>
    rw [hd, Disk.fsyncWal]
    split <;> exact ⟨rfl, rfl, rfl⟩

theorem FileInv.step {d : Disk} {tr evs : List Event} {f : Nat} {s s' : State} {a : Action}
    (h : FileInv d tr f s) (ha : a.faulty = false) (hP : NoCheckpoint s a) (hs : step s a = some (s', evs)) :
    ∃ f', FileInv d (tr ++ evs) f' s' ∧ Pipeline.DiskStep (logOf tr) s f s' f' := by
  obtain ⟨f', -, hp, hd⟩ := h.toPipeline.step ha hs
  have hdisk : Pipeline.DiskStep (logOf tr) s f s' f' := by
    rcases hd with ⟨hd, -⟩ | ⟨rfl, -, hw, hm⟩
    · exact hd
    · refine .keep ?_ (by rw [hw])
      cases hm with
      | step hpc hc => rw [hP.refused (h.outside _) hpc hc]; rfl
      | copy => rfl
  clear hd
  refine ⟨f', ⟨hp, hP.step hs h.outside, ?_, ?_⟩, hdisk⟩
  · rw [hdisk.walLog h.walLog, List.append_assoc, serialize_take_le hdisk.le, take_logOf_append (hdisk.le_length h.le)]
  · obtain ⟨hsnap, hdata, -⟩ := hdisk.snapshots
    rw [← h.dataDb]
    simp only [Disk.read, hsnap, hdata]

/-- **No record is lost, duplicated or reordered** on its way to the disk: what the worker has put into the file, what
it has fetched and what is in the buffer are together the records logged so far, in the order of their LSNs.
`flushed_lsn_` never goes back and is not ahead of what is written, and both readers of an LSN find the one that was
logged. The bytes put into the file are what is in it as long as no checkpoint rewrites it. -/
theorem no_record_lost {d : Disk} {st : Store} {s : State} {as : List Action} {tr : List Event}
    (h : Run step (fun _ a => a.faulty = false) (Server.boot d st) as s tr) :
    (∃ written fetched buffered : List WALRecord, flushedBytes tr = serialize written ∧
      s.worker.inFlight = fetched.map WALRecord.raw ∧ s.wal.buffer = buffered.map WALRecord.raw ∧
      written ++ fetched ++ buffered = logOf tr ∧ (logOf tr).map (·.lsn) = List.range' 1 (s.wal.nextLsn - 1) ∧
      ∀ r ∈ logOf tr, r.lsn ≤ s.wal.flushedLsn → r ∈ written ++ fetched.take s.worker.written.length) ∧
    (∀ r ∈ logOf tr, parseLSN r.raw = some (r.lsn % 2 ^ 64) ∧ memcpyLSN r.raw = r.lsn % 2 ^ 64) ∧
    (∀ batch, s.worker = .updating batch → (maxLSN batch).isSome) ∧
    (∀ a s' evs, step s a = some (s', evs) → s.wal.flushedLsn ≤ s'.wal.flushedLsn) ∧
    (Run step (fun s a => a.faulty = false ∧ NoCheckpoint s a) (Server.boot d st) as s tr →
      s.disk.walLog = some (d.walLog.getD [] ++ flushedBytes tr)) := by
  obtain ⟨f, hp⟩ := pipeline_of_run h
  obtain ⟨fetched, buffered, hdrop, hf, hb⟩ := List.map_eq_append_iff.mp hp.inFlight.symm
  refine ⟨⟨(logOf tr).take f, fetched, buffered, hp.flushed, hf.symm, hb.symm, ?_, ?_, fun r hr hle => ?_⟩,
    fun r _ => ⟨parseLSN_raw r, memcpyLSN_raw r⟩, fun batch hw => ?_, fun a s' evs hs => step_flushedLsn hs,
    fun hn => ?_⟩
  · rw [List.append_assoc, ← hdrop, List.take_append_drop]
  · rw [hp.next, Nat.add_sub_cancel]
    exact hp.numbered
  · exact hp.mem_written hf.symm hdrop hr hle
  · obtain ⟨m, -, hm⟩ := hp.maxLSN_batch (Or.inr hw)
    rw [hm]
    rfl
  · obtain ⟨f', hfile⟩ := Run.invariant (fun tr s => ∃ f, FileInv d tr f s) ⟨0, fileInv_boot d st⟩
      (fun ⟨f, hi⟩ hP hs => (hi.step hP.1 hP.2 hs).imp fun _ hx => hx.1) hn
    rw [hfile.walLog, hfile.flushed]

/-- The worker has written one of the three records of a commit, and a second session has logged its `BEGIN`. -/
theorem no_record_lost_writing : ∃ as s tr,
    Run step (fun _ a => a.faulty = false) (Server.boot {} ∅) as s tr ∧ s.worker.inFlight.length = 3 ∧
      s.wal.flushedLsn = 1 ∧ (logOf tr).map (·.lsn) = List.range' 1 4 := by
  have hrun := exists_run_of_exec step (fun _ a => a.faulty = false) (Server.boot {} ∅)
    [.connect, .connect, .command 0 (.begin .repeatableRead), .thread 0, .command 0 (.put [97] [49]),
      .command 0 .commit, .thread 0, .thread 0, .worker, .worker, .command 1 (.begin .readCommitted), .thread 1]
    (fun s _ => decide (s.worker.inFlight.length = 3 ∧ s.wal.flushedLsn = 1 ∧ s.wal.nextLsn = 5)) (by decide +kernel)
  obtain ⟨s, tr, hr, hp⟩ := hrun
  obtain ⟨h3, h1, hn⟩ := of_decide_eq_true hp
  obtain ⟨⟨-, -, -, -, -, -, -, hlsn, -⟩, -⟩ := no_record_lost hr
  rw [hn] at hlsn
  exact ⟨_, s, tr, hr, h3, h1, hlsn⟩

/-- Where the records of a run without checkpoints are on the disk, and what the waiters rely on. -/
structure SyncInv (d : Disk) (tr : List Event) (f : Nat) (s : State) : Prop extends FileInv d tr f s where
  positive : ∀ i lsn ws, (s.core.parties i).phase = .applying lsn ws → 0 < lsn
  walSynced : s.worker.synced f = 0 ∨
    s.disk.walSynced = d.walLog.getD [] ++ serialize ((logOf tr).take (s.worker.synced f))
  waited : ∀ {i lsn}, .waited i lsn ∈ tr → 0 < lsn ∧ lsn ≤ s.worker.synced f

theorem syncInv_boot (d : Disk) (st : Store) : SyncInv d [] 0 (Server.boot d st) where
  toFileInv := fileInv_boot d st
  positive _ _ _ h := by cases h
  walSynced := Or.inl rfl
  waited h := by cases h

theorem WorkerPc.synced_le (f : Nat) (w : WorkerPc) : w.synced f ≤ f := by
  unfold WorkerPc.synced
  split <;> omega

theorem SyncInv.step {d : Disk} {tr evs : List Event} {f : Nat} {s s' : State} {a : Action}
    (h : SyncInv d tr f s) (ha : a.faulty = false) (hP : NoCheckpoint s a) (hw : SyncedWait s a)
    (hs : step s a = some (s', evs)) : ∃ f', SyncInv d (tr ++ evs) f' s' := by
  obtain ⟨f', hfile, hd⟩ := h.toFileInv.step ha hP hs
  have hle : s.worker.synced f ≤ s'.worker.synced f' := by
    cases hd with
    | keep _ he => exact Nat.le_of_eq he.symm
    | flush _ _ _ he he' => rw [he, he']
    | sync _ he => rw [he]; exact WorkerPc.synced_le f s.worker
  have hlen := h.le
  refine ⟨f', hfile, ?_, ?_, ?_⟩
  · exact (step_core hs).applying_pos (by show 0 < s.wal.nextLsn; rw [h.next]; omega) h.positive
  · cases hd with
    | keep hd he =>
      rw [hd, he, take_logOf_append (Nat.le_trans (WorkerPc.synced_le f s.worker) hlen)]
      exact h.walSynced
    | flush _ _ hd he he' =>
      rw [hd, he', take_logOf_append hlen]
      have hsync := h.walSynced
      rwa [he] at hsync
    | sync hd he =>
      right
      rw [hd, he, take_logOf_append hlen, Disk.fsyncWal, h.walLog]
  · intro i lsn hmem
    rcases List.mem_append.mp hmem with hmem | hmem
    · exact ⟨(h.waited hmem).1, Nat.le_trans (h.waited hmem).2 hle⟩
    · obtain ⟨j, rfl, hc⟩ := step_ofCommit hs hmem rfl
      cases hc with
      | waited hpc hl =>
        have hphase : (s.core.parties i).phase = .applying lsn (s.sessions i).txn.pendingBuffer.toList := by
          simp [State.core, Session.party, hpc, Pc.phase]
        have hcheck : lsn ≤ s.wal.flushedLsn → ∀ record ∈ s.worker.unsynced, lsn < memcpyLSN record := by
          simpa only [SyncedWait, ChecksBefore, hpc] using hw
        exact ⟨h.positive _ _ _ hphase, Nat.le_trans (h.le_synced hl (hcheck hl)) hle⟩

/-- **Acknowledged means durable**: when `waitForCommit` returns, and ever after, the records up to its LSN are on the
disk behind what was in the file at the start, provided that every waiter returns while none of them is on its way. -/
theorem acknowledged_durable {d : Disk} {st : Store} {s : State} {as : List Action} {tr : List Event}
    (h : Run step (fun s a => a.faulty = false ∧ NoCheckpoint s a ∧ SyncedWait s a) (Server.boot d st) as s tr)
    {i : SessionId} {lsn : Nat} (hw : .waited i lsn ∈ tr) :
    d.walLog.getD [] ++ serialize ((logOf tr).filter (·.lsn ≤ lsn)) <+: s.disk.walSynced := by
  obtain ⟨f, hinv⟩ := Run.invariant (fun tr s => ∃ f, SyncInv d tr f s) ⟨0, syncInv_boot d st⟩
    (fun ⟨f, hi⟩ hP hs => hi.step hP.1 hP.2.1 hP.2.2 hs) h
  obtain ⟨hpos, hle⟩ := hinv.waited hw
  rcases hinv.walSynced with hzero | hsynced
  · omega
  · rw [hsynced, hinv.numbered.filter_le, List.prefix_append_right_inj, ← serialize_take_le hle]
    exact List.prefix_append _ _

/-- A session commits, and returns after the worker has synced its records. -/
theorem acknowledged_durable_put : ∃ as s tr,
    Run step (fun s a => a.faulty = false ∧ NoCheckpoint s a ∧ SyncedWait s a) (Server.boot {} ∅) as s tr ∧
      .waited 0 3 ∈ tr ∧ serialize ((logOf tr).filter (·.lsn ≤ 3)) <+: s.disk.walSynced := by
  have hrun := exists_run_of_exec step (fun s a => a.faulty = false ∧ NoCheckpoint s a ∧ SyncedWait s a)
    (Server.boot {} ∅)
    [.connect, .command 0 (.begin .repeatableRead), .thread 0, .command 0 (.put [97] [49]), .command 0 .commit,
      .thread 0, .thread 0, .worker, .worker, .worker, .worker, .worker, .worker, .thread 0, .thread 0]
    (fun _ tr => decide (.waited 0 3 ∈ tr)) (by decide +kernel)
  obtain ⟨s, tr, hr, hp⟩ := hrun
  exact ⟨_, s, tr, hr, of_decide_eq_true hp, acknowledged_durable hr (of_decide_eq_true hp)⟩

/-- The worker has written the records of a commit to the stream and advanced `flushed_lsn_`. The waiter returns, and
nothing is on the disk. -/
theorem acknowledged_before_sync : ∃ as s tr,
    Run step (fun s a => a.faulty = false ∧ NoCheckpoint s a) (Server.boot {} ∅) as s tr ∧ .waited 0 3 ∈ tr ∧
      ¬ serialize ((logOf tr).filter (·.lsn ≤ 3)) <+: s.disk.walSynced := by
  have hrun := exists_run_of_exec step (fun s a => a.faulty = false ∧ NoCheckpoint s a) (Server.boot {} ∅)
    [.connect, .command 0 (.begin .repeatableRead), .thread 0, .command 0 (.put [97] [49]), .command 0 .commit,
      .thread 0, .thread 0, .worker, .worker, .worker, .worker, .thread 0, .thread 0]
    (fun s tr => decide (.waited 0 3 ∈ tr ∧ ¬ serialize ((logOf tr).filter (·.lsn ≤ 3)) <+: s.disk.walSynced))
    (by decide +kernel)
  obtain ⟨s, tr, hr, hp⟩ := hrun
  exact ⟨_, s, tr, hr, of_decide_eq_true hp⟩

end Kvdb
