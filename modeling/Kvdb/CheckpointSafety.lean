import Kvdb.Restart
import Kvdb.Snapshot
import Kvdb.Truncation
import Kvdb.Waiting

/-!
# Checkpoints under concurrency

`handleCheckpoint` looks for active transactions once, at its beginning. What comes after the check (the LSN, the copy
of the store, the rename, the truncation of the log) is not protected against transactions that begin later, and
`truncateWAL` misreads the log. A transaction can be lost by the one (`checkpoint_loses_commit`) and by the other
(`checkpoint_visible`).

If a checkpoint runs alone (`Exclusive`) and finds nothing to keep in the log (`TruncatesAll`; for which records this is
so says `truncatesAll_of_overruns`), the snapshot and the log behind it always hold the same transactions as the log
alone would (`CheckpointInv`, in terms of `OnDisk`). From this follow `checkpoint_safe` and `checkpoint_invisible`.
-/

namespace Kvdb

open Machine

/-! ## Truncation that leaves nothing -/

/-- The LSNs the loop of `truncateWAL` reads, one after the other, with fuel. -/
def segmentLsns : Nat → IStream → List Nat
  | 0, _ => []
  | n + 1, f =>
    match readSegment f with
    | none => []
    | some (lsn, f') => lsn :: segmentLsns n f'

theorem truncateLoop_eq_nil_iff {ckpt n : Nat} {f : IStream} :
    truncateLoop ckpt n f = [] ↔ ∀ lsn ∈ segmentLsns n f, lsn ≤ ckpt := by
  induction n generalizing f with
  | zero => simp [truncateLoop, segmentLsns]
  | succ n ih =>
    simp only [truncateLoop, segmentLsns]
    cases hseg : readSegment f with
    | none => simp
    | some p =>
      obtain ⟨lsn, f'⟩ := p
      -- a segment that is kept is not empty
      have hraw : f.rest.take (f.rest.length - f'.rest.length) ≠ [] := by
        have hlt := length_readSegment hseg
        refine List.ne_nil_of_length_pos ?_
        rw [List.length_take]
        omega
      dsimp only
      rw [List.append_eq_nil_iff, ih, List.forall_mem_cons]
      refine and_congr_left fun _ => ?_
      rw [ite_eq_right_iff, ← Nat.not_lt]
      exact ⟨fun h hlt => hraw (h hlt), fun h hlt => absurd hlt h⟩

/-! ## The disk while the log grows -/

/-- What a transaction that is about to commit has logged is above `m`, its `BEGIN` record apart. -/
def Core.LogsAbove (m : Nat) (log : List WALRecord) (c : Core) : Prop :=
  ∀ i ws, (c.parties i).phase = .logging ws → ∀ r ∈ log, r.txnId = (c.parties i).txn.txnId → r.type ≠ .begin → m < r.lsn

/-- New records are above what was there. -/
theorem CoreStep.lt_lsn {c c' : Core} {l : Label} {evs : List Event} (h : CoreStep c l evs c') {m : Nat}
    (hm : m < c.nextLsn) : ∀ r ∈ logOf evs, m < r.lsn := by
  intro r hr
  obtain ⟨hlog, -⟩ | ⟨r', hlog, hlsn, -⟩ := h.logs <;> rw [hlog] at hr
  · cases hr
  · rw [List.mem_singleton.mp hr, hlsn]
    exact hm

theorem CoreStep.logsAbove {c c' : Core} {l : Label} {evs tr : List Event} (h : CoreStep c l evs c') {m : Nat}
    (hlog : LogInv (begunOf tr) (logOf tr) (commitsOf tr) c) (hm : m < c.nextLsn)
    (hinv : c.LogsAbove m (logOf tr)) : c'.LogsAbove m (logOf (tr ++ evs)) := by
  have hnew := h.lt_lsn hm
  rw [logOf_append]
  let above (p : Party) : Prop := ∀ ws, p.phase = .logging ws →
    ∀ r ∈ logOf tr ++ logOf evs, r.txnId = p.txn.txnId → r.type ≠ .begin → m < r.lsn
  have hold : ∀ j, above (c.parties j) := by
    intro j ws hph r hr ht hb
    rcases List.mem_append.mp hr with hr | hr
    · exact hinv j ws hph r hr ht hb
    · exact hnew r hr
  have hset : ∀ {c₁ : Core} {i : SessionId} {p' : Party}, c₁.parties = c.parties → above p' →
      ∀ j, above ((c₁.setParty i p').parties j) := fun hps hp => Core.forall_setParty above hold hps hp
  cases h with
  | silent _ => exact hold
  | @granted _ _ op | @waitGranted _ _ _ op => exact hset rfl fun ws h => by cases op <;> cases h
  | read => exact hset rfl fun ws h => by dsimp only at h; split at h <;> cases h
  | @logWrite _ i p _ _ hp hph => subst hp; exact hset rfl fun ws _ => hold i _ hph
  | @startCommit i p hp hph hact =>
    subst hp
    refine hset rfl fun ws _ r hr ht hb => ?_
    -- a transaction that starts to commit has logged no more than its `BEGIN` record
    have hnone := (hlog.parties hact).unlogged (by rw [hph]; rfl)
    rw [logOf_nil, List.append_nil] at hr
    have hmem : r.content ∈ recordsOf (c.parties i).txn.txnId (logOf tr) :=
      List.mem_map_of_mem (List.mem_filter.mpr ⟨hr, by simpa using ⟨ht, hb⟩⟩)
    rw [hnone] at hmem
    cases hmem
  | begin | logBegin | queued | waitFailed | release | logCommit | apply | applied | startAbort | logAbort
  | abortRelease | reset => exact hset rfl fun ws h => by cases h

theorem serialize_drop_take {log : List WALRecord} {d f f' : Nat} (hd : d ≤ f) (hf : f ≤ f') (hlen : f ≤ log.length) :
    serialize ((log.take f).drop d) ++ serialize ((log.take f').drop f) = serialize ((log.take f').drop d) := by
  have hsplit : log.take f' = log.take f ++ (log.take f').drop f := by
    conv_lhs => rw [← List.take_append_drop f (log.take f')]
    rw [List.take_take, Nat.min_eq_left hf]
  have hdrop : (log.take f').drop d = (log.take f).drop d ++ (log.take f').drop f := by
    conv_lhs => rw [hsplit]
    exact List.drop_append_of_le_length (by rw [List.length_take]; omega)
  rw [hdrop, serialize_append]

/-- What is on the disk stays there while the log grows and is flushed. -/
theorem OnDisk.step {tr evs : List Event} {l : Label} {f f' c d : Nat} {s s' : State}
    (h : OnDisk (logOf tr) (commitsOf tr) f c d s.disk) (hs : CoreStep s.core l evs s'.core)
    (hlog : LogInv (begunOf tr) (logOf tr) (commitsOf tr) s.core)
    (habove : s.core.LogsAbove (max c d) (logOf tr)) (hf : f ≤ (logOf tr).length) (hle : f ≤ f')
    (hd : Pipeline.DiskStep (logOf tr) s f s' f') :
    OnDisk (logOf (tr ++ evs)) (commitsOf (tr ++ evs)) f' c d s'.disk := by
  have hbound := h.bound
  have hm : max c d < s.core.nextLsn := by rw [hlog.next]; omega
  have hnew := hs.lt_lsn hm
  -- a new commit comes after the checkpoint, with all its writes
  have hcommit : ∀ cm ∈ commitsOf evs, max c d < cm.lsn ∧
      ∀ r ∈ logOf tr, r.txnId = cm.txnId → r.type ≠ .begin → max c d < r.lsn := by
    intro cm hcm
    obtain ⟨-, he | ⟨i, writes, hph, he, -⟩⟩ := hs.commits <;> rw [he] at hcm
    · cases hcm
    · rw [List.mem_singleton.mp hcm]
      exact ⟨hm, habove i _ hph⟩
  obtain ⟨hsnap, hdata, -⟩ := hd.snapshots
  constructor
  · have hnone : (commitsOf evs).filter (·.lsn ≤ max c d) = [] :=
      List.filter_eq_nil_iff.mpr fun cm hcm => by
        have := (hcommit cm hcm).1
        simp only [decide_eq_true_eq]
        omega
    rw [commitsOf_append, List.filter_append, hnone, List.append_nil, ← h.snapshot]
    simp only [Disk.read, hsnap, hdata]
  · rw [hd.walLog h.walLog, serialize_drop_take h.le hle hf, take_logOf_append (hd.le_length hf)]
  · exact Nat.le_trans h.le hle
  · rw [logOf_append, List.length_append]
    omega
  · intro cm hcm hlt r hr ht hb
    rw [logOf_append] at hr
    rw [commitsOf_append] at hcm
    rcases List.mem_append.mp hr with hr | hr
    · rcases List.mem_append.mp hcm with hcm | hcm
      · exact h.whole cm hcm hlt r hr ht hb
      · exact (hcommit cm hcm).2 r hr ht hb
    · exact hnew r hr
  · intro cm hcm hlt
    rw [commitsOf_append] at hcm
    rcases List.mem_append.mp hcm with hcm | hcm
    · exact Nat.le_trans (h.flushed cm hcm hlt) hle
    · have := (hcommit cm hcm).1
      omega

/-! ## The snapshot files -/

/-- The temporary file is there, with the given contents, and is not the snapshot. -/
structure Disk.Tmp (d : Disk) (file : Nat) (bytes : Bytes) : Prop where
  path : d.dataDbTmp = some file
  contents : d.snapshots[file]? = some bytes
  other : d.dataDb ≠ some file

/-- The snapshot is one of the files. -/
def Disk.HasSnapshot (d : Disk) : Prop := ∀ file, d.dataDb = some file → file < d.snapshots.length

/-- The two paths name two of the files. -/
structure Disk.NamesApart (d : Disk) : Prop where
  hasSnapshot : d.HasSnapshot
  tmp : ∀ file, d.dataDbTmp = some file → file < d.snapshots.length ∧ d.dataDb ≠ some file

theorem Disk.HasSnapshot.namesApart {d : Disk} (hs : d.HasSnapshot) (h : d.dataDbTmp = none) : d.NamesApart :=
  ⟨hs, fun file hfile => by rw [h] at hfile; cases hfile⟩

theorem Disk.openTmp_spec {d : Disk} (h : d.NamesApart) :
    d.openTmp.1.Tmp d.openTmp.2 [] ∧ d.openTmp.1.HasSnapshot ∧ d.openTmp.1.dataDb = d.dataDb ∧
      d.openTmp.1.read .dataDb = d.read .dataDb ∧ d.openTmp.1.walLog = d.walLog := by
  unfold Disk.openTmp
  split
  · rename_i file hfile
    obtain ⟨hlt, hother⟩ := h.tmp file hfile
    refine ⟨⟨hfile, by simp [hlt], hother⟩, fun k he => ?_, rfl, ?_, rfl⟩
    · simpa using h.hasSnapshot k he
    · simp only [Disk.read]
      cases hd : d.dataDb with
      | none => rfl
      | some k =>
        have hne : file ≠ k := fun he => hother (by rw [hd, he])
        simp [hne]
  · refine ⟨⟨rfl, by simp, fun he => ?_⟩, fun k he => ?_, rfl, ?_, rfl⟩
    · exact absurd (h.hasSnapshot _ he) (Nat.lt_irrefl _)
    · have := h.hasSnapshot k he
      simp only [List.length_append]
      omega
    · simp only [Disk.read]
      cases hd : d.dataDb with
      | none => rfl
      | some k => exact List.getElem?_append_left (h.hasSnapshot k hd)

theorem Disk.writeSnapshot_spec {d : Disk} {file : Nat} (h : d.Tmp file []) (hs : d.HasSnapshot) (bytes : Bytes) :
    (d.writeSnapshot file bytes).Tmp file bytes ∧ (d.writeSnapshot file bytes).HasSnapshot ∧
      (d.writeSnapshot file bytes).read .dataDb = d.read .dataDb := by
  refine ⟨⟨h.path, ?_, h.other⟩, fun k he => ?_, ?_⟩
  · simp [Disk.writeSnapshot, h.contents, overwrite]
  · simp only [Disk.writeSnapshot, List.length_modify]
    exact hs k he
  · simp only [Disk.read, Disk.writeSnapshot]
    cases hd : d.dataDb with
    | none => rfl
    | some k =>
      have hne : file ≠ k := fun he => h.other (by rw [hd, he])
      simp [List.getElem?_modify, hne]

/-- The files that `recover` reads are all that matters. -/
theorem OnDisk.of_read {log : List WALRecord} {cs : List Commit} {f c d : Nat} {disk disk' : Disk}
    (h : OnDisk log cs f c d disk) (hr : disk'.read .dataDb = disk.read .dataDb) (hw : disk'.walLog = disk.walLog) :
    OnDisk log cs f c d disk' := { h with snapshot := by rw [hr]; exact h.snapshot, walLog := hw.trans h.walLog }

/-! ## Checkpoints that run alone -/

/-- The LSN of a checkpoint covers the commits, and is one that has been handed out. -/
def Covers (cs : List Commit) (n lsn : Nat) : Prop := (∀ cm ∈ cs, cm.lsn ≤ lsn) ∧ lsn ≤ n

/-- What holds of the disk at the points of a checkpoint during which no transaction commits: `n` records have been
logged, and the snapshot and the beginning of the log that is gone reach up to `m`. -/
def CheckpointPc.Holds (cs : List Commit) (n m : Nat) (d : Disk) : CheckpointPc → Prop
  | .check => True
  | .fsyncWal | .readLsn | .fsyncRewritten => d.dataDbTmp = none
  | .openTmp lsn => d.dataDbTmp = none ∧ Covers cs n lsn
  | .copyStore lsn file => d.Tmp file [] ∧ Covers cs n lsn
  | .writeTmp lsn file entries => d.Tmp file [] ∧ Covers cs n lsn ∧ (applyCommits ∅ cs).IsEntries entries
  | .fsyncTmp lsn | .rename lsn => ∃ file entries, d.Tmp file (snapshotBytes lsn entries) ∧ Covers cs n lsn ∧
      (applyCommits ∅ cs).IsEntries entries
  | .readWal _ => d.dataDbTmp = none ∧ ∀ cm ∈ cs, cm.lsn ≤ m
  | .truncate remaining => remaining = [] ∧ d.dataDbTmp = none ∧ ∀ cm ∈ cs, cm.lsn ≤ m
  | .rewrite remaining => remaining = [] ∧ d.dataDbTmp = none

theorem CheckpointPc.Holds.mono {cs : List Commit} {n n' m : Nat} {d d' : Disk} {pc : CheckpointPc}
    (h : pc.Holds cs n m d) (hn : n ≤ n') (hs : d'.snapshots = d.snapshots) (hd : d'.dataDb = d.dataDb)
    (ht : d'.dataDbTmp = d.dataDbTmp) : pc.Holds cs n' m d' := by
  have htmp : ∀ {file bytes}, d.Tmp file bytes → d'.Tmp file bytes := fun h =>
    ⟨by rw [ht]; exact h.path, by rw [hs]; exact h.contents, by rw [hd]; exact h.other⟩
  have hcov : ∀ {lsn}, Covers cs n lsn → Covers cs n' lsn := fun h => ⟨h.1, Nat.le_trans h.2 hn⟩
  cases pc with
  | check => trivial
  | fsyncWal | readLsn | fsyncRewritten => exact ht.trans h
  | openTmp lsn => exact ⟨ht.trans h.1, hcov h.2⟩
  | copyStore lsn file => exact ⟨htmp h.1, hcov h.2⟩
  | writeTmp lsn file entries => exact ⟨htmp h.1, hcov h.2.1, h.2.2⟩
  | fsyncTmp lsn | rename lsn =>
    obtain ⟨file, entries, h1, h2, h3⟩ := h
    exact ⟨file, entries, htmp h1, hcov h2, h3⟩
  | readWal lsn => exact ⟨ht.trans h.1, h.2⟩
  | truncate remaining => exact ⟨h.1, ht.trans h.2.1, h.2.2⟩
  | rewrite remaining => exact ⟨h.1, ht.trans h.2⟩

/-- Where in `handleCheckpoint` a session is, after the check for active transactions. -/
def Pc.inside : Pc → Option CheckpointPc
  | .checkpoint .check => none
  | .checkpoint pc => some pc
  | _ => none

theorem Pc.inside_eq_none {pc : Pc} (h : pc.inCheckpoint = false) : pc.inside = none := by
  cases pc with
  | checkpoint q => cases q <;> first | rfl | cases h
  | _ => rfl

theorem Session.notified_inside (σ : Session) : σ.notified.pc.inside = σ.pc.inside := by
  unfold Session.notified
  split
  · rename_i lsn hpc
    rw [hpc]
    rfl
  · rfl

/-- Only its own steps move a checkpoint. -/
theorem step_inside {s s' : State} {a : Action} {evs : List Event} (hs : step s a = some (s', evs))
    (ha : a.faulty = false) (hno : ¬ Pipeline.CheckpointMove s a s') (j : SessionId) :
    (s'.sessions j).pc.inside = (s.sessions j).pc.inside := by
  cases (step_cases hs).2 with
  | connect _ hs' _ => subst hs'; rfl
  | session i _ hpc _ hst =>
    by_cases hji : j = i
    · subst hji
      have hold : (s.sessions j).pc.inside = none := by
        cases hj : (s.sessions j).pc with
        | checkpoint pc => exact absurd hj (hpc pc)
        | _ => rfl
      rw [Pc.inside_eq_none hst.pc, hold]
    · rw [hst.sessions j hji]
  | checkpoint i pc hact hpc hc _ => subst hact; exact absurd (.step hpc hc) hno
  | copyStore i entries lsn file hact hpc he hs' _ => subst hact hs'; exact absurd (.copy hpc he) hno
  | checkpointFault i n pc hact => rw [hact] at ha; cases ha
  | worker fault _ hw =>
    rcases (workerStep_sessions hw).2 j with hj | hj <;> rw [hj]
    exact Session.notified_inside _

/-- No session is inside `commit`, and the `COMMIT` records are in the file. -/
structure Quiet (tr : List Event) (f : Nat) (s : State) : Prop where
  noCommit : ∀ j, (s.sessions j).pc.inCommit = false
  flushed : ∀ cm ∈ commitsOf tr, cm.lsn ≤ f ∧ cm.lsn ≤ s.wal.flushedLsn

/-- At most one session takes a checkpoint, and meanwhile no transaction commits. -/
structure CheckpointInv (tr : List Event) (f c d : Nat) (s : State) : Prop where
  unique : ∀ {i j p q}, (s.sessions i).pc.inside = some p → (s.sessions j).pc.inside = some q → i = j
  running : ∀ {i pc}, (s.sessions i).pc.inside = some pc →
    Quiet tr f s ∧ pc.Holds (commitsOf tr) (logOf tr).length (max c d) s.disk
  tmp : (∀ i, (s.sessions i).pc.inside = none) → s.disk.dataDbTmp = none
  hasSnapshot : s.disk.HasSnapshot
  above : s.core.LogsAbove (max c d) (logOf tr)
  onDisk : OnDisk (logOf tr) (commitsOf tr) f c d s.disk

/-- What holds along the runs in which checkpoints are safe. -/
structure SafeInv (tr : List Event) (f c d : Nat) (s : State) : Prop extends
    Pipeline tr f s, CheckpointInv tr f c d s where
  txn : TxnInv ∅ tr s
  ids : IdInv (begunOf tr) s.core
  log : LogInv (begunOf tr) (logOf tr) (commitsOf tr) s.core
  short : ShortInv (logOf tr) (commitsOf tr) s.core
  wait : WaitInv tr f s

theorem safeInv_boot : SafeInv [] 0 0 0 (Server.boot {} ∅) where
  toPipeline := .initial {} ∅
  unique h := by cases h
  running h := by cases h
  tmp _ := rfl
  hasSnapshot _ h := by cases h
  above _ _ h := by cases h
  onDisk := ⟨rfl, rfl, Nat.le_refl 0, Nat.le_refl 0, fun _ h => (by cases h), fun _ h => (by cases h)⟩
  txn := txnInv_initial (.opened {})
  ids := idInv_initial (.opened {})
  log := logInv_initial (.opened {})
  short := shortInv_initial (.opened {})
  wait := waitInv_initial (.opened {})

/-- A checkpoint runs alone: no transaction starts to commit while it goes on, and no other checkpoint does. -/
def Exclusive (s : State) : Action → Prop
  | .command i .commit => (s.sessions i).txn.state = .active →
      ∀ j < s.sessionCount, (s.sessions j).pc.inCheckpoint = false
  | .thread i => (s.sessions i).pc = .checkpoint .check → hasActiveTransactions s = false →
      ∀ j < s.sessionCount, (s.sessions j).pc.inCheckpoint = false
  | _ => True

instance (s : State) : (a : Action) → Decidable (Exclusive s a)
  | .command i .commit => inferInstanceAs (Decidable ((s.sessions i).txn.state = .active →
      ∀ j < s.sessionCount, (s.sessions j).pc.inCheckpoint = false))
  | .thread i => inferInstanceAs (Decidable ((s.sessions i).pc = .checkpoint .check → hasActiveTransactions s = false →
      ∀ j < s.sessionCount, (s.sessions j).pc.inCheckpoint = false))
  | .command _ (.begin _) | .command _ (.put ..) | .command _ (.get _) | .command _ (.delete _) | .command _ .abort
  | .command _ .checkpoint | .command _ .quit | .connect | .copyStore .. | .threadFault .. | .worker | .workerFault _
  | .disconnect _ => .isTrue trivial

/-- What `truncateWAL` takes for records has no LSN above the checkpoint's. -/
def TruncatesAll (s : State) : Action → Prop
  | .thread i =>
    match (s.sessions i).pc, s.disk.walLog with
    | .checkpoint (.readWal ckpt), some file => ∀ lsn ∈ segmentLsns file.length ⟨file, true⟩, lsn ≤ ckpt
    | _, _ => True
  | _ => True

instance (s : State) : (a : Action) → Decidable (TruncatesAll s a)
  | .thread i => by
    dsimp only [TruncatesAll]
    generalize (s.sessions i).pc = pc, s.disk.walLog = log
    rcases pc with _ | _ <;> try infer_instance
    rename_i pc
    rcases pc with _ | _ <;> rcases log with _ | file <;> infer_instance
  | .connect | .command .. | .copyStore .. | .threadFault .. | .worker | .workerFault _ | .disconnect _ =>
    .isTrue trivial

section TruncatesAll

variable {s : State} {i : SessionId} {ckpt : Nat}

/-- It is a condition on the bytes of the log: nothing of them is kept. -/
theorem truncatesAll_iff {file : Bytes} (hpc : (s.sessions i).pc = .checkpoint (.readWal ckpt))
    (hfile : s.disk.walLog = some file) : TruncatesAll s (.thread i) ↔ truncateWAL ckpt file = [] := by
  simp only [TruncatesAll, hpc, hfile]
  exact truncateLoop_eq_nil_iff.symm

/-- On records: it holds if the first record that is not a `PUT` record (a `BEGIN` record at the front, where the log
starts with a transaction) is followed by two bytes that exceed the rest of the log as a length. They are the low half
of the next record's checksum. -/
theorem truncatesAll_of_overruns {puts after : List WALRecord} {r : WALRecord}
    (hpc : (s.sessions i).pc = .checkpoint (.readWal ckpt))
    (hfile : s.disk.walLog = some (serialize (puts ++ r :: after))) (hfit : ∀ r' ∈ puts, r'.Fits)
    (hput : ∀ r' ∈ puts, r'.type = .put) (hle : ∀ r' ∈ puts, r'.lsn ≤ ckpt) (hfitr : r.Fits) (hr : r.type ≠ .put)
    (hover : Overruns (serialize after)) : TruncatesAll s (.thread i) :=
  (truncatesAll_iff hpc hfile).mpr (truncateWAL_overruns hfit hput hle hfitr hr hover)

end TruncatesAll

theorem State.Unconnected.inside {s : State} (hu : s.Unconnected)
    (h : ∀ j < s.sessionCount, (s.sessions j).pc.inCheckpoint = false) (j : SessionId) :
    (s.sessions j).pc.inside = none := by
  by_cases hj : j < s.sessionCount
  · exact Pc.inside_eq_none (h j hj)
  · rw [hu j (Nat.le_of_not_lt hj)]
    rfl

theorem Pc.inCommit_of_phase {pc : Pc} {txn : TransactionInfo}
    (h : (∃ ws, pc.phase txn = .logging ws) ∨ (pc.phase txn).isApplying = true) : pc.inCommit = true := by
  cases pc <;> first | rfl | (rcases h with ⟨ws, h⟩ | h <;> cases h)

theorem Pc.phase_ne_running {pc : Pc} {txn : TransactionInfo} (h : pc.inCommit = true) : pc.phase txn ≠ .running := by
  cases pc <;> first | (intro h'; cases h'; done) | cases h

/-- Where no session is inside `commit`, none logs. -/
theorem logsAbove_of_noCommit {s : State} (h : ∀ j, (s.sessions j).pc.inCommit = false) (m : Nat)
    (log : List WALRecord) : s.core.LogsAbove m log := by
  intro i ws hph
  have := h i
  rw [Pc.inCommit_of_phase (Or.inl ⟨ws, hph⟩)] at this
  cases this

/-! ## Steps -/

section Steps

variable {tr evs : List Event} {f f' c d c' d' : Nat} {s s' : State} {a : Action} {i : SessionId}

/-- While a checkpoint goes on, no transaction starts to commit. -/
theorem Quiet.step (h : Quiet tr f s) (hs : step s a = some (s', evs)) (hle : f ≤ f')
    (hx : ∀ j, a = .command j .commit → (s.sessions j).txn.state ≠ .active) :
    commitsOf evs = [] ∧ Quiet (tr ++ evs) f' s' := by
  have hno : ∀ j, (s'.sessions j).pc.inCommit = false := by
    intro j
    by_contra hj
    rcases (step_commitPc hs j).inCommit (by simpa using hj) with hj | ⟨ha, hact⟩
    · rw [h.noCommit j] at hj
      cases hj
    · exact hx j ha hact
  have hnone : commitsOf evs = [] := by
    refine List.eq_nil_iff_forall_not_mem.mpr fun cm hcm => ?_
    obtain ⟨j, hmem⟩ := mem_commitsOf.mp hcm
    obtain ⟨i, -, he⟩ := step_ofCommit hs hmem rfl
    cases he with
    | committed hpc =>
      have := hno j
      rw [hpc] at this
      cases this
  refine ⟨hnone, hno, fun cm hcm => ?_⟩
  rw [commitsOf_append, hnone, List.append_nil] at hcm
  obtain ⟨h1, h2⟩ := h.flushed cm hcm
  exact ⟨Nat.le_trans h1 hle, Nat.le_trans h2 (step_flushedLsn hs)⟩

/-- A step that moves no checkpoint. -/
theorem CheckpointInv.other (h : CheckpointInv tr f c d s) (hu : s.Unconnected)
    (hlog : LogInv (begunOf tr) (logOf tr) (commitsOf tr) s.core) (hf : f ≤ (logOf tr).length)
    (hs : step s a = some (s', evs)) (hx : Exclusive s a) (hle : f ≤ f')
    (hd : Pipeline.DiskStep (logOf tr) s f s' f')
    (hin : ∀ j, (s'.sessions j).pc.inside = (s.sessions j).pc.inside) : CheckpointInv (tr ++ evs) f' c d s' := by
  obtain ⟨hsnap, hdata, htmp⟩ := hd.snapshots
  have hbound := h.onDisk.bound
  constructor
  · intro i j p q hi hj
    rw [hin] at hi hj
    exact h.unique hi hj
  · intro i pc hi
    rw [hin] at hi
    obtain ⟨hq, hholds⟩ := h.running hi
    obtain ⟨hnone, hq'⟩ := hq.step hs hle fun j ha hact => by
      subst ha
      rw [hu.inside (hx hact) i] at hi
      cases hi
    rw [commitsOf_append, hnone, List.append_nil, logOf_append, List.length_append]
    exact ⟨hq', hholds.mono (Nat.le_add_right _ _) hsnap hdata htmp⟩
  · intro hall
    rw [htmp]
    exact h.tmp fun j => by rw [← hin]; exact hall j
  · intro file hfile
    rw [hsnap]
    exact h.hasSnapshot file (by rw [← hdata]; exact hfile)
  · exact (step_core hs).logsAbove hlog (by rw [hlog.next]; omega) h.above
  · exact h.onDisk.step (step_core hs) hlog h.above hf hle hd

/-- Only one session is inside a checkpoint. -/
theorem CheckpointInv.others (h : CheckpointInv tr f c d s) {pc : CheckpointPc}
    (hin : (s.sessions i).pc.inside = some pc) (j : SessionId) (hj : j ≠ i) : (s.sessions j).pc.inside = none := by
  cases hjn : (s.sessions j).pc.inside with
  | none => rfl
  | some q => exact absurd (h.unique hjn hin) hj

/-- The session that takes the checkpoint goes on. -/
theorem CheckpointInv.advance (hothers : ∀ j, j ≠ i → (s.sessions j).pc.inside = none) (hq : Quiet tr f s)
    (disk : Disk) (pc : Pc) (hpc : pc.inCommit = false) (hsnap : disk.HasSnapshot)
    (htmp : pc.inside = none → disk.dataDbTmp = none)
    (hholds : ∀ q, pc.inside = some q → q.Holds (commitsOf tr) (logOf tr).length (max c d) disk)
    (hdisk : OnDisk (logOf tr) (commitsOf tr) f c d disk) :
    CheckpointInv tr f c d ({ s with disk := disk }.setPc i pc) := by
  have hi : (({ s with disk := disk }.setPc i pc).sessions i).pc = pc := by simp [State.setPc, State.setSession]
  have hj : ∀ {j}, j ≠ i → ({ s with disk := disk }.setPc i pc).sessions j = s.sessions j :=
    fun hne => sessions_setPc_of_ne hne ..
  have hno : ∀ j, (({ s with disk := disk }.setPc i pc).sessions j).pc.inCommit = false := by
    intro j
    by_cases hji : j = i
    · subst hji; rw [hi]; exact hpc
    · rw [hj hji]; exact hq.noCommit j
  have heq : ∀ {j q}, (({ s with disk := disk }.setPc i pc).sessions j).pc.inside = some q → j = i := by
    intro j q hin
    by_contra hji
    rw [hj hji, hothers j hji] at hin
    cases hin
  refine ⟨fun h1 h2 => (heq h1).trans (heq h2).symm, fun {j q} hin => ⟨⟨hno, hq.flushed⟩, ?_⟩, fun hall => ?_, hsnap,
    logsAbove_of_noCommit hno _ _, hdisk⟩
  · obtain rfl := heq hin
    rw [hi] at hin
    exact hholds q hin
  · have := hall i
    rw [hi] at this
    exact htmp this

/-- Without active transactions no session is inside `commit`, and what was committed has been waited for. -/
theorem SafeInv.quiet (h : SafeInv tr f c d s) (hact : hasActiveTransactions s = false) : Quiet tr f s := by
  have hno : ∀ j, (s.sessions j).pc.inCommit = false := by
    intro j
    by_contra hj
    have hactive : (s.sessions j).txn.state = .active :=
      h.ids.busy j (Pc.phase_ne_running (by simpa using hj))
    by_cases hlt : j < s.sessionCount
    · simp only [hasActiveTransactions, List.any_eq_false, List.mem_range, decide_eq_true_eq] at hact
      exact hact j hlt hactive
    · rw [h.txn.unconnected j (Nat.le_of_not_lt hlt)] at hactive
      cases hactive
  refine ⟨hno, fun cm hcm => ?_⟩
  rcases h.wait.commits cm hcm with ⟨i, hi⟩ | ⟨i, hi⟩
  · exact h.wait.waited hi
  · have := hno i
    rw [Pc.awaits_inCommit hi] at this
    cases this

theorem SafeInv.store_eq (h : SafeInv tr f c d s) (hq : Quiet tr f s) : s.store = applyCommits ∅ (commitsOf tr) := by
  refine h.txn.store.store_eq fun j => ?_
  by_contra hj
  have happlying : (s.core.parties j).phase.isApplying = true := by simpa using hj
  have := hq.noCommit j
  rw [Pc.inCommit_of_phase (Or.inr happlying)] at this
  cases this

/-- The snapshot of a checkpoint is read back. -/
theorem SafeInv.loadSnapshot_eq (h : SafeInv tr f c d s) (hlen : (logOf tr).length < 2 ^ 64) {lsn : Nat}
    {entries : List (Key × Value)} (hcov : Covers (commitsOf tr) (logOf tr).length lsn)
    (he : (applyCommits ∅ (commitsOf tr)).IsEntries entries) :
    loadSnapshot (some (snapshotBytes lsn entries)) ∅ = (applyCommits ∅ (commitsOf tr), lsn) := by
  refine loadSnapshot_snapshotBytes (Nat.lt_of_le_of_lt hcov.2 hlen)
    (Nat.lt_of_le_of_lt (length_entries_le h.log.logged he) hlen) (fun p hp => ?_) he
  have hget := Std.ExtTreeMap.mem_toList_iff_getElem?_eq_some.mp (he.mem_iff.mp hp)
  refine forall_applyCommits (fun k v => k.length < 2 ^ 16 ∧ v.length < 2 ^ 16) h.short.commits (fun h0 => ?_) hget
  rw [Std.ExtTreeMap.getElem?_empty] at h0
  cases h0

theorem filter_eq_self_of_le {cs : List Commit} {m : Nat} (h : ∀ cm ∈ cs, cm.lsn ≤ m) :
    cs.filter (·.lsn ≤ m) = cs := List.filter_eq_self.mpr fun cm hcm => by simpa using h cm hcm

/-- A snapshot of all commits takes the place of the old one. -/
theorem OnDisk.renamed {log : List WALRecord} {cs : List Commit} {disk disk' : Disk} (h : OnDisk log cs f c d disk)
    {lsn : Nat} (hcov : Covers cs log.length lsn) (hflushed : ∀ cm ∈ cs, cm.lsn ≤ f)
    (hload : loadSnapshot (disk'.read .dataDb) ∅ = (applyCommits ∅ cs, lsn)) (hwal : disk'.walLog = disk.walLog) :
    OnDisk log cs f lsn d disk' := by
  have hcs : ∀ cm ∈ cs, cm.lsn ≤ max lsn d := fun cm hcm => Nat.le_trans (hcov.1 cm hcm) (Nat.le_max_left _ _)
  have hbound := h.bound
  have hlsn := hcov.2
  refine ⟨?_, hwal.trans h.walLog, h.le, by omega, fun cm hcm hlt => ?_, fun cm hcm _ => hflushed cm hcm⟩
  · rw [hload, filter_eq_self_of_le hcs]
  · exact absurd (hcs cm hcm) (Nat.not_le.mpr hlt)

/-- The log file is emptied: what it had is in the snapshot. -/
theorem OnDisk.truncated {log : List WALRecord} {cs : List Commit} {disk : Disk} (h : OnDisk log cs f c d disk)
    (hf : f ≤ log.length) (hcs : ∀ cm ∈ cs, cm.lsn ≤ max c d) (hflushed : ∀ cm ∈ cs, cm.lsn ≤ f) :
    OnDisk log cs f c f { disk with walLog := some [] } := by
  have hdf := h.le
  have hbound := h.bound
  have hcs' : ∀ cm ∈ cs, cm.lsn ≤ max c f := fun cm hcm => Nat.le_trans (hcs cm hcm) (by omega)
  refine ⟨?_, ?_, Nat.le_refl f, by omega, fun cm hcm hlt => ?_, fun cm hcm _ => hflushed cm hcm⟩
  · have hsnap := h.snapshot
    rw [filter_eq_self_of_le hcs] at hsnap
    rw [filter_eq_self_of_le hcs']
    exact hsnap
  · rw [List.drop_eq_nil_of_le (by rw [List.length_take]; omega), serialize_nil]
  · exact absurd (hcs' cm hcm) (Nat.not_le.mpr hlt)

/-- **A checkpoint that runs alone** never leaves files from which less could be recovered. -/
theorem SafeInv.checkpoint (h : SafeInv tr f c d s) (hlen : (logOf tr).length < 2 ^ 64) {pc : CheckpointPc}
    (hpc : (s.sessions i).pc = .checkpoint pc) (hne : pc ≠ .check) (ht : TruncatesAll s (.thread i))
    (hc : checkpointStep s i pc = some s') : ∃ c' d', CheckpointInv tr f c' d' s' := by
  have hin : (s.sessions i).pc.inside = some pc := by
    rw [hpc]
    cases pc <;> first | rfl | exact absurd rfl hne
  obtain ⟨hq, hholds⟩ := h.running hin
  have hothers := h.others hin
  have hdisk := h.onDisk
  cases pc with
  | check => exact absurd rfl hne
  | fsyncWal =>
    cases hc
    obtain ⟨file, hfile⟩ := s.disk.fsyncWal_eq
    rw [hfile]
    exact ⟨c, d, .advance hothers hq _ _ rfl h.hasSnapshot (fun hn => by cases hn)
      (fun q he => by cases he; exact hholds) (hdisk.of_read rfl rfl)⟩
  | readLsn =>
    cases hc
    exact ⟨c, d, .advance hothers hq s.disk _ rfl h.hasSnapshot (fun hn => by cases hn)
      (fun q he => by cases he; exact ⟨hholds, fun cm hcm => (hq.flushed cm hcm).2, h.flushedLsn_le⟩) hdisk⟩
  | openTmp lsn =>
    cases hc
    obtain ⟨htmp, hsnap, -, hread, hwal⟩ := Disk.openTmp_spec (h.hasSnapshot.namesApart hholds.1)
    exact ⟨c, d, .advance hothers hq _ _ rfl hsnap (fun hn => by cases hn)
      (fun q he => by cases he; exact ⟨htmp, hholds.2⟩) (hdisk.of_read hread hwal)⟩
  | copyStore lsn file => cases hc
  | writeTmp lsn file entries =>
    cases hc
    obtain ⟨htmp, hsnap, hread⟩ := Disk.writeSnapshot_spec hholds.1 h.hasSnapshot (snapshotBytes lsn entries)
    exact ⟨c, d, .advance hothers hq _ _ rfl hsnap (fun hn => by cases hn)
      (fun q he => by cases he; exact ⟨file, entries, htmp, hholds.2⟩) (hdisk.of_read hread rfl)⟩
  | fsyncTmp lsn =>
    cases hc
    exact ⟨c, d, .advance hothers hq s.disk _ rfl h.hasSnapshot (fun hn => by cases hn)
      (fun q he => by cases he; exact hholds) hdisk⟩
  | rename lsn =>
    obtain ⟨file, entries, htmp, hcov, hent⟩ := hholds
    simp only [checkpointStep, htmp.path] at hc
    cases hc
    have hsnap : ({ s.disk with dataDb := some file, dataDbTmp := none } : Disk).HasSnapshot := by
      intro k hk
      cases hk
      exact (List.getElem?_eq_some_iff.mp htmp.contents).1
    have hread : ({ s.disk with dataDb := some file, dataDbTmp := none } : Disk).read .dataDb =
        some (snapshotBytes lsn entries) := htmp.contents
    have hload := h.loadSnapshot_eq hlen hcov hent
    rw [← hread] at hload
    exact ⟨lsn, d, .advance hothers hq _ _ rfl hsnap (fun hn => by cases hn)
      (fun q he => by cases he; exact ⟨rfl, fun cm hcm => Nat.le_trans (hcov.1 cm hcm) (Nat.le_max_left _ _)⟩)
      (hdisk.renamed hcov (fun cm hcm => (hq.flushed cm hcm).1) hload rfl)⟩
  | readWal lsn =>
    have hnil : truncateWAL lsn (serialize (((logOf tr).take f).drop d)) = [] :=
      (truncatesAll_iff hpc hdisk.walLog).mp ht
    simp only [checkpointStep, hdisk.walLog, hnil] at hc
    cases hc
    exact ⟨c, d, .advance hothers hq s.disk _ rfl h.hasSnapshot (fun hn => by cases hn)
      (fun q he => by cases he; exact ⟨rfl, hholds⟩) hdisk⟩
  | truncate remaining =>
    obtain ⟨hrem, htmp, hcs⟩ := hholds
    cases hc
    exact ⟨c, f, .advance hothers hq _ _ rfl h.hasSnapshot (fun hn => by cases hn)
      (fun q he => by cases he; exact ⟨hrem, htmp⟩)
      (hdisk.truncated h.le hcs fun cm hcm => (hq.flushed cm hcm).1)⟩
  | rewrite remaining =>
    obtain ⟨rfl, htmp⟩ := hholds
    cases hc
    have hsame : s.disk.walLog.map (overwrite · []) = s.disk.walLog := by
      rw [hdisk.walLog]
      rfl
    exact ⟨c, d, .advance hothers hq _ _ rfl h.hasSnapshot (fun hn => by cases hn)
      (fun q he => by cases he; exact htmp) (hdisk.of_read rfl hsame)⟩
  | fsyncRewritten =>
    cases hc
    obtain ⟨file, hfile⟩ := s.disk.fsyncWal_eq
    rw [hfile]
    exact ⟨c, d, .advance hothers hq _ _ rfl h.hasSnapshot (fun _ => hholds) (fun q he => by cases he)
      (hdisk.of_read rfl rfl)⟩

/-- The check has found no active transaction. -/
theorem SafeInv.enter (h : SafeInv tr f c d s) (hx : Exclusive s (.thread i))
    (hpc : (s.sessions i).pc = .checkpoint .check) (hact : hasActiveTransactions s = false) :
    CheckpointInv tr f c d (s.setPc i (.checkpoint .fsyncWal)) := by
  have hall := h.txn.unconnected.inside (hx hpc hact)
  exact .advance (fun j _ => hall j) (h.quiet hact) s.disk _ rfl h.hasSnapshot (fun hn => by cases hn)
    (fun q he => by cases he; exact h.tmp hall) h.onDisk

/-- `getAllEntries`: the copy is the store of the committed transactions. -/
theorem SafeInv.copyStore (h : SafeInv tr f c d s) {lsn file : Nat} {entries : List (Key × Value)}
    (hpc : (s.sessions i).pc = .checkpoint (.copyStore lsn file)) (he : s.store.IsEntries entries) :
    CheckpointInv tr f c d (s.setPc i (.checkpoint (.writeTmp lsn file entries))) := by
  have hin : (s.sessions i).pc.inside = some (.copyStore lsn file) := by rw [hpc]; rfl
  obtain ⟨hq, htmp, hcov⟩ := h.running hin
  rw [h.store_eq hq] at he
  exact .advance (h.others hin) hq s.disk _ rfl h.hasSnapshot (fun hn => by cases hn)
    (fun q hq' => by cases hq'; exact ⟨htmp, hcov, he⟩) h.onDisk

theorem SafeInv.checkpointInv (h : SafeInv tr f c d s) (hlen : (logOf tr).length < 2 ^ 64) (ha : a.faulty = false)
    (hx : Exclusive s a) (ht : TruncatesAll s a) (hs : step s a = some (s', evs)) :
    ∃ f' c' d', f ≤ f' ∧ Pipeline (tr ++ evs) f' s' ∧ CheckpointInv (tr ++ evs) f' c' d' s' := by
  obtain ⟨f', hle, hp, hd⟩ := h.toPipeline.step ha hs
  rcases hd with ⟨hd, hno⟩ | ⟨rfl, rfl, -, hm⟩
  · exact ⟨f', c, d, hle, hp, h.toCheckpointInv.other h.txn.unconnected h.log h.le hs hx hle hd
      (step_inside hs ha hno)⟩
  · rw [List.append_nil] at hp ⊢
    cases hm with
    | copy hpc he => exact ⟨f', c, d, hle, hp, h.copyStore hpc he⟩
    | @step i pc _ hpc hc =>
      by_cases hcheck : pc = .check
      · subst hcheck
        rw [checkpointStep] at hc
        by_cases hact : hasActiveTransactions s = true
        · rw [if_pos hact] at hc
          cases hc
          have hsame : ∀ j, ((s.setPc i .idle).sessions j).pc.inside = (s.sessions j).pc.inside := by
            intro j
            by_cases hji : j = i
            · subst hji
              rw [hpc]
              simp [State.setPc, State.setSession, Pc.inside]
            · rw [sessions_setPc_of_ne hji]
          have hinv := h.toCheckpointInv.other h.txn.unconnected h.log h.le hs hx hle (.keep rfl rfl) hsame
          rw [List.append_nil] at hinv
          exact ⟨f', c, d, hle, hp, hinv⟩
        · rw [if_neg hact] at hc
          cases hc
          exact ⟨f', c, d, hle, hp, h.enter hx hpc (by simpa using hact)⟩
      · obtain ⟨c', d', hinv⟩ := h.checkpoint hlen hpc hcheck ht hc
        exact ⟨f', c', d', hle, hp, hinv⟩

end Steps

/-! ## Runs -/

/-- No write fails, ids do not come back, no lock is given up early, the committed writes fit the format, and no waiter
goes on before its `COMMIT` record is in the file. -/
def SoundStep (s : State) (a : Action) : Prop :=
  a.faulty = false ∧ KeepsLocks s a ∧ FreshIds s a ∧ ShortWrites s a ∧ FlushedWait s a

instance (s : State) (a : Action) : Decidable (SoundStep s a) := inferInstanceAs (Decidable (_ ∧ _))

theorem SafeInv.step {tr evs : List Event} {f c d : Nat} {s s' : State} {a : Action} (h : SafeInv tr f c d s)
    (hlen : (logOf tr).length < 2 ^ 64) (hP : SoundStep s a) (hx : Exclusive s a) (ht : TruncatesAll s a)
    (hs : Kvdb.step s a = some (s', evs)) : ∃ f' c' d', SafeInv (tr ++ evs) f' c' d' s' := by
  obtain ⟨ha, hk, hf, hw, hwait⟩ := hP
  obtain ⟨f', c', d', hle, hp, hc⟩ := h.checkpointInv hlen ha hx ht hs
  have hne : ∀ i, a.label = .begin i → ¬ (s.core.parties i).active → s.core.nextTxnId ≠ 0 :=
    fun i hlabel hia => hf.next_ne hlabel hia
  exact ⟨f', c', d', {
    toPipeline := hp
    toCheckpointInv := hc
    txn := h.txn.step hk hs
    ids := (step_core hs).idInv hne h.ids
    log := (step_core hs).logInv hne h.ids h.log
    short := (step_core hs).shortInv (fun i hl => hw.of_label hl) h.short
    wait := h.wait.step h.toPipeline.le_flushed hle hwait hs }⟩

theorem safeInv_of_run {s : State} {as : List Action} {tr : List Event}
    (h : Run step (fun s a => SoundStep s a ∧ Exclusive s a ∧ TruncatesAll s a) (Server.boot {} ∅) as s tr)
    (hn : (logOf tr).length < 2 ^ 64) : ∃ f c d, SafeInv tr f c d s := by
  have hshorter : ∀ {tr evs : List Event}, (logOf (tr ++ evs)).length < 2 ^ 64 → (logOf tr).length < 2 ^ 64 := by
    intro tr evs hlt
    rw [logOf_append, List.length_append] at hlt
    omega
  refine (Run.strengthen (Q := fun _ _ => True) (fun tr => (logOf tr).length < 2 ^ 64)
    (fun tr s => ∃ f c d, SafeInv tr f c d s) hshorter ⟨0, 0, 0, safeInv_boot⟩ ?_ (fun _ _ _ _ => trivial) h hn).2
  rintro tr s a s' evs ⟨f, c, d, hinv⟩ ⟨hP, hx, ht⟩ hs hlt
  exact hinv.step (hshorter hlt) hP hx ht hs

theorem SafeInv.fits {tr : List Event} {f c d : Nat} {s : State} (h : SafeInv tr f c d s)
    (hn : (logOf tr).length < 2 ^ 64) : ∀ r ∈ logOf tr, r.scanned.Fits := by
  intro r hr
  have hlsn := (h.numbered.lsn_bounds hr).2
  obtain ⟨hk, hv⟩ := h.short.records r hr
  exact (h.wellTyped r hr).fits (Nat.lt_of_le_of_lt hlsn hn) hk hv

/-- What the files hold can be recovered. -/
theorem SafeInv.recover_eq {tr : List Event} {f c d : Nat} {s : State} (h : SafeInv tr f c d s)
    (hn : (logOf tr).length < 2 ^ 64) :
    RecoveryManager.declared.recover s.disk ∅ = applyCommits ∅ ((commitsOf tr).filter (·.lsn ≤ f)) :=
  h.onDisk.recover h.numbered (h.fits hn) h.log.logged.pairwise_commits (h.log.prefixes f)

/-- The commits up to an LSN are the first ones. -/
theorem LogInv.filter_upTo {ids : List TxnId} {log : List WALRecord} {cs : List Commit} {c : Core}
    (h : LogInv ids log cs c) (f : Nat) : cs.filter (·.lsn ≤ f) <+: cs := by
  have hall : cs.filter (·.lsn ≤ max f log.length) = cs := filter_eq_self_of_le fun cm hcm =>
    Nat.le_trans (h.below cm hcm) (Nat.le_max_right _ _)
  have hsplit := filter_commits h.logged.pairwise_commits (m := f) (f := max f log.length)
    fun cm _ hle => Nat.le_trans hle (Nat.le_max_left _ _)
  rw [hall] at hsplit
  exact ⟨_, hsplit.symm⟩

/-- **Checkpoints are safe under concurrency** if they run alone and truncate the whole log: at every point of a run the
files hold the transactions whose `commit` has returned, and nothing but a beginning of the committed ones. -/
theorem checkpoint_safe {s : State} {as : List Action} {tr : List Event}
    (h : Run step (fun s a => SoundStep s a ∧ Exclusive s a ∧ TruncatesAll s a) (Server.boot {} ∅) as s tr)
    (hn : (logOf tr).length < 2 ^ 64) :
    ∃ cs, cs <+: commitsOf tr ∧ (∀ i lsn t, .acked i lsn t ∈ tr → ∃ c ∈ cs, c.lsn = lsn ∧ c.txnId = t) ∧
      RecoveryManager.declared.recover s.disk ∅ = applyCommits ∅ cs := by
  obtain ⟨f, c, d, hinv⟩ := safeInv_of_run h hn
  refine ⟨(commitsOf tr).filter (·.lsn ≤ f), hinv.log.filter_upTo f, fun i lsn t hacked => ?_, hinv.recover_eq hn⟩
  obtain ⟨hwaited, cm, hcm, rfl, ht⟩ := hinv.wait.acked hacked
  exact ⟨cm, List.mem_filter.mpr ⟨hcm, by simpa using (hinv.wait.waited hwaited).1⟩, rfl, ht⟩

/-- A transaction commits, a checkpoint is taken, and another transaction commits. -/
theorem checkpoint_safe_two : ∃ as s tr,
    Run step (fun s a => SoundStep s a ∧ Exclusive s a ∧ TruncatesAll s a) (Server.boot {} ∅) as s tr ∧
      .acked 0 3 1 ∈ tr ∧ s.disk.dataDb = some 0 ∧ .acked 0 6 2 ∈ tr ∧
      ∃ cs, cs <+: commitsOf tr ∧ (∀ i lsn t, .acked i lsn t ∈ tr → ∃ c ∈ cs, c.lsn = lsn ∧ c.txnId = t) ∧
        RecoveryManager.declared.recover s.disk ∅ = applyCommits ∅ cs := by
  have hrun := exists_run_of_exec step (fun s a => SoundStep s a ∧ Exclusive s a ∧ TruncatesAll s a)
    (Server.boot {} ∅)
    [.connect, .command 0 (.begin .repeatableRead), .thread 0, .command 0 (.put [97] [49]), .command 0 .commit,
      .thread 0, .thread 0, .worker, .worker, .worker, .worker, .worker, .worker, .worker, .worker,
      .thread 0, .thread 0, .thread 0, .thread 0, .thread 0,
      .command 0 .checkpoint, .thread 0, .thread 0, .thread 0, .thread 0, .copyStore 0 [([97], [49])], .thread 0,
      .thread 0, .thread 0, .thread 0, .thread 0, .thread 0, .thread 0,
      .command 0 (.begin .repeatableRead), .thread 0, .command 0 (.put [98] [50]), .command 0 .commit,
      .thread 0, .thread 0, .worker, .worker, .worker, .worker, .worker, .worker, .worker, .worker,
      .thread 0, .thread 0, .thread 0, .thread 0, .thread 0]
    (fun s tr => decide (.acked 0 3 1 ∈ tr ∧ s.disk.dataDb = some 0 ∧ .acked 0 6 2 ∈ tr ∧ (logOf tr).length = 6))
    (by decide +kernel)
  obtain ⟨s, tr, hr, hp⟩ := hrun
  obtain ⟨h1, h2, h3, hlen⟩ := of_decide_eq_true hp
  exact ⟨_, s, tr, hr, h1, h2, h3, checkpoint_safe hr (by omega)⟩

/-- A transaction begins after the check for active transactions. Its `COMMIT` record is flushed before the checkpoint
reads `flushed_lsn_`, its write is applied after the store has been copied: it is answered, and lost. -/
theorem checkpoint_loses_commit : ∃ as s tr,
    Run step (fun s a => SoundStep s a ∧ TruncatesAll s a) (Server.boot {} ∅) as s tr ∧ .acked 1 3 1 ∈ tr ∧
      commitsOf tr = [⟨3, 1, [([97], [49], false)]⟩] ∧
      (RecoveryManager.declared.recover s.disk ∅).get [97] = none := by
  have hrun := exists_run_of_exec step (fun s a => SoundStep s a ∧ TruncatesAll s a) (Server.boot {} ∅)
    [.connect, .connect, .command 0 .checkpoint, .thread 0, .thread 0,
      .command 1 (.begin .repeatableRead), .thread 1, .command 1 (.put [97] [49]), .command 1 .commit,
      .thread 1, .thread 1, .worker, .worker, .worker, .worker, .worker, .worker, .worker, .worker,
      .thread 0, .thread 0, .copyStore 0 [], .thread 1, .thread 1, .thread 1, .thread 1, .thread 1,
      .thread 0, .thread 0, .thread 0]
    (fun s tr => decide (.acked 1 3 1 ∈ tr ∧ commitsOf tr = [⟨3, 1, [([97], [49], false)]⟩] ∧
      (RecoveryManager.declared.recover s.disk ∅).get [97] = none))
    (by decide +kernel)
  obtain ⟨s, tr, hr, hp⟩ := hrun
  exact ⟨_, s, tr, hr, of_decide_eq_true hp⟩

/-- What recovery makes of the whole log, when no checkpoint has been taken. -/
theorem SafeInv.recover_log {tr : List Event} {f c d : Nat} {s : State} (h : SafeInv tr f c d s)
    (hn : (logOf tr).length < 2 ^ 64) :
    RecoveryManager.declared.recover { walLog := some (flushedBytes tr) } ∅ =
      applyCommits ∅ ((commitsOf tr).filter (·.lsn ≤ f)) := by
  have hpos : ∀ cm ∈ commitsOf tr, ¬ cm.lsn ≤ max 0 0 := by
    intro cm hcm hle
    have hmem := (h.log.record_mem_iff hcm).mpr (h.log.below cm hcm)
    rw [List.take_length] at hmem
    have := (h.numbered.lsn_bounds hmem).1
    rw [show cm.record.lsn = cm.lsn from rfl] at this
    omega
  have hwhole : OnDisk (logOf tr) (commitsOf tr) f 0 0 { walLog := some (flushedBytes tr) } := by
    refine ⟨?_, by rw [h.flushed, List.drop_zero], Nat.zero_le f, Nat.zero_le _, fun _ _ _ r hr _ _ => ?_,
      fun cm hcm hle => absurd hle (hpos cm hcm)⟩
    · rw [List.filter_eq_nil_iff.mpr fun cm hcm => by simpa using hpos cm hcm]
      rfl
    · exact (h.numbered.lsn_bounds hr).1
  exact hwhole.recover h.numbered (h.fits hn) h.log.logged.pairwise_commits (h.log.prefixes f)

/-- **A checkpoint is invisible to recovery** if it runs alone and truncates the whole log: at every point of a run
`recover` yields the store it would have yielded from the log, had no checkpoint been taken. -/
theorem checkpoint_invisible {s : State} {as : List Action} {tr : List Event}
    (h : Run step (fun s a => SoundStep s a ∧ Exclusive s a ∧ TruncatesAll s a) (Server.boot {} ∅) as s tr)
    (hn : (logOf tr).length < 2 ^ 64) :
    RecoveryManager.declared.recover s.disk ∅ =
      RecoveryManager.declared.recover { walLog := some (flushedBytes tr) } ∅ := by
  obtain ⟨f, c, d, hinv⟩ := safeInv_of_run h hn
  rw [hinv.recover_eq hn, hinv.recover_log hn]

/-- The server crashes when the checkpoint has emptied the log file and not yet rewritten it. -/
theorem checkpoint_invisible_truncated : ∃ as s tr,
    Run step (fun s a => SoundStep s a ∧ Exclusive s a ∧ TruncatesAll s a) (Server.boot {} ∅) as s tr ∧
      .acked 0 3 1 ∈ tr ∧ s.disk.walLog = some [] ∧ RecoveryManager.declared.recover s.disk ∅ =
        RecoveryManager.declared.recover { walLog := some (flushedBytes tr) } ∅ := by
  have hrun := exists_run_of_exec step (fun s a => SoundStep s a ∧ Exclusive s a ∧ TruncatesAll s a)
    (Server.boot {} ∅)
    [.connect, .command 0 (.begin .repeatableRead), .thread 0, .command 0 (.put [97] [49]), .command 0 .commit,
      .thread 0, .thread 0, .worker, .worker, .worker, .worker, .worker, .worker, .worker, .worker,
      .thread 0, .thread 0, .thread 0, .thread 0, .thread 0,
      .command 0 .checkpoint, .thread 0, .thread 0, .thread 0, .thread 0, .copyStore 0 [([97], [49])], .thread 0,
      .thread 0, .thread 0, .thread 0, .thread 0]
    (fun s tr => decide (.acked 0 3 1 ∈ tr ∧ s.disk.walLog = some [] ∧ (logOf tr).length = 3)) (by decide +kernel)
  obtain ⟨s, tr, hr, hp⟩ := hrun
  obtain ⟨h1, h2, hlen⟩ := of_decide_eq_true hp
  exact ⟨_, s, tr, hr, h1, h2, checkpoint_invisible hr (by omega)⟩

/-- `PUT a htt` has a CRC whose low bytes are `0x000B`. `truncateWAL` takes them for the length of a key behind the
`BEGIN` record, gets out of step with the records and leaves some bytes from their middle in the file. What is committed
after the checkpoint comes behind them, and recovery does not get there. -/
theorem checkpoint_visible : ∃ as s tr,
    Run step (fun s a => SoundStep s a ∧ Exclusive s a) (Server.boot {} ∅) as s tr ∧ .acked 0 6 2 ∈ tr ∧
      (RecoveryManager.declared.recover s.disk ∅).get [98] = none ∧
      (RecoveryManager.declared.recover { walLog := some (flushedBytes tr) } ∅).get [98] = some [50] := by
  have hrun := exists_run_of_exec step (fun s a => SoundStep s a ∧ Exclusive s a) (Server.boot {} ∅)
    [.connect, .command 0 (.begin .repeatableRead), .thread 0, .command 0 (.put [97] [104, 116, 116]),
      .command 0 .commit, .thread 0, .thread 0, .worker, .worker, .worker, .worker, .worker, .worker, .worker, .worker,
      .thread 0, .thread 0, .thread 0, .thread 0, .thread 0,
      .command 0 .checkpoint, .thread 0, .thread 0, .thread 0, .thread 0, .copyStore 0 [([97], [104, 116, 116])],
      .thread 0, .thread 0, .thread 0, .thread 0, .thread 0, .thread 0, .thread 0,
      .command 0 (.begin .repeatableRead), .thread 0, .command 0 (.put [98] [50]), .command 0 .commit,
      .thread 0, .thread 0, .worker, .worker, .worker, .worker, .worker, .worker, .worker, .worker,
      .thread 0, .thread 0, .thread 0, .thread 0, .thread 0]
    (fun s tr => decide (.acked 0 6 2 ∈ tr ∧ (RecoveryManager.declared.recover s.disk ∅).get [98] = none ∧
      (RecoveryManager.declared.recover { walLog := some (flushedBytes tr) } ∅).get [98] = some [50]))
    (by decide +kernel)
  obtain ⟨s, tr, hr, hp⟩ := hrun
  exact ⟨_, s, tr, hr, of_decide_eq_true hp⟩

end Kvdb
