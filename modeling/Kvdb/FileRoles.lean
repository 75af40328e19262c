import Kvdb.CheckpointSafety

/-!
# Starting with the file roles exchanged

`Server::start` hands the paths of the log and of the snapshot to `RecoveryManager` in the wrong order. The snapshot
reader gets the log, finds no magic number and gives up; the record loop gets the snapshot, finds no record and stops.
Whatever was acknowledged, the server starts with an empty store (`start_restores_iff`).
-/

namespace Kvdb

open Machine

/-! ## Files in each other's role -/

/-- The log file begins like a snapshot, or the snapshot begins like a log. -/
def Disk.Misread (d : Disk) : Prop :=
  (∃ file, d.walLog = some file ∧ file.take 4 = leBytes 4 snapshotMagic) ∨
    ∃ file, d.read .dataDb = some file ∧ acceptedRecords file ≠ []

/-- A file that does not begin with the magic number is no snapshot. -/
theorem loadSnapshot_of_take_ne {file : Bytes} (h : file.take 4 ≠ leBytes 4 snapshotMagic) (st : Store) :
    loadSnapshot (some file) st = (st, 0) := by
  dsimp only [loadSnapshot]
  refine if_pos ?_
  by_contra hno
  rw [not_or, not_not] at hno
  obtain ⟨hgood, hmagic⟩ := hno
  have hgood : (((((IStream.read ⟨file, true⟩ 4).2.read 4).2.read 8).2.read 8).2).good = true := by simpa using hgood
  obtain ⟨-, hlen, hrest⟩ := IStream.read_good (IStream.read_good (IStream.read_good
    (IStream.read_good hgood).1).1).1
  apply h
  rw [show file = _ from hrest, List.take_left' hlen]
  exact leVal_inj hlen (hmagic.trans (by decide))

theorem start_of_not_misread {d : Disk} (h : ¬ d.Misread) : Server.start d = ∅ := by
  rw [Disk.Misread, not_or] at h
  have hsnap : loadSnapshot (d.read .walLog) ∅ = (∅, 0) := by
    show loadSnapshot d.walLog ∅ = (∅, 0)
    cases hw : d.walLog with
    | none => rfl
    | some file => exact loadSnapshot_of_take_ne (fun he => h.1 ⟨file, hw, he⟩) ∅
  rw [Server.start, RecoveryManager.recover, hsnap]
  dsimp only
  split
  · rfl
  · rename_i file hfile
    have hnone : acceptedRecords file = [] := by
      by_contra hne
      exact h.2 ⟨file, hfile, hne⟩
    rw [hnone]
    rfl

/-- The log of a first transaction begins with the magic number for one transaction id only. -/
theorem begin_record_magic {t : TxnId} (h : (WALRecord.mk 1 t .begin [] []).raw.take 4 = leBytes 4 snapshotMagic) :
    t = 2656261933 := by
  have hcrc : ∀ t : TxnId, (WALRecord.mk 1 t .begin [] []).raw.take 4 =
      leBytes 4 (crc32 (leBytes 8 1 ++ leBytes 4 t.toNat ++ [1])).toNat := by
    intro t
    rw [WALRecord.raw_eq, ScannedRecord.bytes, List.take_left' (length_leBytes 4 _), ScannedRecord.body_eq]
    simp [WALRecord.scanned, ScannedRecord.payload, RecordType.toByte]
  have hmagic : (crc32 (leBytes 8 1 ++ leBytes 4 (2656261933 : TxnId).toNat ++ [1])).toNat = snapshotMagic := by
    decide +kernel
  rw [hcrc, ← hmagic] at h
  have hval := congrArg leVal h
  rw [leVal_leBytes_of_lt (w := 4) (UInt32.toNat_lt _), leVal_leBytes_of_lt (w := 4) (UInt32.toNat_lt _)] at hval
  exact crc32_word (UInt32.toNat_inj.mp hval)

/-! ## The first record of a log -/

/-- The log begins with a `BEGIN` record: before it is there, no transaction gets further than to log it. -/
structure FirstBegin (log : List WALRecord) (c : Core) : Prop where
  busy : ∀ i, (c.parties i).phase ≠ .running → (c.parties i).active
  head : ∀ r, log.head? = some r → r.type = .begin
  starting : log = [] → ∀ i, (c.parties i).active → (c.parties i).phase = .starting

theorem firstBegin_initial {st : Store} {s₀ : State} (h : Server.Initial st s₀) : FirstBegin [] s₀.core := by
  cases h <;> exact ⟨fun i hi => absurd rfl hi, fun r hr => (by cases hr), fun _ i hi => (by cases hi)⟩

theorem CoreStep.firstBegin {c c' : Core} {l : Label} {evs tr : List Event} (h : CoreStep c l evs c')
    (hinv : FirstBegin (logOf tr) c) : FirstBegin (logOf (tr ++ evs)) c' := by
  have hbusy := h.busy hinv.busy
  rw [logOf_append]
  cases hlog : logOf tr with
  | cons r rs =>
    refine ⟨hbusy, fun r' hr' => hinv.head r' ?_, fun hnil => by cases hnil⟩
    rw [hlog]
    exact hr'
  | nil =>
    -- nobody is further than `starting`
    have honly : ∀ {i}, (c.parties i).phase ≠ .running → (c.parties i).phase = .starting :=
      fun hne => hinv.starting hlog _ (hinv.busy _ hne)
    have hactive : ∀ {i}, (c.parties i).active → (c.parties i).phase ≠ .running :=
      fun hact he => by rw [hinv.starting hlog _ hact] at he; cases he
    rw [List.nil_append]
    cases h with
    | silent he =>
      rw [logOf_silent he]
      exact ⟨hbusy, fun r hr => (by cases hr), fun _ => hinv.starting hlog⟩
    | begin level =>
      refine ⟨hbusy, fun r hr => (by cases hr), fun _ => ?_⟩
      exact Core.forall_setParty (fun p => p.active → p.phase = .starting) (hinv.starting hlog) rfl fun _ => rfl
    | logBegin =>
      refine ⟨hbusy, fun r hr => ?_, fun hnil => by cases hnil⟩
      cases hr
      rfl
    | granted hp hph hact | queued hp hph hact | startCommit hp hph hact | startAbort hp hph hact =>
      subst hp
      exact absurd hph (hactive hact)
    | waitGranted hp hph | waitFailed hp hph | read hp hph | release hp hph | logWrite hp hph | logCommit hp hph
    | apply hp hph | applied hp hph | logAbort hp hph | abortRelease hp hph | reset hp hph =>
      subst hp
      have := honly (by rw [hph]; simp)
      rw [hph] at this
      cases this

/-! ## The log file before the first snapshot -/

/-- Inside a checkpoint, after the snapshot has got its name. -/
def CheckpointPc.renamed : CheckpointPc → Bool
  | .readWal _ | .truncate _ | .rewrite _ | .fsyncRewritten => true
  | _ => false

theorem inside_setPc {s : State} {i j : SessionId} {pc : Pc} {q : CheckpointPc}
    (h : ((s.setPc i pc).sessions j).pc.inside = some q) :
    j = i ∧ pc.inside = some q ∨ j ≠ i ∧ (s.sessions j).pc.inside = some q := by
  by_cases hji : j = i
  · subst hji
    simp only [State.setPc, State.setSession, Function.update_self] at h
    exact Or.inl ⟨rfl, h⟩
  · rw [sessions_setPc_of_ne hji] at h
    exact Or.inr ⟨hji, h⟩

theorem checkpointStep_files {s s' : State} {i : SessionId} {pc : CheckpointPc} (hc : checkpointStep s i pc = some s') :
    (s.disk.dataDb ≠ none → s'.disk.dataDb ≠ none) ∧ (pc.renamed = false → s'.disk.walLog = s.disk.walLog) ∧
      ((s.sessions i).pc = .checkpoint pc → ∀ {q}, (s'.sessions i).pc.inside = some q → q.renamed = true →
        pc.renamed = true ∨ s'.disk.dataDb ≠ none) := by
  have hstay : ∀ {s₁ : State} {pc' : Pc}, (∀ {q}, pc'.inside = some q → q.renamed = false) →
      ∀ {q}, ((s₁.setPc i pc').sessions i).pc.inside = some q → q.renamed = true →
        pc.renamed = true ∨ (s₁.setPc i pc').disk.dataDb ≠ none := by
    intro s₁ pc' hpc' q hin hr
    rcases inside_setPc hin with ⟨-, hin'⟩ | ⟨hne, -⟩
    · rw [hpc' hin'] at hr
      cases hr
    · exact absurd rfl hne
  cases pc <;> simp only [checkpointStep] at hc
  case copyStore => cases hc
  case fsyncWal =>
    cases hc
    obtain ⟨file, hfile⟩ := s.disk.fsyncWal_eq
    rw [hfile]
    exact ⟨id, fun _ => rfl, fun _ => hstay fun hq => by cases hq; rfl⟩
  case check =>
    cases hc
    refine ⟨id, fun _ => rfl, fun _ => hstay fun hq => ?_⟩
    split at hq <;> cases hq
    rfl
  case rename =>
    split at hc <;> cases hc
    · exact ⟨fun _ hn => (by cases hn), fun _ => rfl, fun _ _ _ _ => Or.inr fun hn => by cases hn⟩
    · refine ⟨id, fun _ => rfl, fun hpc q hin hr => ?_⟩
      rw [show (s.sessions i).pc = _ from hpc] at hin
      cases hin
      cases hr
  case openTmp =>
    cases hc
    have hopen : s.disk.openTmp.1.dataDb = s.disk.dataDb ∧ s.disk.openTmp.1.walLog = s.disk.walLog := by
      unfold Disk.openTmp
      split <;> exact ⟨rfl, rfl⟩
    exact ⟨fun hne => by rw [← hopen.1] at hne; exact hne, fun _ => hopen.2, fun _ => hstay fun hq => by cases hq; rfl⟩
  case readWal => split at hc <;> cases hc <;> exact ⟨id, fun hr => (by cases hr), fun _ _ _ _ => Or.inl rfl⟩
  case fsyncRewritten =>
    cases hc
    obtain ⟨file, hfile⟩ := s.disk.fsyncWal_eq
    rw [hfile]
    exact ⟨id, fun hr => (by cases hr), fun _ _ _ _ => Or.inl rfl⟩
  case truncate | rewrite => cases hc; exact ⟨id, fun hr => (by cases hr), fun _ _ _ _ => Or.inl rfl⟩
  all_goals cases hc; exact ⟨id, fun _ => rfl, fun _ => hstay fun hq => by cases hq; rfl⟩

/-- Until there is a snapshot, the log file holds all the records that were flushed. -/
structure UntouchedLog (tr : List Event) (f : Nat) (s : State) : Prop extends Pipeline tr f s where
  walLog : s.disk.dataDb = none → s.disk.walLog = some (serialize ((logOf tr).take f))
  renamed : ∀ {i pc}, (s.sessions i).pc.inside = some pc → pc.renamed = true → s.disk.dataDb ≠ none

theorem UntouchedLog.step {tr evs : List Event} {f : Nat} {s s' : State} {a : Action} (h : UntouchedLog tr f s)
    (ha : a.faulty = false) (hs : Kvdb.step s a = some (s', evs)) : ∃ f', UntouchedLog (tr ++ evs) f' s' := by
  obtain ⟨f', hle, hp, ⟨hd, hno⟩ | ⟨rfl, rfl, -, hm⟩⟩ := h.toPipeline.step ha hs
  · obtain ⟨-, hdata, -⟩ := hd.snapshots
    refine ⟨f', hp, fun hnone => ?_, fun {i pc} hin hr => ?_⟩
    · rw [hdata] at hnone
      rw [hd.walLog (h.walLog hnone), serialize_take_le hle, take_logOf_append (hd.le_length h.le)]
    · rw [step_inside hs ha hno] at hin
      rw [hdata]
      exact h.renamed hin hr
  · rw [List.append_nil] at hp ⊢
    cases hm with
    | copy hpc _ =>
      refine ⟨f', hp, h.walLog, fun {j pc} hin hr => ?_⟩
      rcases inside_setPc hin with ⟨-, hin'⟩ | ⟨-, hin'⟩
      · cases hin'
        cases hr
      · exact h.renamed hin' hr
    | @step i pc _ hpc hc =>
      obtain ⟨hdata, hwal, hnext⟩ := checkpointStep_files hc
      have hbefore : pc.renamed = true → s.disk.dataDb ≠ none := by
        refine fun hr => h.renamed (i := i) ?_ hr
        rw [hpc]
        cases pc <;> first | rfl | cases hr
      refine ⟨f', hp, fun hnone => ?_, fun {j q} hin hr => ?_⟩
      · have hnone' : s.disk.dataDb = none := by
          by_contra hne
          exact hdata hne hnone
        rw [hwal (by_contra fun hr => hbefore (by simpa using hr) hnone')]
        exact h.walLog hnone'
      · by_cases hji : j = i
        · subst hji
          rcases hnext hpc hin hr with hr' | hne
          · exact hdata (hbefore hr')
          · exact hne
        · rw [(checkpointStep_effect hc).sessions.2 j hji] at hin
          exact hdata (h.renamed hin hr)

/-! ## Restarts -/

/-- The event answers the commit. -/
def Event.acks (c : Commit) : Event → Bool
  | .acked _ lsn t => lsn = c.lsn && t = c.txnId
  | _ => false

/-- The transactions whose `COMMIT` was answered `committed`, in the order of their LSNs. -/
def ackedOf (tr : List Event) : List Commit := (commitsOf tr).filter fun c => tr.any (Event.acks c)

theorem IdInv.toNat_le {ids : List TxnId} {c : Core} (h : IdInv ids c) {t : TxnId} (ht : t ∈ ids) :
    t.toNat ≤ ids.length := by
  rw [h.first] at ht
  obtain ⟨m, hm, rfl⟩ := List.mem_map.mp ht
  have hbound := h.bound
  rw [List.mem_range] at hm
  rw [UInt32.toNat_ofNat', Nat.mod_eq_of_lt (by omega)]
  omega

/-- Until there is a snapshot, the log file does not look like one. -/
theorem not_misread_of_run {s : State} {as : List Action} {tr : List Event}
    (h : Run step (fun _ a => a.faulty = false) (Server.boot {} ∅) as s tr) (hn : (begunOf tr).length < 2656261933)
    (hnone : s.disk.dataDb = none) : ¬ s.disk.Misread := by
  obtain ⟨hrun, hids⟩ := freshIds_of_length (.opened {}) h (by omega)
  obtain ⟨-, hlog⟩ := logInv_of_run (.opened {}) (hrun.mono fun _ _ hP => hP.2)
  obtain ⟨⟨f, hfile⟩, hfirst⟩ :=
    Run.invariant (fun tr s => (∃ f, UntouchedLog tr f s) ∧ FirstBegin (logOf tr) s.core)
      ⟨⟨0, .initial {} ∅, fun _ => rfl, fun hin => (by cases hin)⟩, firstBegin_initial (.opened {})⟩
      (fun ⟨⟨f, hi⟩, hb⟩ ha hs => ⟨hi.step ha hs, (step_core hs).firstBegin hb⟩) h
  rintro (⟨file, hw, hmagic⟩ | ⟨file, hd, -⟩)
  · rw [hfile.walLog hnone] at hw
    cases hw
    cases htake : (logOf tr).take f with
    | nil =>
      rw [htake] at hmagic
      cases hmagic
    | cons r rs =>
      -- the first record is the `BEGIN` record of a transaction that was begun
      have hsplit : logOf tr = [] ++ r :: (rs ++ (logOf tr).drop f) := by
        conv_lhs => rw [← List.take_append_drop f (logOf tr), htake]
        rfl
      have hmem : r ∈ logOf tr := List.mem_of_mem_take (htake ▸ List.mem_cons_self)
      have hlsn : r.lsn = 1 := (hsplit ▸ hlog.numbered : Numbered _).lsn_eq
      have htype : r.type = .begin := hfirst.head r (by rw [hsplit]; rfl)
      have hid := hids.toNat_le (hlog.recordIds r hmem)
      have htyped := hfile.wellTyped r hmem
      have hkey := htyped.noKey (by rw [htype]; simp) (by rw [htype]; simp)
      have hvalue := htyped.noValue (by rw [htype]; simp)
      have hraw : r.raw.take 4 = leBytes 4 snapshotMagic := by
        have hlen := r.length_raw
        rw [htake, serialize, List.flatMap_cons, List.take_append_of_le_length (by omega)] at hmagic
        exact hmagic
      obtain ⟨lsn, t, type, key, value⟩ := r
      subst hlsn htype hkey hvalue
      have ht := congrArg UInt32.toNat (begin_record_magic hraw)
      have hid' : t.toNat ≤ (begunOf tr).length := hid
      rw [show (2656261933 : TxnId).toNat = 2656261933 from rfl] at ht
      omega
  · rw [Disk.read, hnone] at hd
    cases hd

/-- **The server starts with an empty store.** After a run of a first lifetime without a failing write, the store it
starts with is that of the acknowledged transactions if and only if these have left no key, provided that neither file
can be taken for the other. -/
theorem start_restores_iff {s : State} {as : List Action} {tr : List Event}
    (h : Run step (fun _ a => a.faulty = false) (Server.boot {} ∅) as s tr) (hn : (begunOf tr).length < 2656261933)
    (hm : s.disk.dataDb ≠ none → ¬ s.disk.Misread) :
    (∀ key, (Server.start s.disk).get key = (applyCommits ∅ (ackedOf tr)).get key) ↔
      applyCommits ∅ (ackedOf tr) = ∅ := by
  have hmis : ¬ s.disk.Misread := by
    by_cases hnone : s.disk.dataDb = none
    · exact not_misread_of_run h hn hnone
    · exact hm hnone
  rw [start_of_not_misread hmis]
  constructor
  · intro hget
    exact (Std.ExtTreeMap.ext_getElem? fun {k} => hget k).symm
  · intro hempty key
    rw [hempty]

/-- A key is put by one transaction and deleted by the next. Then the empty store is the right one. -/
theorem start_restores_deleted : ∃ as s tr, Run step (fun _ a => a.faulty = false) (Server.boot {} ∅) as s tr ∧
    .acked 0 3 1 ∈ tr ∧ .acked 0 6 2 ∈ tr ∧
    ∀ key, (Server.start s.disk).get key = (applyCommits ∅ (ackedOf tr)).get key := by
  have hrun := exists_run_of_exec step (fun _ a => a.faulty = false) (Server.boot {} ∅)
    [.connect, .command 0 (.begin .repeatableRead), .thread 0, .command 0 (.put [97] [49]), .command 0 .commit,
      .thread 0, .thread 0, .worker, .worker, .worker, .worker, .worker, .worker, .worker, .worker,
      .thread 0, .thread 0, .thread 0, .thread 0, .thread 0,
      .command 0 (.begin .repeatableRead), .thread 0, .command 0 (.delete [97]), .command 0 .commit,
      .thread 0, .thread 0, .worker, .worker, .worker, .worker, .worker, .worker, .worker, .worker,
      .thread 0, .thread 0, .thread 0, .thread 0, .thread 0]
    (fun s tr => decide (.acked 0 3 1 ∈ tr ∧ .acked 0 6 2 ∈ tr ∧ (begunOf tr).length = 2 ∧ s.disk.dataDb = none ∧
      (applyCommits ∅ (ackedOf tr)).isEmpty = true))
    (by decide +kernel)
  obtain ⟨s, tr, hr, hp⟩ := hrun
  obtain ⟨h1, h2, hn, hd, hempty⟩ := of_decide_eq_true hp
  exact ⟨_, s, tr, hr, h1, h2, (start_restores_iff hr (by omega) fun hne => absurd hd hne).mpr
    (Std.ExtTreeMap.isEmpty_iff.mp hempty)⟩

/-- A transaction is acknowledged, its records are synced, and the next start does not find it. -/
theorem start_loses_commit : ∃ as s tr, Run step (fun _ a => a.faulty = false) (Server.boot {} ∅) as s tr ∧
    s.wal.buffer = [] ∧ s.worker.unsynced = [] ∧ s.disk.walSynced = serialize (logOf tr) ∧ .acked 0 3 1 ∈ tr ∧
    (applyCommits ∅ (ackedOf tr)).get [97] = some [49] ∧ (Server.start s.disk).get [97] = none := by
  have hrun := exists_run_of_exec step (fun _ a => a.faulty = false) (Server.boot {} ∅)
    [.connect, .command 0 (.begin .repeatableRead), .thread 0, .command 0 (.put [97] [49]), .command 0 .commit,
      .thread 0, .thread 0, .worker, .worker, .worker, .worker, .worker, .worker, .worker, .worker,
      .thread 0, .thread 0, .thread 0, .thread 0, .thread 0]
    (fun s tr => decide (s.wal.buffer = [] ∧ s.worker.unsynced = [] ∧ s.disk.walSynced = serialize (logOf tr) ∧
      .acked 0 3 1 ∈ tr ∧ (applyCommits ∅ (ackedOf tr)).get [97] = some [49] ∧ (Server.start s.disk).get [97] = none))
    (by decide +kernel)
  obtain ⟨s, tr, hr, hp⟩ := hrun
  exact ⟨_, s, tr, hr, of_decide_eq_true hp⟩

end Kvdb
