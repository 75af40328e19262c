import Kvdb.Faults
import Kvdb.Restart

/-!
# Crashes of a running server

A crash can come at any moment. It leaves what was synced of the log file and an arbitrary part of what was written
after that, to the file or only to the stream (`CrashLeaves`), so that the file may end inside a record. Recovery in the
declared roles then gives the store of a serial run of the transactions that have committed first, in the order of their
`COMMIT` records, and every transaction whose `waitForCommit` has returned is among them (`durably_serializable`):
serializability and durability hold together, of one prefix of one order.

The conditions on the run are those under which each of the two holds: the waits return after the sync (`SyncedWait`),
and all transactions are begun at `REPEATABLE_READ`.
-/

namespace Kvdb

open Machine

/-! ## Prefixes of the commit order -/

theorem committed_append (tr evs : List Event) : (historyOf tr).committed <+: (historyOf (tr ++ evs)).committed := by
  rw [historyOf_append]
  generalize historyOf tr = hist
  induction evs generalizing hist with
  | nil => exact List.prefix_refl _
  | cons e evs ih =>
    refine List.IsPrefix.trans ?_ (ih (hist.add e))
    cases e <;> first | exact List.prefix_append _ _ | exact List.prefix_refl _

theorem take_of_isPrefix {α : Type} {l l' : List α} (h : l <+: l') {m : Nat} (hm : m ≤ l.length) :
    l'.take m = l.take m := by
  obtain ⟨rest, rfl⟩ := h
  exact List.take_append_of_le_length hm

theorem length_committed (tr : List Event) : (historyOf tr).committed.length = (commitsOf tr).length := by
  rw [← List.length_map (f := Prod.fst), historyOf_committed, List.length_map]

/-- Every prefix of the committed transactions has a serial run. -/
theorem serial_prefixes {st : Store} {s₀ s : State} {as : List Action} {tr : List Event} (h0 : Server.Initial st s₀)
    (h : Run step (fun s a => BeginsRepeatableRead s a ∧ FreshIds s a) s₀ as s tr) :
    SerialInv st tr s ∧ ∀ m, serialRun st (((historyOf tr).committed.take m).map Prod.snd) =
      some (applyCommits st ((commitsOf tr).take m)) := by
  refine Run.invariant (fun tr s => SerialInv st tr s ∧ ∀ m,
    serialRun st (((historyOf tr).committed.take m).map Prod.snd) = some (applyCommits st ((commitsOf tr).take m)))
    ⟨serialInv_of_run h0 .nil (by decide), fun m => by simp [historyOf, commitsOf, serialRun, applyCommits]⟩ ?_ h
  rintro tr s a s' evs ⟨hser, hpre⟩ ⟨hrr, hf⟩ hs
  have hser' := hser.step hrr hf hs
  refine ⟨hser', fun m => ?_⟩
  have hlen : (commitsOf (tr ++ evs)).length ≤ (commitsOf tr).length + 1 := by
    rw [commitsOf_append, List.length_append]
    obtain ⟨-, he | ⟨i, writes, -, he, -⟩⟩ := (step_core hs).commits <;> rw [he] <;> simp
  by_cases hm : m ≤ (commitsOf tr).length
  · rw [take_of_isPrefix (committed_append tr evs) (by rw [length_committed]; exact hm), commitsOf_append,
      List.take_append_of_le_length hm]
    exact hpre m
  · rw [List.take_of_length_le (by rw [length_committed]; omega), List.take_of_length_le (by omega)]
    exact hser'.serial

/-! ## The file after a crash -/

/-- What a crash can leave on the disk: of the log at least what was synced and at most what was written. The stream may
have put some of its bytes into the file before it was flushed. -/
structure CrashLeaves (s : State) (d : Disk) : Prop where
  walLog : ∃ file, d.walLog = some file ∧ s.disk.walSynced <+: file ∧
    file <+: s.disk.walLog.getD [] ++ s.logFile.pending
  dataDb : d.read .dataDb = s.disk.read .dataDb

/-- The commits up to an LSN are a prefix of the commits. -/
theorem CommitOrder.filter_le {cs : List Commit} {nextLsn : Nat} (h : CommitOrder cs nextLsn) (n : Nat) :
    ∃ m, cs.filter (·.lsn ≤ n) = cs.take m := by
  have hsorted := h.sorted
  clear h
  induction cs with
  | nil => exact ⟨0, rfl⟩
  | cons c cs ih =>
    obtain ⟨hc, hcs⟩ := List.pairwise_cons.mp hsorted
    obtain ⟨m, hm⟩ := ih hcs
    by_cases hle : c.lsn ≤ n
    · exact ⟨m + 1, by rw [List.filter_cons_of_pos (by simpa using hle), hm, List.take_succ_cons]⟩
    · refine ⟨0, ?_⟩
      rw [List.take_zero, List.filter_eq_nil_iff]
      intro d hd
      rcases List.mem_cons.mp hd with rfl | hd
      · simpa using hle
      · have := hc d hd
        simp only [decide_eq_true_eq]
        omega

/-- The records that recovery reads after a crash. -/
theorem SyncInv.accepted {tr : List Event} {f : Nat} {s : State} (h : SyncInv {} tr f s)
    (hfits : ∀ r ∈ logOf tr, r.scanned.Fits) {d : Disk} (hd : CrashLeaves s d) :
    ∃ n, s.worker.synced f ≤ n ∧ acceptedRecords (d.walLog.getD []) = ((logOf tr).take n).map WALRecord.scanned := by
  obtain ⟨file, hfile, hlow, hhigh⟩ := hd.walLog
  set g := f + s.worker.written.length with hg
  set as := ((logOf tr).take g).map WALRecord.scanned with has
  have hle : s.worker.synced f ≤ g := (WorkerPc.synced_le f s.worker).trans (Nat.le_add_right ..)
  have hlen : as.length = g := by rw [has, List.length_map, List.length_take, Nat.min_eq_left h.written_le]
  have hok : ∀ r ∈ as, recordCodec.ok r := by
    intro r hr
    obtain ⟨r', hr', rfl⟩ := List.mem_map.mp hr
    exact hfits r' (List.mem_of_mem_take hr')
  have htake : as.take (s.worker.synced f) = ((logOf tr).take (s.worker.synced f)).map WALRecord.scanned := by
    rw [has, ← List.map_take, List.take_take, Nat.min_eq_left hle]
  have hwritten : s.disk.walLog.getD [] ++ s.logFile.pending = recordCodec.encode as := by
    rw [has, ← serialize_eq, hg, ← h.bytes, h.walLog, h.flushed]
    rfl
  have hsynced : recordCodec.encode (as.take (s.worker.synced f)) <+: file := by
    rcases h.walSynced with hz | hsync
    · rw [hz]
      exact List.nil_prefix
    · rw [htake, ← serialize_eq]
      rw [hsync] at hlow
      exact hlow
  obtain ⟨n, hn, hscan⟩ := Codec.scan_between hok (by rw [hlen]; exact hle) hsynced (hwritten ▸ hhigh)
  refine ⟨min n g, Nat.le_min.mpr ⟨hn, hle⟩, ?_⟩
  rw [hfile, acceptedRecords_eq, Option.getD_some, hscan, has, ← List.map_take, List.take_take]

/-- **A crash loses no acknowledged transaction and keeps the rest in order.** -/
theorem durably_serializable {s : State} {as : List Action} {tr : List Event}
    (h : Run step (fun s a => PlainStep s a ∧ BeginsRepeatableRead s a ∧ SyncedWait s a) (Server.boot {} ∅) as s tr)
    (hlen : (logOf tr).length < 2 ^ 64) {d : Disk} (hd : CrashLeaves s d) :
    ∃ m, serialRun ∅ (((historyOf tr).committed.take m).map Prod.snd) =
        some (RecoveryManager.declared.recover d ∅) ∧
      ∀ i lsn, .waited i lsn ∈ tr → lsn ∈ ((historyOf tr).committed.take m).map Prod.fst := by
  obtain ⟨hser, hpre⟩ := serial_prefixes (.opened {}) (h.mono fun s a hP => ⟨hP.2.1, hP.1.2.2.1⟩)
  obtain ⟨⟨f, hsync⟩, hcom⟩ : (∃ f, SyncInv {} tr f s) ∧ CommitInv tr s := by
    refine Run.invariant (fun tr s => (∃ f, SyncInv {} tr f s) ∧ CommitInv tr s) ?_ ?_ h
    · exact ⟨⟨0, syncInv_boot {} ∅⟩, fun c hc => (by cases hc), fun hpc => (by cases hpc), fun h => by cases h⟩
    · rintro tr s a s' evs ⟨⟨f, hf⟩, hcom⟩ ⟨hP, -, hw⟩ hs
      exact ⟨hf.step hP.1 hP.2.1 hw hs, hcom.step hs⟩
  have hplain := h.mono fun s a hP => hP.1
  have hfits : ∀ r ∈ logOf tr, r.scanned.Fits := by
    have hwf := (lifetime_wf hplain (logOf tr).length).1.fits
    rw [List.take_length] at hwf
    exact hwf hlen
  obtain ⟨n, hn, hacc⟩ := hsync.accepted hfits hd
  obtain ⟨m, hm⟩ := hser.order.filter_le n
  have hrec : RecoveryManager.declared.recover d ∅ = applyCommits ∅ ((commitsOf tr).take m) := by
    have hnone : d.read .dataDb = none := hd.dataDb.trans (lifetime_wf hplain n).2
    have hwf := (lifetime_wf hplain n).1
    rw [RecoveryManager.recover_eq]
    show replayRecords (loadSnapshot (d.read .dataDb) ∅).2 (loadSnapshot (d.read .dataDb) ∅).1
      (acceptedRecords (d.walLog.getD [])) = _
    rw [hnone, hacc, ← hm]
    exact replayRecords_of_logged hwf.logged hwf.positive ∅
  refine ⟨m, by rw [hrec]; exact hpre m, fun i lsn hw => ?_⟩
  obtain ⟨c, hc, rfl⟩ := hcom.waited hw
  rw [List.map_take, historyOf_committed, ← List.map_take, ← hm]
  exact List.mem_map_of_mem (List.mem_filter.mpr ⟨hc, decide_eq_true ((hsync.waited hw).2.trans hn)⟩)

/-- One transaction is acknowledged; the crash cuts the `COMMIT` record of a second one that was written and not yet
synced. -/
theorem durably_serializable_cut : ∃ as s tr d,
    Run step (fun s a => PlainStep s a ∧ BeginsRepeatableRead s a ∧ SyncedWait s a) (Server.boot {} ∅) as s tr ∧
      .waited 0 3 ∈ tr ∧ (historyOf tr).committed = [(3, [.put [97] [49]]), (6, [.put [98] [50]])] ∧
      CrashLeaves s d ∧ d.walLog ≠ s.disk.walLog ∧
      ∃ m, serialRun ∅ (((historyOf tr).committed.take m).map Prod.snd) =
          some (RecoveryManager.declared.recover d ∅) ∧
        ∀ i lsn, .waited i lsn ∈ tr → lsn ∈ ((historyOf tr).committed.take m).map Prod.fst := by
  have hrun := exists_run_of_exec step (fun s a => PlainStep s a ∧ BeginsRepeatableRead s a ∧ SyncedWait s a)
    (Server.boot {} ∅)
    [.connect, .connect, .command 0 (.begin .repeatableRead), .thread 0, .command 0 (.put [97] [49]),
      .command 0 .commit, .thread 0, .thread 0, .worker, .worker, .worker, .worker, .worker, .worker, .worker, .worker,
      .thread 0, .thread 0, .command 1 (.begin .repeatableRead), .thread 1, .command 1 (.put [98] [50]),
      .command 1 .commit, .thread 1, .thread 1, .worker, .worker, .worker, .worker, .worker]
    (fun s tr => decide ((.waited 0 3 ∈ tr ∧ (logOf tr).length = 6 ∧
      (historyOf tr).committed = [(3, [.put [97] [49]]), (6, [.put [98] [50]])]) ∧
      s.disk.walSynced <+: (s.disk.walLog.getD []).dropLast ∧ (s.disk.walLog.getD []).length ≠ 0))
    (by decide +kernel)
  obtain ⟨s, tr, hr, hp⟩ := hrun
  obtain ⟨⟨hw, hlen, hc⟩, hlow, hne⟩ := of_decide_eq_true hp
  have hcut := List.dropLast_prefix (s.disk.walLog.getD [])
  have hd : CrashLeaves s { s.disk with walLog := some (s.disk.walLog.getD []).dropLast } :=
    ⟨⟨_, rfl, hlow, hcut.trans (List.prefix_append ..)⟩, rfl⟩
  refine ⟨_, s, tr, _, hr, hw, hc, hd, fun heq => ?_, durably_serializable hr (by omega) hd⟩
  have hlen := congrArg List.length (congrArg (Option.getD · []) heq)
  rw [Option.getD_some, List.length_dropLast] at hlen
  omega

end Kvdb
