import Kvdb.CheckpointSafety
import Kvdb.Progress

/-!
# A temporary snapshot that cannot be written

`createCheckpoint` writes the store to a temporary file, renames this file over the snapshot and truncates the log.
`writeSnapshotFile` returns silently if the file cannot be opened and never looks at the stream after a write, so the
attempt goes on with whatever file there is (`TmpFault.Leaves`): it takes the place of the snapshot, and the log loses
the records up to the checkpoint. Only if there is no file at all, `rename` throws and nothing has been touched
(`failed_checkpoint_harmless_iff`).

`TmpFault.Holds` says what is on the disk at each point of such an attempt.
-/

namespace Kvdb

open Machine

/-- How the temporary file fails: it cannot be opened, or only the first `n` bytes get into it. -/
inductive TmpFault
  | unopened
  | short (n : Nat)
  deriving DecidableEq

namespace TmpFault

/-- Where this happens, and after how many bytes. -/
def hits : TmpFault → CheckpointPc → Option Nat
  | .unopened, .openTmp _ => some 0
  | .short n, .writeTmp _ _ _ => some n
  | _, _ => none

/-- There is nothing that could be renamed. -/
def Harmless (fault : TmpFault) (d : Disk) : Prop := fault = .unopened ∧ d.dataDbTmp = none

/-- What the attempt finds in the temporary file when it renames it: the file from an earlier attempt, or the beginning
of the snapshot. -/
def Leaves (fault : TmpFault) (s : State) (contents : Option Bytes) : Prop :=
  match fault with
  | .unopened => contents = s.disk.read .dataDbTmp
  | .short n => ∃ entries, s.store.IsEntries entries ∧
      contents = some ((snapshotBytes s.wal.flushedLsn entries).take n)

end TmpFault

/-- The thread of session `i` acts alone until its checkpoint is over, and the temporary file fails and nothing else. -/
def TmpFails (fault : TmpFault) (i : SessionId) (s : State) (a : Action) : Prop :=
  match (s.sessions i).pc with
  | .checkpoint pc =>
    match fault.hits pc with
    | some n => a = .threadFault i n
    | none => a.session = some i ∧ a.faulty = false
  | _ => False

/-- The attempt is over, or it has ended the process. -/
def State.Over (s : State) (i : SessionId) : Prop := s.alive = false ∨ (s.sessions i).pc = .idle

/-! ## The disk during the attempt -/

/-- The files that recovery reads are the same. -/
structure Disk.Keeps (d₀ d : Disk) : Prop where
  dataDb : d.dataDb = d₀.dataDb
  contents : d.read .dataDb = d₀.read .dataDb
  walLog : d.walLog = d₀.walLog

namespace TmpFault

variable (fault : TmpFault) (s₀ : State)

/-- The temporary file is in the place of the snapshot. -/
structure Replaced (d : Disk) : Prop where
  harmful : ¬ fault.Harmless s₀.disk
  dataDb : d.dataDb ≠ s₀.disk.dataDb
  leftover : fault.Leaves s₀ (d.read .dataDb)

/-- The log has been truncated too. `seen` are the states of the attempt: one of them had no log at all. -/
structure Destroyed (seen : State → Prop) (d : Disk) : Prop extends Replaced fault s₀ d where
  truncated : d.walLog = s₀.disk.walLog.map (truncateWAL s₀.wal.flushedLsn)
  emptied : s₀.disk.walLog ≠ none → ∃ s, seen s ∧ fault.Replaced s₀ s.disk ∧ s.disk.walLog = some []

/-- What is on the disk at the points of an attempt that starts in `s₀`. -/
def Holds (seen : State → Prop) (d : Disk) : CheckpointPc → Prop
  | .check => False
  | .fsyncWal | .readLsn => ∃ synced, d = { s₀.disk with walSynced := synced }
  | .openTmp lsn => lsn = s₀.wal.flushedLsn ∧ ∃ synced, d = { s₀.disk with walSynced := synced }
  | .copyStore lsn file => lsn = s₀.wal.flushedLsn ∧ fault ≠ .unopened ∧ s₀.disk.Keeps d ∧ d.Tmp file [] ∧ d.HasSnapshot
  | .writeTmp lsn file entries => lsn = s₀.wal.flushedLsn ∧ fault ≠ .unopened ∧ s₀.disk.Keeps d ∧ d.Tmp file [] ∧
      d.HasSnapshot ∧ s₀.store.IsEntries entries
  | .fsyncTmp lsn | .rename lsn => lsn = s₀.wal.flushedLsn ∧ s₀.disk.Keeps d ∧
      (fault.Harmless s₀.disk ∧ d.dataDbTmp = none ∨
        ¬ fault.Harmless s₀.disk ∧ ∃ file bytes, d.Tmp file bytes ∧ fault.Leaves s₀ (some bytes))
  | .readWal lsn => lsn = s₀.wal.flushedLsn ∧ fault.Replaced s₀ d ∧ d.walLog = s₀.disk.walLog
  | .truncate remaining => fault.Replaced s₀ d ∧
      s₀.disk.walLog.map (truncateWAL s₀.wal.flushedLsn) = some remaining
  | .rewrite remaining => fault.Replaced s₀ d ∧ d.walLog = some [] ∧
      s₀.disk.walLog.map (truncateWAL s₀.wal.flushedLsn) = some remaining
  | .fsyncRewritten => fault.Destroyed s₀ seen d

end TmpFault

/-- What holds in the states of the attempt. -/
structure AttemptInv (fault : TmpFault) (s₀ : State) (seen : State → Prop) (i : SessionId) (s : State) : Prop where
  store : s.store = s₀.store
  wal : s.wal = s₀.wal
  thrown : s.alive = false → fault.Harmless s₀.disk ∧ s₀.disk.Keeps s.disk
  running : s.alive = true → (∃ pc, (s.sessions i).pc = .checkpoint pc ∧ fault.Holds s₀ seen s.disk pc) ∨
    (s.sessions i).pc = .idle ∧ fault.Destroyed s₀ seen s.disk

section Steps

variable {fault : TmpFault} {s₀ s s' : State} {seen : State → Prop} {i : SessionId} {a : Action} {evs : List Event}
  {d : Disk} {pc : CheckpointPc}

/-- A step of the attempt. -/
inductive AttemptMove (fault : TmpFault) (s : State) (i : SessionId) : CheckpointPc → State → Prop
  | fails {n : Nat} {pc : CheckpointPc} {s' : State} : fault.hits pc = some n → checkpointFault s i n pc = some s' →
      AttemptMove fault s i pc s'
  | next {pc : CheckpointPc} {s' : State} : fault.hits pc = none → checkpointStep s i pc = some s' →
      AttemptMove fault s i pc s'
  | copy {lsn file : Nat} (entries : List (Key × Value)) : s.store.IsEntries entries →
      AttemptMove fault s i (.copyStore lsn file) (s.setPc i (.checkpoint (.writeTmp lsn file entries)))

theorem TmpFails.move (hP : TmpFails fault i s a) (hs : step s a = some (s', evs)) :
    s.alive = true ∧ ∃ pc, (s.sessions i).pc = .checkpoint pc ∧ AttemptMove fault s i pc s' := by
  obtain ⟨halive, hby⟩ := step_cases hs
  refine ⟨halive, ?_⟩
  unfold TmpFails at hP
  split at hP
  case h_2 => exact hP.elim
  rename_i pc hpc
  refine ⟨pc, hpc, ?_⟩
  have hown : a.session = some i := by
    split at hP
    · rw [hP]
      rfl
    · exact hP.1
  have hsame : ∀ {pc'}, (s.sessions i).pc = .checkpoint pc' → pc' = pc := fun h => Pc.checkpoint.inj (h.symm.trans hpc)
  cases hby with
  | connect ha => subst ha; cases hown
  | worker fault ha => subst ha; cases fault <;> cases hown
  | session j ha hne =>
    cases ha.symm.trans hown
    exact absurd hpc (hne pc)
  | copyStore j entries lsn file ha hpc' he hs' =>
    subst ha hs'
    cases hown
    cases hsame hpc'
    exact .copy entries he
  | checkpoint j pc' ha hpc' hc =>
    subst ha
    cases hown
    cases hsame hpc'
    cases hhits : fault.hits pc with
    | none => exact .next hhits hc
    | some n => rw [hhits] at hP; cases hP
  | checkpointFault j n pc' ha hpc' hc =>
    subst ha
    cases hown
    cases hsame hpc'
    cases hhits : fault.hits pc with
    | none => rw [hhits] at hP; cases hP.2
    | some m =>
      rw [hhits] at hP
      cases hP
      exact .fails hhits hc

theorem AttemptInv.advance (h : AttemptInv fault s₀ seen i s) (halive : s.alive = true)
    (hholds : fault.Holds s₀ seen d pc) :
    AttemptInv fault s₀ seen i ({ s with disk := d }.setPc i (.checkpoint pc)) where
  store := h.store
  wal := h.wal
  thrown hdead := by rw [show _ = s.alive from rfl, halive] at hdead; cases hdead
  running _ := Or.inl ⟨pc, pc_setPc .., hholds⟩

theorem AttemptInv.ended (h : AttemptInv fault s₀ seen i s) (halive : s.alive = true)
    (hd : fault.Destroyed s₀ seen d) : AttemptInv fault s₀ seen i ({ s with disk := d }.setPc i .idle) where
  store := h.store
  wal := h.wal
  thrown hdead := by rw [show _ = s.alive from rfl, halive] at hdead; cases hdead
  running _ := Or.inr ⟨pc_setPc .., hd⟩

theorem Disk.keeps_synced (d₀ : Disk) (synced : Bytes) : d₀.Keeps { d₀ with walSynced := synced } := ⟨rfl, rfl, rfl⟩

/-- The file cannot be opened. -/
theorem TmpFault.holds_unopened (hd : s₀.disk.NamesApart) (synced : Bytes) :
    TmpFault.unopened.Holds s₀ seen { s₀.disk with walSynced := synced } (.fsyncTmp s₀.wal.flushedLsn) := by
  refine ⟨rfl, Disk.keeps_synced .., ?_⟩
  cases htmp : s₀.disk.dataDbTmp with
  | none => exact Or.inl ⟨⟨rfl, htmp⟩, rfl⟩
  | some file =>
    obtain ⟨hlt, hother⟩ := hd.tmp file htmp
    have hharmful : ¬ TmpFault.unopened.Harmless s₀.disk := by simp [TmpFault.Harmless, htmp]
    refine Or.inr ⟨hharmful, file, s₀.disk.snapshots[file], ⟨htmp, ?_, hother⟩, ?_⟩
    · exact List.getElem?_eq_getElem hlt
    · simp [TmpFault.Leaves, Disk.read, htmp, hlt]

theorem Disk.keeps_openTmp (hd : s₀.disk.NamesApart) (synced : Bytes) :
    s₀.disk.Keeps { s₀.disk with walSynced := synced }.openTmp.1 ∧
      { s₀.disk with walSynced := synced }.openTmp.1.Tmp { s₀.disk with walSynced := synced }.openTmp.2 [] ∧
      { s₀.disk with walSynced := synced }.openTmp.1.HasSnapshot := by
  have hd : ({ s₀.disk with walSynced := synced } : Disk).NamesApart := ⟨hd.hasSnapshot, hd.tmp⟩
  obtain ⟨htmp, hsnap, hdata, hread, hwal⟩ := Disk.openTmp_spec hd
  exact ⟨⟨hdata, hread, hwal⟩, htmp, hsnap⟩

/-- The write is short. -/
theorem TmpFault.holds_short {n file : Nat} {entries : List (Key × Value)} (hkeeps : s₀.disk.Keeps d)
    (htmp : d.Tmp file []) (hsnap : d.HasSnapshot) (he : s₀.store.IsEntries entries) :
    (TmpFault.short n).Holds s₀ seen
      (d.writeSnapshot file ((snapshotBytes s₀.wal.flushedLsn entries).take n)) (.fsyncTmp s₀.wal.flushedLsn) := by
  obtain ⟨htmp', -, hread⟩ := Disk.writeSnapshot_spec htmp hsnap ((snapshotBytes s₀.wal.flushedLsn entries).take n)
  refine ⟨rfl, ⟨hkeeps.dataDb, hread.trans hkeeps.contents, hkeeps.walLog⟩, Or.inr ⟨?_, file, _, htmp', ?_⟩⟩
  · rintro ⟨h, -⟩
    cases h
  · exact ⟨entries, he, rfl⟩

/-- The step at which the file fails. -/
theorem AttemptInv.fails (h : AttemptInv fault s₀ seen i s) (hd : s₀.disk.NamesApart) (halive : s.alive = true)
    (hholds : fault.Holds s₀ seen s.disk pc) {n : Nat} (hhits : fault.hits pc = some n)
    (hc : checkpointFault s i n pc = some s') : AttemptInv fault s₀ seen i s' := by
  cases fault with
  | unopened =>
    cases pc <;> cases hhits
    obtain ⟨rfl, synced, hdisk⟩ := hholds
    cases hc
    refine h.advance halive ?_
    rw [hdisk]
    exact TmpFault.holds_unopened hd synced
  | short n =>
    cases pc <;> cases hhits
    obtain ⟨rfl, -, hkeeps, htmp, hsnap, he⟩ := hholds
    cases hc
    exact h.advance halive (TmpFault.holds_short hkeeps htmp hsnap he)

/-- `rename` puts what it finds in the place of the snapshot, or throws. -/
theorem AttemptInv.rename {lsn : Nat} (h : AttemptInv fault s₀ seen i s) (halive : s.alive = true)
    (hholds : fault.Holds s₀ seen s.disk (.rename lsn)) (hc : checkpointStep s i (.rename lsn) = some s') :
    AttemptInv fault s₀ seen i s' := by
  obtain ⟨hlsn, hkeeps, ⟨hharmless, hnone⟩ | ⟨hharmful, file, bytes, htmp, hleaves⟩⟩ := hholds
  · -- there is nothing to rename: the exception ends the process
    simp only [checkpointStep, hnone, Option.some.injEq] at hc
    subst hc
    exact ⟨h.store, h.wal, fun _ => ⟨hharmless, hkeeps⟩, fun halive => by cases halive⟩
  · simp only [checkpointStep, htmp.path, Option.some.injEq] at hc
    subst hc
    refine h.advance halive ⟨hlsn, ⟨hharmful, ?_, ?_⟩, hkeeps.walLog⟩
    · exact fun he => htmp.other (hkeeps.dataDb.trans he.symm)
    · rw [show Disk.read _ .dataDb = s.disk.snapshots[file]? from rfl, htmp.contents]
      exact hleaves

/-- A step in which nothing fails. -/
theorem AttemptInv.next (h : AttemptInv fault s₀ seen i s) (hd : s₀.disk.NamesApart) (hseen : seen s)
    (halive : s.alive = true) (hholds : fault.Holds s₀ seen s.disk pc) (hhits : fault.hits pc = none)
    (hc : checkpointStep s i pc = some s') : AttemptInv fault s₀ seen i s' := by
  cases pc with
  | check => exact hholds.elim
  | copyStore => cases hc
  | fsyncWal =>
    obtain ⟨synced, hdisk⟩ := hholds
    obtain ⟨synced', hsync⟩ := s.disk.fsyncWal_eq
    cases hc
    exact h.advance halive ⟨synced', by rw [hsync, hdisk]⟩
  | readLsn =>
    cases hc
    exact h.advance halive ⟨by rw [h.wal], hholds⟩
  | openTmp lsn =>
    obtain ⟨hlsn, synced, hdisk⟩ := hholds
    have hopen : fault ≠ .unopened := by
      rintro rfl
      cases hhits
    cases hc
    refine h.advance halive ⟨hlsn, hopen, ?_⟩
    rw [hdisk]
    exact Disk.keeps_openTmp hd synced
  | writeTmp lsn file entries =>
    cases fault with
    | unopened => exact absurd rfl hholds.2.1
    | short n => cases hhits
  | fsyncTmp lsn =>
    cases hc
    exact h.advance halive hholds
  | rename lsn => exact h.rename halive hholds hc
  | readWal lsn =>
    obtain ⟨rfl, hreplaced, hwal⟩ := hholds
    simp only [checkpointStep, hwal] at hc
    cases hlog : s₀.disk.walLog with
    | none =>
      rw [hlog] at hc hwal
      cases hc
      refine h.ended halive ⟨hreplaced, ?_, fun hne => absurd hlog hne⟩
      rw [hwal, hlog]
      rfl
    | some file =>
      rw [hlog] at hc
      cases hc
      exact h.advance halive ⟨hreplaced, by rw [hlog]; rfl⟩
  | truncate remaining =>
    obtain ⟨hreplaced, hremaining⟩ := hholds
    cases hc
    exact h.advance halive ⟨⟨hreplaced.harmful, hreplaced.dataDb, hreplaced.leftover⟩, rfl, hremaining⟩
  | rewrite remaining =>
    obtain ⟨hreplaced, hwal, hremaining⟩ := hholds
    cases hc
    refine h.advance halive ⟨⟨hreplaced.harmful, hreplaced.dataDb, hreplaced.leftover⟩, ?_, fun _ => ?_⟩
    · rw [hremaining]
      simp [hwal, overwrite]
    · exact ⟨s, hseen, hreplaced, hwal⟩
  | fsyncRewritten =>
    obtain ⟨synced, hsync⟩ := s.disk.fsyncWal_eq
    cases hc
    refine h.ended halive ?_
    rw [hsync]
    exact ⟨⟨hholds.harmful, hholds.dataDb, hholds.leftover⟩, hholds.truncated, hholds.emptied⟩

/-- **A step of the attempt.** -/
theorem AttemptInv.step (h : AttemptInv fault s₀ seen i s) (hd : s₀.disk.NamesApart) (hseen : seen s)
    (hP : TmpFails fault i s a) (hs : Kvdb.step s a = some (s', evs)) : AttemptInv fault s₀ seen i s' := by
  obtain ⟨halive, pc, hpc, hmove⟩ := hP.move hs
  have hholds : fault.Holds s₀ seen s.disk pc := by
    rcases h.running halive with ⟨pc', hpc', hholds⟩ | ⟨hidle, -⟩
    · cases hpc.symm.trans hpc'
      exact hholds
    · cases hpc.symm.trans hidle
  cases hmove with
  | fails hhits hc => exact h.fails hd halive hholds hhits hc
  | next hhits hc => exact h.next hd hseen halive hholds hhits hc
  | copy entries he =>
    obtain ⟨hlsn, hopen, hkeeps, htmp, hsnap⟩ := hholds
    exact h.advance halive ⟨hlsn, hopen, hkeeps, htmp, hsnap, h.store ▸ he⟩

/-- The steps that are left; a thread that has thrown has none. -/
def State.attemptWork (s : State) (i : SessionId) : Nat := if s.alive then (s.sessions i).work + 1 else 0

theorem checkpointStep_isSome (hcopy : ∀ lsn file, pc ≠ .copyStore lsn file) :
    ∃ s', checkpointStep s i pc = some s' := by
  cases pc with
  | copyStore lsn file => exact absurd rfl (hcopy lsn file)
  | rename lsn => simp only [checkpointStep]; split <;> exact ⟨_, rfl⟩
  | readWal lsn => simp only [checkpointStep]; split <;> exact ⟨_, rfl⟩
  | _ => exact ⟨_, rfl⟩

theorem Spends.attemptWork_lt (h : Spends s i s') (halive : s.alive = true) (hpc : (s.sessions i).pc = .checkpoint pc) :
    s'.attemptWork i < s.attemptWork i := by
  unfold State.attemptWork
  rw [if_pos halive]
  cases h with
  | works hlt => split <;> omega
  | waits _ hlt =>
    rw [Session.waitWork, Session.waitWork, hpc] at hlt
    exact absurd hlt (Nat.not_lt_zero _)
  | throws heq =>
    subst heq
    exact Nat.succ_pos _

/-- Until it is over, the attempt can go on. -/
theorem exists_attempt_step (halive : s.alive = true) (hpc : (s.sessions i).pc = .checkpoint pc) :
    ∃ a s' evs, TmpFails fault i s a ∧ Kvdb.step s a = some (s', evs) ∧ s'.attemptWork i < s.attemptWork i := by
  have hwork : ∀ {s' : State}, (s'.sessions i).work < (s.sessions i).work → s'.wal = s.wal →
      s'.attemptWork i < s.attemptWork i := fun hlt hwal =>
    (Spends.works hlt (by rw [hwal]; exact Nat.le_succ _)).attemptWork_lt halive hpc
  have hstep : ∀ {a}, (fault.hits pc = none → a.session = some i ∧ a.faulty = false) →
      (∀ n, fault.hits pc = some n → a = .threadFault i n) → TmpFails fault i s a := by
    intro a hnone hsome
    simp only [TmpFails, hpc]
    cases hhits : fault.hits pc with
    | none => exact hnone hhits
    | some n => exact hsome n hhits
  cases hhits : fault.hits pc with
  | some n =>
    have hc : ∃ s', checkpointFault s i n pc = some s' ∧ s'.attemptWork i < s.attemptWork i := by
      cases fault <;> cases pc <;> cases hhits <;>
        exact ⟨_, rfl, hwork (by simp [Session.work, hpc, CheckpointPc.work]) rfl⟩
    obtain ⟨s', hc, hlt⟩ := hc
    refine ⟨.threadFault i n, s', [], hstep (fun h => ?_) (fun m h => ?_), ?_, hlt⟩
    · cases hhits.symm.trans h
    · cases hhits.symm.trans h
      rfl
    · simp [Kvdb.step, halive, hpc, hc]
  | none =>
    by_cases hcopy : ∃ lsn file, pc = .copyStore lsn file
    · obtain ⟨lsn, file, rfl⟩ := hcopy
      have hentries : s.store.IsEntries s.store.toList := List.Perm.refl _
      refine ⟨.copyStore i s.store.toList, s.setPc i (.checkpoint (.writeTmp lsn file s.store.toList)), [],
        hstep (fun _ => ⟨rfl, rfl⟩) (fun n h => by cases hhits.symm.trans h), ?_,
        hwork (by simp [Session.work, hpc, CheckpointPc.work]) rfl⟩
      simp [Kvdb.step, halive, hpc, hentries]
    · obtain ⟨s', hc⟩ := checkpointStep_isSome (s := s) (i := i) fun lsn file h => hcopy ⟨lsn, file, h⟩
      refine ⟨.thread i, s', [], hstep (fun _ => ⟨rfl, rfl⟩) (fun n h => by cases hhits.symm.trans h), ?_,
        (checkpointStep_spends hpc hc).attemptWork_lt halive hpc⟩
      simp [Kvdb.step, halive, threadStep, hpc, hc]

end Steps

/-! ## Attempts -/

section Attempts

variable {fault : TmpFault} {i : SessionId} {s s' : State} {as : List Action} {tr : List Event}

theorem attemptInv_start (halive : s.alive = true) (hpc : (s.sessions i).pc = .checkpoint .fsyncWal)
    (seen : State → Prop) : AttemptInv fault s seen i s where
  store := rfl
  wal := rfl
  thrown hdead := by rw [halive] at hdead; cases hdead
  running _ := Or.inl ⟨_, hpc, s.disk.walSynced, rfl⟩

/-- Along an attempt, with the states that the whole attempt goes through. -/
theorem attemptInv_of_run (halive : s.alive = true) (hpc : (s.sessions i).pc = .checkpoint .fsyncWal)
    (hd : s.disk.NamesApart) (h : Run step (TmpFails fault i) s as s' tr) :
    AttemptInv fault s (fun s₁ => ∃ bs tr₁, bs <+: as ∧ Run step (TmpFails fault i) s bs s₁ tr₁) i s' := by
  have hinv := h.invariant_actions (fun done _ s' => done <+: as → AttemptInv fault s (fun s₁ => ∃ bs tr₁, bs <+: as ∧
    Run step (TmpFails fault i) s bs s₁ tr₁) i s') (fun _ => attemptInv_start halive hpc _)
    fun hrun hinv hP hs hdone => by
      have hbefore := (List.prefix_append ..).trans hdone
      exact (hinv hbefore).step hd ⟨_, _, hbefore, hrun⟩ hP hs
  exact hinv List.prefix_rfl

theorem AttemptInv.keeps {s₀ : State} {seen : State → Prop} (h : AttemptInv fault s₀ seen i s)
    (hharmless : fault.Harmless s₀.disk) : s₀.disk.Keeps s.disk := by
  cases halive : s.alive with
  | false => exact (h.thrown halive).2
  | true =>
    rcases h.running halive with ⟨pc, -, hholds⟩ | ⟨-, hdestroyed⟩
    · cases pc with
      | check => exact hholds.elim
      | fsyncWal | readLsn =>
        obtain ⟨synced, hdisk⟩ := hholds
        rw [hdisk]
        exact Disk.keeps_synced ..
      | openTmp lsn =>
        obtain ⟨-, synced, hdisk⟩ := hholds
        rw [hdisk]
        exact Disk.keeps_synced ..
      | copyStore lsn file => exact hholds.2.2.1
      | writeTmp lsn file entries => exact hholds.2.2.1
      | fsyncTmp lsn | rename lsn => exact hholds.2.1
      | readWal lsn => exact absurd hharmless hholds.2.1.harmful
      | truncate remaining | rewrite remaining => exact absurd hharmless hholds.1.harmful
      | fsyncRewritten => exact absurd hharmless hholds.harmful
    · exact absurd hharmless hdestroyed.harmful

/-- An attempt comes to its end. -/
theorem exists_attempt (fault : TmpFault) (halive : s.alive = true) (hpc : (s.sessions i).pc = .checkpoint .fsyncWal)
    (hd : s.disk.NamesApart) : ∃ as s' tr, Run step (TmpFails fault i) s as s' tr ∧ s'.Over i := by
  refine exists_run_of_lt (AttemptInv fault s (fun _ => True) i) (State.Over · i) (State.attemptWork · i)
    (fun {s₁} hinv hover => ?_) (attemptInv_start halive hpc _)
  have halive₁ : s₁.alive = true := eq_true_of_ne_false fun hdead => hover (Or.inl hdead)
  obtain ⟨pc, hpc₁, -⟩ := (hinv.running halive₁).resolve_right fun h => hover (Or.inr h.1)
  obtain ⟨a, s₂, evs, hP, hs, hlt⟩ := exists_attempt_step halive₁ hpc₁
  exact ⟨a, s₂, evs, hP, hs, hinv.step hd trivial hP hs, hlt⟩

end Attempts

/-! ## The names of the snapshot files -/

section Names

variable {d d' : Disk} {s s' : State} {i : SessionId} {a : Action} {evs : List Event}

theorem Disk.NamesApart.of_same (h : d.NamesApart) (hlen : d'.snapshots.length = d.snapshots.length)
    (hdata : d'.dataDb = d.dataDb) (htmp : d'.dataDbTmp = d.dataDbTmp) : d'.NamesApart := by
  refine ⟨fun file hfile => ?_, fun file hfile => ?_⟩
  · rw [hlen]
    exact h.hasSnapshot file (hdata ▸ hfile)
  · rw [hlen, hdata]
    exact h.tmp file (htmp ▸ hfile)

theorem Disk.Tmp.namesApart {file : Nat} {bytes : Bytes} (h : d.Tmp file bytes) (hs : d.HasSnapshot) :
    d.NamesApart := by
  refine ⟨hs, fun file' hfile => ?_⟩
  cases h.path.symm.trans hfile
  exact ⟨(List.getElem?_eq_some_iff.mp h.contents).1, h.other⟩

theorem checkpointStep_namesApart {pc : CheckpointPc} (h : s.disk.NamesApart) (hc : checkpointStep s i pc = some s') :
    s'.disk.NamesApart := by
  cases pc with
  | copyStore => cases hc
  | openTmp lsn =>
    obtain ⟨htmp, hsnap, -⟩ := Disk.openTmp_spec h
    cases hc
    exact htmp.namesApart hsnap
  | writeTmp lsn file entries =>
    cases hc
    exact h.of_same (List.length_modify ..) rfl rfl
  | rename lsn =>
    simp only [checkpointStep] at hc
    split at hc <;> cases hc
    · rename_i file hfile
      refine Disk.HasSnapshot.namesApart (fun file' hfile' => ?_) rfl
      cases hfile'
      exact (h.tmp file hfile).1
    · exact h
  | readWal lsn =>
    simp only [checkpointStep] at hc
    split at hc <;> cases hc <;> exact h
  | fsyncWal | fsyncRewritten =>
    obtain ⟨synced, hsync⟩ := s.disk.fsyncWal_eq
    cases hc
    exact h.of_same (by rw [State.setPc, State.setSession, hsync]) (by rw [State.setPc, State.setSession, hsync])
      (by rw [State.setPc, State.setSession, hsync])
  | check | readLsn | fsyncTmp | truncate | rewrite =>
    cases hc
    exact h.of_same rfl rfl rfl

/-- Every step keeps the two names apart. -/
theorem step_namesApart (h : s.disk.NamesApart) (hs : step s a = some (s', evs)) : s'.disk.NamesApart := by
  cases (step_cases hs).2 with
  | connect _ hs' => rw [hs']; exact h
  | session j _ _ _ hst => rw [hst.disk]; exact h
  | checkpoint j pc _ _ hc => exact checkpointStep_namesApart h hc
  | copyStore j entries lsn file _ _ _ hs' => rw [hs']; exact h
  | checkpointFault j n pc _ _ hc =>
    cases pc with
    | writeTmp lsn file entries =>
      cases hc
      exact h.of_same (List.length_modify ..) rfl rfl
    | openTmp | truncate | rewrite =>
      cases hc
      exact h.of_same rfl rfl rfl
    | _ => cases hc
  | worker fault _ hw =>
    obtain ⟨log, synced, hdisk⟩ := workerStep_disk hw
    rw [hdisk]
    exact h.of_same rfl rfl rfl

theorem namesApart_of_run {P : State → Action → Prop} {s₀ : State} {as : List Action} {tr : List Event}
    (h0 : s₀.disk.NamesApart) (h : Run step P s₀ as s tr) : s.disk.NamesApart :=
  h.invariant (fun _ s => s.disk.NamesApart) h0 fun h _ hs => step_namesApart h hs

end Names

/-! ## Failed checkpoints -/

/-- **A failed checkpoint is harmless exactly if it finds nothing to rename.** In every state in which
`createCheckpoint` begins: the files that recovery reads stay as they are in every attempt if and only if the temporary
file cannot be opened and there is none from before. Otherwise, whatever the number of bytes that got into the file,
every attempt that is over has put that file, or the old one, in the place of the snapshot and has truncated the log,
and there was a moment at which the log was empty. -/
theorem failed_checkpoint_harmless_iff (fault : TmpFault) {i : SessionId} {s : State} (halive : s.alive = true)
    (hpc : (s.sessions i).pc = .checkpoint .fsyncWal) (hd : s.disk.NamesApart) :
    (fault.Harmless s.disk ↔ ∀ as s' tr, Run step (TmpFails fault i) s as s' tr →
      s'.disk.dataDb = s.disk.dataDb ∧ s'.disk.read .dataDb = s.disk.read .dataDb ∧
      s'.disk.read .walLog = s.disk.read .walLog ∧
      ∀ st, RecoveryManager.declared.recover s'.disk st = RecoveryManager.declared.recover s.disk st) ∧
    (∃ as s' tr, Run step (TmpFails fault i) s as s' tr ∧ s'.Over i) ∧
    (¬ fault.Harmless s.disk → ∀ as s' tr, Run step (TmpFails fault i) s as s' tr → s'.Over i →
      s'.alive = true ∧ s'.disk.dataDb ≠ s.disk.dataDb ∧ fault.Leaves s (s'.disk.read .dataDb) ∧
      s'.disk.walLog = s.disk.walLog.map (truncateWAL s.wal.flushedLsn) ∧
      (s.disk.walLog ≠ none → ∃ bs s₁ tr₁, bs <+: as ∧ Run step (TmpFails fault i) s bs s₁ tr₁ ∧
        fault.Leaves s (s₁.disk.read .dataDb) ∧ s₁.disk.walLog = some [])) := by
  have hends := exists_attempt fault halive hpc hd
  have hdestroys : ¬ fault.Harmless s.disk → ∀ {as s' tr}, Run step (TmpFails fault i) s as s' tr → s'.Over i →
      s'.alive = true ∧ fault.Destroyed s (fun s₁ => ∃ bs tr₁, bs <+: as ∧
        Run step (TmpFails fault i) s bs s₁ tr₁) s'.disk := by
    intro hharmful as s' tr hr hover
    have hinv := attemptInv_of_run halive hpc hd hr
    have halive' : s'.alive = true := eq_true_of_ne_false fun hdead => hharmful (hinv.thrown hdead).1
    have hidle := hover.resolve_left (by simp [halive'])
    refine ⟨halive', ((hinv.running halive').resolve_left fun ⟨pc, hpc', _⟩ => ?_).2⟩
    cases hidle.symm.trans hpc'
  refine ⟨⟨fun hharmless as s' tr hr => ?_, fun hkeeps => ?_⟩, hends, fun hharmful as s' tr hr hover => ?_⟩
  · have hkeeps := (attemptInv_of_run halive hpc hd hr).keeps hharmless
    exact ⟨hkeeps.dataDb, hkeeps.contents, hkeeps.walLog,
      RecoveryManager.declared.recover_congr hkeeps.contents hkeeps.walLog⟩
  · by_contra hharmful
    obtain ⟨as, s', tr, hr, hover⟩ := hends
    exact (hdestroys hharmful hr hover).2.dataDb (hkeeps as s' tr hr).1
  · obtain ⟨halive', hdestroyed⟩ := hdestroys hharmful hr hover
    refine ⟨halive', hdestroyed.dataDb, hdestroyed.leftover, hdestroyed.truncated, fun hlog => ?_⟩
    obtain ⟨s₁, ⟨bs, tr₁, hbs, hr₁⟩, hreplaced, hwal⟩ := hdestroyed.emptied hlog
    exact ⟨bs, s₁, tr₁, hbs, hr₁, hreplaced.leftover, hwal⟩

/-- One transaction that puts `a`, commits and is flushed; then the session has come to `createCheckpoint`. -/
def putThenCheckpoint : List Action :=
  [.connect, .command 0 (.begin .readCommitted), .thread 0, .command 0 (.put [97] [49]), .command 0 .commit, .thread 0,
    .thread 0, .worker, .worker, .worker, .worker, .worker, .worker, .worker, .worker, .thread 0, .thread 0, .thread 0,
    .thread 0, .thread 0, .command 0 .checkpoint, .thread 0]

/-- The binding can be recovered if the file cannot be opened, and is replaced by a cut file after a short write. -/
theorem failed_checkpoint_harmless_iff_put : ∃ s tr,
    Run step (fun _ _ => True) (Server.boot {} ∅) putThenCheckpoint s tr ∧
    (RecoveryManager.declared.recover s.disk ∅).get [97] = some [49] ∧
    (∀ as s' tr', Run step (TmpFails .unopened 0) s as s' tr' →
      RecoveryManager.declared.recover s'.disk ∅ = RecoveryManager.declared.recover s.disk ∅) ∧
    ∀ n, ∃ as s' tr', Run step (TmpFails (.short n) 0) s as s' tr' ∧ s'.Over 0 ∧ s'.disk.dataDb ≠ s.disk.dataDb ∧
      (TmpFault.short n).Leaves s (s'.disk.read .dataDb) := by
  have hrun := exists_run_of_exec step (fun _ _ => True) (Server.boot {} ∅) putThenCheckpoint
    (fun s _ => decide (s.alive = true ∧ (s.sessions 0).pc = .checkpoint .fsyncWal ∧ s.disk.dataDbTmp = none ∧
      (RecoveryManager.declared.recover s.disk ∅).get [97] = some [49])) (by decide +kernel)
  obtain ⟨s, tr, hr, hp⟩ := hrun
  obtain ⟨halive, hpc, hnone, hget⟩ := of_decide_eq_true hp
  have hd : s.disk.NamesApart := namesApart_of_run ⟨(by simp [Disk.HasSnapshot, Server.boot]), by simp [Server.boot]⟩ hr
  have hopen := failed_checkpoint_harmless_iff .unopened halive hpc hd
  refine ⟨s, tr, hr, hget, fun as s' tr' hr' => (hopen.1.mp ⟨rfl, hnone⟩ as s' tr' hr').2.2.2 ∅, fun n => ?_⟩
  obtain ⟨-, ⟨as, s', tr', hr', hover⟩, hdestroys⟩ := failed_checkpoint_harmless_iff (.short n) halive hpc hd
  obtain ⟨-, hdata, hleaves, -⟩ := hdestroys (by simp [TmpFault.Harmless]) as s' tr' hr' hover
  exact ⟨as, s', tr', hr', hover, hdata, hleaves⟩

/-- A short write of the temporary file is not noticed: the file is renamed over the snapshot and the log truncated, and
a committed binding is lost. The same happens when the file cannot be opened and there is one from before. -/
theorem failed_checkpoint_destroys :
    (∃ s tr as' s' tr', Run step (fun _ _ => True) (Server.boot {} ∅) putThenCheckpoint s tr ∧
      Run step (fun _ a => a.session = some 0) s as' s' tr' ∧ as'.filter Action.faulty = [.threadFault 0 10] ∧
      (s.sessions 0).pc = .checkpoint .fsyncWal ∧ (s'.sessions 0).pc = .idle ∧
      (RecoveryManager.declared.recover s.disk ∅).get [97] = some [49] ∧
      (RecoveryManager.declared.recover s'.disk ∅).get [97] = none) ∧
    ∃ s tr as' s' tr', Run step (fun _ _ => True) (Server.boot { snapshots := [[]], dataDbTmp := some 0 } ∅)
        putThenCheckpoint s tr ∧
      Run step (fun _ a => a.session = some 0) s as' s' tr' ∧ as'.filter Action.faulty = [.threadFault 0 0] ∧
      (s.sessions 0).pc = .checkpoint .fsyncWal ∧ (s'.sessions 0).pc = .idle ∧
      (RecoveryManager.declared.recover s.disk ∅).get [97] = some [49] ∧
      (RecoveryManager.declared.recover s'.disk ∅).get [97] = none := by
  have hshort := exists_runs_of_exec step (fun _ _ => True) (fun _ a => a.session = some 0) (Server.boot {} ∅)
    putThenCheckpoint [.thread 0, .thread 0, .thread 0, .copyStore 0 [([97], [49])], .threadFault 0 10, .thread 0,
      .thread 0, .thread 0, .thread 0, .thread 0, .thread 0]
    (fun s s' => decide ((s.sessions 0).pc = .checkpoint .fsyncWal ∧ (s'.sessions 0).pc = .idle ∧
      (RecoveryManager.declared.recover s.disk ∅).get [97] = some [49] ∧
      (RecoveryManager.declared.recover s'.disk ∅).get [97] = none)) (by decide +kernel)
  have hstale := exists_runs_of_exec step (fun _ _ => True) (fun _ a => a.session = some 0)
    (Server.boot { snapshots := [[]], dataDbTmp := some 0 } ∅) putThenCheckpoint
    [.thread 0, .thread 0, .threadFault 0 0, .thread 0, .thread 0, .thread 0, .thread 0, .thread 0, .thread 0]
    (fun s s' => decide ((s.sessions 0).pc = .checkpoint .fsyncWal ∧ (s'.sessions 0).pc = .idle ∧
      (RecoveryManager.declared.recover s.disk ∅).get [97] = some [49] ∧
      (RecoveryManager.declared.recover s'.disk ∅).get [97] = none)) (by decide +kernel)
  refine ⟨?_, ?_⟩
  · obtain ⟨s, tr, s', tr', hr, hr', hp⟩ := hshort
    exact ⟨s, tr, _, s', tr', hr, hr', by decide, of_decide_eq_true hp⟩
  · obtain ⟨s, tr, s', tr', hr, hr', hp⟩ := hstale
    exact ⟨s, tr, _, s', tr', hr, hr', by decide, of_decide_eq_true hp⟩

end Kvdb
