import Kvdb.Pipeline

/-!
# Restarts

Several lifetimes of the server append to one log file. Recovery tells transactions apart by their ids and orders them
by the LSNs of their commits, and both counters start again in every lifetime. As long as no two lifetimes get into each
other's way (`Lifetime.Separate`) recovery applies the transactions of the first lifetime, then those of the second, and
so on (`lifetimes_recovered`).
-/

namespace Kvdb

open Machine

/-! ## Writes that fit the format -/

/-- The key and the value fit the length fields of records and snapshots. -/
def Write.Short (w : Write) : Prop := w.1.length < 2 ^ 16 ∧ w.2.1.length < 2 ^ 16

instance (w : Write) : Decidable w.Short := inferInstanceAs (Decidable (_ ∧ _))

/-- Only transactions whose writes fit the format are committed. -/
def ShortWrites (s : State) : Action → Prop
  | .command i .commit => ∀ w ∈ (s.sessions i).txn.pendingBuffer.toList, Write.Short w
  | _ => True

instance (s : State) (a : Action) : Decidable (ShortWrites s a) := by
  unfold ShortWrites
  split <;> infer_instance

theorem ShortWrites.of_label {s : State} {a : Action} (h : ShortWrites s a) {i : SessionId} (hl : a.label = .commit i) :
    ∀ w ∈ (s.core.parties i).txn.pendingBuffer.toList, Write.Short w := by
  match a, hl with
  | .command j .commit, hl => cases hl; exact h

/-- What is logged fits the format. -/
structure ShortInv (log : List WALRecord) (cs : List Commit) (c : Core) : Prop where
  records : ∀ r ∈ log, r.key.length < 2 ^ 16 ∧ r.value.length < 2 ^ 16
  commits : ∀ cm ∈ cs, ∀ w ∈ cm.writes, Write.Short w
  logging : ∀ i ws, (c.parties i).phase = .logging ws →
    ws <:+ (c.parties i).txn.pendingBuffer.toList ∧ ∀ w ∈ (c.parties i).txn.pendingBuffer.toList, Write.Short w

theorem ShortInv.snoc {log : List WALRecord} {cs cs' : List Commit} {c c' : Core} {r : WALRecord}
    (h : ShortInv log cs c) (hr : r.key.length < 2 ^ 16 ∧ r.value.length < 2 ^ 16)
    (hcs : ∀ cm ∈ cs', ∀ w ∈ cm.writes, Write.Short w)
    (hl : ∀ i ws, (c'.parties i).phase = .logging ws →
      ws <:+ (c'.parties i).txn.pendingBuffer.toList ∧ ∀ w ∈ (c'.parties i).txn.pendingBuffer.toList, Write.Short w) :
    ShortInv (log ++ [r]) (cs ++ cs') c' where
  records r' hr' := by
    rcases List.mem_append.mp hr' with hr' | hr'
    · exact h.records r' hr'
    · rw [List.mem_singleton.mp hr']; exact hr
  commits cm hcm := by
    rcases List.mem_append.mp hcm with hcm | hcm
    · exact h.commits cm hcm
    · exact hcs cm hcm
  logging := hl

theorem Write.Short.record {w : Write} (h : w.Short) (lsn : Nat) (t : TxnId) :
    (w.record lsn t).key.length < 2 ^ 16 ∧ (w.record lsn t).value.length < 2 ^ 16 := by
  obtain ⟨k, v, _ | _⟩ := w
  · exact h
  · exact ⟨h.1, by simp [Write.record]⟩

theorem CoreStep.shortInv {c c' : Core} {l : Label} {evs tr : List Event} (h : CoreStep c l evs c')
    (hl : ∀ i, l = .commit i → ∀ w ∈ (c.parties i).txn.pendingBuffer.toList, Write.Short w)
    (hinv : ShortInv (logOf tr) (commitsOf tr) c) : ShortInv (logOf (tr ++ evs)) (commitsOf (tr ++ evs)) c' := by
  let ready (p : Party) : Prop := ∀ ws, p.phase = .logging ws →
    ws <:+ p.txn.pendingBuffer.toList ∧ ∀ w ∈ p.txn.pendingBuffer.toList, Write.Short w
  have hset : ∀ {c₁ : Core} {i : SessionId} {p' : Party}, c₁.parties = c.parties → ready p' →
      ∀ j, ready ((c₁.setParty i p').parties j) := fun hps hp => Core.forall_setParty ready hinv.logging hps hp
  have hquiet : logOf evs = [] → commitsOf evs = [] → (∀ i, ready (c'.parties i)) →
      ShortInv (logOf (tr ++ evs)) (commitsOf (tr ++ evs)) c' := by
    intro h1 h2 h3
    rw [logOf_append, h1, List.append_nil, commitsOf_append, h2, List.append_nil]
    exact ⟨hinv.records, hinv.commits, h3⟩
  cases h with
  | silent he => exact hquiet (logOf_silent he) (commitsOf_silent he) hinv.logging
  | begin | queued | waitFailed | release | apply | applied | startAbort | abortRelease =>
    exact hquiet rfl rfl (hset rfl fun ws h => by cases h)
  | read => exact hquiet rfl rfl (hset rfl fun ws h => by dsimp only at h; split at h <;> cases h)
  | @granted _ _ op =>
    exact hquiet (lockedEvents_logsNothing ..).log (lockedEvents_logsNothing ..).commits
      (hset rfl fun ws h => by cases op <;> cases h)
  | @waitGranted _ _ _ op =>
    exact hquiet (lockedEvents_logsNothing ..).log (lockedEvents_logsNothing ..).commits
      (hset rfl fun ws h => by cases op <;> cases h)
  | reset _ _ he => exact hquiet (logOf_silent he) (commitsOf_silent he) (hset rfl fun ws h => by cases h)
  | startCommit hp =>
    subst hp
    refine hquiet rfl rfl (hset rfl fun ws h => ?_)
    cases h
    exact ⟨List.suffix_refl _, hl _ rfl⟩
  | logBegin | logAbort =>
    rw [logOf_append, commitsOf_append]
    exact hinv.snoc ⟨by simp, by simp⟩ (by simp [commitsOf]) (hset rfl fun ws h => by cases h)
  | @logWrite _ i p w ws hp hph =>
    subst hp
    obtain ⟨hsuf, hshort⟩ := hinv.logging i _ hph
    rw [logOf_append, commitsOf_append]
    refine hinv.snoc (Write.Short.record (hshort w (hsuf.subset List.mem_cons_self)) ..) (by simp [commitsOf]) ?_
    refine hset rfl fun ws' h => ?_
    cases h
    exact ⟨(List.suffix_cons w ws).trans hsuf, hshort⟩
  | @logCommit _ i p hp hph =>
    subst hp
    obtain ⟨-, hshort⟩ := hinv.logging i _ hph
    rw [logOf_append, commitsOf_append]
    refine hinv.snoc ⟨by simp, by simp⟩ ?_ (hset rfl fun ws h => by cases h)
    intro cm hcm
    rw [show cm = ⟨c.nextLsn, (c.parties i).txn.txnId, (c.parties i).txn.pendingBuffer.toList⟩ from
      List.mem_singleton.mp hcm]
    exact hshort

theorem shortInv_initial {st : Store} {s₀ : State} (h : Server.Initial st s₀) :
    ShortInv (logOf []) (commitsOf []) s₀.core := by
  cases h <;> exact ⟨by simp, by simp [commitsOf], fun i ws h => by cases h⟩

/-! ## Lifetimes -/

/-- What one lifetime of the server has added to the log file: its records, and the transactions they commit. -/
structure Lifetime where
  log : List WALRecord
  commits : List Commit
  deriving DecidableEq, Repr

/-- Lifetimes of the server one after the other, from an empty disk: each starts with the files its predecessor has left
and the store recovered from them, and crashes when the first `f` of its records are in the log file. -/
inductive Lifetimes (P : State → Action → Prop) : Disk → List Lifetime → Prop
  | none : Lifetimes P {} []
  | next {d ls as s tr} (f : Nat) : Lifetimes P d ls →
      Run step P (Server.boot d (RecoveryManager.declared.recover d ∅)) as s tr →
      s.disk.walLog = some (d.walLog.getD [] ++ serialize ((logOf tr).take f)) →
      Lifetimes P s.disk (ls ++ [⟨(logOf tr).take f, (commitsOf tr).filter (·.lsn ≤ f)⟩])

/-- The first lifetime and a later one do not get into each other's way. An id that the first has committed is used in
the other for no more than a `BEGIN` record, an id that the other has committed was used in the first for no more than a
transaction without writes that did not commit, and the commits of the first have the lower LSNs. -/
structure Lifetime.Separate (l l' : Lifetime) : Prop where
  later : ∀ c ∈ l.commits, ∀ r ∈ l'.log, r.txnId = c.txnId → r.type = .begin
  earlier : ∀ c ∈ l'.commits, ∀ r ∈ l.log, r.txnId = c.txnId → r.type = .begin ∨ r.type = .abort
  order : ∀ c ∈ l.commits, ∀ c' ∈ l'.commits, c.lsn < c'.lsn

/-- The records of a lifetime, by themselves. -/
structure Lifetime.WF (l : Lifetime) : Prop where
  logged : Logged l.log l.commits
  positive : ∀ r ∈ l.log, 0 < r.lsn
  fits : l.log.length < 2 ^ 64 → ∀ r ∈ l.log, r.scanned.Fits

/-- No write fails and no checkpoint is taken, ids do not come back and writes fit the format. -/
def PlainStep (s : State) (a : Action) : Prop :=
  a.faulty = false ∧ NoCheckpoint s a ∧ FreshIds s a ∧ ShortWrites s a

instance (s : State) (a : Action) : Decidable (PlainStep s a) := inferInstanceAs (Decidable (_ ∧ _))

theorem lifetime_wf {d : Disk} {st : Store} {s : State} {as : List Action} {tr : List Event}
    (h : Run step PlainStep (Server.boot d st) as s tr) (f : Nat) :
    (Lifetime.mk ((logOf tr).take f) ((commitsOf tr).filter (·.lsn ≤ f))).WF ∧
      s.disk.read .dataDb = d.read .dataDb := by
  obtain ⟨-, hlog⟩ := logInv_of_run (.opened d) (h.mono fun _ _ hP => hP.2.2.1)
  have hinv : (∃ f, FileInv d tr f s) ∧ ShortInv (logOf tr) (commitsOf tr) s.core := by
    refine Run.invariant (fun tr s => (∃ f, FileInv d tr f s) ∧ ShortInv (logOf tr) (commitsOf tr) s.core)
      ⟨⟨0, fileInv_boot d st⟩, shortInv_initial (.opened d)⟩ ?_ h
    rintro tr s a s' evs ⟨⟨f, hf⟩, hsh⟩ ⟨ha, hc, -, hw⟩ hs
    obtain ⟨f', hf', -⟩ := hf.step ha hc hs
    exact ⟨⟨f', hf'⟩, (step_core hs).shortInv (fun i hl => hw.of_label hl) hsh⟩
  obtain ⟨⟨f₀, hfile⟩, hshort⟩ := hinv
  have hnum := hfile.numbered
  refine ⟨⟨hlog.prefixes f, fun r hr => (hnum.lsn_bounds (List.mem_of_mem_take hr)).1, fun hlen r hr => ?_⟩,
    hfile.dataDb⟩
  have hmem := List.mem_of_mem_take hr
  have hlsn := ((hnum.take f).lsn_bounds hr).2
  obtain ⟨hk, hv⟩ := hshort.records r hmem
  exact (hfile.wellTyped r hmem).fits (Nat.lt_of_le_of_lt hlsn hlen) hk hv

/-- The file is the logs of the lifetimes, one after the other. -/
theorem lifetimes_file {d : Disk} {ls : List Lifetime} (h : Lifetimes PlainStep d ls) :
    d.read .dataDb = none ∧ d.walLog.getD [] = serialize (ls.flatMap (·.log)) ∧ ∀ l ∈ ls, l.WF := by
  induction h with
  | none => exact ⟨rfl, rfl, by simp⟩
  | @next d ls as s tr f _ hrun hfile ih =>
    obtain ⟨hdb, hlog, hwf⟩ := ih
    obtain ⟨hl, hdb'⟩ := lifetime_wf hrun f
    refine ⟨hdb'.trans hdb, ?_, fun l hmem => ?_⟩
    · rw [hfile, List.flatMap_append, serialize_append, ← hlog]
      simp
    · rcases List.mem_append.mp hmem with hmem | hmem
      · exact hwf l hmem
      · rw [List.mem_singleton.mp hmem]; exact hl

/-- Transactions that did not commit and have no writes leave nothing behind in the replay. -/
theorem foldl_replayContent_abort {xs : List (RecordType × Key × Value)} (h : ∀ x ∈ xs, x.1 = .abort) :
    xs.foldl replayContent ([], false) = ([], false) := by
  induction xs with
  | nil => rfl
  | cons x xs ih =>
    obtain ⟨type, key, value⟩ := x
    obtain rfl : type = .abort := h _ List.mem_cons_self
    exact ih fun x hx => h x (List.mem_cons_of_mem _ hx)

/-- **A transaction of one lifetime among others**: its records amount to its own pending buffer and commit. -/
theorem lifetimes_ops {before after : List Lifetime} {l : Lifetime} (hl : l.WF)
    (hb : ∀ l' ∈ before, l'.Separate l) (ha : ∀ l' ∈ after, l.Separate l') {c : Commit} (hc : c ∈ l.commits) :
    (recordsOf c.txnId ((before ++ l :: after).flatMap (·.log))).foldl replayContent ([], false) =
      (c.writes.map Write.operation, true) := by
  have hbefore : ∀ x ∈ recordsOf c.txnId (before.flatMap (·.log)), x.1 = .abort := by
    intro x hx
    obtain ⟨r, hr, rfl⟩ := List.mem_map.mp hx
    rw [List.mem_filter, List.mem_flatMap, decide_eq_true_eq] at hr
    obtain ⟨⟨l', hl', hr⟩, ht, hne⟩ := hr
    exact ((hb l' hl').earlier c hc r hr ht).resolve_left hne
  have hafter : recordsOf c.txnId (after.flatMap (·.log)) = [] := by
    refine recordsOf_eq_nil fun r hr ht => ?_
    obtain ⟨l', hl', hr⟩ := List.mem_flatMap.mp hr
    exact (ha l' hl').later c hc r hr ht
  rw [List.flatMap_append, List.flatMap_cons, recordsOf_append, recordsOf_append, hafter, List.append_nil,
    List.foldl_append, foldl_replayContent_abort hbefore]
  exact hl.logged.ops hc

/-- **Recovery across lifetimes** that are separate restores the transactions of the first lifetime, then those of the
second, and so on, each of them completely. -/
theorem lifetimes_recovered {d : Disk} {ls : List Lifetime} (h : Lifetimes PlainStep d ls)
    (hsep : ls.Pairwise Lifetime.Separate) (hlen : ∀ l ∈ ls, l.log.length < 2 ^ 64) :
    RecoveryManager.declared.recover d ∅ = applyCommits ∅ (ls.flatMap (·.commits)) := by
  obtain ⟨hdb, hfile, hwf⟩ := lifetimes_file h
  have hlog : ∀ {r}, r ∈ ls.flatMap (·.log) → ∃ l ∈ ls, r ∈ l.log := fun hr => List.mem_flatMap.mp hr
  have hfits : ∀ r ∈ ls.flatMap (·.log), r.scanned.Fits := by
    intro r hr
    obtain ⟨l, hl, hr⟩ := hlog hr
    exact (hwf l hl).fits (hlen l hl) r hr
  have hpos : ∀ r ∈ ls.flatMap (·.log), 0 < r.lsn := by
    intro r hr
    obtain ⟨l, hl, hr⟩ := hlog hr
    exact (hwf l hl).positive r hr
  have hcommits : (ls.flatMap (·.log)).filter (·.type = .commit) = (ls.flatMap (·.commits)).map Commit.record := by
    rw [List.filter_flatMap, List.map_flatMap]
    exact List.flatMap_congr fun l hl => (hwf l hl).logged.commits
  have hsorted : (ls.flatMap (·.commits)).Pairwise fun a b => a.lsn < b.lsn := by
    rw [List.pairwise_flatMap]
    exact ⟨fun l hl => (hwf l hl).logged.pairwise_commits, hsep.imp fun hs c hc c' hc' => hs.order c hc c' hc'⟩
  have hops : ∀ c ∈ ls.flatMap (·.commits), (recordsOf c.txnId (ls.flatMap (·.log))).foldl replayContent ([], false) =
      (c.writes.map Write.operation, true) := by
    intro c hmem
    obtain ⟨l, hl, hc⟩ := List.mem_flatMap.mp hmem
    obtain ⟨before, after, rfl⟩ := List.append_of_mem hl
    rw [List.pairwise_append, List.pairwise_cons] at hsep
    exact lifetimes_ops (hwf l hl) (fun l' hl' => hsep.2.2 l' hl' l List.mem_cons_self) hsep.2.1.1 hc
  have hreplay : replayRecords 0 ∅ (acceptedRecords (d.walLog.getD [])) = applyCommits ∅ (ls.flatMap (·.commits)) := by
    rw [hfile, acceptedRecords_serialize hfits]
    exact replayRecords_eq hpos hcommits hsorted hops ∅
  rw [← hreplay, RecoveryManager.recover_eq, show d.read RecoveryManager.declared.dataFile = none from hdb]
  rfl

/-- Two computed lifetimes. -/
theorem exists_lifetimes_of_exec (P : State → Action → Prop) [∀ s a, Decidable (P s a)] (as₁ as₂ : List Action)
    (f₁ f₂ : Nat) (q : Disk → List Lifetime → Bool)
    (h : (exec step P (Server.boot {} (RecoveryManager.declared.recover {} ∅)) as₁).any (fun r₁ =>
      decide (r₁.1.disk.walLog = some (serialize ((logOf r₁.2).take f₁))) &&
        (exec step P (Server.boot r₁.1.disk (RecoveryManager.declared.recover r₁.1.disk ∅)) as₂).any fun r₂ =>
          decide (r₂.1.disk.walLog = some (r₁.1.disk.walLog.getD [] ++ serialize ((logOf r₂.2).take f₂))) &&
            q r₂.1.disk [⟨(logOf r₁.2).take f₁, (commitsOf r₁.2).filter (·.lsn ≤ f₁)⟩,
              ⟨(logOf r₂.2).take f₂, (commitsOf r₂.2).filter (·.lsn ≤ f₂)⟩]) = true) :
    ∃ d ls, Lifetimes P d ls ∧ q d ls = true := by
  obtain ⟨⟨s₁, tr₁⟩, hr₁, hp₁⟩ := (Option.any_eq_true _ _).mp h
  rw [Bool.and_eq_true, decide_eq_true_eq] at hp₁
  obtain ⟨⟨s₂, tr₂⟩, hr₂, hp₂⟩ := (Option.any_eq_true _ _).mp hp₁.2
  rw [Bool.and_eq_true, decide_eq_true_eq] at hp₂
  exact ⟨_, _, .next f₂ (.next f₁ .none (exec_run hr₁) hp₁.1) (exec_run hr₂) hp₂.1, hp₂.2⟩

/-- A lifetime commits transaction `1`; in the next one transaction `1` begins and never goes on, and transaction `2`
commits with a higher LSN. -/
theorem lifetimes_recovered_two : ∃ d ls, Lifetimes PlainStep d ls ∧
    ls.flatMap (·.commits) = [⟨3, 1, [([97], [49], false)]⟩, ⟨4, 2, [([98], [50], false)]⟩] ∧
    RecoveryManager.declared.recover d ∅ = applyCommits ∅ (ls.flatMap (·.commits)) := by
  have hlives := exists_lifetimes_of_exec PlainStep
    [.connect, .command 0 (.begin .repeatableRead), .thread 0, .command 0 (.put [97] [49]), .command 0 .commit,
      .thread 0, .thread 0, .worker, .worker, .worker, .worker, .worker]
    [.connect, .connect, .command 0 (.begin .repeatableRead), .thread 0, .command 1 (.begin .repeatableRead), .thread 1,
      .command 1 (.put [98] [50]), .command 1 .commit, .thread 1, .thread 1, .worker, .worker, .worker, .worker,
      .worker, .worker] 3 4
    (fun _ ls => decide (ls = [
      ⟨[⟨1, 1, .begin, [], []⟩, ⟨2, 1, .put, [97], [49]⟩, ⟨3, 1, .commit, [], []⟩], [⟨3, 1, [([97], [49], false)]⟩]⟩,
      ⟨[⟨1, 1, .begin, [], []⟩, ⟨2, 2, .begin, [], []⟩, ⟨3, 2, .put, [98], [50]⟩, ⟨4, 2, .commit, [], []⟩],
        [⟨4, 2, [([98], [50], false)]⟩]⟩])) (by decide +kernel)
  obtain ⟨d, ls, hlife, hls⟩ := hlives
  have hls := of_decide_eq_true hls
  refine ⟨d, ls, hlife, by rw [hls]; rfl, lifetimes_recovered hlife ?_ ?_⟩
  · rw [hls]
    exact List.pairwise_pair.mpr ⟨by decide, by decide, by decide⟩
  · rw [hls]
    decide

/-- A lifetime commits transaction `1`; in the next one transaction `1` aborts, and recovery takes the write of the
first back. -/
theorem lifetimes_cancelled : ∃ d ls, Lifetimes PlainStep d ls ∧
    RecoveryManager.declared.recover d ∅ ≠ applyCommits ∅ (ls.flatMap (·.commits)) := by
  have hlives := exists_lifetimes_of_exec PlainStep
    [.connect, .command 0 (.begin .repeatableRead), .thread 0, .command 0 (.put [97] [49]), .command 0 .commit,
      .thread 0, .thread 0, .worker, .worker, .worker, .worker, .worker]
    [.connect, .command 0 (.begin .repeatableRead), .thread 0, .command 0 .abort, .thread 0, .worker, .worker, .worker,
      .worker] 3 2
    (fun d ls => decide ((RecoveryManager.declared.recover d ∅).get [97] = none ∧
      (applyCommits ∅ (ls.flatMap (·.commits))).get [97] = some [49])) (by decide +kernel)
  obtain ⟨d, ls, hlife, hget⟩ := hlives
  obtain ⟨h1, h2⟩ := of_decide_eq_true hget
  refine ⟨d, ls, hlife, fun he => ?_⟩
  rw [he, h2] at h1
  cases h1

end Kvdb
