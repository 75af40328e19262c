import Kvdb.Locking
import Kvdb.Replay

/-!
# The shape of the log

While the server runs, the records of a transaction in the log are those of the entries of its pending buffer it has
logged so far, and the `COMMIT` record comes after all of them (`LogInv`). Every prefix of the log therefore holds
exactly the transactions whose `COMMIT` record it contains, each of them completely, whatever the interleaving; so
recovery from a log cut anywhere between two records is all or nothing (`recovery_all_or_nothing`).
-/

namespace Kvdb

/-! ## One more record -/

/-- The LSNs of a log are those from `1` on. -/
def Numbered (log : List WALRecord) : Prop := log.map (·.lsn) = List.range' 1 log.length

theorem Numbered.snoc {log : List WALRecord} {r : WALRecord} (h : Numbered log) (hr : r.lsn = log.length + 1) :
    Numbered (log ++ [r]) := by
  unfold Numbered at *
  rw [List.map_append, h, List.length_append, List.length_singleton, List.range'_1_concat, List.map_singleton, hr,
    Nat.add_comm]

theorem Numbered.take {log : List WALRecord} (h : Numbered log) (n : Nat) : Numbered (log.take n) := by
  have happ : (log.take n).map (·.lsn) ++ (log.drop n).map (·.lsn) =
      List.range' 1 (log.take n).length ++ List.range' (1 + (log.take n).length) (log.drop n).length := by
    rw [← List.map_append, List.take_append_drop, List.range'_append_1, ← List.length_append, List.take_append_drop]
    exact h
  exact List.append_inj_left happ (by simp)

theorem Numbered.lsn_bounds {log : List WALRecord} (h : Numbered log) {r : WALRecord} (hr : r ∈ log) :
    1 ≤ r.lsn ∧ r.lsn ≤ log.length := by
  have hmem : r.lsn ∈ List.range' 1 log.length := h ▸ List.mem_map_of_mem hr
  rw [List.mem_range'_1] at hmem
  omega

theorem Numbered.lsn_eq {log log' : List WALRecord} {r : WALRecord} (h : Numbered (log ++ r :: log')) :
    r.lsn = log.length + 1 := by
  have hget := congrArg (·[log.length]?) h
  simp at hget
  omega

theorem Numbered.lsn_le {log : List WALRecord} (h : Numbered log) {n : Nat} {r : WALRecord} (hr : r ∈ log.take n) :
    r.lsn ≤ n := by
  have hle := ((h.take n).lsn_bounds hr).2
  rw [List.length_take] at hle
  omega

theorem Numbered.lt_lsn {log : List WALRecord} (h : Numbered log) {n : Nat} {r : WALRecord} (hr : r ∈ log.drop n) :
    n < r.lsn := by
  obtain ⟨l₁, l₂, hl⟩ := List.append_of_mem hr
  have hall : Numbered ((log.take n ++ l₁) ++ r :: l₂) := by rwa [List.append_assoc, ← hl, List.take_append_drop]
  have hlsn := hall.lsn_eq
  have hlen := congrArg List.length hl
  rw [List.length_append, List.length_take] at hlsn
  rw [List.length_drop, List.length_append, List.length_cons] at hlen
  omega

theorem Numbered.filter_le {log : List WALRecord} (h : Numbered log) (n : Nat) :
    log.filter (·.lsn ≤ n) = log.take n := by
  conv_lhs => rw [← List.take_append_drop n log, List.filter_append]
  rw [List.filter_eq_self.mpr fun r hr => by simpa using h.lsn_le hr,
    List.filter_eq_nil_iff.mpr fun r hr => by simpa using h.lt_lsn hr, List.append_nil]

theorem Numbered.filter_lt {log : List WALRecord} (h : Numbered log) (n : Nat) :
    log.filter (n < ·.lsn) = log.drop n := by
  conv_lhs => rw [← List.take_append_drop n log, List.filter_append]
  rw [List.filter_eq_nil_iff.mpr fun r hr => by simpa using h.lsn_le hr,
    List.filter_eq_self.mpr fun r hr => by simpa using h.lt_lsn hr, List.nil_append]

theorem recordsOf_singleton_of_ne {t : TxnId} {r : WALRecord} (h : r.txnId ≠ t) : recordsOf t [r] = [] := by
  simp [recordsOf, h]

theorem sorted_snoc {log : List WALRecord} {r : WALRecord} (h : log.Pairwise fun a b => a.lsn < b.lsn)
    (hlsn : ∀ r' ∈ log, r'.lsn < r.lsn) : (log ++ [r]).Pairwise fun a b => a.lsn < b.lsn := by
  refine List.pairwise_append.mpr ⟨h, List.pairwise_singleton _ _, fun a ha b hb => ?_⟩
  rw [List.mem_singleton.mp hb]
  exact hlsn a ha

/-- A record that is no `COMMIT` and belongs to no committed transaction. -/
theorem Logged.snoc {log : List WALRecord} {cs : List Commit} {r : WALRecord} (h : Logged log cs)
    (hlsn : ∀ r' ∈ log, r'.lsn < r.lsn) (hr : r.type ≠ .commit) (hcs : ∀ c ∈ cs, c.txnId ≠ r.txnId) :
    Logged (log ++ [r]) cs where
  sorted := sorted_snoc h.sorted hlsn
  commits := by simp [List.filter_append, h.commits, hr]
  writes c hc := by
    rw [recordsOf_append, h.writes c hc, recordsOf_singleton_of_ne (Ne.symm (hcs c hc)), List.append_nil]

/-- The `COMMIT` record of a transaction whose buffer has been logged. -/
theorem Logged.commit {log : List WALRecord} {cs : List Commit} {c : Commit} (h : Logged log cs)
    (hlsn : ∀ r ∈ log, r.lsn < c.lsn) (hcs : ∀ d ∈ cs, d.txnId ≠ c.txnId)
    (hw : recordsOf c.txnId log = c.writes.map Write.content) : Logged (log ++ [c.record]) (cs ++ [c]) where
  sorted := sorted_snoc h.sorted hlsn
  commits := by simp [List.filter_append, h.commits, Commit.record]
  writes d hd := by
    rcases List.mem_append.mp hd with hd | hd
    · rw [recordsOf_append, h.writes d hd, recordsOf_singleton_of_ne (Ne.symm (hcs d hd)), List.append_nil]
    · rw [List.mem_singleton.mp hd, recordsOf_append, hw]
      simp [recordsOf, Commit.record, WALRecord.content]

/-! ## Transactions and their records -/

/-- Phases of an uncommitted transaction before it logs its buffer. -/
def Phase.unlogged : Phase → Bool
  | .running | .starting | .waiting _ _ _ | .reading _ | .releasing _ | .aborting => true
  | _ => false

/-- Phases of a transaction that may still log. -/
def Phase.open : Phase → Bool
  | .logging _ => true
  | ph => ph.unlogged

/-- What the log has of an active transaction. -/
structure PartyLog (log : List WALRecord) (cs : List Commit) (p : Party) : Prop where
  unlogged : p.phase.unlogged = true → recordsOf p.txn.txnId log = []
  logging : ∀ {ws}, p.phase = .logging ws → ∃ done, p.txn.pendingBuffer.toList = done ++ ws ∧
    recordsOf p.txn.txnId log = done.map Write.content
  uncommitted : p.phase.open = true → ∀ c ∈ cs, c.txnId ≠ p.txn.txnId

structure LogInv (ids : List TxnId) (log : List WALRecord) (cs : List Commit) (c : Core) : Prop where
  numbered : Numbered log
  next : c.nextLsn = log.length + 1
  below : ∀ cm ∈ cs, cm.lsn ≤ log.length
  recordIds : ∀ r ∈ log, r.txnId ∈ ids
  commitIds : ∀ cm ∈ cs, cm.txnId ∈ ids
  prefixes : ∀ n, Logged (log.take n) (cs.filter (·.lsn ≤ n))
  parties : ∀ {i}, (c.parties i).active → PartyLog log cs (c.parties i)

/-- Records and commits of others do not matter. -/
theorem PartyLog.frame {log : List WALRecord} {cs : List Commit} {p : Party} (h : PartyLog log cs p) {r : WALRecord}
    (hr : r.txnId ≠ p.txn.txnId) {cs' : List Commit} (hcs : ∀ c ∈ cs', c.txnId = r.txnId) :
    PartyLog (log ++ [r]) (cs ++ cs') p where
  unlogged hp := by rw [recordsOf_append, h.unlogged hp, recordsOf_singleton_of_ne hr, List.append_nil]
  logging hp := by
    obtain ⟨done, h1, h2⟩ := h.logging hp
    exact ⟨done, h1, by rw [recordsOf_append, h2, recordsOf_singleton_of_ne hr, List.append_nil]⟩
  uncommitted hp c hc := by
    rcases List.mem_append.mp hc with hc | hc
    · exact h.uncommitted hp c hc
    · rw [hcs c hc]; exact hr

namespace LogInv

variable {ids ids' : List TxnId} {log : List WALRecord} {cs : List Commit} {c c' : Core} {i : SessionId} {p' : Party}

theorem logged (h : LogInv ids log cs c) : Logged log cs := by
  have hl := h.prefixes log.length
  rwa [List.take_length, List.filter_eq_self.mpr fun cm hcm => by simpa using h.below cm hcm] at hl

/-- The next record is the last. -/
theorem lsn_lt (h : LogInv ids log cs c) : ∀ r ∈ log, r.lsn < c.nextLsn := by
  intro r hr
  have hbound := h.numbered.lsn_bounds hr
  have hnext := h.next
  omega

/-- A step that logs nothing. -/
theorem update (h : LogInv ids log cs c) (hids : ids ⊆ ids') (hn : c'.nextLsn = c.nextLsn)
    (hps : c'.parties = Function.update c.parties i p') (hp : p'.active → PartyLog log cs p') :
    LogInv ids' log cs c' where
  numbered := h.numbered
  next := hn.trans h.next
  below := h.below
  recordIds r hr := hids (h.recordIds r hr)
  commitIds cm hcm := hids (h.commitIds cm hcm)
  prefixes := h.prefixes
  parties {j} hj := by
    rw [hps] at hj ⊢
    by_cases hji : j = i
    · subst hji; rw [Function.update_self] at hj ⊢; exact hp hj
    · rw [Function.update_of_ne hji] at hj ⊢; exact h.parties hj

/-- A step whose events hand out no id and log nothing. -/
theorem quiet (h : LogInv ids log cs c) {evs : List Event} (he : LogsNothing evs) (hn : c'.nextLsn = c.nextLsn)
    (hps : c'.parties = Function.update c.parties i p') (hp : p'.active → PartyLog log cs p') :
    LogInv (ids ++ begunOf evs) (log ++ logOf evs) (cs ++ commitsOf evs) c' := by
  rw [he.begun, he.log, he.commits, List.append_nil, List.append_nil, List.append_nil]
  exact h.update (List.Subset.refl _) hn hps hp

/-- A step in which session `i` logs a record, and maybe commits with it. -/
theorem snoc (h : LogInv ids log cs c) {r : WALRecord} (cs' : List Commit) (hact : (c.parties i).active)
    (hunique : ∀ j, (c.parties j).active → (c.parties j).txn.txnId = (c.parties i).txn.txnId → j = i)
    (hid : (c.parties i).txn.txnId ∈ ids) (hr : r.txnId = (c.parties i).txn.txnId) (hlsn : r.lsn = c.nextLsn)
    (hcs : ∀ cm ∈ cs', cm.txnId = r.txnId ∧ cm.lsn = r.lsn) (hlog : Logged (log ++ [r]) (cs ++ cs'))
    (hn : c'.nextLsn = c.nextLsn + 1) (hps : c'.parties = Function.update c.parties i p')
    (hp : PartyLog (log ++ [r]) (cs ++ cs') p') : LogInv ids (log ++ [r]) (cs ++ cs') c' where
  numbered := h.numbered.snoc (hlsn.trans h.next)
  next := by rw [hn, h.next, List.length_append, List.length_singleton]
  below cm hcm := by
    rw [List.length_append, List.length_singleton]
    rcases List.mem_append.mp hcm with hcm | hcm
    · exact Nat.le_succ_of_le (h.below cm hcm)
    · rw [(hcs cm hcm).2, hlsn, h.next]
  recordIds r' hr' := by
    rcases List.mem_append.mp hr' with hr' | hr'
    · exact h.recordIds r' hr'
    · rw [List.mem_singleton.mp hr', hr]; exact hid
  commitIds cm hcm := by
    rcases List.mem_append.mp hcm with hcm | hcm
    · exact h.commitIds cm hcm
    · rw [(hcs cm hcm).1, hr]; exact hid
  prefixes n := by
    rcases Nat.lt_or_ge log.length n with hlt | hge
    · -- the whole log
      rw [List.take_of_length_le (by simp; omega), List.filter_eq_self.mpr]
      · exact hlog
      · intro cm hcm
        rcases List.mem_append.mp hcm with hcm | hcm
        · have := h.below cm hcm; simp; omega
        · have := (hcs cm hcm).2; have := h.next; simp; omega
    · -- a prefix of the old log, to which the new commit does not belong
      have hnew : cs'.filter (·.lsn ≤ n) = [] := by
        refine List.filter_eq_nil_iff.mpr fun cm hcm => ?_
        have := (hcs cm hcm).2; have := h.next; simp; omega
      rw [List.take_append_of_le_length hge, List.filter_append, hnew, List.append_nil]
      exact h.prefixes n
  parties {j} hj := by
    rw [hps] at hj ⊢
    by_cases hji : j = i
    · subst hji; rw [Function.update_self] at hj ⊢; exact hp
    · rw [Function.update_of_ne hji] at hj ⊢
      refine (h.parties hj).frame (fun heq => hji (hunique j hj ?_)) fun cm hcm => (hcs cm hcm).1
      rw [← heq, hr]

/-- A step in which session `i` logs a record of another type. -/
theorem record (h : LogInv ids log cs c) {r : WALRecord} (hact : (c.parties i).active)
    (hunique : ∀ j, (c.parties j).active → (c.parties j).txn.txnId = (c.parties i).txn.txnId → j = i)
    (hid : (c.parties i).txn.txnId ∈ ids) (hr : r.txnId = (c.parties i).txn.txnId) (hlsn : r.lsn = c.nextLsn)
    (hcommit : r.type ≠ .commit) (hopen : (c.parties i).phase.open = true) (hn : c'.nextLsn = c.nextLsn + 1)
    (hps : c'.parties = Function.update c.parties i p') (hp : PartyLog (log ++ [r]) cs p') :
    LogInv ids (log ++ [r]) cs c' := by
  have hlogged : Logged (log ++ [r]) cs :=
    h.logged.snoc (by rw [hlsn]; exact h.lsn_lt) hcommit (by rw [hr]; exact (h.parties hact).uncommitted hopen)
  rw [← List.append_nil cs] at hlogged hp ⊢
  exact h.snoc [] hact hunique hid hr hlsn (by simp) hlogged hn hps hp

end LogInv

/-- The record of an entry and what replay sees of it. -/
theorem Write.record_content (lsn : Nat) (t : TxnId) (w : Write) :
    (w.record lsn t).content = w.content ∧ (w.record lsn t).txnId = t ∧ (w.record lsn t).lsn = lsn ∧
      (w.record lsn t).type ≠ .commit ∧ (w.record lsn t).type ≠ .begin := by
  obtain ⟨k, v, _ | _⟩ := w <;> simp [Write.record, Write.content, WALRecord.content]

theorem Party.locked_unlogged (txn : TransactionInfo) (op : LockOp) (key : Key) :
    (Party.locked txn op key).phase.unlogged = true := by cases op <;> rfl

/-- A transaction before its commit has nothing in the log, and moves on before its commit. -/
theorem PartyLog.of_unlogged {log : List WALRecord} {cs : List Commit} {p p' : Party} (h : PartyLog log cs p)
    (hp : p.phase.unlogged = true) (hid : p'.txn.txnId = p.txn.txnId) (hp' : p'.phase.unlogged = true) :
    PartyLog log cs p' where
  unlogged _ := by rw [hid]; exact h.unlogged hp
  logging hl := by rw [hl] at hp'; cases hp'
  uncommitted _ c hc := by
    rw [hid]
    refine h.uncommitted ?_ c hc
    unfold Phase.open
    split
    · rfl
    · exact hp

/-- A transaction that logs no more. -/
theorem PartyLog.closed {log : List WALRecord} {cs : List Commit} {p : Party} (h : p.phase.open = false) :
    PartyLog log cs p := by
  refine ⟨fun hp => ?_, fun hp => ?_, fun hp => ?_⟩
  · unfold Phase.open at h
    split at h
    · cases h
    · rw [h] at hp; cases hp
  · rw [hp] at h; cases h
  · rw [h] at hp; cases hp

/-- **The log keeps its shape.** -/
theorem CoreStep.logInv {c c' : Core} {l : Label} {evs tr : List Event} (h : CoreStep c l evs c')
    (hl : ∀ i, l = .begin i → ¬ (c.parties i).active → c.nextTxnId ≠ 0) (hi : IdInv (begunOf tr) c)
    (hlog : LogInv (begunOf tr) (logOf tr) (commitsOf tr) c) :
    LogInv (begunOf (tr ++ evs)) (logOf (tr ++ evs)) (commitsOf (tr ++ evs)) c' := by
  have hunique : ∀ {i}, (c.parties i).active → ∀ j, (c.parties j).active →
      (c.parties j).txn.txnId = (c.parties i).txn.txnId → j = i := fun hia j hja he => hi.unique hja hia he
  rw [begunOf_append, logOf_append, commitsOf_append]
  cases h with
  | silent he => rw [begunOf_silent he, logOf_silent he, commitsOf_silent he]; simpa using hlog
  | @begin i level hph hact =>
    have hnew := hi.next_notMem (hl i rfl hact)
    rw [show logOf [Event.began i c.nextTxnId level] = [] from rfl,
      show commitsOf [Event.began i c.nextTxnId level] = [] from rfl, List.append_nil, List.append_nil]
    refine hlog.update (List.subset_append_left _ _) rfl rfl fun _ => ⟨fun _ => ?_, by simp, fun _ cm hcm heq => ?_⟩
    · refine recordsOf_eq_nil fun r hr heq => absurd ?_ hnew
      rw [show c.nextTxnId = r.txnId from heq.symm]
      exact hlog.recordIds r hr
    · refine hnew ?_
      rw [show c.nextTxnId = cm.txnId from heq.symm]
      exact hlog.commitIds cm hcm
  | @granted i p op key locks hp hph hact _ =>
    subst hp
    exact hlog.quiet (lockedEvents_logsNothing ..) rfl rfl fun _ => (hlog.parties hact).of_unlogged (by rw [hph]; rfl)
      (Party.locked_active hact op key).2 (Party.locked_unlogged ..)
  | @waitGranted _ i p op key flags locks hp hph _ =>
    subst hp
    have hact := hi.busy i (by rw [hph]; simp)
    exact hlog.quiet (lockedEvents_logsNothing ..) rfl rfl fun _ => (hlog.parties hact).of_unlogged (by rw [hph]; rfl)
      (Party.locked_active hact op key).2 (Party.locked_unlogged ..)
  | @logBegin _ i p hp hph =>
    subst hp
    have hact := hi.busy i (by rw [hph]; simp)
    have hpl := hlog.parties hact
    rw [show commitsOf [Event.logged _] = [] from rfl, show begunOf [Event.logged _] = [] from rfl, List.append_nil,
      List.append_nil]
    refine hlog.record hact (hunique hact) (hi.active i hact) rfl rfl (by simp) (by rw [hph]; rfl) rfl rfl
      ⟨fun _ => ?_, by simp, fun _ => hpl.uncommitted (by rw [hph]; rfl)⟩
    rw [recordsOf_append, hpl.unlogged (by rw [hph]; rfl)]
    simp [recordsOf]
  | @logWrite _ i p w ws hp hph =>
    subst hp
    have hact := hi.busy i (by rw [hph]; simp)
    have hpl := hlog.parties hact
    obtain ⟨hcont, hid, hlsn, hnc, hnb⟩ := Write.record_content c.nextLsn (c.parties i).txn.txnId w
    rw [show commitsOf [Event.logged _] = [] from rfl, show begunOf [Event.logged _] = [] from rfl, List.append_nil,
      List.append_nil]
    refine hlog.record hact (hunique hact) (hi.active i hact) hid hlsn hnc (by rw [hph]; rfl) rfl rfl
      ⟨by simp [Phase.unlogged], fun {ws'} hws => ?_, fun _ => hpl.uncommitted (by rw [hph]; rfl)⟩
    obtain ⟨done, hdone, hrec⟩ := hpl.logging hph
    obtain rfl : ws = ws' := by simpa using hws
    refine ⟨done ++ [w], by rw [hdone]; simp, ?_⟩
    rw [recordsOf_append, hrec, List.map_append]
    simp [recordsOf, hid, hnb, hcont]
  | @logCommit _ i p hp hph =>
    subst hp
    have hact := hi.busy i (by rw [hph]; simp)
    have hpl := hlog.parties hact
    have huncom := hpl.uncommitted (by rw [hph]; rfl)
    obtain ⟨done, hdone, hrec⟩ := hpl.logging hph
    rw [List.append_nil] at hdone
    rw [show begunOf [Event.logged _, Event.committed ..] = [] from rfl, List.append_nil]
    refine hlog.snoc _ hact (hunique hact) (hi.active i hact) rfl rfl ?_ ?_ rfl rfl (PartyLog.closed rfl)
    · intro cm hcm
      rw [List.mem_singleton.mp hcm]
      exact ⟨rfl, rfl⟩
    · exact hlog.logged.commit (c := ⟨c.nextLsn, (c.parties i).txn.txnId, (c.parties i).txn.pendingBuffer.toList⟩)
        hlog.lsn_lt huncom (by rw [hrec, ← hdone])
  | @logAbort _ i p hp hph =>
    subst hp
    have hact := hi.busy i (by rw [hph]; simp)
    rw [show commitsOf [Event.logged _] = [] from rfl, show begunOf [Event.logged _] = [] from rfl, List.append_nil,
      List.append_nil]
    exact hlog.record hact (hunique hact) (hi.active i hact) rfl rfl (by simp) (by rw [hph]; rfl) rfl rfl
      (PartyLog.closed rfl)
  | @startCommit i p hp hph hact =>
    subst hp
    have hpl := hlog.parties hact
    refine hlog.quiet ⟨rfl, rfl, rfl⟩ rfl rfl fun _ =>
      ⟨by simp [Phase.unlogged], fun {ws} hws => ⟨[], ?_, ?_⟩, fun _ => hpl.uncommitted (by rw [hph]; rfl)⟩
    · simpa using hws
    · simpa using hpl.unlogged (by rw [hph]; rfl)
  | @read _ i p key hp hph =>
    subst hp
    refine hlog.quiet ⟨rfl, rfl, rfl⟩ rfl rfl fun hact =>
      (hlog.parties (i := i) hact).of_unlogged (by rw [hph]; rfl) rfl ?_
    dsimp only
    split <;> rfl
  | reset _ _ he => exact hlog.quiet (logsNothing_silent he) rfl rfl fun hact => by cases hact
  | @queued i p op key locks flags hp hph _ _ | @waitFailed _ i p op key flags locks hp hph _
  | @release _ i p key hp hph | @startAbort _ i p hp hph _ =>
    subst hp
    exact hlog.quiet ⟨rfl, rfl, rfl⟩ rfl rfl fun hact =>
      (hlog.parties (i := i) hact).of_unlogged (by rw [hph]; rfl) rfl rfl
  | apply | applied | abortRelease => exact hlog.quiet ⟨rfl, rfl, rfl⟩ rfl rfl fun _ => PartyLog.closed rfl

/-! ## Runs -/

open Machine

theorem logInv_initial {st : Store} {s₀ : State} (h : Server.Initial st s₀) :
    LogInv (begunOf []) (logOf []) (commitsOf []) s₀.core := by
  have hnil : ∀ n, Logged (List.take n (logOf [])) ((commitsOf []).filter (·.lsn ≤ n)) := by
    intro n
    rw [logOf_nil, List.take_nil]
    exact Logged.nil
  cases h <;>
    exact ⟨rfl, rfl, by simp [commitsOf], by simp, by simp [commitsOf], hnil, fun hi => by cases hi⟩

/-- The log has its shape along every run that hands out no id twice. -/
theorem logInv_of_run {st : Store} {s₀ s : State} {as : List Action} {tr : List Event} (h0 : Server.Initial st s₀)
    (h : Run step FreshIds s₀ as s tr) :
    IdInv (begunOf tr) s.core ∧ LogInv (begunOf tr) (logOf tr) (commitsOf tr) s.core := by
  refine Run.invariant (fun tr s => IdInv (begunOf tr) s.core ∧ LogInv (begunOf tr) (logOf tr) (commitsOf tr) s.core)
    ⟨idInv_initial h0, logInv_initial h0⟩ ?_ h
  rintro tr s a s' evs ⟨hi, hl⟩ hf hs
  have hne : ∀ i, a.label = .begin i → ¬ (s.core.parties i).active → s.core.nextTxnId ≠ 0 :=
    fun i hlabel hia => hf.next_ne hlabel hia
  exact ⟨(step_core hs).idInv hne hi, (step_core hs).logInv hne hi hl⟩

/-- The commits a prefix of the log contains are those up to its length. -/
theorem LogInv.record_mem_iff {ids : List TxnId} {log : List WALRecord} {cs : List Commit} {c : Core}
    (h : LogInv ids log cs c) {cm : Commit} (hcm : cm ∈ cs) {n : Nat} :
    cm.record ∈ log.take n ↔ cm.lsn ≤ n := by
  constructor
  · intro hmem
    have hlsn : cm.lsn ≤ (log.take n).length := ((h.numbered.take n).lsn_bounds hmem).2
    rw [List.length_take] at hlsn
    omega
  · intro hle
    have hmem : cm ∈ cs.filter (·.lsn ≤ n) := List.mem_filter.mpr ⟨hcm, by simpa using hle⟩
    have hrec : cm.record ∈ (log.take n).filter (·.type = .commit) := by
      rw [(h.prefixes n).commits]
      exact List.mem_map_of_mem hmem
    exact (List.mem_filter.mp hrec).1

/-- **Recovery is all or nothing** at every cut of the log between two records: it restores the pending buffers of the
transactions whose `COMMIT` record it finds, in the order of their LSNs, and nothing else. -/
theorem recovery_all_or_nothing {st : Store} {s₀ s : State} {as : List Action} {tr : List Event}
    (h0 : Server.Initial st s₀) (h : Run step (fun _ _ => True) s₀ as s tr) (hn : (begunOf tr).length < 2 ^ 32)
    {P : List WALRecord} (hP : P <+: logOf tr) :
    (logOf tr).Pairwise (fun a b => a.lsn < b.lsn) ∧ (commitsOf tr).Pairwise (fun a b => a.lsn < b.lsn) ∧
      replayRecords 0 ∅ (P.map WALRecord.scanned) =
        applyCommits ∅ ((commitsOf tr).filter fun c => c.record ∈ P) := by
  obtain ⟨_, hl⟩ := logInv_of_run h0 ((freshIds_of_length h0 h hn).1.mono fun _ _ hP => hP.2)
  have hlogged := hl.logged
  refine ⟨hlogged.sorted, hlogged.pairwise_commits, ?_⟩
  rw [List.prefix_iff_eq_take.mp hP]
  have hpos : ∀ r ∈ (logOf tr).take P.length, 0 < r.lsn :=
    fun r hr => (hl.numbered.lsn_bounds (List.mem_of_mem_take hr)).1
  rw [replayRecords_of_logged (hl.prefixes P.length) hpos]
  congr 1
  refine List.filter_congr fun cm hcm => ?_
  rw [decide_eq_decide]
  exact (hl.record_mem_iff hcm).symm

/-- Two sessions commit, and the log is cut before the second `COMMIT` record. -/
theorem recovery_all_or_nothing_cut : ∃ as s tr, Run step (fun _ _ => True) (Server.boot {} ∅) as s tr ∧
    commitsOf tr = [⟨5, 1, [([97], [49], false)]⟩, ⟨6, 2, [([98], [50], false)]⟩] ∧
    replayRecords 0 ∅ (((logOf tr).take 5).map WALRecord.scanned) = applyCommits ∅ [⟨5, 1, [([97], [49], false)]⟩] := by
  have hrun := exists_run_of_exec step (fun _ _ => True) (Server.boot {} ∅)
    [.connect, .connect, .command 0 (.begin .repeatableRead), .thread 0, .command 1 (.begin .readCommitted),
      .thread 1, .command 0 (.put [97] [49]), .command 1 (.put [98] [50]), .command 0 .commit, .command 1 .commit,
      .thread 1, .thread 0, .thread 0, .thread 1]
    (fun _ tr => decide ((begunOf tr).length = 2 ∧
      commitsOf tr = [⟨5, 1, [([97], [49], false)]⟩, ⟨6, 2, [([98], [50], false)]⟩] ∧
      (commitsOf tr).filter (fun c => c.record ∈ (logOf tr).take 5) = [⟨5, 1, [([97], [49], false)]⟩]))
    (by decide +kernel)
  obtain ⟨s, tr, hr, hp⟩ := hrun
  obtain ⟨hn, hc, hf⟩ := of_decide_eq_true hp
  have hcut := recovery_all_or_nothing (.opened {}) hr (by omega) (List.take_prefix 5 (logOf tr))
  exact ⟨_, s, tr, hr, hc, hcut.2.2.trans (by rw [hf])⟩

end Kvdb
