import Kvdb.Lib.Machine
import Kvdb.LockTable
import Kvdb.Steps

/-!
# Two-phase locking

Two invariants tie the lock table to the transactions. Every holder and every waiter belongs to an active transaction,
ids are not shared, and a session inside `acquireLock` is queued or has its grant (`HoldInv`); this holds as long as no
id is handed out while it is in use, so in every run that begins fewer than `2 ^ 32` transactions (`holdInv_of_length`,
`no_orphaned_locks`). Besides, a transaction holds what it has recorded as held, and it holds alone and exclusively
every key of its pending buffer (`LockInv`).

The second one is broken by a `get` at `READ_COMMITTED` of a key in the own pending buffer, whose release gives up the
write lock. `KeepsLocks` excludes it and ids in use; then write locks last until the end of the transaction
(`write_locks_held`).
-/

namespace Kvdb

open LockManager

/-- Steps that hand out no id that an active transaction of the first `n` sessions has. -/
def Core.NewId (c : Core) (n : Nat) : Label → Prop
  | .begin i => ¬ (c.parties i).active → ∀ j < n, (c.parties j).active → (c.parties j).txn.txnId ≠ c.nextTxnId
  | _ => True

/-- Steps that do not `get` a key of the own pending buffer at `READ_COMMITTED`: its release would give up the write
lock. -/
def Core.KeepsWriteLocks (c : Core) : Label → Prop
  | .request i .get key =>
    (c.parties i).active → (c.parties i).txn.isolationLevel = .readCommitted → key ∉ (c.parties i).txn.pendingBuffer
  | _ => True

/-- Steps that keep the locks. -/
def Core.Allowed (c : Core) (l : Label) : Prop := (∀ n, c.NewId n l) ∧ c.KeepsWriteLocks l

instance (p : Party) : Decidable p.active := inferInstanceAs (Decidable (p.txn.state = .active))

instance (c : Core) (n : Nat) : (l : Label) → Decidable (c.NewId n l)
  | .begin i => inferInstanceAs (Decidable (¬ (c.parties i).active → ∀ j < n, _))
  | .request .. | .commit _ | .other => .isTrue trivial

instance (c : Core) : (l : Label) → Decidable (c.KeepsWriteLocks l)
  | .request i .get key =>
    inferInstanceAs (Decidable ((c.parties i).active → _ → key ∉ (c.parties i).txn.pendingBuffer))
  | .request _ (.put _) _ | .request _ .delete _ | .begin _ | .commit _ | .other => .isTrue trivial

theorem Core.txnId_ne_next {c : Core} {i : SessionId} (h : ∀ n, c.NewId n (.begin i)) (hi : ¬ (c.parties i).active)
    (j : SessionId) : (c.parties j).active → (c.parties j).txn.txnId ≠ c.nextTxnId :=
  h (j + 1) hi j (Nat.lt_succ_self j)

theorem LockOp.mode_ne_none (op : LockOp) : op.mode ≠ .none := by cases op <;> simp [LockOp.mode]

theorem Party.locked_active {p : Party} (h : p.active) (op : LockOp) (key : Key) :
    (Party.locked p.txn op key).active ∧ (Party.locked p.txn op key).txn.txnId = p.txn.txnId := by
  cases op <;> exact ⟨h, rfl⟩

theorem Party.locked_phase (txn : TransactionInfo) (op : LockOp) (key : Key) :
    (Party.locked txn op key).phase ≠ .released ∧ ∀ op' k f, (Party.locked txn op key).phase ≠ .waiting op' k f := by
  cases op <;> simp [Party.locked]

/-! ## Who is in the lock table -/

/-- The lock table lists active transactions only, as holders until their locks are released and as waiters while they
are inside `acquireLock`. -/
structure HoldInv (lm : LockManager) (ps : SessionId → Party) : Prop where
  wf : lm.WF
  active : ∀ i, (ps i).phase ≠ .running → (ps i).active
  unique : ∀ {i j}, (ps i).active → (ps j).active → (ps i).txn.txnId = (ps j).txn.txnId → i = j
  holder : ∀ {k u}, u ∈ lm.holders k → ∃ i, (ps i).active ∧ (ps i).phase ≠ .released ∧ (ps i).txn.txnId = u
  waiter : ∀ {k w}, w ∈ lm.queue k → ∃ i op, (ps i).phase = .waiting op k w.flags ∧ (ps i).txn.txnId = w.txnId ∧
    w.requestedMode = op.mode
  waiting : ∀ {i op k f}, (ps i).phase = .waiting op k f → lm.Waits (ps i).txn.txnId k op.mode f

namespace HoldInv

variable {lm lm' : LockManager} {ps : SessionId → Party} {i : SessionId} {p' : Party}

theorem ne_of_ne (h : HoldInv lm ps) (hi : (ps i).active) {j : SessionId} (hj : (ps j).active) (hne : j ≠ i) :
    (ps j).txn.txnId ≠ (ps i).txn.txnId := fun he => hne (h.unique hj hi he)

/-- A session outside `acquireLock` is in no queue. -/
theorem notQueued (h : HoldInv lm ps) (hi : (ps i).active) (hp : ∀ op k f, (ps i).phase ≠ .waiting op k f) :
    lm.NotQueued (ps i).txn.txnId := by
  intro k w hw ht
  obtain ⟨j, op, hj, hid, _⟩ := h.waiter hw
  have hja := h.active j (by rw [hj]; simp)
  obtain rfl := h.unique hja hi (hid.trans ht)
  exact hp _ _ _ hj

/-- A waiter of a session that waits is the one it waits for. -/
theorem waiter_own (h : HoldInv lm ps) {op : LockOp} {key : Key} {flags : Nat}
    (hi : (ps i).phase = .waiting op key flags) {k : Key} {w : LockWaiter} (hw : w ∈ lm.queue k)
    (ht : w.txnId = (ps i).txn.txnId) : k = key ∧ w.flags = flags := by
  obtain ⟨j, op', hj, hjid, _⟩ := h.waiter hw
  obtain rfl := h.unique (h.active j (by rw [hj]; simp)) (h.active i (by rw [hi]; simp)) (hjid.trans ht)
  rw [hi] at hj
  cases hj
  exact ⟨rfl, rfl⟩

/-- A step of one active transaction. -/
theorem update (h : HoldInv lm ps) (hi : (ps i).active) (hact : p'.active)
    (hid : p'.txn.txnId = (ps i).txn.txnId) (ha : Acts (ps i).txn.txnId lm lm')
    (hwait : ∀ {op k f}, p'.phase = .waiting op k f → lm'.Waits p'.txn.txnId k op.mode f)
    (hq : ∀ k, ∀ w ∈ lm'.queue k, w.txnId = (ps i).txn.txnId →
      ∃ op, p'.phase = .waiting op k w.flags ∧ w.requestedMode = op.mode)
    (hr : p'.phase = .released → ∀ k, (ps i).txn.txnId ∉ lm'.holders k) :
    HoldInv lm' (Function.update ps i p') := by
  have hself : Function.update ps i p' i = p' := Function.update_self ..
  have hother : ∀ {j}, j ≠ i → Function.update ps i p' j = ps j := fun hj => Function.update_of_ne hj ..
  have hact' : ∀ {j}, (Function.update ps i p' j).active → (ps j).active := by
    intro j hj
    by_cases hji : j = i
    · subst hji; exact hi
    · rwa [hother hji] at hj
  have hid' : ∀ j, (Function.update ps i p' j).txn.txnId = (ps j).txn.txnId := by
    intro j
    by_cases hji : j = i
    · subst hji; rw [hself, hid]
    · rw [hother hji]
  refine ⟨ha.wf, ?_, ?_, ?_, ?_, ?_⟩
  · intro j hj
    by_cases hji : j = i
    · subst hji; rw [hself]; exact hact
    · rw [hother hji] at hj ⊢; exact h.active j hj
  · intro j j' hj hj' he
    rw [hid', hid'] at he
    exact h.unique (hact' hj) (hact' hj') he
  · intro k u hu
    by_cases hut : u = (ps i).txn.txnId
    · subst hut
      refine ⟨i, by rw [hself]; exact hact, ?_, hid' i⟩
      rw [hself]
      exact fun hrel => hr hrel k hu
    · -- the holder was a holder or a waiter before, so it is another active session
      obtain ⟨j, hj, hjp, hjid⟩ : ∃ j, (ps j).active ∧ (ps j).phase ≠ .released ∧ (ps j).txn.txnId = u := by
        rcases ha.new u k hu with hu | hu | ⟨w, hw, hwu⟩
        · exact absurd hu hut
        · exact h.holder hu
        · obtain ⟨j, op, hj, hjid, _⟩ := h.waiter hw
          exact ⟨j, h.active j (by rw [hj]; simp), by rw [hj]; simp, hjid.trans hwu⟩
      have hji : j ≠ i := by rintro rfl; exact hut hjid.symm
      exact ⟨j, by rw [hother hji]; exact ⟨hj, hjp, hjid⟩⟩
  · intro k w hw
    by_cases hwt : w.txnId = (ps i).txn.txnId
    · obtain ⟨op, hop⟩ := hq k w hw hwt
      exact ⟨i, op, by rw [hself]; exact ⟨hop.1, hid.trans hwt.symm, hop.2⟩⟩
    · obtain ⟨j, op, hj⟩ := h.waiter ((ha.queue k w hw).resolve_right hwt)
      have hji : j ≠ i := by rintro rfl; exact hwt hj.2.1.symm
      exact ⟨j, op, by rw [hother hji]; exact hj⟩
  · intro j op k f hj
    by_cases hji : j = i
    · subst hji; rw [hself] at hj ⊢; exact hwait hj
    · rw [hother hji] at hj ⊢
      exact ha.waits _ _ _ _ (h.ne_of_ne hi (h.active j (by rw [hj]; simp)) hji) (h.waiting hj)

/-- A step of one active transaction that leaves the lock table alone. -/
theorem update_same (h : HoldInv lm ps) (hi : (ps i).active) (hact : p'.active)
    (hid : p'.txn.txnId = (ps i).txn.txnId) (hw : ∀ op k f, (ps i).phase ≠ .waiting op k f)
    (hw' : ∀ op k f, p'.phase ≠ .waiting op k f) (hr : p'.phase ≠ .released) :
    HoldInv lm (Function.update ps i p') :=
  h.update hi hact hid (Acts.refl h.wf) (fun hp => absurd hp (hw' _ _ _))
    (fun k w hk ht => absurd ht (h.notQueued hi hw k w hk)) fun hr' => absurd hr' hr

/-- The end of a transaction. -/
theorem reset (h : HoldInv lm ps) (hi : (ps i).phase = .released) : HoldInv lm (Function.update ps i {}) := by
  have hself : Function.update ps i ({} : Party) i = {} := Function.update_self ..
  have hother : ∀ {j}, j ≠ i → Function.update ps i {} j = ps j := fun hj => Function.update_of_ne hj ..
  have hne : ∀ {j}, (Function.update ps i {} j).active ∨ (Function.update ps i {} j).phase ≠ .running → j ≠ i := by
    rintro j hj rfl
    rw [hself] at hj
    rcases hj with hj | hj
    · cases hj
    · exact hj rfl
  refine ⟨h.wf, ?_, ?_, ?_, ?_, ?_⟩
  · intro j hj
    have hji := hne (Or.inr hj)
    rw [hother hji] at hj ⊢
    exact h.active j hj
  · intro j j' hj hj' he
    have hji := hne (Or.inl hj)
    have hji' := hne (Or.inl hj')
    rw [hother hji] at hj he
    rw [hother hji'] at hj' he
    exact h.unique hj hj' he
  · intro k u hu
    obtain ⟨j, hj, hjp, hjid⟩ := h.holder hu
    have hji : j ≠ i := by rintro rfl; exact hjp hi
    exact ⟨j, by rw [hother hji]; exact ⟨hj, hjp, hjid⟩⟩
  · intro k w hw
    obtain ⟨j, op, hj⟩ := h.waiter hw
    have hji : j ≠ i := by
      rintro rfl
      rw [hi] at hj
      cases hj.1
    exact ⟨j, op, by rw [hother hji]; exact hj⟩
  · intro j op k f hj
    have hji := hne (Or.inr (by rw [hj]; simp))
    rw [hother hji] at hj ⊢
    exact h.waiting hj

/-- A new transaction with an id that is not in use. -/
theorem begin (h : HoldInv lm ps) (hi : ¬ (ps i).active) {t : TxnId} (ht : ∀ j, (ps j).active → (ps j).txn.txnId ≠ t)
    (level : IsolationLevel) : HoldInv lm (Function.update ps i
      ⟨{ txnId := t, isolationLevel := level, state := .active }, .starting⟩) := by
  set p' : Party := ⟨{ txnId := t, isolationLevel := level, state := .active }, .starting⟩ with hp'
  have hself : Function.update ps i p' i = p' := Function.update_self ..
  have hother : ∀ {j}, j ≠ i → Function.update ps i p' j = ps j := fun hj => Function.update_of_ne hj ..
  have hne : ∀ {j}, (ps j).active → j ≠ i := by rintro j hj rfl; exact hi hj
  refine ⟨h.wf, ?_, ?_, ?_, ?_, ?_⟩
  · intro j hj
    by_cases hji : j = i
    · subst hji; rw [hself]; rfl
    · rw [hother hji] at hj ⊢; exact h.active j hj
  · intro j j' hj hj' he
    by_cases hji : j = i <;> by_cases hji' : j' = i
    · rw [hji, hji']
    · subst hji
      rw [hself, hother hji'] at he
      rw [hother hji'] at hj'
      exact absurd he.symm (ht j' hj')
    · subst hji'
      rw [hself, hother hji] at he
      rw [hother hji] at hj
      exact absurd he (ht j hj)
    · rw [hother hji] at hj he
      rw [hother hji'] at hj' he
      exact h.unique hj hj' he
  · intro k u hu
    obtain ⟨j, hj, hrest⟩ := h.holder hu
    exact ⟨j, by rw [hother (hne hj)]; exact ⟨hj, hrest⟩⟩
  · intro k w hw
    obtain ⟨j, op, hj⟩ := h.waiter hw
    have hja := h.active j (by rw [hj.1]; simp)
    exact ⟨j, op, by rw [hother (hne hja)]; exact hj⟩
  · intro j op k f hj
    by_cases hji : j = i
    · subst hji; rw [hself] at hj; cases hj
    · rw [hother hji] at hj ⊢; exact h.waiting hj

end HoldInv

/-- **The lock table lists active transactions only**, whatever they do, as long as no two have the same id. -/
theorem CoreStep.holdInv {c c' : Core} {l : Label} {evs : List Event} (h : CoreStep c l evs c')
    (hl : ∀ n, c.NewId n l) (hinv : HoldInv c.locks c.parties) : HoldInv c'.locks c'.parties := by
  cases h with
  | silent _ => exact hinv
  | begin level hph hact => exact hinv.begin hact (c.txnId_ne_next hl hact) level
  | @granted i p op key locks hp hph hact hacq =>
    subst hp
    have hm := op.mode_ne_none
    have ha := acquireLock_acts (t := (c.parties i).txn.txnId) (k := key) hinv.wf hm
    have hg := acquireLock_granted (t := (c.parties i).txn.txnId) (k := key) hinv.wf hm (by rw [hacq])
    rw [hacq] at ha hg
    have hq := hg.2.2 (hinv.notQueued hact (by simp [hph]))
    obtain ⟨hact', hid⟩ := Party.locked_active hact op key
    obtain ⟨hrel, hwait⟩ := Party.locked_phase (c.parties i).txn op key
    exact hinv.update hact hact' hid ha (fun hp => absurd hp (hwait _ _ _)) (fun k w hw ht => absurd ht (hq k w hw))
      (fun hr => absurd hr hrel)
  | @queued i p op key locks flags hp hph hact hacq =>
    subst hp
    have ha := acquireLock_acts (t := (c.parties i).txn.txnId) (k := key) hinv.wf op.mode_ne_none
    have hout : (c.locks.acquireLock (c.parties i).txn.txnId key op.mode).2 = .waiting flags := by rw [hacq]
    have hw := acquireLock_waiting hout
    rw [hacq] at ha hw
    refine hinv.update hact hact rfl ha ?_ ?_ (by simp)
    · intro op' k f hop
      obtain ⟨rfl, rfl, rfl⟩ : op = op' ∧ key = k ∧ flags = f := by simpa using hop
      exact hw.1
    · intro k w hw' ht
      obtain ⟨rfl, rfl⟩ := hw.2 (hinv.notQueued hact (by simp [hph])) k w hw' ht
      exact ⟨op, rfl, rfl⟩
  | @waitGranted _ i p op key flags locks hp hph hfin =>
    subst hp
    have hact := hinv.active i (by rw [hph]; simp)
    obtain ⟨hsame, -, -, hflag⟩ := finishWait_true (hinv.waiting hph) (by rw [hfin])
    rw [hfin] at hsame
    dsimp only at hsame
    subst hsame
    obtain ⟨hact', hid⟩ := Party.locked_active hact op key
    obtain ⟨hrel, hwait⟩ := Party.locked_phase (c.parties i).txn op key
    refine hinv.update hact hact' hid (Acts.refl hinv.wf) (fun hp => absurd hp (hwait _ _ _)) ?_
      (fun hr => absurd hr hrel)
    -- the waiter has been taken out of the queue: its flags are set
    intro k w hw ht
    obtain ⟨rfl, rfl⟩ := hinv.waiter_own hph hw ht
    rw [hinv.wf.cells _ w hw] at hflag
    cases hflag
  | @waitFailed _ i p op key flags locks hp hph hfin =>
    subst hp
    have hact := hinv.active i (by rw [hph]; simp)
    have ha := finishWait_acts (t := (c.parties i).txn.txnId) (k := key) (c := flags) hinv.wf
    have hout : (c.locks.finishWait (c.parties i).txn.txnId key flags).2 = false := by rw [hfin]
    have hq := finishWait_false hout
    rw [hfin] at ha hq
    refine hinv.update hact hact rfl ha (by simp) ?_ (by simp)
    intro k w hw ht
    obtain ⟨hw', hne⟩ := hq k w hw
    obtain ⟨rfl, -⟩ := hinv.waiter_own hph hw' ht
    exact absurd ht (hne rfl)
  | @release _ i p key hp hph =>
    subst hp
    have hact := hinv.active i (by rw [hph]; simp)
    have hq := hinv.notQueued hact (by simp [hph])
    exact hinv.update hact hact rfl (releaseLock_acts hinv.wf) (by simp)
      (fun k w hw ht => absurd ht (releaseLock_notQueued hinv.wf hq k w hw)) (by simp)
  | @applied l i p lsn hp hph | @abortRelease l i p hp hph =>
    subst hp
    have hact := hinv.active i (by rw [hph]; simp)
    have ha := releaseAllLocks_acts hinv.wf (c.parties i).txn.txnId
    obtain ⟨hq, hfree⟩ := releaseAllLocks_free hinv.wf (hinv.notQueued hact (by simp [hph]))
    exact hinv.update hact hact rfl ha (by simp) (fun k w hw ht => absurd ht (hq k w hw)) fun _ => hfree
  | @reset l evs i p hp hph _ =>
    subst hp
    exact hinv.reset hph
  | @read _ i p key hp hph =>
    subst hp
    have hact := hinv.active i (by rw [hph]; simp)
    exact hinv.update_same hact hact rfl (by simp [hph]) (by dsimp only; split <;> simp) (by dsimp only; split <;> simp)
  | @startCommit i p hp hph hact | @startAbort _ i p hp hph hact =>
    subst hp
    exact hinv.update_same hact hact rfl (by simp [hph]) (by simp) (by simp)
  | @logBegin _ i p hp hph | @logWrite _ i p w ws hp hph | @logCommit _ i p hp hph | @apply _ i p lsn w ws hp hph
  | @logAbort l i p hp hph =>
    subst hp
    have hact := hinv.active i (by rw [hph]; simp)
    exact hinv.update_same hact hact rfl (by simp [hph]) (by simp) (by simp)

/-! ## What the transactions hold -/

/-- A key that a `get` is about to read or release. -/
def Phase.gets (ph : Phase) (k : Key) : Prop := (∃ f, ph = .waiting .get k f) ∨ ph = .reading k ∨ ph = .releasing k

/-- Phases in which a transaction has its locks and neither waits nor reads. -/
def Phase.plain : Phase → Bool
  | .running | .starting | .logging _ | .applying _ _ | .aborting => true
  | _ => false

/-- What the lock table says about an active transaction. -/
structure PartyInv (lm : LockManager) (p : Party) : Prop where
  sole : ∀ {k}, k ∈ p.txn.pendingBuffer → lm.Sole p.txn.txnId k
  held : ∀ {k}, k ∈ p.txn.locksHeld → p.phase ≠ .released → p.txn.txnId ∈ lm.holders k
  reading : ∀ {k}, p.phase = .reading k → k ∈ p.txn.locksHeld
  releasing : ∀ {k}, p.phase = .releasing k → p.txn.isolationLevel = .readCommitted
  shared : ∀ {k}, p.phase.gets k → p.txn.isolationLevel = .readCommitted → k ∉ p.txn.pendingBuffer
  discarded : p.phase = .aborted ∨ p.phase = .released → p.txn.pendingBuffer = ∅

structure LockInv (lm : LockManager) (ps : SessionId → Party) : Prop extends HoldInv lm ps where
  parties : ∀ {i}, (ps i).active → PartyInv lm (ps i)

/-- Actions of other transactions are harmless. -/
theorem PartyInv.frame {lm lm' : LockManager} {p : Party} {t : TxnId} (h : PartyInv lm p) (ha : Acts t lm lm')
    (ht : p.txn.txnId ≠ t) : PartyInv lm' p where
  sole hk := ha.sole _ _ ht (h.sole hk)
  held hk hp := ha.keep _ _ ht (h.held hk hp)
  reading := h.reading
  releasing := h.releasing
  shared := h.shared
  discarded := h.discarded

/-- A transaction between phases in which it asks the lock table nothing. -/
theorem PartyInv.setPhase {lm : LockManager} {p : Party} {ph : Phase} (h : PartyInv lm p)
    (hold : p.phase.plain = true) (hnew : ph.plain = true) : PartyInv lm { p with phase := ph } := by
  have hplain : ∀ {q : Phase}, q.plain = true → (∀ k, ¬ q.gets k) ∧ q ≠ .aborted ∧ q ≠ .released ∧
      (∀ k, q ≠ .reading k) ∧ ∀ k, q ≠ .releasing k := by
    intro q hq
    cases q <;> simp_all [Phase.plain, Phase.gets]
  obtain ⟨h1, h2, h3, h4, h5⟩ := hplain hnew
  exact ⟨h.sole, fun hk _ => h.held hk (hplain hold).2.2.1, fun hp => absurd hp (h4 _), fun hp => absurd hp (h5 _),
    fun hp => absurd hp (h1 _), fun hp => absurd hp (not_or.mpr ⟨h2, h3⟩)⟩

namespace LockInv

variable {lm lm' : LockManager} {ps : SessionId → Party} {i : SessionId} {p' : Party}

/-- A step that changes one party, and the lock table only on behalf of that party's transaction. -/
theorem update (h : LockInv lm ps) (hhold : HoldInv lm' (Function.update ps i p')) (hi : (ps i).active)
    (ha : Acts (ps i).txn.txnId lm lm') (hp : PartyInv lm' p') : LockInv lm' (Function.update ps i p') := by
  refine ⟨hhold, fun {j} hj => ?_⟩
  by_cases hji : j = i
  · subst hji; rw [Function.update_self]; exact hp
  · rw [Function.update_of_ne hji] at hj ⊢
    exact (h.parties hj).frame ha (h.ne_of_ne hi hj hji)

/-- A step that changes one party and leaves the lock table alone. -/
theorem update_same (h : LockInv lm ps) (hhold : HoldInv lm (Function.update ps i p'))
    (hp : p'.active → PartyInv lm p') : LockInv lm (Function.update ps i p') := by
  refine ⟨hhold, fun {j} hj => ?_⟩
  by_cases hji : j = i
  · subst hji; rw [Function.update_self] at hj ⊢; exact hp hj
  · rw [Function.update_of_ne hji] at hj ⊢; exact h.parties hj

end LockInv

/-- The transaction after `acquireLock` has returned `true`. -/
theorem PartyInv.locked {lm lm' : LockManager} {p : Party} {op : LockOp} {key : Key} (h : PartyInv lm p)
    (hkept : KeptBy p.txn.txnId lm lm') (hp : p.phase ≠ .released) (hmem : p.txn.txnId ∈ lm'.holders key)
    (hsole : op.mode = .exclusive → lm'.Sole p.txn.txnId key)
    (hget : op = .get → p.txn.isolationLevel = .readCommitted → key ∉ p.txn.pendingBuffer) :
    PartyInv lm' (.locked p.txn op key) := by
  have hheld : ∀ {k : Key} {m : LockMode}, k ∈ p.txn.locksHeld.insert key m → p.txn.txnId ∈ lm'.holders k := by
    intro k m hk
    rcases FinMap.mem_insert_iff.mp hk with rfl | hk
    · exact hmem
    · exact hkept.1 k (h.held hk hp)
  cases op with
  | get =>
    refine ⟨fun hk => hkept.2 _ (h.sole hk), fun hk _ => hheld hk, ?_, by simp [Party.locked], ?_,
      by simp [Party.locked]⟩
    · intro k hk
      obtain rfl : key = k := by simpa [Party.locked] using hk
      exact FinMap.mem_insert_iff.mpr (Or.inl rfl)
    · intro k hk
      obtain rfl : key = k := by simpa [Party.locked, Phase.gets] using hk
      exact hget rfl
  | put value | delete =>
    refine ⟨fun {k} hk => ?_, fun hk _ => hheld hk, by simp [Party.locked], by simp [Party.locked],
      by simp [Party.locked, Phase.gets], by simp [Party.locked]⟩
    rcases FinMap.mem_insert_iff.mp hk with rfl | hk
    · exact hsole rfl
    · exact hkept.2 _ (h.sole hk)

/-- **Two-phase locking is kept by every allowed step.** -/
theorem CoreStep.lockInv {c c' : Core} {l : Label} {evs : List Event} (h : CoreStep c l evs c') (hl : c.Allowed l)
    (hinv : LockInv c.locks c.parties) : LockInv c'.locks c'.parties := by
  have hhold := h.holdInv hl.1 hinv.toHoldInv
  cases h with
  | silent _ => exact hinv
  | begin level hph hact =>
    exact hinv.update_same hhold fun _ => ⟨by simp, by simp, by simp, by simp, by simp [Phase.gets], by simp⟩
  | @granted i p op key locks hp hph hact hacq =>
    subst hp
    have hm := op.mode_ne_none
    have ha := acquireLock_acts (t := (c.parties i).txn.txnId) (k := key) hinv.wf hm
    have hk := acquireLock_kept (t := (c.parties i).txn.txnId) (k := key) hinv.wf hm
    have hg := acquireLock_granted (t := (c.parties i).txn.txnId) (k := key) hinv.wf hm (by rw [hacq])
    rw [hacq] at ha hk hg
    refine hinv.update hhold hact ha ((hinv.parties hact).locked hk (by simp [hph]) hg.1 hg.2.1 ?_)
    rintro rfl
    exact hl.2 hact
  | @queued i p op key locks flags hp hph hact hacq =>
    subst hp
    have hpi := hinv.parties hact
    have hm := op.mode_ne_none
    have ha := acquireLock_acts (t := (c.parties i).txn.txnId) (k := key) hinv.wf hm
    have hk := acquireLock_kept (t := (c.parties i).txn.txnId) (k := key) hinv.wf hm
    rw [hacq] at ha hk
    refine hinv.update hhold hact ha ⟨fun h => hk.2 _ (hpi.sole h), fun h _ => hk.1 _ (hpi.held h (by simp [hph])),
      by simp, by simp, fun {k} hgets => ?_, by simp⟩
    obtain ⟨rfl, rfl⟩ : op = .get ∧ key = k := by simpa [Phase.gets] using hgets
    exact hl.2 hact
  | @waitGranted _ i p op key flags locks hp hph hfin =>
    subst hp
    have hact := hinv.active i (by rw [hph]; simp)
    have hpi := hinv.parties hact
    obtain ⟨hsame, hmem, hsole, -⟩ := finishWait_true (hinv.waiting hph) (by rw [hfin])
    rw [hfin] at hsame
    dsimp only at hsame
    subst hsame
    refine hinv.update_same hhold fun _ => hpi.locked ⟨fun _ => id, fun _ => id⟩ (by simp [hph]) hmem hsole ?_
    rintro rfl
    exact hpi.shared (Or.inl ⟨_, hph⟩)
  | @waitFailed _ i p op key flags locks hp hph hfin =>
    subst hp
    have hact := hinv.active i (by rw [hph]; simp)
    have hpi := hinv.parties hact
    have ha := finishWait_acts (t := (c.parties i).txn.txnId) (k := key) (c := flags) hinv.wf
    have hk := finishWait_kept c.locks (c.parties i).txn.txnId key flags
    rw [hfin] at ha hk
    exact hinv.update hhold hact ha ⟨fun h => hk.2 _ (hpi.sole h), fun h _ => hk.1 _ (hpi.held h (by simp [hph])),
      by simp, by simp, by simp [Phase.gets], by simp⟩
  | @read _ i p key hp hph =>
    subst hp
    refine hinv.update_same hhold fun hact => ?_
    have hpi := hinv.parties (i := i) hact
    refine ⟨hpi.sole, fun h _ => hpi.held h (by simp [hph]), ?_, ?_, ?_, ?_⟩
    · intro k hk; dsimp only at hk; split at hk <;> cases hk
    · intro k hk
      dsimp only at hk
      split at hk
      · assumption
      · cases hk
    · intro k hk
      dsimp only at hk
      split at hk
      · obtain rfl : key = k := by simpa [Phase.gets] using hk
        exact hpi.shared (Or.inr (Or.inl hph))
      · simp [Phase.gets] at hk
    · intro hd; dsimp only at hd; split at hd <;> simp at hd
  | @release _ i p key hp hph =>
    subst hp
    have hact := hinv.active i (by rw [hph]; simp)
    have hpi := hinv.parties hact
    have ha := releaseLock_acts (t := (c.parties i).txn.txnId) (k := key) hinv.wf
    refine hinv.update hhold hact ha ⟨fun {k} hk => ?_, fun {k} hk _ => ?_, by simp, by simp, by simp [Phase.gets],
      by simp⟩
    · have hne : k ≠ key := by
        rintro rfl
        exact hpi.shared (Or.inr (Or.inr hph)) (hpi.releasing hph) hk
      exact (releaseLock_of_ne hinv.wf hne).2 (hpi.sole hk)
    · obtain ⟨hne, hk⟩ := FinMap.mem_erase_iff.mp hk
      exact (releaseLock_of_ne hinv.wf (Ne.symm hne)).1 (hpi.held hk (by simp [hph]))
  | @logBegin _ i p hp hph | @startCommit i p hp hph _ | @logWrite _ i p w ws hp hph | @logCommit _ i p hp hph
  | @apply _ i p lsn w ws hp hph | @startAbort _ i p hp hph _ =>
    subst hp
    exact hinv.update_same hhold fun hact => (hinv.parties (i := i) hact).setPhase (by rw [hph]; rfl) rfl
  | @logAbort l i p hp hph =>
    subst hp
    refine hinv.update_same hhold fun hact => ?_
    have hpi := hinv.parties (i := i) hact
    exact ⟨by simp, fun hk _ => hpi.held hk (by simp [hph]), by simp, by simp, by simp [Phase.gets], by simp⟩
  | @applied l i p lsn hp hph =>
    subst hp
    exact hinv.update hhold (hinv.active i (by rw [hph]; simp)) (releaseAllLocks_acts hinv.wf _)
      ⟨by simp, by simp, by simp, by simp, by simp [Phase.gets], by simp⟩
  | @abortRelease l i p hp hph =>
    subst hp
    have hact := hinv.active i (by rw [hph]; simp)
    have hempty := (hinv.parties hact).discarded (Or.inl hph)
    exact hinv.update hhold hact (releaseAllLocks_acts hinv.wf _)
      ⟨by simp [hempty], by simp, by simp, by simp, by simp [Phase.gets], fun _ => hempty⟩
  | @reset l evs i p hp hph _ => exact hinv.update_same hhold fun hact => by cases hact

/-! ## Runs -/

/-- The step does not hand out an id that an active transaction has. -/
def NewIds (s : State) (a : Action) : Prop := s.core.NewId s.sessionCount a.label

/-- The step does not `get` a key of the own pending buffer at `READ_COMMITTED`. -/
def KeepsWriteLocks (s : State) (a : Action) : Prop := s.core.KeepsWriteLocks a.label

def KeepsLocks (s : State) (a : Action) : Prop := NewIds s a ∧ KeepsWriteLocks s a

instance (s : State) (a : Action) : Decidable (NewIds s a) := inferInstanceAs (Decidable (Core.NewId _ _ _))

instance (s : State) (a : Action) : Decidable (KeepsWriteLocks s a) :=
  inferInstanceAs (Decidable (Core.KeepsWriteLocks _ _))

instance (s : State) (a : Action) : Decidable (KeepsLocks s a) := inferInstanceAs (Decidable (_ ∧ _))

/-- Sessions that are not connected have no transaction. -/
theorem NewIds.newId {s : State} {a : Action} (h : NewIds s a) (hs : s.Unconnected) (n : Nat) :
    s.core.NewId n a.label := by
  unfold NewIds at h
  cases hl : a.label with
  | begin i =>
    rw [hl] at h
    intro hi j _ hj
    refine h hi j ?_ hj
    by_contra hge
    have hj' : (s.sessions j).txn.state = .active := hj
    rw [hs j (Nat.le_of_not_lt hge)] at hj'
    cases hj'
  | request | commit | other => trivial

theorem KeepsLocks.allowed {s : State} {a : Action} (h : KeepsLocks s a) (hs : s.Unconnected) :
    s.core.Allowed a.label := ⟨h.1.newId hs, h.2⟩

open Machine

theorem lockInv_initial {st : Store} {s₀ : State} (h : Server.Initial st s₀) :
    s₀.Unconnected ∧ LockInv s₀.core.locks s₀.core.parties := by
  have hinv : LockInv {} fun _ => {} := by
    have hempty : ∀ k, ({} : LockManager).entry k = {} := fun k => LockManager.entry_of_none (by simp)
    refine ⟨⟨LockManager.wf_empty, by simp, by simp [Party.active], ?_, ?_, by simp⟩, by simp [Party.active]⟩
    · intro k u hu
      simp [LockManager.holders, hempty] at hu
    · intro k w hw
      simp [LockManager.queue, hempty] at hw
  cases h with
  | opened d => exact ⟨fun _ _ => rfl, hinv⟩
  | unopened d => exact ⟨fun _ _ => rfl, hinv⟩

/-- **Two-phase locking holds in every run that keeps the locks.** -/
theorem lockInv_of_run {st : Store} {s₀ s : State} {as : List Action} {tr : List Event} (h0 : Server.Initial st s₀)
    (h : Run step KeepsLocks s₀ as s tr) : s.Unconnected ∧ LockInv s.core.locks s.core.parties := by
  refine Run.invariant (fun _ s => s.Unconnected ∧ LockInv s.core.locks s.core.parties) (lockInv_initial h0) ?_ h
  rintro _ s a s' evs ⟨hu, hinv⟩ hk hs
  exact ⟨step_unconnected hs hu, (step_core hs).lockInv (hk.allowed hu) hinv⟩

/-- The transaction alone holds the key, in `EXCLUSIVE` mode. -/
def LockManager.HeldAlone (lm : LockManager) (t : TxnId) (key : Key) : Prop :=
  ∃ entry, lm.lockTable[key]? = some entry ∧ entry.holders = {t} ∧ entry.currentMode = .exclusive

theorem LockManager.Sole.heldAlone {lm : LockManager} {t : TxnId} {k : Key} (h : lm.Sole t k) : lm.HeldAlone t k := by
  obtain ⟨hh, hm⟩ := h
  cases he : lm.lockTable[k]? with
  | none =>
    rw [LockManager.holders, LockManager.entry_of_none he] at hh
    exact absurd hh.symm (Finset.singleton_ne_empty t)
  | some e =>
    rw [LockManager.holders, LockManager.entry_of_some he] at hh
    rw [LockManager.mode, LockManager.entry_of_some he] at hm
    exact ⟨e, he, hh, hm⟩

/-- No dirty writes: every key of an active transaction's pending buffer is locked by it alone, so that no two active
transactions have buffered the same key. -/
structure WriteLocksHeld (s : State) : Prop where
  heldAlone : ∀ i key, (s.sessions i).txn.state = .active → key ∈ (s.sessions i).txn.pendingBuffer →
    s.locks.HeldAlone (s.sessions i).txn.txnId key
  disjoint : ∀ i j key, (s.sessions i).txn.state = .active → (s.sessions j).txn.state = .active →
    key ∈ (s.sessions i).txn.pendingBuffer → key ∈ (s.sessions j).txn.pendingBuffer → i = j

/-- **Write locks last until the end of the transaction.** -/
theorem write_locks_held {st : Store} {s₀ s : State} {as : List Action} {tr : List Event}
    (h0 : Server.Initial st s₀) (h : Run step KeepsLocks s₀ as s tr) : WriteLocksHeld s := by
  obtain ⟨_, hinv⟩ := lockInv_of_run h0 h
  have hsole : ∀ i key, (s.sessions i).txn.state = .active → key ∈ (s.sessions i).txn.pendingBuffer →
      s.locks.Sole (s.sessions i).txn.txnId key := fun i key hi hk => (hinv.parties (i := i) hi).sole hk
  refine ⟨fun i key hi hk => (hsole i key hi hk).heldAlone, fun i j key hi hj hki hkj => ?_⟩
  have hij := (hsole i key hi hki).1.symm.trans (hsole j key hj hkj).1
  exact hinv.unique (i := i) (j := j) hi hj (Finset.singleton_inj.mp hij)

/-- A transaction that has put a key. -/
theorem write_locks_held_put : ∃ s tr, Run step KeepsLocks (Server.boot {} ∅)
    [.connect, .command 0 (.begin .readCommitted), .thread 0, .command 0 (.put [97] [49])] s tr ∧
      [97] ∈ (s.sessions 0).txn.pendingBuffer ∧ WriteLocksHeld s := by
  have hrun := exists_run_of_exec step KeepsLocks (Server.boot {} ∅)
    [.connect, .command 0 (.begin .readCommitted), .thread 0, .command 0 (.put [97] [49])]
    (fun s _ => decide ([97] ∈ (s.sessions 0).txn.pendingBuffer)) (by decide +kernel)
  obtain ⟨s, tr, hr, hp⟩ := hrun
  exact ⟨s, tr, hr, by simpa using hp, write_locks_held (.opened {}) hr⟩

/-- A `get` of the key it has put makes a `READ_COMMITTED` transaction lose its write lock, and a second transaction
puts the same key. -/
theorem write_lock_lost_by_get : ∃ as s tr, Run step (fun _ _ => True) (Server.boot {} ∅) as s tr ∧
    ¬ WriteLocksHeld s := by
  have hrun := exists_run_of_exec step (fun _ _ => True) (Server.boot {} ∅)
    [.connect, .connect, .command 0 (.begin .readCommitted), .thread 0, .command 0 (.put [97] [49]),
      .command 0 (.get [97]), .thread 0, .thread 0, .command 1 (.begin .readCommitted), .thread 1,
      .command 1 (.put [97] [50])]
    (fun s _ => decide ((s.sessions 0).txn.state = .active ∧ (s.sessions 1).txn.state = .active ∧
      [97] ∈ (s.sessions 0).txn.pendingBuffer ∧ [97] ∈ (s.sessions 1).txn.pendingBuffer)) (by decide +kernel)
  obtain ⟨s, tr, hr, hp⟩ := hrun
  obtain ⟨h0, h1, hk0, hk1⟩ := of_decide_eq_true hp
  exact ⟨_, s, tr, hr, fun hheld => absurd (hheld.disjoint 0 1 [97] h0 h1 hk0 hk1) (by decide)⟩

/-! ## Fresh ids -/

/-- The step does not hand out an id a second time: the counter has not wrapped around. -/
def FreshIds (s : State) : Action → Prop
  | .command i (.begin _) => (s.sessions i).txn.state ≠ .active → s.nextTxnId ≠ 0
  | _ => True

instance (s : State) (a : Action) : Decidable (FreshIds s a) := by
  unfold FreshIds
  split <;> infer_instance

/-- The ids handed out so far are the first ones, active transactions have them, and no two the same. -/
structure IdInv (ids : List TxnId) (c : Core) : Prop where
  first : ids = (List.range ids.length).map fun m => UInt32.ofNat (m + 1)
  bound : ids.length < 2 ^ 32
  next : c.nextTxnId = UInt32.ofNat (ids.length + 1)
  active : ∀ i, (c.parties i).active → (c.parties i).txn.txnId ∈ ids
  unique : ∀ {i j}, (c.parties i).active → (c.parties j).active →
    (c.parties i).txn.txnId = (c.parties j).txn.txnId → i = j
  busy : ∀ i, (c.parties i).phase ≠ .running → (c.parties i).active

theorem ofNat_inj_of_lt {m n : Nat} (hm : m < 2 ^ 32) (hn : n < 2 ^ 32) (h : UInt32.ofNat m = UInt32.ofNat n) :
    m = n := by
  have := congrArg UInt32.toNat h
  rwa [UInt32.toNat_ofNat', UInt32.toNat_ofNat', Nat.mod_eq_of_lt hm, Nat.mod_eq_of_lt hn] at this

namespace IdInv

variable {ids : List TxnId} {c : Core}

theorem length_lt (h : IdInv ids c) (hne : c.nextTxnId ≠ 0) : ids.length + 1 < 2 ^ 32 := by
  have hb := h.bound
  refine Nat.lt_of_le_of_ne (by omega) fun heq => hne ?_
  rw [h.next, heq]
  rfl

/-- An id that is not zero has not been handed out before. -/
theorem next_notMem (h : IdInv ids c) (hne : c.nextTxnId ≠ 0) : c.nextTxnId ∉ ids := by
  intro hmem
  have hlt := h.length_lt hne
  rw [h.first] at hmem
  obtain ⟨m, hm, heq⟩ := List.mem_map.mp hmem
  have hm := List.mem_range.mp hm
  rw [h.next] at heq
  have := ofNat_inj_of_lt (by omega) hlt heq
  omega

theorem nodup (h : IdInv ids c) : ids.Nodup := by
  rw [h.first]
  refine List.Nodup.map_on ?_ List.nodup_range
  intro m hm n hn heq
  have hb := h.bound
  rw [List.mem_range] at hm hn
  have := ofNat_inj_of_lt (by omega) (by omega) heq
  omega

theorem first_snoc (h : IdInv ids c) (hne : c.nextTxnId ≠ 0) :
    ids ++ [c.nextTxnId] = (List.range (ids ++ [c.nextTxnId]).length).map (fun m => UInt32.ofNat (m + 1)) ∧
      (ids ++ [c.nextTxnId]).length < 2 ^ 32 ∧ c.nextTxnId + 1 = UInt32.ofNat ((ids ++ [c.nextTxnId]).length + 1) := by
  have hlt := h.length_lt hne
  rw [List.length_append, List.length_singleton]
  refine ⟨?_, hlt, ?_⟩
  · conv_lhs => rw [h.first]
    rw [List.range_succ, List.map_append, List.map_singleton, ← h.next]
  · rw [h.next]
    apply UInt32.toNat_inj.mp
    simp [UInt32.toNat_add]

end IdInv

/-- Who is active after a step was so before, with the same id, or has just begun. -/
theorem CoreStep.active_before {c c' : Core} {l : Label} {evs : List Event} (h : CoreStep c l evs c') {j : SessionId}
    (hj : (c'.parties j).active) :
    (c.parties j).active ∧ (c'.parties j).txn.txnId = (c.parties j).txn.txnId ∨
      (c'.parties j).txn.txnId = c.nextTxnId ∧ ∃ level, evs = [.began j c.nextTxnId level] := by
  have hset : ∀ {i : SessionId} {c₁ : Core} {p' : Party}, c' = c₁.setParty i p' → c₁.parties = c.parties →
      (p'.active → (c.parties i).active ∧ p'.txn.txnId = (c.parties i).txn.txnId) →
      (c.parties j).active ∧ (c'.parties j).txn.txnId = (c.parties j).txn.txnId := by
    intro i c₁ p' hc hps hp
    subst hc
    rw [Core.setParty] at hj ⊢
    dsimp only at hj ⊢
    by_cases hji : j = i
    · subst hji
      rw [Function.update_self] at hj ⊢
      exact hp hj
    · rw [Function.update_of_ne hji, hps] at hj ⊢
      exact ⟨hj, rfl⟩
  cases h with
  | silent _ => exact Or.inl ⟨hj, rfl⟩
  | @begin i level _ _ =>
    by_cases hji : j = i
    · subst hji
      exact Or.inr ⟨by simp [Core.setParty], level, rfl⟩
    · simp only [Core.setParty, Function.update_of_ne hji] at hj ⊢
      exact Or.inl ⟨hj, trivial⟩
  | @granted i p op key locks hp _ _ _ =>
    subst hp
    exact Or.inl (hset rfl rfl fun h => by cases op <;> exact ⟨h, rfl⟩)
  | @waitGranted _ i p op key flags locks hp _ _ =>
    subst hp
    exact Or.inl (hset rfl rfl fun h => by cases op <;> exact ⟨h, rfl⟩)
  | reset hp _ _ => subst hp; exact Or.inl (hset rfl rfl fun h => by cases h)
  | logBegin hp | queued hp | waitFailed hp | read hp | release hp | startCommit hp | logWrite hp | logCommit hp
  | apply hp | applied hp | startAbort hp | logAbort hp | abortRelease hp =>
    subst hp
    exact Or.inl (hset rfl rfl fun h => ⟨h, rfl⟩)

/-- A step hands out at most one id. -/
theorem CoreStep.begun {c c' : Core} {l : Label} {evs : List Event} (h : CoreStep c l evs c') :
    begunOf evs = [] ∧ c'.nextTxnId = c.nextTxnId ∨
      begunOf evs = [c.nextTxnId] ∧ c'.nextTxnId = c.nextTxnId + 1 ∧ ∃ i, l = .begin i ∧ ¬ (c.parties i).active := by
  cases h with
  | silent he => exact Or.inl ⟨begunOf_silent he, rfl⟩
  | @begin i level _ hact => exact Or.inr ⟨rfl, rfl, i, rfl, hact⟩
  | @granted i p op key locks hp _ _ _ => exact Or.inl ⟨by cases op <;> rfl, rfl⟩
  | @waitGranted _ i p op key flags locks hp _ _ => exact Or.inl ⟨by cases op <;> rfl, rfl⟩
  | reset hp _ he => exact Or.inl ⟨begunOf_silent he, rfl⟩
  | logBegin | queued | waitFailed | read | release | startCommit | logWrite | logCommit | apply | applied
  | startAbort | logAbort | abortRelease => exact Or.inl ⟨rfl, rfl⟩

/-- Who is busy has a transaction. -/
theorem CoreStep.busy {c c' : Core} {l : Label} {evs : List Event} (h : CoreStep c l evs c')
    (hb : ∀ i, (c.parties i).phase ≠ .running → (c.parties i).active) :
    ∀ i, (c'.parties i).phase ≠ .running → (c'.parties i).active := by
  have hset : ∀ {c₁ : Core} {i : SessionId} {p' : Party}, c₁.parties = c.parties → (p'.phase ≠ .running → p'.active) →
      ∀ j, ((c₁.setParty i p').parties j).phase ≠ .running → ((c₁.setParty i p').parties j).active :=
    fun hps hp => Core.forall_setParty (fun p => p.phase ≠ .running → p.active) hb hps hp
  cases h with
  | silent _ => exact hb
  | begin level _ _ => exact hset rfl fun _ => rfl
  | @granted i p op key locks hp _ hact _ =>
    exact hset rfl fun _ => (Party.locked_active hact op key).1
  | @waitGranted _ i p op key flags locks hp hph _ =>
    subst hp
    exact hset rfl fun _ => (Party.locked_active (hb i (by rw [hph]; simp)) op key).1
  | queued _ _ hact | startCommit _ _ hact | startAbort _ _ hact => exact hset rfl fun _ => hact
  | reset => exact hset rfl fun h => absurd rfl h
  | logBegin hp hph | waitFailed hp hph | read hp hph | release hp hph | logWrite hp hph | logCommit hp hph
  | apply hp hph | applied hp hph | logAbort hp hph | abortRelease hp hph =>
    subst hp
    exact hset rfl fun _ => hb _ (by rw [hph]; simp)

theorem CoreStep.idInv {c c' : Core} {l : Label} {evs tr : List Event} (h : CoreStep c l evs c')
    (hl : ∀ i, l = .begin i → ¬ (c.parties i).active → c.nextTxnId ≠ 0) (hi : IdInv (begunOf tr) c) :
    IdInv (begunOf (tr ++ evs)) c' := by
  have hact : ∀ j, (c'.parties j).active → (c'.parties j).txn.txnId ∈ begunOf (tr ++ evs) := by
    intro j hj
    rw [begunOf_append, List.mem_append]
    rcases h.active_before hj with ⟨hj, hid⟩ | ⟨hid, _, rfl⟩
    · exact Or.inl (hid ▸ hi.active j hj)
    · exact Or.inr (by rw [hid]; exact List.mem_singleton_self _)
  have hbusy := h.busy hi.busy
  rcases h.begun with ⟨he, hn⟩ | ⟨he, hn, i, hli, hia⟩
  · refine ⟨?_, ?_, ?_, hact, fun {i j} hi' hj' hij => ?_, hbusy⟩
    · rw [begunOf_append, he, List.append_nil]; exact hi.first
    · rw [begunOf_append, he, List.append_nil]; exact hi.bound
    · rw [begunOf_append, he, List.append_nil, hn]; exact hi.next
    · rcases h.active_before hi' with ⟨hi', hid⟩ | ⟨_, _, rfl⟩
      · rcases h.active_before hj' with ⟨hj', hjd⟩ | ⟨_, _, rfl⟩
        · exact hi.unique hi' hj' (hid.symm.trans (hij.trans hjd))
        · cases he
      · cases he
  · have hne := hl i hli hia
    have hnew := hi.next_notMem hne
    obtain ⟨h1, h2, h3⟩ := hi.first_snoc hne
    rw [begunOf_append, he] at hact ⊢
    refine ⟨h1, h2, by rw [hn]; exact h3, hact, fun {i j} hi' hj' hij => ?_, hbusy⟩
    rcases h.active_before hi' with ⟨hi', hid⟩ | ⟨hid, lv, hev⟩ <;>
      rcases h.active_before hj' with ⟨hj', hjd⟩ | ⟨hjd, lv', hev'⟩
    · exact hi.unique hi' hj' (hid.symm.trans (hij.trans hjd))
    · exact absurd (hid.symm.trans (hij.trans hjd) ▸ hi.active i hi') hnew
    · exact absurd (hjd.symm.trans (hij.symm.trans hid) ▸ hi.active j hj') hnew
    · rw [hev] at hev'
      cases hev'
      rfl

theorem idInv_initial {st : Store} {s₀ : State} (h : Server.Initial st s₀) : IdInv (begunOf []) s₀.core := by
  cases h <;>
    exact ⟨rfl, by decide, rfl, fun i hi => (by cases hi), fun hi => (by cases hi), fun i hi => absurd rfl hi⟩

theorem FreshIds.next_ne {s : State} {a : Action} (h : FreshIds s a) {i : SessionId} (hl : a.label = .begin i)
    (hi : ¬ (s.core.parties i).active) : s.core.nextTxnId ≠ 0 := by
  obtain ⟨level, rfl⟩ := Action.eq_begin hl
  exact h hi

/-- `begin` in a session without a transaction begins one. -/
theorem step_begin {s s' : State} {i : SessionId} {level : IsolationLevel} {evs : List Event}
    (h : step s (.command i (.begin level)) = some (s', evs)) (hi : (s.sessions i).txn.state ≠ .active) :
    evs = [.began i s.nextTxnId level] := by
  have halive := (step_cases h).1
  simp only [step, halive, if_true] at h
  split at h
  · simp only [handleCommand, beginTxn, hi, if_false, Option.some.injEq, Prod.mk.injEq] at h
    exact h.2.symm
  · cases h

/-- A run that begins fewer than `2 ^ 32` transactions never hands out an id twice. -/
theorem freshIds_of_length {P : State → Action → Prop} {st : Store} {s₀ s : State} {as : List Action}
    {tr : List Event} (h0 : Server.Initial st s₀) (h : Run step P s₀ as s tr) (hn : (begunOf tr).length < 2 ^ 32) :
    Run step (fun s a => P s a ∧ FreshIds s a) s₀ as s tr ∧ IdInv (begunOf tr) s.core := by
  have hfresh : ∀ {tr s a s' evs}, IdInv (begunOf tr) s.core → step s a = some (s', evs) →
      (begunOf (tr ++ evs)).length < 2 ^ 32 → FreshIds s a := by
    intro tr s a s' evs hi hs hb
    unfold FreshIds
    split
    · rename_i i level
      intro hia hzero
      rcases (step_core hs).begun with ⟨he, hnx⟩ | ⟨he, _⟩
      · rw [step_begin hs hia] at he
        cases he
      · have hnext := hi.next
        rw [begunOf_append, he, List.length_append, List.length_singleton] at hb
        have hz : UInt32.ofNat ((begunOf tr).length + 1) = UInt32.ofNat 0 := hnext.symm.trans hzero
        have := ofNat_inj_of_lt hb (by decide) hz
        omega
    · trivial
  refine Run.strengthen (fun tr => (begunOf tr).length < 2 ^ 32) (fun tr s => IdInv (begunOf tr) s.core) ?_
    (idInv_initial h0) ?_ ?_ h hn
  · intro tr evs hb
    rw [begunOf_append, List.length_append] at hb
    omega
  · intro tr s a s' evs hi _ hs hb
    exact (step_core hs).idInv (fun i hl hia => (hfresh hi hs hb).next_ne hl hia) hi
  · intro tr s a s' evs hi hP hs hb
    exact ⟨hP, hfresh hi hs hb⟩

/-! ## Ids in use -/

theorem IdInv.newId {ids : List TxnId} {c : Core} {l : Label} (h : IdInv ids c)
    (hl : ∀ i, l = .begin i → ¬ (c.parties i).active → c.nextTxnId ≠ 0) (n : Nat) : c.NewId n l := by
  cases l with
  | begin i =>
    intro hi j _ hj heq
    exact h.next_notMem (hl i rfl hi) (heq ▸ h.active j hj)
  | _ => trivial

theorem FreshIds.newIds {s : State} {a : Action} {ids : List TxnId} (h : FreshIds s a) (hi : IdInv ids s.core) :
    NewIds s a := hi.newId (fun _ hl => h.next_ne hl) s.sessionCount

/-- A run that begins fewer than `2 ^ 32` transactions hands out no id in use. -/
theorem newIds_of_length {P : State → Action → Prop} {st : Store} {s₀ s : State} {as : List Action} {tr : List Event}
    (h0 : Server.Initial st s₀) (h : Run step P s₀ as s tr) (hn : (begunOf tr).length < 2 ^ 32) :
    Run step (fun s a => P s a ∧ NewIds s a) s₀ as s tr := by
  refine (Run.strengthen (fun _ => True) (fun tr s => IdInv (begunOf tr) s.core) (fun _ => trivial) (idInv_initial h0)
    ?_ ?_ (freshIds_of_length h0 h hn).1 trivial).1
  · intro tr s a s' evs hi hP hs _
    exact (step_core hs).idInv (fun i hl hia => hP.2.next_ne hl hia) hi
  · intro tr s a s' evs hi hP _ _
    exact ⟨hP.1, hP.2.newIds hi⟩

/-- **The lock table lists active transactions only** in every run that hands out no id in use. -/
theorem holdInv_of_newIds {st : Store} {s₀ s : State} {as : List Action} {tr : List Event} (h0 : Server.Initial st s₀)
    (h : Run step NewIds s₀ as s tr) : s.Unconnected ∧ HoldInv s.core.locks s.core.parties := by
  refine Run.invariant (fun _ s => s.Unconnected ∧ HoldInv s.core.locks s.core.parties)
    ⟨(lockInv_initial h0).1, (lockInv_initial h0).2.toHoldInv⟩ ?_ h
  rintro _ s a s' evs ⟨hu, hinv⟩ hn hs
  exact ⟨step_unconnected hs hu, (step_core hs).holdInv (hn.newId hu) hinv⟩

/-! ## Owners -/

/-- Every active transaction was begun by its session. -/
def Owned (tr : List Event) (c : Core) : Prop :=
  ∀ i, (c.parties i).active → ∃ level, Event.began i (c.parties i).txn.txnId level ∈ tr

theorem CoreStep.owned {c c' : Core} {l : Label} {evs tr : List Event} (h : CoreStep c l evs c') (ho : Owned tr c) :
    Owned (tr ++ evs) c' := by
  intro i hi
  rcases h.active_before hi with ⟨hact, hid⟩ | ⟨hid, level, rfl⟩
  · obtain ⟨level, hmem⟩ := ho i hact
    exact ⟨level, List.mem_append_left _ (hid ▸ hmem)⟩
  · exact ⟨level, List.mem_append_right _ (by rw [hid]; exact List.mem_singleton_self _)⟩

theorem mem_begunOf {tr : List Event} {i : SessionId} {t : TxnId} {level : IsolationLevel}
    (h : Event.began i t level ∈ tr) : t ∈ begunOf tr := List.mem_filterMap.mpr ⟨_, h, rfl⟩

/-- An id that is handed out once has one owner. -/
theorem owner_unique {tr : List Event} (h : (begunOf tr).Nodup) {i j : SessionId} {t : TxnId}
    {li lj : IsolationLevel} (hi : Event.began i t li ∈ tr) (hj : Event.began j t lj ∈ tr) : i = j := by
  induction tr with
  | nil => cases hi
  | cons e tr ih =>
    have hcons : (begunOf [e] ++ begunOf tr).Nodup := by rw [← begunOf_append]; exact h
    have hdisj := List.disjoint_of_nodup_append hcons
    rcases List.mem_cons.mp hi with rfl | hi' <;> rcases List.mem_cons.mp hj with he | hj'
    · cases he; rfl
    · exact absurd (mem_begunOf hj') (hdisj (mem_begunOf (List.mem_singleton_self _)))
    · subst he; exact absurd (mem_begunOf hi') (hdisj (mem_begunOf (List.mem_singleton_self _)))
    · exact ih (List.Nodup.of_append_right hcons) hi' hj'

/-- In a run that begins fewer than `2 ^ 32` transactions, the lock table lists active transactions only, and every id
has one owner. -/
theorem holdInv_of_length {P : State → Action → Prop} {st : Store} {s₀ s : State} {as : List Action}
    {tr : List Event} (h0 : Server.Initial st s₀) (h : Run step P s₀ as s tr) (hn : (begunOf tr).length < 2 ^ 32) :
    HoldInv s.core.locks s.core.parties ∧ Owned tr s.core ∧ (begunOf tr).Nodup := by
  have hinit : Owned [] s₀.core := fun i hi => absurd hi (by cases h0 <;> exact fun h => by cases h)
  have hinv : IdInv (begunOf tr) s.core ∧ HoldInv s.core.locks s.core.parties ∧ Owned tr s.core := by
    refine Run.invariant (fun tr s => IdInv (begunOf tr) s.core ∧ HoldInv s.core.locks s.core.parties ∧ Owned tr s.core)
      ⟨idInv_initial h0, (lockInv_initial h0).2.toHoldInv, hinit⟩ ?_ (freshIds_of_length h0 h hn).1
    rintro tr s a s' evs ⟨hid, hhold, hown⟩ hP hs
    have hnext : ∀ i, a.label = .begin i → ¬ (s.core.parties i).active → s.core.nextTxnId ≠ 0 :=
      fun i hl hia => hP.2.next_ne hl hia
    have hc := step_core hs
    exact ⟨hc.idInv hnext hid, hc.holdInv (hid.newId hnext) hhold, hc.owned hown⟩
  exact ⟨hinv.2.1, hinv.2.2, hinv.1.nodup⟩

/-! ## No orphaned locks -/

/-- The transaction appears in an entry of the lock table, as a holder or as a waiter. -/
def LockManager.Lists (lm : LockManager) (t : TxnId) : Prop :=
  ∃ (key : Key) (entry : LockEntry), lm.lockTable[key]? = some entry ∧
    (t ∈ entry.holders ∨ ∃ w ∈ entry.waitQueue, w.txnId = t)

/-- The last step of `commit` or `abort` comes next. -/
def Pc.returning : Pc → Bool
  | .commitReset _ | .abortReset _ => true
  | _ => false

/-- In the run to `s`, `commit` or `abort` has returned for the transaction. -/
def Finished (s₀ s : State) (tr : List Event) (t : TxnId) : Prop :=
  ∃ as₁ s₁ tr₁ i s₂ evs as₂ tr₂, Run step (fun _ _ => True) s₀ as₁ s₁ tr₁ ∧ (s₁.sessions i).txn.txnId = t ∧
    (s₁.sessions i).pc.returning = true ∧ step s₁ (.thread i) = some (s₂, evs) ∧
    Run step (fun _ _ => True) s₂ as₂ s tr₂ ∧ tr = tr₁ ++ evs ++ tr₂

/-- Who is listed in the lock table has an active session. -/
theorem HoldInv.listed {s : State} (h : HoldInv s.core.locks s.core.parties) {key : Key} {entry : LockEntry}
    (he : s.locks.lockTable[key]? = some entry) {t : TxnId}
    (ht : t ∈ entry.holders ∨ ∃ w ∈ entry.waitQueue, w.txnId = t) :
    ∃ j, (s.sessions j).txn.state = .active ∧ (s.sessions j).txn.txnId = t := by
  have hentry := LockManager.entry_of_some he
  rcases ht with ht | ⟨w, hw, rfl⟩
  · obtain ⟨j, hj, _, hid⟩ := h.holder (k := key) (u := t) (by rw [LockManager.holders]; exact hentry ▸ ht)
    exact ⟨j, hj, hid⟩
  · obtain ⟨j, op, hj, hid, _⟩ := h.waiter (k := key) (w := w) (by rw [LockManager.queue]; exact hentry ▸ hw)
    exact ⟨j, h.active j (by rw [hj]; simp), hid⟩

theorem unconnected_of_run {P : State → Action → Prop} {st : Store} {s₀ s : State} {as : List Action}
    {tr : List Event} (h0 : Server.Initial st s₀) (h : Run step P s₀ as s tr) : s.Unconnected :=
  Run.invariant (fun _ s => s.Unconnected) (lockInv_initial h0).1 (fun hu _ hs => step_unconnected hs hu) h

/-- A session that is not in a transaction is in it later only if it has begun it since. -/
theorem current_begun {P : State → Action → Prop} {s s' : State} {as : List Action} {tr : List Event}
    (h : Run step P s as s' tr) {i : SessionId} (hi : ¬ (s.core.parties i).active)
    (hi' : (s'.core.parties i).active) : (s'.core.parties i).txn.txnId ∈ begunOf tr := by
  refine Run.invariant (fun tr s => (s.core.parties i).active → (s.core.parties i).txn.txnId ∈ begunOf tr)
    (fun h => absurd h hi) ?_ h hi'
  intro tr s a s' evs ih _ hs hact
  rw [begunOf_append, List.mem_append]
  rcases (step_core hs).active_before hact with ⟨hact, hid⟩ | ⟨hid, level, rfl⟩
  · exact Or.inl (hid ▸ ih hact)
  · exact Or.inr (by rw [hid]; exact List.mem_singleton_self _)

/-- The last step of `commit` and `abort` resets the transaction. -/
theorem threadStep_returning {s s' : State} {i : SessionId} {evs : List Event} (h : step s (.thread i) = some (s', evs))
    (hpc : (s.sessions i).pc.returning = true) :
    (s.core.parties i).phase = .released ∧ (s'.sessions i).txn = {} := by
  have halive := (step_cases h).1
  simp only [step, halive, if_true, threadStep] at h
  cases hp : (s.sessions i).pc <;> rw [hp] at hpc <;> try cases hpc
  all_goals
    simp only [hp, Option.some.injEq, Prod.mk.injEq] at h
    obtain ⟨rfl, -⟩ := h
    refine ⟨by simp [State.core, Session.party, hp, Pc.phase], ?_⟩
    simp [State.setTxn, State.setSession]

/-- **No orphaned locks.** Every transaction in the lock table is the current one of an active session; when `commit`
or `abort` has returned, by whatever path, the transaction is and stays in no entry. -/
theorem no_orphaned_locks {st : Store} {s₀ s : State} {as : List Action} {tr : List Event}
    (h0 : Server.Initial st s₀) (h : Run step (fun _ _ => True) s₀ as s tr) (hn : (begunOf tr).length < 2 ^ 32) :
    (∀ t, s.locks.Lists t →
      ∃ i < s.sessionCount, (s.sessions i).txn.state = .active ∧ (s.sessions i).txn.txnId = t) ∧
    ∀ t, Finished s₀ s tr t → ¬ s.locks.Lists t := by
  obtain ⟨hhold, hown, hnodup⟩ := holdInv_of_length h0 h hn
  refine ⟨?_, ?_⟩
  · rintro t ⟨key, entry, he, ht⟩
    obtain ⟨i, hi, hid⟩ := hhold.listed he ht
    refine ⟨i, ?_, hi, hid⟩
    by_contra hge
    rw [unconnected_of_run h0 h i (Nat.le_of_not_lt hge)] at hi
    cases hi
  · rintro t ⟨as₁, s₁, tr₁, i, s₂, evs, as₂, tr₂, h₁, rfl, hpc, hs, h₂, rfl⟩ ⟨key, entry, he, ht⟩
    have hn₁ : (begunOf tr₁).length < 2 ^ 32 := by
      rw [begunOf_append, begunOf_append, List.length_append, List.length_append] at hn
      omega
    obtain ⟨hhold₁, hown₁, _⟩ := holdInv_of_length h0 h₁ hn₁
    obtain ⟨hph, htxn⟩ := threadStep_returning hs hpc
    obtain ⟨li, hbi⟩ := hown₁ i (hhold₁.active i (by rw [hph]; simp))
    -- whoever is listed now has begun the transaction, so it is the same session
    obtain ⟨j, hj, hjid⟩ := hhold.listed he ht
    obtain ⟨lj, hbj⟩ := hown j hj
    have hbj' : Event.began j (s₁.sessions i).txn.txnId lj ∈ tr₁ ++ evs ++ tr₂ := hjid ▸ hbj
    obtain rfl := owner_unique hnodup hbj' (List.mem_append_left tr₂ (List.mem_append_left evs hbi))
    -- but that session has left the transaction, and ids are not handed out twice
    have hidle : ¬ (s₂.core.parties j).active := by
      intro hact
      have hact' : (s₂.sessions j).txn.state = .active := hact
      rw [htxn] at hact'
      cases hact'
    have hagain : (s.sessions j).txn.txnId ∈ begunOf tr₂ := current_begun h₂ hidle hj
    rw [hjid] at hagain
    rw [begunOf_append] at hnodup
    refine List.disjoint_of_nodup_append hnodup ?_ hagain
    rw [begunOf_append]
    exact List.mem_append_left _ (mem_begunOf hbi)

/-- A transaction whose request has timed out, beside the one it waited for. -/
theorem no_orphaned_locks_timeout : ∃ as s tr, Run step (fun _ _ => True) (Server.boot {} ∅) as s tr ∧
    s.locks.Lists 1 ∧ (∃ i < s.sessionCount, (s.sessions i).txn.state = .active ∧ (s.sessions i).txn.txnId = 1) ∧
    Finished (Server.boot {} ∅) s tr 2 ∧ ¬ s.locks.Lists 2 := by
  have hrun := exists_run_of_exec step (fun _ _ => True) (Server.boot {} ∅)
    [.connect, .connect, .command 0 (.begin .readCommitted), .thread 0, .command 0 (.put [97] [49]),
      .command 1 (.begin .readCommitted), .thread 1, .command 1 (.put [98] [50]), .command 1 (.put [97] [50]),
      .thread 1, .thread 1, .thread 1]
    (fun s tr => decide ((s.sessions 1).txn.txnId = 2 ∧ (s.sessions 1).pc.returning = true) &&
      (step s (.thread 1)).any fun r => decide ((begunOf (tr ++ r.2)).length < 2 ^ 32) &&
        (r.1.locks.lockTable.get? [97]).any fun e => decide (1 ∈ e.holders)) (by decide +kernel)
  obtain ⟨s₁, tr₁, h₁, hp⟩ := hrun
  rw [Bool.and_eq_true, Option.any_eq_true] at hp
  obtain ⟨hp, ⟨s, evs⟩, hs, hq⟩ := hp
  rw [Bool.and_eq_true, Option.any_eq_true] at hq
  obtain ⟨hn, entry, he, hmem⟩ := hq
  obtain ⟨hid, hpc⟩ := of_decide_eq_true hp
  have h : Run step (fun _ _ => True) (Server.boot {} ∅) _ s (tr₁ ++ evs) := h₁.snoc trivial hs
  have hlist : s.locks.Lists 1 := ⟨[97], entry, he, Or.inl (of_decide_eq_true hmem)⟩
  have hfin : Finished (Server.boot {} ∅) s (tr₁ ++ evs) 2 :=
    ⟨_, s₁, tr₁, 1, s, evs, [], [], h₁, hid, hpc, hs, .nil, (List.append_nil _).symm⟩
  obtain ⟨hlisted, hfinished⟩ := no_orphaned_locks (.opened {}) h (of_decide_eq_true hn)
  exact ⟨_, s, _, h, hlist, hlisted 1 hlist, hfin, hfinished 2 hfin⟩

/-! ## Write locks without wrap-around -/

theorem keepsLocks_of_length {st : Store} {s₀ s : State} {as : List Action} {tr : List Event}
    (h0 : Server.Initial st s₀) (h : Run step KeepsWriteLocks s₀ as s tr) (hn : (begunOf tr).length < 2 ^ 32) :
    Run step KeepsLocks s₀ as s tr :=
  (newIds_of_length h0 h hn).mono fun _ _ hP => ⟨hP.2, hP.1⟩

end Kvdb
