import Kvdb.LockCalls

/-!
# The locks a transaction has on record

A transaction manager keeps its own record of its locks, `locks_held`. Whenever the transaction neither waits for a lock
nor is about to end, the keys on record are those it holds in the lock table (`recorded_keys_agree`). Not so the modes:
a `get` records `SHARED` also for a key that the transaction holds `EXCLUSIVE` (`get_of_exclusive`), and the modes agree
in exactly the runs without such a `get` (`keepsModes_iff`, `recorded_locks_agree`).

The invariant `Books` compares the two modes by a relation `Q`, so that one step lemma (`CoreStep.bookInv`) serves both.
-/

namespace Kvdb

open Std LockManager Machine

/-! ## The mode of a grant -/

/-- A key is granted in the mode asked for, which is the one it has if it is held. -/
theorem LockMode.grant_of_isCompatible {m r : LockMode} (h : isCompatible m r = true) (hr : r ≠ .none) :
    m.grant r = r ∧ (m ≠ .none → r = m) := by
  cases m <;> cases r <;> simp_all [isCompatible, LockMode.grant]

/-- Grants do not change the mode of a key that is held. -/
theorem grantWaiters_of_ne_none {m : LockMode} (hm : m ≠ .none) : ∀ {q : List LockWaiter} {h : Finset TxnId}
    {fl : List WaitFlags}, (∀ w ∈ q, w.requestedMode ≠ .none) → (grantWaiters m h fl q).1.currentMode = m
  | [], _, _, _ => rfl
  | w :: q, h, fl, hq => by
    have hw := hq w List.mem_cons_self
    rw [grantWaiters]
    split
    · rename_i hcompat
      obtain ⟨hgrant, hsame⟩ := LockMode.grant_of_isCompatible hcompat hw
      rw [hgrant, hsame hm]
      exact grantWaiters_of_ne_none hm fun v hv => hq v (List.mem_cons_of_mem _ hv)
    · rfl

/-- **A request is granted in its own mode.** -/
theorem grantWaiters_mode : ∀ {q : List LockWaiter} {m : LockMode} {h : Finset TxnId} {fl : List WaitFlags},
    (∀ w ∈ q, w.requestedMode ≠ .none) → ∀ w ∈ q, w ∉ (grantWaiters m h fl q).1.waitQueue →
      (grantWaiters m h fl q).1.currentMode = w.requestedMode
  | v :: q, m, h, fl, hq, w, hw, hnot => by
    have hv := hq v List.mem_cons_self
    have hq' : ∀ u ∈ q, u.requestedMode ≠ .none := fun u hu => hq u (List.mem_cons_of_mem _ hu)
    rw [grantWaiters] at hnot ⊢
    split at hnot
    · rename_i hcompat
      rw [if_pos hcompat]
      rcases List.mem_cons.mp hw with rfl | hw
      · rw [(LockMode.grant_of_isCompatible hcompat hv).1]
        exact grantWaiters_of_ne_none hv hq'
      · exact grantWaiters_mode hq' w hw hnot
    · exact absurd hw hnot

/-- A request of another transaction that leaves the queue during a call of `t` is granted in its mode. -/
def GrantsModes (t : TxnId) (lm lm' : LockManager) : Prop :=
  ∀ k, ∀ w ∈ lm.queue k, w.txnId ≠ t → w ∉ lm'.queue k → lm'.mode k = w.requestedMode

section GrantsModes

variable {t : TxnId} {k : Key} {m : LockMode} {lm lm' : LockManager}

theorem GrantsModes.of_mem (h : ∀ k, ∀ w ∈ lm.queue k, w.txnId ≠ t → w ∈ lm'.queue k) : GrantsModes t lm lm' :=
  fun k w hw ht hnot => absurd (h k w hw ht) hnot

theorem GrantsModes.trans {lm'' : LockManager} (hwf : lm.WF) (h : GrantsModes t lm lm') (ha : Acts t lm lm')
    (h' : GrantsModes t lm' lm'') (hs' : Spares t lm' lm'') : GrantsModes t lm lm'' := by
  intro k w hw ht hnot
  by_cases hw' : w ∈ lm'.queue k
  · exact h' k w hw' ht hnot
  · -- granted before, and a holder since
    rcases ha.waits w.txnId k w.requestedMode w.flags ht (Or.inl ⟨hw, hwf.cells k w hw⟩) with ⟨hq, -⟩ | ⟨-, hmem, -⟩
    · exact absurd hq hw'
    · exact (hs'.mode ht hmem).trans (h k w hw ht hw')

theorem acquireLock_grantsModes (hm : m ≠ .none) : GrantsModes t lm (lm.acquireLock t k m).1 := by
  refine .of_mem fun a w hw ht => ?_
  rcases acquireLock_cases lm t k m with ⟨e', he, hr⟩ | ⟨hr, -⟩ <;> rw [hr, queue, entry_insert] <;> split
  · subst_vars
    rcases tryGrant_cases hm he with ⟨rfl, -⟩ | ⟨-, -, -, -, hq | ⟨v, hv, hq⟩⟩ | ⟨-, -, -, rfl⟩
    · exact hw
    · rw [hq]
      exact hw
    · rw [queue, hq] at hw
      rcases List.mem_cons.mp hw with rfl | hw
      · exact absurd hv ht
      · exact hw
    · exact hw
  · exact hw
  · subst_vars
    exact List.mem_append_left _ hw
  · exact hw

theorem finishWait_grantsModes {c : Nat} : GrantsModes t lm (lm.finishWait t k c).1 := by
  refine .of_mem fun a w hw ht => ?_
  rcases finishWait_cases lm t k c with ⟨hr, -⟩ | hr <;> rw [hr]
  · exact hw
  · rw [queue, entry_dropWaiter]
    split
    · subst_vars
      exact List.mem_filter.mpr ⟨hw, decide_eq_true ht⟩
    · exact hw

theorem dropHolder_grantsModes (hwf : lm.WF) : GrantsModes t lm (lm.dropHolder t k) := by
  intro a w hw ht hnot
  rw [queue, (dropHolder_eq lm t k).2] at hnot
  rw [LockManager.mode, (dropHolder_eq lm t k).2]
  split at hnot
  · obtain rfl : k = a := ‹_›
    rw [if_pos rfl]
    unfold dropped at hnot ⊢
    split at hnot
    · rw [if_pos ‹_›]
      exact grantWaiters_mode (hwf.entries k).requests w hw hnot
    · exact absurd hw hnot
  · exact absurd hw hnot

theorem GrantsModes.of_same (he : ∀ a, lm'.entry a = lm.entry a) : GrantsModes t lm lm' :=
  .of_mem fun k w hw _ => by rw [queue, he]; exact hw

end GrantsModes

/-- What a call of `t` that leads from `lm` to `lm'` comes to for the other transactions. -/
structure Others (t : TxnId) (lm lm' : LockManager) : Prop where
  acts : Acts t lm lm'
  spares : Spares t lm lm'
  modes : GrantsModes t lm lm'

section Others

variable {t : TxnId} {k : Key} {m : LockMode} {lm lm' : LockManager}

theorem acquireLock_others {out : Acquire} (hwf : lm.WF) (hm : m ≠ .none) (h : lm.acquireLock t k m = (lm', out)) :
    Others t lm lm' := by
  obtain rfl : (lm.acquireLock t k m).1 = lm' := by rw [h]
  exact ⟨acquireLock_acts hwf hm, acquireLock_spares hwf hm, acquireLock_grantsModes hm⟩

theorem finishWait_others {c : Nat} {out : Bool} (hwf : lm.WF) (h : lm.finishWait t k c = (lm', out)) :
    Others t lm lm' := by
  obtain rfl : (lm.finishWait t k c).1 = lm' := by rw [h]
  exact ⟨finishWait_acts hwf, finishWait_spares, finishWait_grantsModes⟩

theorem others_lifts (t : TxnId) : Lifts t (Others t) where
  same hwf he hf := ⟨acts_of_same hwf he hf, .of_same he hf, .of_same he⟩
  trans hwf ha h ha' h' := ⟨ha.trans ha', h.spares.trans ha h'.spares ha', h.modes.trans hwf ha h'.modes h'.spares⟩
  dropHolder hwf := ⟨dropHolder_acts hwf, dropHolder_spares hwf, dropHolder_grantsModes hwf⟩

theorem releaseLock_others (hwf : lm.WF) : Others t lm (lm.releaseLock t k) := (others_lifts t).releaseLock hwf

theorem releaseAllLocks_others (hwf : lm.WF) : Others t lm (lm.releaseAllLocks t) :=
  (others_lifts t).releaseAllLocks hwf

end Others

/-! ## What a call does to the own entries -/

section Own

variable {t : TxnId} {k : Key} {m : LockMode} {lm lm' : LockManager} {c : Nat}

/-- The lock that `acquireLock` grants at once: in the mode asked for, or one that was held before. -/
theorem acquireLock_mode (hm : m ≠ .none) (h : lm.acquireLock t k m = (lm', .granted)) :
    (∀ a, k ≠ a → lm'.entry a = lm.entry a) ∧
      (lm'.mode k = m ∨ m = .shared ∧ t ∈ lm.holders k ∧ lm'.mode k = lm.mode k) := by
  rcases acquireLock_cases lm t k m with ⟨e', he, hr⟩ | ⟨hr, -⟩ <;> rw [hr] at h
  · cases h
    refine ⟨fun a ha => by rw [entry_insert, if_neg ha], ?_⟩
    rw [LockManager.mode, entry_insert, if_pos rfl]
    rcases tryGrant_cases hm he with ⟨rfl, hmem, hx | hsh⟩ | ⟨-, rfl, -, hx, -⟩ | ⟨hnot, hc, -, rfl⟩
    · cases m with
      | none => exact absurd rfl hm
      | shared => exact Or.inr ⟨rfl, hmem, rfl⟩
      | exclusive => exact Or.inl hx
    · exact Or.inr ⟨hsh, hmem, rfl⟩
    · exact Or.inl hx
    · exact Or.inl (LockMode.grant_of_isCompatible hc hm).1
  · cases h

/-- A request that has to wait changes no holders and no mode. -/
theorem acquireLock_queued (h : lm.acquireLock t k m = (lm', .waiting c)) :
    (∀ a, lm'.holders a = lm.holders a ∧ lm'.mode a = lm.mode a) ∧ lm'.flags[c]? = some {} := by
  rcases acquireLock_cases lm t k m with ⟨e', he, hr⟩ | ⟨hr, -⟩ <;> rw [hr] at h <;> cases h
  refine ⟨fun a => ?_, by simp⟩
  simp only [holders, LockManager.mode, entry_insert]
  split <;> simp_all

/-- A request fails without its grant, and changes no holders and no mode. -/
theorem finishWait_failed (h : lm.finishWait t k c = (lm', false)) :
    (∀ a, lm'.holders a = lm.holders a ∧ lm'.mode a = lm.mode a) ∧ lm.flags[c]? ≠ some { granted := true } := by
  constructor
  · rcases finishWait_cases lm t k c with ⟨hr, -⟩ | hr <;> rw [hr] at h <;> cases h
    exact dropWaiter_holders lm t k
  · intro hf
    simp [finishWait, List.getD_eq_getElem?_getD, hf] at h

end Own

/-! ## The books of one transaction -/

/-- The record of an active transaction against the lock table. While the transaction is inside `acquireLock` it may
have its grant without having recorded it. -/
structure Books (Q : LockMode → LockMode → Prop) (lm : LockManager) (p : Party) : Prop where
  held : ∀ {k m}, p.txn.locksHeld[k]? = some m → p.txn.txnId ∈ lm.holders k ∧ Q m (lm.mode k)
  listed : ∀ {k}, p.txn.txnId ∈ lm.holders k → k ∈ p.txn.locksHeld ∨
    ∃ op f, p.phase = .waiting op k f ∧ lm.flags[f]? = some { granted := true }
  granted : ∀ {op k f}, p.phase = .waiting op k f → lm.flags[f]? = some { granted := true } → lm.mode k = op.mode

structure BookInv (Q : LockMode → LockMode → Prop) (lm : LockManager) (ps : SessionId → Party) : Prop where
  hold : HoldInv lm ps
  books : ∀ {i}, (ps i).active → (ps i).phase ≠ .released → Books Q lm (ps i)

theorem TransactionInfo.withLock_locksHeld (txn : TransactionInfo) (op : LockOp) (key : Key) :
    (txn.withLock op key).locksHeld = txn.locksHeld.insert key op.mode ∧ (txn.withLock op key).txnId = txn.txnId := by
  cases op <;> exact ⟨rfl, rfl⟩

namespace Books

variable {Q : LockMode → LockMode → Prop} {lm lm' : LockManager} {p : Party}

/-- Outside `acquireLock` the keys on record are those held. -/
theorem mem_iff (h : Books Q lm p) (hp : ∀ op k f, p.phase ≠ .waiting op k f) {k : Key} :
    p.txn.txnId ∈ lm.holders k ↔ k ∈ p.txn.locksHeld := by
  constructor
  · intro hk
    rcases h.listed hk with hk | ⟨op, f, hph, -⟩
    · exact hk
    · exact absurd hph (hp op k f)
  · intro hk
    obtain ⟨m, hm⟩ := Option.isSome_iff_exists.mp (ExtTreeMap.isSome_getElem?_iff_mem.mpr hk)
    exact (h.held hm).1

/-- A transaction whose keys on record are those held, and which does not wait. -/
theorem of_mem_iff (hp : ∀ op k f, p.phase ≠ .waiting op k f)
    (hheld : ∀ {k m}, p.txn.locksHeld[k]? = some m → p.txn.txnId ∈ lm.holders k ∧ Q m (lm.mode k))
    (hlisted : ∀ {k}, p.txn.txnId ∈ lm.holders k → k ∈ p.txn.locksHeld) : Books Q lm p :=
  ⟨hheld, fun hk => Or.inl (hlisted hk), fun hph => absurd hph (hp _ _ _)⟩

/-- A change of the phase outside `acquireLock`. -/
theorem congr (h : Books Q lm p) {p' : Party} (hp : ∀ op k f, p.phase ≠ .waiting op k f)
    (hp' : ∀ op k f, p'.phase ≠ .waiting op k f) (hid : p'.txn.txnId = p.txn.txnId)
    (hlocks : p'.txn.locksHeld = p.txn.locksHeld) : Books Q lm p' := by
  refine .of_mem_iff hp' ?_ ?_ <;> rw [hid, hlocks]
  · exact h.held
  · exact (h.mem_iff hp).mp

/-- The books after `acquireLock` has returned `true`: one entry is new. -/
theorem locked (h : Books Q lm p) {op : LockOp} {key : Key} (hp : ∀ op' k f, p.phase = .waiting op' k f → k = key)
    (hother : ∀ k, key ≠ k → lm'.entry k = lm.entry k) (hmem : p.txn.txnId ∈ lm'.holders key)
    (hmode : Q op.mode (lm'.mode key)) : Books Q lm' (.locked p.txn op key) := by
  obtain ⟨hlocks, hid⟩ := p.txn.withLock_locksHeld op key
  refine .of_mem_iff (Party.locked_phase p.txn op key).2 ?_ ?_ <;> simp only [Party.locked, hlocks, hid]
  · intro k m hk
    rw [FinMap.find_insert] at hk
    split at hk
    · subst_vars
      cases hk
      exact ⟨hmem, hmode⟩
    · rw [holders, LockManager.mode, hother k ‹_›]
      exact h.held hk
  · intro k hk
    by_cases hkey : key = k
    · exact FinMap.mem_insert_iff.mpr (Or.inl hkey)
    · rw [holders, hother k hkey] at hk
      rcases h.listed hk with hk | ⟨op', f, hph, -⟩
      · exact FinMap.mem_insert_iff.mpr (Or.inr hk)
      · exact absurd (hp op' k f hph).symm hkey

/-- The books while the transaction waits: the holders and the modes are as before. -/
theorem queued (h : Books Q lm p) (hp : ∀ op k f, p.phase ≠ .waiting op k f) {op : LockOp} {key : Key} {flags : Nat}
    (hacq : lm.acquireLock p.txn.txnId key op.mode = (lm', .waiting flags)) :
    Books Q lm' { p with phase := .waiting op key flags } := by
  obtain ⟨hsame, hflags⟩ := acquireLock_queued hacq
  refine ⟨fun {k m} hk => ?_, fun {k} hk => ?_, fun {op' k f} hph hf => ?_⟩
  · rw [(hsame k).1, (hsame k).2]
    exact h.held hk
  · rw [(hsame k).1] at hk
    exact Or.inl ((h.mem_iff hp).mp hk)
  · cases hph
    rw [hflags] at hf
    cases hf

/-- The books after a request has failed. -/
theorem failed (h : Books Q lm p) {op : LockOp} {key : Key} {flags : Nat} (hp : p.phase = .waiting op key flags)
    (hfin : lm.finishWait p.txn.txnId key flags = (lm', false)) {ph : Phase} (hph : ∀ op k f, ph ≠ .waiting op k f) :
    Books Q lm' { p with phase := ph } := by
  obtain ⟨hsame, hflags⟩ := finishWait_failed hfin
  refine .of_mem_iff hph (fun {k m} hk => ?_) fun {k} hk => ?_
  · rw [(hsame k).1, (hsame k).2]
    exact h.held hk
  · rw [(hsame k).1] at hk
    rcases h.listed hk with hk | ⟨op', f, hp', hf⟩
    · exact hk
    · rw [hp] at hp'
      cases hp'
      exact absurd hf hflags

/-- The books after `releaseLock`. -/
theorem released (h : Books Q lm p) (hwf : lm.WF) (hq : lm.NotQueued p.txn.txnId)
    (hp : ∀ op k f, p.phase ≠ .waiting op k f) (key : Key) : Books Q (lm.releaseLock p.txn.txnId key)
      ⟨{ p.txn with locksHeld := p.txn.locksHeld.erase key }, .running⟩ := by
  have hentry := (releaseLock_eq hwf p.txn.txnId key).1
  refine .of_mem_iff (by simp) (fun {k m} hk => ?_) fun {k} hk => ?_
  · rw [FinMap.find_erase] at hk
    split at hk
    · cases hk
    · rw [holders, LockManager.mode, hentry, (dropHolder_eq _ _ _).2, if_neg ‹_›]
      exact h.held hk
  · rw [holders, hentry] at hk
    obtain ⟨hne, hk⟩ := dropHolder_notMem hwf hq hk
    exact ExtTreeMap.mem_erase.mpr ⟨by simpa using hne.symm, (h.mem_iff hp).mp hk⟩

/-- Calls of other transactions leave the books in order. -/
theorem frame {ps : SessionId → Party} {j : SessionId} {t : TxnId} (hold : HoldInv lm ps) (hj : (ps j).active)
    (h : Books Q lm (ps j)) (ht : (ps j).txn.txnId ≠ t) (ho : Others t lm lm') : Books Q lm' (ps j) := by
  obtain ⟨ha, hs, hg⟩ := ho
  refine ⟨fun hk => ?_, fun {k} hk => ?_, fun {op k f} hph hf => ?_⟩
  · obtain ⟨hmem, hq⟩ := h.held hk
    exact ⟨ha.keep _ _ ht hmem, by rwa [hs.mode ht hmem]⟩
  · rcases hs.grant ht hk with hk | ⟨w, hw, hwt, hnot⟩
    · rcases h.listed hk with hk | ⟨op, f, hph, hf⟩
      · exact Or.inl hk
      · -- granted flags are not in a queue
        refine Or.inr ⟨op, f, hph, (hs.flags hf fun a w hw he => ?_).1⟩
        rw [← he, hold.wf.cells a w hw] at hf
        cases hf
    · obtain ⟨j', op, hph, hid, hm⟩ := hold.waiter hw
      obtain rfl := hold.unique (hold.active j' (by rw [hph]; simp)) hj (hid.trans hwt)
      rcases ha.waits _ _ _ _ ht (hold.waiting hph) with ⟨hq, -⟩ | ⟨hf, -⟩
      · rw [hid, ← hm] at hq
        exact absurd hq hnot
      · exact Or.inr ⟨op, w.flags, hph, hf⟩
  · rcases hold.waiting hph with ⟨hq, -⟩ | ⟨hf', hmem, -⟩
    · refine hg k _ hq ht fun hq' => ?_
      rw [ha.wf.cells k _ hq'] at hf
      cases hf
    · rw [hs.mode ht hmem]
      exact h.granted hph hf'

end Books

namespace BookInv

variable {Q : LockMode → LockMode → Prop} {lm lm' : LockManager} {ps : SessionId → Party} {i : SessionId} {p' : Party}

/-- A step that changes one party, and the lock table only by a call of that party's transaction. -/
theorem update (h : BookInv Q lm ps) (hhold : HoldInv lm' (Function.update ps i p')) (hi : (ps i).active)
    (ho : Others (ps i).txn.txnId lm lm') (hp : p'.phase ≠ .released → Books Q lm' p') :
    BookInv Q lm' (Function.update ps i p') := by
  refine ⟨hhold, fun {j} hj hph => ?_⟩
  by_cases hji : j = i
  · subst hji
    rw [Function.update_self] at hph ⊢
    exact hp hph
  · rw [Function.update_of_ne hji] at hj hph ⊢
    exact (h.books hj hph).frame h.hold hj (h.hold.ne_of_ne hi hj hji) ho

/-- A step that changes one party and leaves the lock table alone. -/
theorem update_same (h : BookInv Q lm ps) (hhold : HoldInv lm (Function.update ps i p'))
    (hp : p'.active → Books Q lm p') : BookInv Q lm (Function.update ps i p') := by
  refine ⟨hhold, fun {j} hj hph => ?_⟩
  by_cases hji : j = i
  · subst hji
    rw [Function.update_self] at hj ⊢
    exact hp hj
  · rw [Function.update_of_ne hji] at hj hph ⊢
    exact h.books hj hph

end BookInv

/-! ## Every step keeps the books -/

/-- A `get` of a key that the transaction holds already records a mode that `Q` allows. -/
def Core.Records (Q : LockMode → LockMode → Prop) (c : Core) : Label → Prop
  | .request i .get key => (c.parties i).active → (c.parties i).txn.txnId ∈ c.locks.holders key →
      Q .shared (c.locks.mode key)
  | _ => True

theorem Core.records_true (c : Core) (l : Label) : c.Records (fun _ _ => True) l := by
  unfold Core.Records
  split
  · exact fun _ _ => trivial
  · trivial

/-- **Every step keeps the books**, in the sense of `Q`. -/
theorem CoreStep.bookInv {Q : LockMode → LockMode → Prop} (hQ : ∀ m, Q m m) {c c' : Core} {l : Label} {evs : List Event}
    (h : CoreStep c l evs c') (hl : ∀ n, c.NewId n l) (hget : c.Records Q l) (hinv : BookInv Q c.locks c.parties) :
    BookInv Q c'.locks c'.parties := by
  have hhold := h.holdInv hl hinv.hold
  have hwf := hinv.hold.wf
  cases h with
  | silent _ => exact hinv
  | @begin i level hph hact =>
    -- nothing is on record yet, and nobody holds a lock under the new id
    refine hinv.update_same hhold fun _ => .of_mem_iff (by simp) (by simp) fun {k} hk => ?_
    obtain ⟨j, hj, -, hid⟩ := hinv.hold.holder hk
    exact absurd hid (c.txnId_ne_next hl hact j hj)
  | @granted i p op key locks hp hph hact hacq =>
    subst hp
    have hm := op.mode_ne_none
    have hmem := (acquireLock_granted (t := (c.parties i).txn.txnId) (k := key) hwf hm (by rw [hacq])).1
    rw [hacq] at hmem
    obtain ⟨hother, hmode⟩ := acquireLock_mode hm hacq
    have hq : Q op.mode (locks.mode key) := by
      rcases hmode with hmode | ⟨hsh, hheld, hmode⟩ <;> rw [hmode]
      · exact hQ _
      · cases op with
        | get => exact hget hact hheld
        | _ => cases hsh
    exact hinv.update hhold hact (acquireLock_others hwf hm hacq) fun _ =>
      (hinv.books hact (by simp [hph])).locked (by simp [hph]) hother hmem hq
  | @queued i p op key locks flags hp hph hact hacq =>
    subst hp
    exact hinv.update hhold hact (acquireLock_others hwf op.mode_ne_none hacq) fun _ =>
      (hinv.books hact (by simp [hph])).queued (by simp [hph]) hacq
  | @waitGranted _ i p op key flags locks hp hph hfin =>
    subst hp
    have hact := hinv.hold.active i (by rw [hph]; simp)
    obtain ⟨hsame, hmem, -, hflag⟩ := finishWait_true (hinv.hold.waiting hph) (by rw [hfin])
    rw [hfin] at hsame
    dsimp only at hsame
    subst hsame
    have hb := hinv.books hact (by rw [hph]; simp)
    have hkey : ∀ op' k f, (c.parties i).phase = .waiting op' k f → k = key := by
      intro op' k f hph'
      rw [hph] at hph'
      cases hph'
      rfl
    have hq : Q op.mode (c.locks.mode key) := by
      rw [hb.granted hph hflag]
      exact hQ _
    exact hinv.update_same hhold fun _ => hb.locked hkey (fun _ _ => rfl) hmem hq
  | @waitFailed _ i p op key flags locks hp hph hfin =>
    subst hp
    have hact := hinv.hold.active i (by rw [hph]; simp)
    exact hinv.update hhold hact (finishWait_others hwf hfin) fun _ =>
      (hinv.books hact (by rw [hph]; simp)).failed hph hfin (by simp)
  | @release _ i p key hp hph =>
    subst hp
    have hact := hinv.hold.active i (by rw [hph]; simp)
    have hq := hinv.hold.notQueued hact (by simp [hph])
    exact hinv.update hhold hact (releaseLock_others hwf) fun _ =>
      (hinv.books hact (by simp [hph])).released hwf hq (by simp [hph]) key
  | @applied l i p lsn hp hph | @abortRelease l i p hp hph =>
    subst hp
    have hact := hinv.hold.active i (by rw [hph]; simp)
    exact hinv.update hhold hact (releaseAllLocks_others hwf) fun hne => absurd rfl hne
  | @reset l evs i p hp hph _ => exact hinv.update_same hhold fun hact => by cases hact
  | @read _ i p key hp hph =>
    subst hp
    have hact := hinv.hold.active i (by rw [hph]; simp)
    exact hinv.update_same hhold fun _ =>
      (hinv.books hact (by simp [hph])).congr (by simp [hph]) (by dsimp only; split <;> simp) rfl rfl
  | @startCommit i p hp hph hact | @startAbort _ i p hp hph hact =>
    subst hp
    exact hinv.update_same hhold fun _ => (hinv.books hact (by simp [hph])).congr (by simp [hph]) (by simp) rfl rfl
  | @logBegin _ i p hp hph | @logWrite _ i p w ws hp hph | @logCommit _ i p hp hph | @apply _ i p lsn w ws hp hph
  | @logAbort l i p hp hph =>
    subst hp
    have hact := hinv.hold.active i (by rw [hph]; simp)
    exact hinv.update_same hhold fun _ => (hinv.books hact (by simp [hph])).congr (by simp [hph]) (by simp) rfl rfl

/-! ## Whole runs -/

section HasLock

variable {lm : LockManager} {t : TxnId} {k : Key} {m : LockMode}

theorem hasLock_eq (lm : LockManager) (t : TxnId) (k : Key) :
    lm.hasLock t k = if t ∈ lm.holders k then lm.mode k else .none := by
  unfold hasLock
  cases h : lm.lockTable[k]? with
  | none => simp [holders, entry_of_none h]
  | some e => simp [holders, LockManager.mode, entry_of_some h]

theorem hasLock_congr {lm' : LockManager} (h : lm'.entry k = lm.entry k) : lm'.hasLock t k = lm.hasLock t k := by
  rw [hasLock_eq, hasLock_eq]
  unfold holders LockManager.mode
  rw [h]

theorem hasLock_iff (hwf : lm.WF) : lm.hasLock t k = m ∧ m ≠ .none ↔ t ∈ lm.holders k ∧ lm.mode k = m := by
  rw [hasLock_eq]
  split
  · rename_i hmem
    refine ⟨fun h => ⟨hmem, h.1⟩, fun h => ⟨h.2, ?_⟩⟩
    rintro rfl
    have hcons := (hwf.entries k).consistent
    rw [show (lm.entry k).currentMode = .none from h.2] at hcons
    rw [holders, hcons] at hmem
    cases hmem
  · rename_i hmem
    exact ⟨fun h => absurd h.1.symm h.2, fun h => absurd h.1 hmem⟩

end HasLock

/-- The step is no `get` of a key that the transaction holds `EXCLUSIVE`. -/
def KeepsModes (s : State) : Action → Prop
  | .command i (.get key) =>
    (s.sessions i).txn.state = .active → s.locks.hasLock (s.sessions i).txn.txnId key ≠ .exclusive
  | _ => True

instance (s : State) : (a : Action) → Decidable (KeepsModes s a)
  | .command i (.get key) => inferInstanceAs (Decidable ((s.sessions i).txn.state = .active →
      s.locks.hasLock (s.sessions i).txn.txnId key ≠ .exclusive))
  | .command _ (.begin _) | .command _ (.put ..) | .command _ (.delete _) | .command _ .commit | .command _ .abort
  | .command _ .checkpoint | .command _ .quit | .connect | .thread _ | .copyStore .. | .threadFault .. | .worker
  | .workerFault _ | .disconnect _ => .isTrue trivial

/-- The locks that the session's transaction has on record are those that the lock manager says it has. -/
def LocksAgree (s : State) (i : SessionId) : Prop :=
  ∀ (k : Key) (m : LockMode), (s.sessions i).txn.locksHeld[k]? = some m ↔
    s.locks.hasLock (s.sessions i).txn.txnId k = m ∧ m ≠ .none

theorem KeepsModes.records {s : State} {a : Action} (h : KeepsModes s a) (hwf : s.locks.WF) :
    s.core.Records Eq a.label := by
  cases a with
  | command i cmd =>
    cases cmd with
    | get key =>
      intro hact hmem
      obtain ⟨hlock, hne⟩ := (hasLock_iff hwf).mpr ⟨hmem, rfl⟩
      cases hm : s.core.locks.mode key with
      | none => exact absurd hm hne
      | shared => rfl
      | exclusive => exact absurd (hlock.trans hm) (h hact)
    | _ => trivial
  | _ => trivial

/-- **Every `get` of a key held `EXCLUSIVE` records it as `SHARED`.** -/
theorem get_of_exclusive {s s' : State} {i : SessionId} {key : Key} {evs : List Event} (hwf : s.locks.WF)
    (hi : (s.sessions i).txn.state = .active) (hx : s.locks.hasLock (s.sessions i).txn.txnId key = .exclusive)
    (hs : step s (.command i (.get key)) = some (s', evs)) :
    s'.sessions i = ⟨(s.sessions i).txn.withLock .get key, .reading key⟩ ∧
      s'.locks.hasLock (s.sessions i).txn.txnId key = .exclusive := by
  obtain ⟨hmem, hmode⟩ := (hasLock_iff hwf).mp ⟨hx, by simp⟩
  have hsole : s.locks.Sole (s.sessions i).txn.txnId key := by
    have hcons := (hwf.entries key).consistent
    rw [show (s.locks.entry key).currentMode = .exclusive from hmode] at hcons
    obtain ⟨u, hu⟩ := hcons
    rw [holders, hu, Finset.mem_singleton] at hmem
    exact ⟨hmem ▸ hu, hmode⟩
  cases (step_move hs).2 with
  | command i' cmd ha _ _ hmove =>
    cases ha
    cases hmove with
    | notInTransaction _ hne => exact absurd hi hne
    | granted op key' locks hop _ hacq =>
      cases op <;> cases hop
      rw [acquireLock_of_sole hsole] at hacq
      cases hacq
      have hentry := entry_insert s.locks key key (s.locks.entry key) s.locks.flags
      rw [if_pos rfl] at hentry
      refine ⟨sessions_setTxn .., ?_⟩
      exact (hasLock_congr hentry).trans hx
    | queued op key' locks flags hop _ hacq =>
      cases op <;> cases hop
      rw [acquireLock_of_sole hsole] at hacq
      cases hacq
    | begin _ hcmd | alreadyInTransaction _ hcmd | commit hcmd | abort hcmd | checkpoint hcmd | quitActive hcmd
    | quit hcmd => cases hcmd
  | connect ha | copyStore _ _ _ _ ha | threadFault _ _ _ ha | disconnect _ ha | thread _ ha => cases ha
  | worker fault ha => cases fault <;> cases ha

/-- The session is in a transaction, does not wait for a lock and has not released its locks to end. -/
structure Settled (s : State) (i : SessionId) : Prop where
  active : (s.sessions i).txn.state = .active
  unblocked : ∀ op k f, (s.sessions i).pc ≠ .waitLock op k f
  current : ∀ lsn cause, (s.sessions i).pc ≠ .commitReset lsn ∧ (s.sessions i).pc ≠ .abortReset cause

theorem Settled.of_idle {s : State} {i : SessionId} (hi : (s.sessions i).txn.state = .active)
    (hpc : (s.sessions i).pc = .idle) : Settled s i := by
  refine ⟨hi, ?_, ?_⟩ <;> simp [hpc]

theorem Settled.phase {s : State} {i : SessionId} (h : Settled s i) : (s.core.parties i).phase ≠ .released ∧
    ∀ op k f, (s.core.parties i).phase ≠ .waiting op k f := by
  have hwait := h.unblocked
  have hend := h.current
  show (s.sessions i).pc.phase _ ≠ _ ∧ ∀ op k f, (s.sessions i).pc.phase _ ≠ _
  cases hpc : (s.sessions i).pc with
  | waitLock op k f => exact absurd hpc (hwait op k f)
  | commitReset lsn => exact absurd hpc (hend lsn .command).1
  | abortReset cause => exact absurd hpc (hend 0 cause).2
  | _ => simp [Pc.phase]

/-- After such a `get` the record and the lock table differ. -/
theorem keepsModes_of_agree {s s' : State} {a : Action} {evs : List Event} (hwf : s.locks.WF)
    (hs : step s a = some (s', evs)) (hd : ∀ i, Settled s' i → LocksAgree s' i) : KeepsModes s a := by
  unfold KeepsModes
  split
  · rename_i i key
    intro hi hx
    obtain ⟨hsession, hlock⟩ := get_of_exclusive hwf hi hx hs
    have hsettled : Settled s' i := by
      constructor <;> rw [hsession]
      · exact hi
      · simp
      · simp
    have hrecord : (s'.sessions i).txn.locksHeld[key]? = some .shared := by
      rw [hsession]
      exact (FinMap.find_insert ..).trans (if_pos rfl)
    obtain ⟨hshared, -⟩ := (hd i hsettled key .shared).mp hrecord
    rw [hsession] at hshared
    cases hlock.symm.trans hshared
  · trivial

theorem Books.mem_iff_hasLock {Q : LockMode → LockMode → Prop} {lm : LockManager} {p : Party} (h : Books Q lm p)
    (hwf : lm.WF) (hp : ∀ op k f, p.phase ≠ .waiting op k f) (k : Key) :
    k ∈ p.txn.locksHeld ↔ lm.hasLock p.txn.txnId k ≠ .none := by
  rw [← h.mem_iff hp]
  refine ⟨fun hmem hnone => ?_, fun hne => ((hasLock_iff hwf).mp ⟨rfl, hne⟩).1⟩
  obtain ⟨heq, hne⟩ := (hasLock_iff hwf).mpr ⟨hmem, rfl⟩
  exact hne (heq.symm.trans hnone)

theorem Books.hasLock_of_held {Q : LockMode → LockMode → Prop} {lm : LockManager} {p : Party} (h : Books Q lm p)
    (hwf : lm.WF) {k : Key} {m : LockMode} (hm : p.txn.locksHeld[k]? = some m) : Q m (lm.hasLock p.txn.txnId k) := by
  obtain ⟨hmem, hq⟩ := h.held hm
  rwa [((hasLock_iff hwf).mpr ⟨hmem, rfl⟩).1]

theorem BookInv.locksAgree {s : State} {i : SessionId} (h : BookInv Eq s.core.locks s.core.parties)
    (hs : Settled s i) : LocksAgree s i := by
  obtain ⟨hrel, hwait⟩ := hs.phase
  have hb := h.books (i := i) hs.active hrel
  have hmem := hb.mem_iff_hasLock h.hold.wf hwait
  intro k m
  constructor
  · intro hk
    obtain rfl := hb.hasLock_of_held h.hold.wf hk
    exact ⟨rfl, (hmem k).mp (ExtTreeMap.isSome_getElem?_iff_mem.mp (Option.isSome_of_mem hk))⟩
  · rintro ⟨rfl, hne⟩
    obtain ⟨m, hm⟩ := Option.isSome_iff_exists.mp (ExtTreeMap.isSome_getElem?_iff_mem.mpr ((hmem k).mpr hne))
    exact hm.trans (congrArg some (hb.hasLock_of_held h.hold.wf hm))

section Runs

variable {P : State → Action → Prop} {st : Store} {s₀ s : State} {as : List Action} {tr : List Event} {i : SessionId}

theorem bookInv_initial {Q : LockMode → LockMode → Prop} (h0 : Server.Initial st s₀) :
    BookInv Q s₀.core.locks s₀.core.parties := by
  refine ⟨(lockInv_initial h0).2.toHoldInv, fun {j} hj _ => ?_⟩
  cases h0 <;> cases hj

theorem bookInv_of_run {Q : LockMode → LockMode → Prop} (hQ : ∀ m, Q m m) (h0 : Server.Initial st s₀)
    (hids : ∀ s a, P s a → NewIds s a) (hget : ∀ s a, P s a → s.locks.WF → s.core.Records Q a.label)
    (h : Run step P s₀ as s tr) : BookInv Q s.core.locks s.core.parties := by
  refine (Run.invariant (fun _ s => s.Unconnected ∧ BookInv Q s.core.locks s.core.parties)
    ⟨(lockInv_initial h0).1, bookInv_initial h0⟩ ?_ h).2
  rintro _ s a s' evs ⟨hu, hinv⟩ hP hs
  exact ⟨step_unconnected hs hu,
    (step_core hs).bookInv hQ ((hids s a hP).newId hu) (hget s a hP hinv.hold.wf) hinv⟩

/-- **The keys on record are those held** in every run that hands out no id in use, and no mode on record is stronger
than the one held. -/
theorem recorded_keys_agree (h0 : Server.Initial st s₀) (h : Run step NewIds s₀ as s tr) (hs : Settled s i) (k : Key) :
    (k ∈ (s.sessions i).txn.locksHeld ↔ s.locks.hasLock (s.sessions i).txn.txnId k ≠ .none) ∧
      ∀ m, (s.sessions i).txn.locksHeld[k]? = some m →
        m = s.locks.hasLock (s.sessions i).txn.txnId k ∨ m = .shared := by
  have hinv : BookInv (fun m m' => m = m' ∨ m = .shared) s.core.locks s.core.parties := by
    refine bookInv_of_run (fun m => Or.inl rfl) h0 (fun _ _ hn => hn) (fun s a _ _ => ?_) h
    unfold Core.Records
    split
    · exact fun _ _ => Or.inr rfl
    · trivial
  obtain ⟨hrel, hwait⟩ := hs.phase
  have hb := hinv.books (i := i) hs.active hrel
  exact ⟨hb.mem_iff_hasLock hinv.hold.wf hwait k, fun m hm => hb.hasLock_of_held hinv.hold.wf hm⟩

/-- **The record and the lock table agree** after every step of a run exactly if it has no `get` of a key that the
transaction holds `EXCLUSIVE`. -/
theorem keepsModes_iff (h0 : Server.Initial st s₀) :
    Run step (fun s a => NewIds s a ∧ KeepsModes s a) s₀ as s tr ↔ Run step (fun s a => NewIds s a ∧
      ∀ s' evs, step s a = some (s', evs) → ∀ i, Settled s' i → LocksAgree s' i) s₀ as s tr := by
  have hstart := lockInv_initial h0
  constructor
  · intro h
    refine (Run.strengthen (fun _ => True) (fun _ s => s.Unconnected ∧ BookInv Eq s.core.locks s.core.parties)
      (fun _ => trivial) ⟨hstart.1, bookInv_initial h0⟩ ?_ ?_ h trivial).1
    · rintro _ s a s' evs ⟨hu, hinv⟩ ⟨hn, hk⟩ hs _
      exact ⟨step_unconnected hs hu,
        (step_core hs).bookInv (fun _ => rfl) (hn.newId hu) (hk.records hinv.hold.wf) hinv⟩
    · rintro _ s a s' evs ⟨hu, hinv⟩ ⟨hn, hk⟩ _ _
      refine ⟨hn, fun s₁ evs₁ hs j hj => ?_⟩
      exact ((step_core hs).bookInv (fun _ => rfl) (hn.newId hu) (hk.records hinv.hold.wf) hinv).locksAgree hj
  · intro h
    refine (Run.strengthen (fun _ => True) (fun _ s => s.Unconnected ∧ HoldInv s.core.locks s.core.parties)
      (fun _ => trivial) ⟨hstart.1, hstart.2.toHoldInv⟩ ?_ ?_ h trivial).1
    · rintro _ s a s' evs ⟨hu, hinv⟩ ⟨hn, -⟩ hs _
      exact ⟨step_unconnected hs hu, (step_core hs).holdInv (hn.newId hu) hinv⟩
    · rintro _ s a s' evs ⟨-, hinv⟩ ⟨hn, hd⟩ hs _
      exact ⟨hn, keepsModes_of_agree hinv.wf hs (hd s' evs hs)⟩

/-- **The record and the lock table agree** in every run that hands out no id in use and has no `get` of a key that the
transaction holds `EXCLUSIVE`. -/
theorem recorded_locks_agree (h0 : Server.Initial st s₀) (h : Run step P s₀ as s tr)
    (hids : (∀ s a, P s a → NewIds s a) ∨ (begunOf tr).length < 2 ^ 32) (hget : ∀ s a, P s a → KeepsModes s a)
    (hs : Settled s i) (k : Key) (m : LockMode) : (s.sessions i).txn.locksHeld[k]? = some m ↔
      s.locks.hasLock (s.sessions i).txn.txnId k = m ∧ m ≠ .none := by
  have hrun : Run step (fun s a => P s a ∧ NewIds s a) s₀ as s tr := by
    rcases hids with hids | hn
    · exact h.mono fun s a hP => ⟨hP, hids s a hP⟩
    · exact newIds_of_length h0 h hn
  have hinv := bookInv_of_run (Q := Eq) (fun _ => rfl) h0 (fun _ _ hP => hP.2)
    (fun s a hP hwf => (hget s a hP.1).records hwf) hrun
  exact hinv.locksAgree hs k m

end Runs

/-- A key that is read and then written, and another one that is only read. -/
theorem recorded_locks_agree_upgrade : ∃ as s tr,
    Run step (fun s a => NewIds s a ∧ KeepsModes s a) (Server.boot {} ∅) as s tr ∧ Settled s 0 ∧
      s.locks.hasLock (s.sessions 0).txn.txnId [97] = .exclusive ∧
      s.locks.hasLock (s.sessions 0).txn.txnId [98] = .shared := by
  have hrun := exists_run_of_exec step (fun s a => NewIds s a ∧ KeepsModes s a) (Server.boot {} ∅)
    [.connect, .command 0 (.begin .repeatableRead), .thread 0, .command 0 (.get [97]), .thread 0,
      .command 0 (.put [97] [49]), .command 0 (.get [98]), .thread 0]
    (fun s _ => decide ((s.sessions 0).txn.state = .active ∧ (s.sessions 0).pc = .idle ∧
      (s.sessions 0).txn.locksHeld[([97] : Key)]? = some .exclusive ∧
      (s.sessions 0).txn.locksHeld[([98] : Key)]? = some .shared)) (by decide +kernel)
  obtain ⟨s, tr, hr, hp⟩ := hrun
  obtain ⟨hact, hpc, ha, hb⟩ := of_decide_eq_true hp
  have hs := Settled.of_idle hact hpc
  have hagree := recorded_locks_agree (.opened {}) hr (Or.inl fun _ _ hP => hP.1) (fun _ _ hP => hP.2) hs
  exact ⟨_, s, tr, hr, hs, ((hagree [97] .exclusive).mp ha).1, ((hagree [98] .shared).mp hb).1⟩

/-- `PUT a 1` and `GET a` at `REPEATABLE_READ`: the record says `SHARED`, the lock table `EXCLUSIVE`. -/
theorem get_downgrades_record : ∃ as s tr, Run step (fun _ _ => True) (Server.boot {} ∅) as s tr ∧ Settled s 0 ∧
    (s.sessions 0).txn.locksHeld[([97] : Key)]? = some .shared ∧
    s.locks.hasLock (s.sessions 0).txn.txnId [97] = .exclusive := by
  have hrun := exists_run_of_exec step (fun _ _ => True) (Server.boot {} ∅)
    [.connect, .command 0 (.begin .repeatableRead), .thread 0, .command 0 (.put [97] [49]), .command 0 (.get [97]),
      .thread 0]
    (fun s _ => decide ((s.sessions 0).txn.state = .active ∧ (s.sessions 0).pc = .idle ∧
      (s.sessions 0).txn.locksHeld[([97] : Key)]? = some .shared ∧
      s.locks.hasLock (s.sessions 0).txn.txnId [97] = .exclusive)) (by decide +kernel)
  obtain ⟨s, tr, hr, hp⟩ := hrun
  obtain ⟨hact, hpc, hrecord, hlock⟩ := of_decide_eq_true hp
  exact ⟨_, s, tr, hr, Settled.of_idle hact hpc, hrecord, hlock⟩

end Kvdb
