import Kvdb.LockRuns

/-!
# What a call of `acquireLock` comes to

A call of `acquireLock` that has to wait gives the mutex up in the middle, and the other transactions change the table
before it goes on. Here each transaction has one call at a time (`OneRequest`); a release counts as a call. Then
`acquireLock` keeps its contract (`acquireLock_contract`): `true` means that the caller holds the key in the mode it
asked for or a stronger one, and `false` that the request has left no trace, and has not been granted at any time.

- `Spares`: what a call leaves alone for the others: the mode of the keys they hold, the keys they do not hold, as long
  as their requests stay in the queues, and the flags that no queued request has.
- `RequestInv`: every queued request is that of a caller inside its wait, and no transaction waits twice.
- `Outstanding`: one request from its call to the end of its wait. While it is queued its caller holds what it held.
-/

namespace Kvdb

open Std LockManager Machine

/-! ## What a call leaves alone -/

/-- What a call of `t` that leads from `lm` to `lm'` leaves alone for the others. -/
structure Spares (t : TxnId) (lm lm' : LockManager) : Prop where
  mode : ∀ {u k}, u ≠ t → u ∈ lm.holders k → lm'.mode k = lm.mode k
  grant : ∀ {u k}, u ≠ t → u ∈ lm'.holders k → u ∈ lm.holders k ∨ ∃ w ∈ lm.queue k, w.txnId = u ∧ w ∉ lm'.queue k
  flags : ∀ {c f}, lm.flags[c]? = some f → (∀ k, ∀ w ∈ lm.queue k, w.flags ≠ c) →
    lm'.flags[c]? = some f ∧ ∀ k, ∀ w ∈ lm'.queue k, w.flags ≠ c

section Spares

variable {t : TxnId} {k : Key} {m : LockMode} {lm lm' : LockManager}

/-- Only the entries and the flags matter. -/
theorem Spares.of_same (he : ∀ a, lm'.entry a = lm.entry a) (hf : lm'.flags = lm.flags) : Spares t lm lm' := by
  refine ⟨fun _ _ => ?_, fun _ h => ?_, fun h hq => ?_⟩
  · rw [LockManager.mode, he]
    rfl
  · rw [holders, he] at h
    exact Or.inl h
  · simp only [hf, queue, he]
    exact ⟨h, hq⟩

theorem Spares.trans {lm'' : LockManager} (h : Spares t lm lm') (ha : Acts t lm lm') (h' : Spares t lm' lm'')
    (ha' : Acts t lm' lm'') : Spares t lm lm'' where
  mode hu hm := (h'.mode hu (ha.keep _ _ hu hm)).trans (h.mode hu hm)
  grant := by
    intro u k hu hm
    rcases h'.grant hu hm with hm | ⟨w, hw, rfl, hn⟩
    · rcases h.grant hu hm with hm | ⟨w, hw, rfl, hn⟩
      · exact Or.inl hm
      · exact Or.inr ⟨w, hw, rfl, fun hq => hn ((ha'.queue k w hq).resolve_right hu)⟩
    · exact Or.inr ⟨w, (ha.queue k w hw).resolve_right hu, rfl, hn⟩
  flags hf hq := h'.flags (h.flags hf hq).1 (h.flags hf hq).2

/-- Changing one entry spares the others if it does so at that entry. -/
theorem EntryActs.spares {e' : LockEntry} (h : EntryActs t k lm e' lm'.flags)
    (he : ∀ a, lm'.entry a = if k = a then e' else lm.entry a)
    (hmode : ∀ u, u ≠ t → u ∈ lm.holders k → e'.currentMode = lm.mode k)
    (hgrant : ∀ u, u ≠ t → u ∈ e'.holders → u ∈ lm.holders k ∨ ∃ w ∈ lm.queue k, w.txnId = u ∧ w ∉ e'.waitQueue) :
    Spares t lm lm' := by
  have hk : lm'.entry k = e' := by rw [he, if_pos rfl]
  have hne : ∀ {a}, k ≠ a → lm'.entry a = lm.entry a := fun ha => by rw [he, if_neg ha]
  refine ⟨fun {u a} hu hm => ?_, fun {u a} hu hm => ?_, fun {c f} hf hq => ⟨?_, fun a w hw => ?_⟩⟩
  · by_cases ha : k = a
    · subst ha
      rw [LockManager.mode, hk]
      exact hmode u hu hm
    · rw [LockManager.mode, hne ha]
      rfl
  · by_cases ha : k = a
    · subst ha
      rw [holders, hk] at hm
      rw [queue.eq_1 lm', hk]
      exact hgrant u hu hm
    · rw [holders, hne ha] at hm
      exact Or.inl hm
  · rcases h.flags c f hf with hf | ⟨w, hw, hc⟩
    · exact hf
    · exact absurd hc (hq k w hw)
  · by_cases ha : k = a
    · subst ha
      rw [LockManager.queue, hk] at hw
      rcases (h.queue w hw).1 with hw | ⟨-, hc⟩
      · exact hq k w hw
      · -- a request that has just queued has fresh flags
        have hlt := (List.getElem?_eq_some_iff.mp hf).1
        omega
    · rw [LockManager.queue, hne ha] at hw
      exact hq a w hw

theorem EntryActs.insert_spares {e' : LockEntry} {fl' : List WaitFlags} (h : EntryActs t k lm e' fl')
    (hmode : ∀ u, u ≠ t → u ∈ lm.holders k → e'.currentMode = lm.mode k)
    (hgrant : ∀ u, u ≠ t → u ∈ e'.holders → u ∈ lm.holders k ∨ ∃ w ∈ lm.queue k, w.txnId = u ∧ w ∉ e'.waitQueue) :
    Spares t lm ⟨lm.lockTable.insert k e', fl'⟩ :=
  have h' : EntryActs t k lm e' (LockManager.mk (lm.lockTable.insert k e') fl').flags := h
  h'.spares (fun a => entry_insert lm k a e' fl') hmode hgrant

theorem tryGrant_spares {e' : LockEntry} (hwf : lm.WF) (hm : m ≠ .none) (h : (lm.entry k).tryGrant t m = some e') :
    Spares t lm ⟨lm.lockTable.insert k e', lm.flags⟩ := by
  refine (tryGrant_acts hwf hm h).insert_spares (fun u hu hmem => ?_) fun u hu hmem => ?_
  · rcases tryGrant_cases hm h with ⟨rfl, -⟩ | ⟨h0, -⟩ | ⟨-, hc, -, rfl⟩
    · rfl
    · rw [holders, h0] at hmem
      exact absurd (Finset.mem_singleton.mp hmem) hu
    · -- a held key takes in another holder in `SHARED` mode only, and stays in it
      have hcons := (hwf.entries k).consistent
      show (lm.entry k).currentMode.grant m = (lm.entry k).currentMode
      cases hcur : (lm.entry k).currentMode with
      | none =>
        rw [hcur] at hcons
        rw [holders, show (lm.entry k).holders = ∅ from hcons] at hmem
        exact absurd hmem (Finset.notMem_empty u)
      | shared =>
        rw [hcur] at hc
        cases m <;> simp_all [isCompatible, LockMode.grant]
      | exclusive =>
        rw [hcur] at hc
        cases m <;> simp_all [isCompatible]
  · rcases tryGrant_cases hm h with ⟨rfl, -⟩ | ⟨-, -, h1, -⟩ | ⟨-, -, -, rfl⟩
    · exact Or.inl hmem
    · rw [h1] at hmem
      exact absurd (Finset.mem_singleton.mp hmem) hu
    · exact Or.inl ((Finset.mem_insert.mp hmem).resolve_left hu)

theorem acquireLock_spares (hwf : lm.WF) (hm : m ≠ .none) : Spares t lm (lm.acquireLock t k m).1 := by
  rcases acquireLock_cases lm t k m with ⟨e', he, hr⟩ | ⟨hr, hn⟩ <;> rw [hr]
  · exact tryGrant_spares hwf hm he
  · exact (enqueue_acts hwf hm hn).insert_spares (fun u _ _ => rfl) fun u _ hu => Or.inl hu

theorem dropWaiter_queue {a : Key} {w : LockWaiter} (h : w ∈ (lm.dropWaiter t k).queue a) :
    w ∈ lm.queue a ∧ (a = k → w.txnId ≠ t) := by
  rw [queue, entry_dropWaiter] at h
  split at h
  · subst_vars
    obtain ⟨hw, ht⟩ := List.mem_filter.mp h
    exact ⟨hw, fun _ => of_decide_eq_true ht⟩
  · exact ⟨h, fun ha => absurd ha.symm ‹_›⟩

theorem dropWaiter_spares : Spares t lm (lm.dropWaiter t k) := by
  refine ⟨fun {u a} _ _ => (dropWaiter_holders lm t k a).2, fun {u a} _ h => ?_, fun {c f} hf hq => ?_⟩
  · exact Or.inl ((dropWaiter_holders lm t k a).1 ▸ h)
  · exact ⟨flags_dropWaiter lm t k ▸ hf, fun a w hw => hq a w (dropWaiter_queue hw).1⟩

theorem finishWait_spares {c : Nat} : Spares t lm (lm.finishWait t k c).1 := by
  rcases finishWait_cases lm t k c with ⟨h, -⟩ | h <;> rw [h]
  · exact Spares.of_same (fun _ => rfl) rfl
  · exact dropWaiter_spares

/-- New holders come in when the last holder goes, and each of them leaves the queue. -/
theorem dropHolder_spares (hwf : lm.WF) : Spares t lm (lm.dropHolder t k) := by
  obtain ⟨hfl, he⟩ := dropHolder_eq lm t k
  have hacts := dropped_acts (t := t) (k := k) hwf
  rw [← hfl] at hacts
  refine hacts.spares he (fun u hu hmem => ?_) fun u hu hmem => ?_ <;> unfold dropped at *
  · have hne : (lm.entry k).holders.erase t ≠ ∅ := Finset.ne_empty_of_mem (Finset.mem_erase.mpr ⟨hu, hmem⟩)
    rw [if_neg hne]
    rfl
  · by_cases hh : (lm.entry k).holders.erase t = ∅
    · rw [if_pos hh] at hmem ⊢
      have hentry := hwf.entries k
      obtain ⟨granted, rest, hsplit, hg, -⟩ := grantWaiters_grants lm.flags (show Consistent .none ∅ from rfl)
        hentry.requests
      obtain ⟨w, hw, rfl⟩ := ((hg.holders u).mp hmem).resolve_left (Finset.notMem_empty u)
      refine Or.inr ⟨w, ?_, rfl, fun hrest => ?_⟩
      · rw [queue, hsplit]
        exact List.mem_append_left _ hw
      · -- the flags in a queue are all different
        have hcells := hentry.cells
        rw [hsplit, List.map_append] at hcells
        rw [hg.queue] at hrest
        exact List.disjoint_of_nodup_append hcells (List.mem_map_of_mem hw) (List.mem_map_of_mem hrest)
    · rw [if_neg hh] at hmem
      exact Or.inl (Finset.mem_of_mem_erase hmem)

theorem spares_lifts (t : TxnId) : Lifts t (Spares t) where
  same _ := Spares.of_same
  trans _ ha h ha' h' := h.trans ha h' ha'
  dropHolder := dropHolder_spares

theorem releaseLock_spares (hwf : lm.WF) : Spares t lm (lm.releaseLock t k) := (spares_lifts t).releaseLock hwf

theorem releaseAllLocks_spares (hwf : lm.WF) : Spares t lm (lm.releaseAllLocks t) :=
  (spares_lifts t).releaseAllLocks hwf

end Spares

/-! ## One call at a time -/

/-- The transaction that makes the call. -/
def LockAction.txnId : LockAction → TxnId
  | .acquire t _ _ | .finish t _ _ | .release t _ | .releaseAll t => t

/-- A transaction that calls is not inside an earlier call. -/
def OneRequest (s : LockState) : LockAction → Prop
  | .acquire t _ _ | .release t _ | .releaseAll t => ∀ p ∈ s.waiting, p.1 ≠ t
  | .finish _ _ _ => True

instance (s : LockState) : (a : LockAction) → Decidable (OneRequest s a)
  | .acquire t _ _ | .release t _ | .releaseAll t => inferInstanceAs (Decidable (∀ p ∈ s.waiting, p.1 ≠ t))
  | .finish _ _ _ => .isTrue trivial

theorem lockStep_acts {s s' : LockState} {a : LockAction} {evs : List LockReply} (h : lockStep s a = some (s', evs))
    (hwf : s.locks.WF) : Acts a.txnId s.locks s'.locks ∧ Spares a.txnId s.locks s'.locks := by
  rcases lockStep_locks h with ⟨t, k, m, rfl, hm, hl⟩ | ⟨t, k, c, rfl, hl⟩ | ⟨t, k, rfl, hl⟩ | ⟨t, rfl, hl⟩ <;> rw [hl]
  · exact ⟨acquireLock_acts hwf hm, acquireLock_spares hwf hm⟩
  · exact ⟨finishWait_acts hwf, finishWait_spares⟩
  · exact ⟨releaseLock_acts hwf, releaseLock_spares hwf⟩
  · exact ⟨releaseAllLocks_acts hwf t, releaseAllLocks_spares hwf⟩

section Steps

variable {s s' : LockState} {t : TxnId} {k : Key} {m : LockMode} {c : Nat} {evs : List LockReply}

theorem lockStep_acquire (h : lockStep s (.acquire t k m) = some (s', evs)) :
    m ≠ .none ∧ s'.locks = (s.locks.acquireLock t k m).1 ∧
      ((s.locks.acquireLock t k m).2 = .granted ∧ s'.waiting = s.waiting ∧ evs = [⟨t, k, true⟩] ∨
        (s.locks.acquireLock t k m).2 = .waiting s.locks.flags.length ∧
          s'.waiting = s.waiting ++ [(t, k, s.locks.flags.length)] ∧ evs = []) := by
  simp only [lockStep] at h
  split at h
  · cases h
  · rename_i hm
    refine ⟨hm, ?_⟩
    rcases acquireLock_cases s.locks t k m with ⟨e', -, hr⟩ | ⟨hr, -⟩ <;> rw [hr] at h ⊢ <;> cases h
    · exact ⟨rfl, Or.inl ⟨rfl, rfl, rfl⟩⟩
    · exact ⟨rfl, Or.inr ⟨rfl, rfl, rfl⟩⟩

theorem lockStep_finish (h : lockStep s (.finish t k c) = some (s', evs)) :
    (t, k, c) ∈ s.waiting ∧ s'.locks = (s.locks.finishWait t k c).1 ∧ s'.waiting = s.waiting.erase (t, k, c) ∧
      evs = [⟨t, k, (s.locks.finishWait t k c).2⟩] := by
  simp only [lockStep] at h
  split at h
  · cases h
    exact ⟨‹_›, rfl, rfl, rfl⟩
  · cases h

end Steps

/-- The queued requests are those of the callers inside their wait, of which each transaction has one at most. -/
structure RequestInv (s : LockState) : Prop where
  wf : s.locks.WF
  one : (s.waiting.map Prod.fst).Nodup
  queued : ∀ k, ∀ w ∈ s.locks.queue k, (w.txnId, k, w.flags) ∈ s.waiting

namespace RequestInv

variable {s s' : LockState} {a : LockAction} {evs : List LockReply} {t : TxnId} {k : Key} {m : LockMode} {c : Nat}

theorem notQueued (h : RequestInv s) (hone : ∀ p ∈ s.waiting, p.1 ≠ t) : s.locks.NotQueued t :=
  fun k w hw => hone _ (h.queued k w hw)

theorem eq_of_mem (h : RequestInv s) {p q : TxnId × Key × Nat} (hp : p ∈ s.waiting) (hq : q ∈ s.waiting)
    (heq : p.1 = q.1) : p = q := List.inj_on_of_nodup_map h.one hp hq heq

/-- A release leaves the callers inside their wait as they are. -/
theorem release (h : RequestInv s) {lm : LockManager} (hacts : Acts t s.locks lm) (hnq : lm.NotQueued t) :
    RequestInv ⟨lm, s.waiting⟩ :=
  ⟨hacts.wf, h.one, fun k w hw => h.queued k w ((hacts.queue k w hw).resolve_right (hnq k w hw))⟩

theorem acquire (h : RequestInv s) (hone : ∀ p ∈ s.waiting, p.1 ≠ t)
    (hs : lockStep s (.acquire t k m) = some (s', evs)) : RequestInv s' := by
  obtain ⟨locks, waiting⟩ := s'
  obtain ⟨hm, rfl, ⟨hacq, rfl, -⟩ | ⟨hacq, rfl, -⟩⟩ := lockStep_acquire hs
  · exact h.release (acquireLock_acts h.wf hm) ((acquireLock_granted h.wf hm hacq).2.2 (h.notQueued hone))
  · have hacts : Acts t s.locks (s.locks.acquireLock t k m).1 := acquireLock_acts h.wf hm
    refine ⟨hacts.wf, ?_, fun a w hw => ?_⟩
    · rw [List.map_append, List.nodup_append]
      refine ⟨h.one, List.nodup_singleton _, fun u hu v hv huv => ?_⟩
      obtain ⟨p, hp, rfl⟩ := List.mem_map.mp hu
      exact hone p hp (huv.trans (List.mem_singleton.mp hv))
    · by_cases ht : w.txnId = t
      · obtain ⟨rfl, rfl⟩ := (acquireLock_waiting hacq).2 (h.notQueued hone) a w hw ht
        exact List.mem_append_right _ (List.mem_singleton_self _)
      · exact List.mem_append_left _ (h.queued a w ((hacts.queue a w hw).resolve_right ht))

theorem finish (h : RequestInv s) (hs : lockStep s (.finish t k c) = some (s', evs)) : RequestInv s' := by
  obtain ⟨locks, waiting⟩ := s'
  obtain ⟨hmem, rfl, rfl, -⟩ := lockStep_finish hs
  refine ⟨(finishWait_acts h.wf).wf, (List.erase_sublist.map _).nodup h.one, fun a w hw => ?_⟩
  rcases finishWait_cases s.locks t k c with ⟨hr, hg⟩ | hr <;> rw [hr] at hw
  · -- a granted request is in no queue
    refine (List.mem_erase_of_ne fun heq => ?_).mpr (h.queued a w hw)
    obtain ⟨-, -, rfl⟩ : w.txnId = t ∧ a = k ∧ w.flags = c := by simpa using heq
    rw [List.getD_eq_getElem?_getD, h.wf.cells a w hw] at hg
    cases hg
  · obtain ⟨hw, ht⟩ := dropWaiter_queue hw
    refine (List.mem_erase_of_ne fun heq => ?_).mpr (h.queued a w hw)
    obtain ⟨htw, hak, -⟩ : w.txnId = t ∧ a = k ∧ w.flags = c := by simpa using heq
    exact ht hak htw

theorem step (h : RequestInv s) (hone : OneRequest s a) (hs : lockStep s a = some (s', evs)) : RequestInv s' := by
  cases a with
  | acquire t k m => exact h.acquire hone hs
  | finish t k c => exact h.finish hs
  | release t k =>
    cases hs
    exact h.release (releaseLock_acts h.wf) (releaseLock_notQueued h.wf (h.notQueued hone))
  | releaseAll t =>
    cases hs
    exact h.release (releaseAllLocks_acts h.wf t) (releaseAllLocks_free h.wf (h.notQueued hone)).1

end RequestInv

/-- Calls, one at a time by each transaction, lead from `s` to `s'`. -/
def LockState.Reaches (s s' : LockState) : Prop := ∃ as tr, Run lockStep OneRequest s as s' tr

/-- **The invariant rule** for such calls. -/
theorem LockState.Reaches.invariant (I : LockState → Prop)
    (hstep : ∀ {s a s' evs}, I s → OneRequest s a → lockStep s a = some (s', evs) → I s') {s s' : LockState}
    (h : s.Reaches s') (h0 : I s) : I s' := by
  obtain ⟨as, tr, hrun⟩ := h
  exact Run.invariant (fun _ s => I s) h0 hstep hrun

theorem requestInv_of_reaches {s s' : LockState} (h : s.Reaches s') (h0 : RequestInv s) : RequestInv s' :=
  h.invariant RequestInv RequestInv.step h0

theorem requestInv_empty : RequestInv {} :=
  ⟨wf_empty, List.nodup_nil, fun k w hw => by simp [queue, entry] at hw⟩

/-- Flags that no queued request has do not change any more. -/
theorem flags_of_reaches {s s' : LockState} {c : Nat} {f : WaitFlags} (h : s.Reaches s') (hwf : s.locks.WF)
    (hf : s.locks.flags[c]? = some f) (hq : ∀ k, ∀ w ∈ s.locks.queue k, w.flags ≠ c) : s'.locks.flags[c]? = some f := by
  have hinv := h.invariant
    (fun s => s.locks.WF ∧ s.locks.flags[c]? = some f ∧ ∀ k, ∀ w ∈ s.locks.queue k, w.flags ≠ c)
    (fun hi _ hs => ⟨(lockStep_acts hs hi.1).1.wf, (lockStep_acts hs hi.1).2.flags hi.2.1 hi.2.2⟩) ⟨hwf, hf, hq⟩
  exact hinv.2.1

/-! ## A request from its call to the end of its wait -/

def LockMode.strength : LockMode → Nat
  | .none => 0
  | .shared => 1
  | .exclusive => 2

namespace LockManager

/-- `t` holds the key in the mode or a stronger one. -/
def HoldsAtLeast (lm : LockManager) (t : TxnId) (k : Key) (m : LockMode) : Prop :=
  t ∈ lm.holders k ∧ m.strength ≤ (lm.mode k).strength

/-- `t` holds the key in `lm` as it does in `lm₁`. -/
def SameHolding (lm₁ lm : LockManager) (t : TxnId) (k : Key) : Prop :=
  (t ∈ lm.holders k ↔ t ∈ lm₁.holders k) ∧ (t ∈ lm₁.holders k → lm.mode k = lm₁.mode k)

/-- `processWaiters` has set the flag at the address. -/
def Granted (lm : LockManager) (flags : Nat) : Prop := (lm.flags.getD flags {}).granted = true

theorem HoldsAtLeast.of_sole {lm : LockManager} {t : TxnId} {k : Key} {m : LockMode} (hwf : lm.WF)
    (hmem : t ∈ lm.holders k) (hsole : m = .exclusive → lm.Sole t k) : lm.HoldsAtLeast t k m := by
  refine ⟨hmem, ?_⟩
  have hcons := (hwf.entries k).consistent
  cases m with
  | none => exact Nat.zero_le _
  | exclusive => rw [(hsole rfl).2]
  | shared =>
    rw [LockManager.mode]
    cases hmode : (lm.entry k).currentMode with
    | none =>
      rw [hmode] at hcons
      rw [holders, show (lm.entry k).holders = ∅ from hcons] at hmem
      exact absurd hmem (Finset.notMem_empty t)
    | shared | exclusive => decide

theorem granted_iff {lm : LockManager} {c : Nat} {f : WaitFlags} (h : lm.flags[c]? = some f) :
    lm.Granted c ↔ f.granted = true := by
  rw [Granted, List.getD_eq_getElem?_getD, h, Option.getD_some]

end LockManager

/-- The request with the flags `c`, which `t` has made when the table was `lm₁`, waits. -/
structure Outstanding (lm₁ : LockManager) (t : TxnId) (k : Key) (m : LockMode) (c : Nat) (s : LockState) : Prop where
  inv : RequestInv s
  mem : (t, k, c) ∈ s.waiting
  waits : s.locks.Waits t k m c
  same : s.locks.flags[c]? = some {} → SameHolding lm₁ s.locks t k

/-- The request with the flags `c` has returned. -/
structure Returned (t : TxnId) (k : Key) (c : Nat) (f : WaitFlags) (s : LockState) : Prop where
  wf : s.locks.WF
  flags : s.locks.flags[c]? = some f
  notQueued : ∀ a, ∀ w ∈ s.locks.queue a, w.flags ≠ c
  notMem : (t, k, c) ∉ s.waiting

section Request

variable {lm₁ : LockManager} {t : TxnId} {k : Key} {m : LockMode} {c : Nat} {f : WaitFlags} {s s' : LockState}
  {a : LockAction} {evs : List LockReply}

/-- No queued request has flags that are set. -/
theorem notQueued_of_granted (hwf : s.locks.WF) (h : s.locks.Granted c) : ∀ a, ∀ w ∈ s.locks.queue a, w.flags ≠ c := by
  rintro a w hw rfl
  rw [granted_iff (hwf.cells a w hw)] at h
  cases h

namespace Outstanding

/-- Another step is the call of another transaction. -/
theorem txnId_ne (h : Outstanding lm₁ t k m c s) (hone : OneRequest s a) (hs : lockStep s a = some (s', evs))
    (ha : a ≠ .finish t k c) : t ≠ a.txnId := by
  cases a with
  | acquire u b m' => exact hone _ h.mem
  | release u b => exact hone _ h.mem
  | releaseAll u => exact hone _ h.mem
  | finish u b d =>
    rintro rfl
    have heq := h.inv.eq_of_mem h.mem (lockStep_finish hs).1 rfl
    cases heq
    exact ha rfl

theorem mem_step (h : Outstanding lm₁ t k m c s) (hs : lockStep s a = some (s', evs)) (ha : a ≠ .finish t k c) :
    (t, k, c) ∈ s'.waiting := by
  cases a with
  | acquire u b m' =>
    obtain ⟨-, -, ⟨-, hw, -⟩ | ⟨-, hw, -⟩⟩ := lockStep_acquire hs <;> rw [hw]
    · exact h.mem
    · exact List.mem_append_left _ h.mem
  | finish u b d =>
    obtain ⟨-, -, hw, -⟩ := lockStep_finish hs
    rw [hw]
    refine (List.mem_erase_of_ne fun heq => ?_).mpr h.mem
    cases heq
    exact ha rfl
  | release u b | releaseAll u =>
    cases hs
    exact h.mem

/-- While the request is queued, the others neither take from its caller nor give to it. -/
theorem step (h : Outstanding lm₁ t k m c s) (hone : OneRequest s a) (hs : lockStep s a = some (s', evs))
    (ha : a ≠ .finish t k c) : Outstanding lm₁ t k m c s' := by
  have hne := h.txnId_ne hone hs ha
  have hinv := h.inv.step hone hs
  obtain ⟨hacts, hspares⟩ := lockStep_acts hs h.inv.wf
  have hwaits := hacts.waits t k m c hne h.waits
  refine ⟨hinv, h.mem_step hs ha, hwaits, fun hf' => ?_⟩
  rcases h.waits with ⟨hq, hf⟩ | ⟨hf, -, -⟩
  · have hq' : ⟨t, m, c⟩ ∈ s'.locks.queue k := by
      rcases hwaits with ⟨hq', -⟩ | ⟨hg, -, -⟩
      · exact hq'
      · rw [hg] at hf'
        cases hf'
    obtain ⟨hhold, hmode⟩ := h.same hf
    -- a grant would have taken the request out of the queue
    have hgrant : t ∈ s'.locks.holders k → t ∈ s.locks.holders k := by
      intro hmem
      rcases hspares.grant hne hmem with hmem | ⟨w, hw, hwt, hnot⟩
      · exact hmem
      · have heq : (w.txnId, k, w.flags) = (t, k, c) := h.inv.eq_of_mem (h.inv.queued k w hw) h.mem hwt
        have hflags : w.flags = c := (Prod.mk.inj (Prod.mk.inj heq).2).2
        have hw' : w = ⟨t, m, c⟩ := List.inj_on_of_nodup_map (h.inv.wf.entries k).cells hw hq hflags
        exact absurd (hw' ▸ hq') hnot
    refine ⟨⟨fun hmem => hhold.mp (hgrant hmem), fun hmem => ?_⟩, fun hmem => ?_⟩
    · exact hacts.keep t k hne (hhold.mpr hmem)
    · exact (hspares.mode hne (hhold.mpr hmem)).trans (hmode hmem)
  · have hg : s.locks.Granted c := (granted_iff hf).mpr rfl
    have hfl := (hspares.flags hf (notQueued_of_granted h.inv.wf hg)).1
    rw [hfl] at hf'
    cases hf'

/-- The request waits as soon as it is made. -/
theorem of_acquire (h : RequestInv s) (hone : OneRequest s (.acquire t k m))
    (hs : lockStep s (.acquire t k m) = some (s', evs)) (hacq : (s.locks.acquireLock t k m).2 = .waiting c)
    (hw : s'.waiting = s.waiting ++ [(t, k, c)]) : Outstanding s.locks t k m c s' := by
  have hlocks := (lockStep_acquire hs).2.1
  refine ⟨h.step hone hs, hw ▸ List.mem_append_right _ (List.mem_singleton_self _), ?_, fun _ => ?_⟩
  · rw [hlocks]
    exact (acquireLock_waiting hacq).1
  · rcases acquireLock_cases s.locks t k m with ⟨e', -, hr⟩ | ⟨hr, -⟩
    · rw [hr] at hacq
      cases hacq
    · -- queueing changes neither the holders nor the mode
      rw [hlocks, hr, SameHolding, holders, LockManager.mode, entry_insert, if_pos rfl]
      exact ⟨Iff.rfl, fun _ => rfl⟩

/-- The end of the wait: the request has been granted, or it leaves no trace. -/
theorem finish (h : Outstanding lm₁ t k m c s) (hs : lockStep s (.finish t k c) = some (s', evs)) :
    (evs = [⟨t, k, true⟩] ∧ s'.locks.HoldsAtLeast t k m ∧ Returned t k c { granted := true } s') ∨
      (evs = [⟨t, k, false⟩] ∧ (∀ w ∈ s'.locks.queue k, w.txnId ≠ t) ∧ SameHolding lm₁ s'.locks t k ∧
        s.locks.flags[c]? = some {} ∧ Returned t k c {} s') := by
  have hinv := h.inv.finish hs
  obtain ⟨-, hlocks, hwaiting, hevs⟩ := lockStep_finish hs
  have hnot : (t, k, c) ∉ s'.waiting := by
    rw [hwaiting]
    exact (List.Nodup.of_map _ h.inv.one).not_mem_erase
  rcases h.waits with ⟨hq, hf⟩ | ⟨hf, hmem, hsole⟩
  · have hr : s.locks.finishWait t k c = (s.locks.dropWaiter t k, false) := by
      rcases finishWait_cases s.locks t k c with ⟨-, hg⟩ | hr
      · rw [← Granted, granted_iff hf] at hg
        cases hg
      · exact hr
    rw [hr] at hlocks hevs
    refine Or.inr ⟨hevs, fun w hw => ?_, ?_, hf, hinv.wf, ?_, fun a w hw hc => ?_, hnot⟩
    · rw [hlocks] at hw
      exact (dropWaiter_queue hw).2 rfl
    · obtain ⟨hholders, hmode⟩ := dropWaiter_holders s.locks t k k
      rw [SameHolding, hlocks, hholders, hmode]
      exact h.same hf
    · rw [hlocks, flags_dropWaiter]
      exact hf
    · rw [hlocks] at hw
      obtain ⟨hold, ht⟩ := dropWaiter_queue hw
      obtain rfl := h.inv.wf.distinct a k w _ hold hq hc
      have hw' : w = ⟨t, m, c⟩ := List.inj_on_of_nodup_map (h.inv.wf.entries a).cells hold hq hc
      exact ht rfl (hw' ▸ rfl)
  · have hg : s.locks.Granted c := (granted_iff hf).mpr rfl
    have hr : s.locks.finishWait t k c = (s.locks, true) := by
      simp [finishWait, List.getD_eq_getElem?_getD, hf]
    rw [hr] at hlocks hevs
    refine Or.inl ⟨hevs, ?_, hinv.wf, hlocks ▸ hf, hlocks ▸ notQueued_of_granted h.inv.wf hg, hnot⟩
    rw [hlocks]
    exact HoldsAtLeast.of_sole h.inv.wf hmem hsole

end Outstanding

/-- A request that has returned does not come back: its flags are used by nobody any more. -/
theorem Returned.step (h : Returned t k c f s) (hs : lockStep s a = some (s', evs)) : Returned t k c f s' := by
  obtain ⟨hacts, hspares⟩ := lockStep_acts hs h.wf
  obtain ⟨hflags, hnq⟩ := hspares.flags h.flags h.notQueued
  refine ⟨hacts.wf, hflags, hnq, ?_⟩
  cases a with
  | acquire u b m' =>
    obtain ⟨-, -, ⟨-, hw, -⟩ | ⟨-, hw, -⟩⟩ := lockStep_acquire hs <;> rw [hw]
    · exact h.notMem
    · intro hmem
      rcases List.mem_append.mp hmem with hmem | hmem
      · exact h.notMem hmem
      · have hc : c = s.locks.flags.length := by simpa using congrArg (·.2.2) (List.mem_singleton.mp hmem)
        have hlt := (List.getElem?_eq_some_iff.mp h.flags).1
        omega
  | finish u b d =>
    rw [(lockStep_finish hs).2.2.1]
    exact fun hmem => h.notMem (List.mem_of_mem_erase hmem)
  | release u b | releaseAll u =>
    cases hs
    exact h.notMem

/-- After its call a request waits until it returns. -/
theorem outstanding_of_reaches (h : s.Reaches s') (h0 : Outstanding lm₁ t k m c s) :
    Outstanding lm₁ t k m c s' ∨ ∃ f, Returned t k c f s' := by
  refine h.invariant (fun s => Outstanding lm₁ t k m c s ∨ ∃ f, Returned t k c f s) ?_ (Or.inl h0)
  intro s a s' evs hi hone hs
  rcases hi with hi | ⟨f, hi⟩
  · by_cases ha : a = .finish t k c
    · subst ha
      rcases hi.finish hs with ⟨-, -, hr⟩ | ⟨-, -, -, -, hr⟩
      · exact Or.inr ⟨_, hr⟩
      · exact Or.inr ⟨_, hr⟩
    · exact Or.inl (hi.step hone hs ha)
  · exact Or.inr ⟨f, hi.step hs⟩

end Request

/-- **The contract of `acquireLock`.** A call that returns `true`, at once or after its wait, leaves its caller a holder
in the mode it asked for or a stronger one. A call that returns `false` leaves no request of its caller at the key, its
caller holds the key as it did when it called, and its flag is set in no state from the call on. -/
theorem acquireLock_contract {s₁ s₂ : LockState} {t : TxnId} {k : Key} {m : LockMode} {evs : List LockReply}
    (h₁ : LockState.Reaches {} s₁) (hone : OneRequest s₁ (.acquire t k m))
    (hcall : lockStep s₁ (.acquire t k m) = some (s₂, evs)) :
    (evs = [⟨t, k, true⟩] ∧ s₂.locks.HoldsAtLeast t k m) ∨
      (evs = [] ∧ ∀ s s' evs', s₂.Reaches s → lockStep s (.finish t k s₁.locks.flags.length) = some (s', evs') →
        (evs' = [⟨t, k, true⟩] ∧ s'.locks.HoldsAtLeast t k m) ∨
        (evs' = [⟨t, k, false⟩] ∧ (∀ w ∈ s'.locks.queue k, w.txnId ≠ t) ∧ SameHolding s₁.locks s'.locks t k ∧
          ∀ s₃, (s₂.Reaches s₃ ∧ s₃.Reaches s) ∨ s'.Reaches s₃ → ¬ s₃.locks.Granted s₁.locks.flags.length)) := by
  have hinv := requestInv_of_reaches h₁ requestInv_empty
  obtain ⟨hm, hlocks, ⟨hacq, -, rfl⟩ | ⟨hacq, hw, rfl⟩⟩ := lockStep_acquire hcall
  · obtain ⟨hmem, hsole, -⟩ := acquireLock_granted hinv.wf hm hacq
    refine Or.inl ⟨rfl, ?_⟩
    rw [hlocks]
    exact HoldsAtLeast.of_sole (acquireLock_acts hinv.wf hm).wf hmem hsole
  · have hout := Outstanding.of_acquire hinv hone hcall hacq hw
    refine Or.inr ⟨rfl, fun s s' evs' hrun hend => ?_⟩
    rcases outstanding_of_reaches hrun hout with hs | ⟨f, hret⟩
    · rcases hs.finish hend with ⟨hevs, hhold, -⟩ | ⟨hevs, hnq, hsame, hfl, hret⟩
      · exact Or.inl ⟨hevs, hhold⟩
      · refine Or.inr ⟨hevs, hnq, hsame, fun s₃ hs₃ hg => ?_⟩
        rcases hs₃ with ⟨h₂, h₃⟩ | h₃
        · -- a flag that is set stays set until the end of the wait
          have hwf := (requestInv_of_reaches h₂ hout.inv).wf
          obtain ⟨f, hf, hfg⟩ : ∃ f, s₃.locks.flags[s₁.locks.flags.length]? = some f ∧ f.granted = true := by
            rw [Granted, List.getD_eq_getElem?_getD] at hg
            cases hf : s₃.locks.flags[s₁.locks.flags.length]? with
            | none => simp [hf] at hg
            | some f => exact ⟨f, rfl, by simpa [hf] using hg⟩
          have hf' := flags_of_reaches h₃ hwf hf (notQueued_of_granted hwf hg)
          rw [hfl] at hf'
          cases hf'
          cases hfg
        · have hf := flags_of_reaches h₃ hret.wf hret.flags hret.notQueued
          rw [granted_iff hf] at hg
          cases hg
    · exact absurd (lockStep_finish hend).1 hret.notMem

/-- Of two readers one asks for `EXCLUSIVE`, and its wait ends before the other has gone: it is a reader as before. -/
theorem acquireLock_contract_upgrade : ∃ s₁ s₂ s', LockState.Reaches {} s₁ ∧
    lockStep s₁ (.acquire 1 [97] .exclusive) = some (s₂, []) ∧
    lockStep s₂ (.finish 1 [97] s₁.locks.flags.length) = some (s', [⟨1, [97], false⟩]) ∧
    1 ∈ s₁.locks.holders [97] ∧ SameHolding s₁.locks s'.locks 1 [97] := by
  have hrun := exists_run_of_exec lockStep OneRequest {} [.acquire 1 [97] .shared, .acquire 2 [97] .shared]
    (fun s₁ _ => decide (OneRequest s₁ (.acquire 1 [97] .exclusive)) && decide (1 ∈ s₁.locks.holders [97]) &&
      (lockStep s₁ (.acquire 1 [97] .exclusive)).any fun r => decide (r.2 = []) &&
        (lockStep r.1 (.finish 1 [97] s₁.locks.flags.length)).any fun r' => decide (r'.2 = [⟨1, [97], false⟩]))
    (by decide +kernel)
  obtain ⟨s₁, tr, hr, hp⟩ := hrun
  simp only [Bool.and_eq_true, decide_eq_true_eq, Option.any_eq_true, Prod.exists] at hp
  obtain ⟨⟨hone, hmem⟩, s₂, _, hcall, rfl, s', _, hend, rfl⟩ := hp
  have hreach : LockState.Reaches {} s₁ := ⟨_, tr, hr⟩
  rcases acquireLock_contract hreach hone hcall with ⟨hevs, -⟩ | ⟨-, hwait⟩
  · cases hevs
  · rcases hwait s₂ s' _ ⟨[], [], .nil⟩ hend with ⟨hevs, -⟩ | ⟨-, -, hsame, -⟩
    · cases hevs
    · exact ⟨s₁, s₂, s', hreach, hcall, hend, hmem, hsame⟩

end Kvdb
