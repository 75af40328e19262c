import Kvdb.Locking

/-!
# Runs of the lock manager

The lock manager alone, under any calls: `LockState` is the table with the callers that are inside their wait, and
`lockStep` lets any transaction request, release and release everything at any time, and lets any wait end, by a
notification or by the timeout.

- `Occupied`: every entry has a holder. With `WF` it is kept by every call, so in every run the table has the shape
  its readers rely on (`lock_table_well_formed`).
- `LockEntry.Fair`: the request at the front of a queue is blocked by another transaction. Two kinds of calls may
  leave a request at the front that could be granted: a release that leaves only the front's own transaction, and a
  timeout at the front. In runs without them every queue is fair (`front_blocked`).
- The lock manager of the server only takes such steps (`server_locks_reachable`).
-/

namespace Kvdb

open Std LockManager

/-! ## The machine -/

/-- The calls of the lock manager; a wait ends on its own. -/
inductive LockAction
  | acquire (txnId : TxnId) (key : Key) (mode : LockMode)
  /-- The wait of a request ends, by a notification or by the timeout. -/
  | finish (txnId : TxnId) (key : Key) (flags : Nat)
  | release (txnId : TxnId) (key : Key)
  | releaseAll (txnId : TxnId)
  deriving DecidableEq, Repr

/-- The lock manager and the callers of `acquireLock` that wait, with the addresses of their flags. -/
structure LockState where
  locks : LockManager := {}
  waiting : List (TxnId × Key × Nat) := []

/-- A call of `acquireLock` that has returned. -/
structure LockReply where
  txnId : TxnId
  key : Key
  result : Bool
  deriving DecidableEq, Repr

/-- One call, or the end of one wait. `NONE` is never requested. -/
def lockStep (s : LockState) : LockAction → Option (LockState × List LockReply)
  | .acquire t k m =>
    if m = .none then none
    else match s.locks.acquireLock t k m with
      | (locks, .granted) => some ({ s with locks := locks }, [⟨t, k, true⟩])
      | (locks, .waiting flags) => some (⟨locks, s.waiting ++ [(t, k, flags)]⟩, [])
  | .finish t k flags =>
    if (t, k, flags) ∈ s.waiting then
      let r := s.locks.finishWait t k flags
      some (⟨r.1, s.waiting.erase (t, k, flags)⟩, [⟨t, k, r.2⟩])
    else none
  | .release t k => some ({ s with locks := s.locks.releaseLock t k }, [])
  | .releaseAll t => some ({ s with locks := s.locks.releaseAllLocks t }, [])

/-- What a step does to the table. -/
theorem lockStep_locks {s s' : LockState} {a : LockAction} {evs : List LockReply} (h : lockStep s a = some (s', evs)) :
    (∃ t k m, a = .acquire t k m ∧ m ≠ .none ∧ s'.locks = (s.locks.acquireLock t k m).1) ∨
    (∃ t k c, a = .finish t k c ∧ s'.locks = (s.locks.finishWait t k c).1) ∨
    (∃ t k, a = .release t k ∧ s'.locks = s.locks.releaseLock t k) ∨
    (∃ t, a = .releaseAll t ∧ s'.locks = s.locks.releaseAllLocks t) := by
  cases a with
  | acquire t k m =>
    simp only [lockStep] at h
    split at h
    · cases h
    · rename_i hm
      refine Or.inl ⟨t, k, m, rfl, hm, ?_⟩
      split at h <;> rename_i hr <;> cases h <;> rw [hr]
  | finish t k c =>
    simp only [lockStep] at h
    split at h
    · cases h
      exact Or.inr (Or.inl ⟨t, k, c, rfl, rfl⟩)
    · cases h
  | release t k =>
    cases h
    exact Or.inr (Or.inr (Or.inl ⟨t, k, rfl, rfl⟩))
  | releaseAll t =>
    cases h
    exact Or.inr (Or.inr (Or.inr ⟨t, rfl, rfl⟩))

/-! ## No entry without a holder -/

namespace LockManager

section Occupied

variable {lm : LockManager} {t : TxnId} {k : Key} {m : LockMode}

theorem occupied_insert {e : LockEntry} {fl : List WaitFlags} (h : lm.Occupied) (he : e.holders ≠ ∅) :
    Occupied ⟨lm.lockTable.insert k e, fl⟩ := by
  intro a e' ha
  rw [FinMap.find_insert] at ha
  split at ha
  · cases ha
    exact he
  · exact h a e' ha

theorem acquireLock_occupied (hwf : lm.WF) (h : lm.Occupied) (hm : m ≠ .none) :
    (lm.acquireLock t k m).1.Occupied := by
  rcases acquireLock_cases lm t k m with ⟨e', he, hr⟩ | ⟨hr, hn⟩ <;> rw [hr]
  · refine occupied_insert h (Finset.nonempty_iff_ne_empty.mp ⟨t, ?_⟩)
    exact (tryGrant_holds (hwf.entries k) hm he).1
  · exact occupied_insert h (holders_ne_of_tryGrant hwf hn)

theorem dropWaiter_occupied (h : lm.Occupied) : (lm.dropWaiter t k).Occupied := by
  unfold dropWaiter
  cases he : lm.lockTable[k]? with
  | none => exact h
  | some e => exact occupied_insert h (h k e he)

theorem finishWait_occupied {c : Nat} (h : lm.Occupied) : (lm.finishWait t k c).1.Occupied := by
  rcases finishWait_cases lm t k c with ⟨hr, _⟩ | hr <;> rw [hr]
  · exact h
  · exact dropWaiter_occupied h

theorem releaseLock_occupied (hwf : lm.WF) (h : lm.Occupied) : (lm.releaseLock t k).Occupied := by
  have hwf' := (dropHolder_acts (t := t) (k := k) hwf).wf
  have hothers : ∀ (a : Key) (e : LockEntry), k ≠ a → (lm.dropHolder t k).lockTable[a]? = some e → e.holders ≠ ∅ := by
    intro a e ha he
    rw [dropHolder_lockTable_of_ne ha] at he
    exact h a e he
  unfold releaseLock
  dsimp only
  split
  · intro a e he
    rw [FinMap.find_erase] at he
    split at he
    · cases he
    · exact hothers a e ‹_› he
  · rename_i hused
    intro a e he
    by_cases ha : k = a
    · subst ha
      exact fun hh => hused (isUnused_of_holders hwf' he hh)
    · exact hothers a e ha he

theorem releaseAllLocks_occupied (hwf : lm.WF) (h : lm.Occupied) : (lm.releaseAllLocks t).Occupied := by
  intro a e he
  obtain ⟨he', hnot⟩ := find_erase_all _ he
  exact ((releasing_keysHeldBy hwf t).occupied h he').resolve_right hnot

end Occupied

/-- Two transactions hold a key only together, in `SHARED` mode. -/
theorem hasLock_compatible {lm : LockManager} (hwf : lm.WF) {t u : TxnId} (htu : t ≠ u) (k : Key) :
    isCompatible (lm.hasLock t k) (lm.hasLock u k) = true := by
  have hc := (hwf.entries k).consistent
  unfold hasLock
  cases he : lm.lockTable[k]? with
  | none => rfl
  | some e =>
    rw [entry_of_some he] at hc
    by_cases ht : t ∈ e.holders
    · by_cases hu : u ∈ e.holders
      · simp only [ht, hu, if_true]
        cases hm : e.currentMode with
        | none => rfl
        | shared => rfl
        | exclusive =>
          rw [hm] at hc
          obtain ⟨v, hv⟩ := hc
          rw [hv, Finset.mem_singleton] at ht hu
          exact absurd (ht.trans hu.symm) htu
      · simp [hu, isCompatible]
    · simp [ht, isCompatible]

end LockManager

open Machine

/-- Every call keeps the table well formed and without empty entries. -/
theorem lockStep_wf {s s' : LockState} {a : LockAction} {evs : List LockReply} (h : lockStep s a = some (s', evs))
    (hwf : s.locks.WF) (hocc : s.locks.Occupied) : s'.locks.WF ∧ s'.locks.Occupied := by
  rcases lockStep_locks h with ⟨t, k, m, -, hm, hl⟩ | ⟨t, k, c, -, hl⟩ | ⟨t, k, -, hl⟩ | ⟨t, -, hl⟩ <;> rw [hl]
  · exact ⟨(acquireLock_acts hwf hm).wf, acquireLock_occupied hwf hocc hm⟩
  · exact ⟨(finishWait_acts hwf).wf, finishWait_occupied hocc⟩
  · exact ⟨(releaseLock_acts hwf).wf, releaseLock_occupied hwf hocc⟩
  · exact ⟨(releaseAllLocks_acts hwf t).wf, releaseAllLocks_occupied hwf hocc⟩

theorem lockWF_of_run {P : LockState → LockAction → Prop} {as : List LockAction} {s : LockState} {tr : List LockReply}
    (h : Run lockStep P {} as s tr) : s.locks.WF ∧ s.locks.Occupied :=
  Run.invariant (fun _ s => s.locks.WF ∧ s.locks.Occupied) ⟨wf_empty, fun k e he => by simp at he⟩
    (fun hi _ hs => lockStep_wf hs hi.1 hi.2) h

/-- **The lock table keeps its shape** under any calls: every entry has a holder and a mode, an `EXCLUSIVE` one has
exactly one holder, no queued request is marked as granted, and no two transactions hold conflicting locks. -/
theorem lock_table_well_formed {as : List LockAction} {s : LockState} {tr : List LockReply}
    (h : Run lockStep (fun _ _ => True) {} as s tr) :
    (∀ (k : Key) (e : LockEntry), s.locks.lockTable[k]? = some e → e.holders ≠ ∅ ∧
      (e.currentMode = .shared ∨ e.currentMode = .exclusive) ∧
      (e.currentMode = .exclusive → e.holders.card = 1) ∧
      ∀ w ∈ e.waitQueue, ∃ f, s.locks.flags[w.flags]? = some f ∧ f.granted = false) ∧
    ∀ t u k, t ≠ u → isCompatible (s.locks.hasLock t k) (s.locks.hasLock u k) = true := by
  obtain ⟨hwf, hocc⟩ := lockWF_of_run h
  refine ⟨fun k e he => ?_, fun t u k htu => hasLock_compatible hwf htu k⟩
  have hh := hocc k e he
  have hc := (hwf.entries k).consistent
  have hcells := hwf.cells k
  rw [queue, entry_of_some he] at hcells
  rw [entry_of_some he] at hc
  refine ⟨hh, ?_, fun hx => ?_, fun w hw => ⟨{}, hcells w hw, rfl⟩⟩
  · cases hm : e.currentMode with
    | none =>
      rw [hm] at hc
      exact absurd hc hh
    | shared => exact Or.inl rfl
    | exclusive => exact Or.inr rfl
  · rw [hx] at hc
    obtain ⟨t, ht⟩ := hc
    rw [ht, Finset.card_singleton]

/-- Two readers, an upgrade that times out, a writer in the queue. -/
theorem lock_table_well_formed_queue : ∃ s tr e, Run lockStep (fun _ _ => True) {}
    [.acquire 1 [97] .shared, .acquire 2 [97] .shared, .acquire 1 [97] .exclusive, .acquire 3 [97] .exclusive,
      .finish 1 [97] 0, .releaseAll 1] s tr ∧
    s.locks.lockTable[([97] : Key)]? = some e ∧ e.waitQueue = [⟨3, .exclusive, 1⟩] ∧ e.holders ≠ ∅ := by
  have hrun := exists_run_of_exec lockStep (fun _ _ => True) {}
    [.acquire 1 [97] .shared, .acquire 2 [97] .shared, .acquire 1 [97] .exclusive, .acquire 3 [97] .exclusive,
      .finish 1 [97] 0, .releaseAll 1]
    (fun s _ => decide ((s.locks.lockTable[([97] : Key)]?.map (·.waitQueue)) = some [⟨3, .exclusive, 1⟩]))
    (by decide +kernel)
  obtain ⟨s, tr, hr, hp⟩ := hrun
  obtain ⟨e, he, hq⟩ := Option.map_eq_some_iff.mp (of_decide_eq_true hp)
  exact ⟨s, tr, e, hr, he, hq, ((lock_table_well_formed hr).1 [97] e he).1⟩

/-! ## The front of a queue -/

/-- Another transaction holds a lock that conflicts with the request. -/
def LockEntry.Blocks (e : LockEntry) (w : LockWaiter) : Prop :=
  ∃ u ∈ e.holders, u ≠ w.txnId ∧ isCompatible e.currentMode w.requestedMode = false

instance (e : LockEntry) (w : LockWaiter) : Decidable (e.Blocks w) :=
  inferInstanceAs (Decidable (∃ u ∈ e.holders, _))

/-- The front request is blocked, and no transaction has two requests in the queue. -/
structure LockEntry.Fair (e : LockEntry) : Prop where
  front : ∀ {w q}, e.waitQueue = w :: q → e.Blocks w
  single : (e.waitQueue.map (·.txnId)).Nodup

section Fair

variable {e e' : LockEntry} {t : TxnId} {m : LockMode}

theorem fair_of_queue_nil (h : e.waitQueue = []) : e.Fair where
  front hq := by
    rw [h] at hq
    cases hq
  single := by
    rw [h]
    exact List.nodup_nil

theorem tryGrant_fair (hwf : e.WF) (hf : e.Fair) (hm : m ≠ .none) (h : e.tryGrant t m = some e') : e'.Fair := by
  rcases tryGrant_cases hm h with ⟨rfl, _⟩ | ⟨hh, _, hh', hx, hq⟩ | ⟨_, _, hq, rfl⟩
  · exact hf
  · -- the only holder upgrades: the front is not its own request
    have hne : ∀ {w q}, e.waitQueue = w :: q → t ≠ w.txnId := by
      intro w q hw
      obtain ⟨u, hu, hne, _⟩ := hf.front hw
      rw [hh, Finset.mem_singleton] at hu
      rwa [← hu]
    have hsame : e'.waitQueue = e.waitQueue := by
      rcases hq with hq | ⟨w, rfl, hw⟩
      · exact hq
      · exact absurd rfl (hne hw)
    refine ⟨fun {w q} hw => ?_, hsame ▸ hf.single⟩
    rw [hsame] at hw
    have hreq := hwf.requests w (by rw [hw]; exact List.mem_cons_self)
    refine ⟨t, by rw [hh', Finset.mem_singleton], hne hw, ?_⟩
    rw [hx]
    cases hw' : w.requestedMode with
    | none => exact absurd hw' hreq
    | shared => rfl
    | exclusive => rfl
  · exact fair_of_queue_nil hq

/-- A request that is not granted although the queue is empty conflicts with another holder. -/
theorem blocks_of_tryGrant (hwf : e.WF) (hm : m ≠ .none) (h : e.tryGrant t m = none) (hq : e.waitQueue = []) (c : Nat) :
    e.Blocks ⟨t, m, c⟩ := by
  have hc := hwf.consistent
  unfold LockEntry.tryGrant at h
  split at h
  · rename_i hmem
    split at h
    · cases h
    · rename_i hx
      obtain ⟨hne, hms⟩ := not_or.mp hx
      obtain rfl : m = .exclusive := by cases m <;> simp_all
      split at h
      · cases h
      · -- an upgrade beside other readers
        rename_i hcard
        obtain ⟨u, hu, hut⟩ : ∃ u ∈ e.holders, u ≠ t := by
          by_contra hall
          simp only [not_exists, not_and, not_not] at hall
          exact hcard (Finset.card_eq_one.mpr ⟨t, Finset.eq_singleton_iff_unique_mem.mpr ⟨hmem, hall⟩⟩)
        refine ⟨u, hu, hut, ?_⟩
        cases hmode : e.currentMode with
        | none =>
          rw [hmode] at hc
          rw [hc] at hu
          exact absurd hu (Finset.notMem_empty u)
        | shared => rfl
        | exclusive => exact absurd hmode hne
  · rename_i hmem
    split at h
    · cases h
    · rename_i hcompat
      have hconf : isCompatible e.currentMode m = false := by
        by_contra hx
        exact hcompat ⟨by simpa using hx, hq⟩
      have hne : e.holders ≠ ∅ := by
        intro hh
        rw [hh] at hc
        cases hmode : e.currentMode <;> rw [hmode] at hc hconf
        · simp [isCompatible] at hconf
        · exact hc rfl
        · obtain ⟨v, hv⟩ := hc
          exact absurd hv.symm (Finset.singleton_ne_empty v)
      obtain ⟨u, hu⟩ := Finset.nonempty_iff_ne_empty.mpr hne
      exact ⟨u, hu, fun heq => hmem (by rw [← show u = t from heq]; exact hu), hconf⟩

theorem enqueue_fair (hwf : e.WF) (hf : e.Fair) (hm : m ≠ .none) (h : e.tryGrant t m = none)
    (hnew : ∀ w ∈ e.waitQueue, w.txnId ≠ t) (c : Nat) :
    LockEntry.Fair { e with waitQueue := e.waitQueue ++ [⟨t, m, c⟩] } where
  front {w q} hq := by
    cases hold : e.waitQueue with
    | nil =>
      rw [hold] at hq
      cases hq
      exact blocks_of_tryGrant hwf hm h hold c
    | cons v q' =>
      rw [hold] at hq
      cases hq
      exact hf.front hold
  single := by
    rw [List.map_append, List.map_singleton, ← List.concat_eq_append, List.nodup_concat]
    refine ⟨fun hmem => ?_, hf.single⟩
    obtain ⟨w, hw, hwt⟩ := List.mem_map.mp hmem
    exact hnew w hw hwt

/-- A request leaves the queue. At the front this is harmless only when the next one is blocked, too. -/
theorem dropWaiter_fair (hf : e.Fair)
    (hnext : ∀ {w w' q}, e.waitQueue = w :: w' :: q → w.txnId = t → e.Blocks w') :
    LockEntry.Fair { e with waitQueue := e.waitQueue.filter (·.txnId ≠ t) } where
  front {v q'} hq := by
    cases hold : e.waitQueue with
    | nil => simp [hold] at hq
    | cons w q =>
      have hsingle := hf.single
      rw [hold, List.map_cons, List.nodup_cons] at hsingle
      simp only [hold] at hq
      by_cases hw : w.txnId = t
      · -- nobody behind the front is of the same transaction
        have hrest : q.filter (·.txnId ≠ t) = q := by
          refine List.filter_eq_self.mpr fun v hv => ?_
          simp only [ne_eq, decide_not, Bool.not_eq_eq_eq_not, Bool.not_true, decide_eq_false_iff_not]
          exact fun hvt => hsingle.1 (List.mem_map.mpr ⟨v, hv, hvt.trans hw.symm⟩)
        rw [List.filter_cons_of_neg (by simp [hw]), hrest] at hq
        exact hnext (by rw [hold, hq]) hw
      · rw [List.filter_cons_of_pos (by simp [hw])] at hq
        cases hq
        exact hf.front hold
  single := (List.filter_sublist.map _).nodup hf.single

/-- The grant loop stops at a request that conflicts. -/
theorem grantWaiters_front : ∀ {q : List LockWaiter} {m : LockMode} {h : Finset TxnId} {fl : List WaitFlags}
    {w : LockWaiter} {r : List LockWaiter}, (grantWaiters m h fl q).1.waitQueue = w :: r →
    isCompatible (grantWaiters m h fl q).1.currentMode w.requestedMode = false
  | [], _, _, _, _, _, hr => by cases hr
  | v :: q, m, h, fl, w, r, hr => by
    by_cases hc : isCompatible m v.requestedMode = true
    · simp only [grantWaiters, hc, if_true] at hr ⊢
      exact grantWaiters_front hr
    · simp only [grantWaiters, hc, Bool.false_eq_true, if_false] at hr ⊢
      cases hr
      exact Bool.not_eq_true _ ▸ hc

/-- A holder leaves. When others stay they have to include one that is not at the front of the queue itself. -/
theorem dropped_fair (hwf : e.WF) (hf : e.Fair) (fl : List WaitFlags)
    (hkeep : ∀ {w q}, e.waitQueue = w :: q → e.holders.erase t ≠ {w.txnId}) : (dropped e fl t).1.Fair := by
  unfold dropped
  split
  · -- the queue is served: whoever was let in blocks the first that was not
    obtain ⟨granted, rest, hsplit, hg, hnone⟩ := grantWaiters_grants fl (show Consistent .none ∅ from rfl) hwf.requests
    have hsingle := hf.single
    rw [hsplit, List.map_append] at hsingle
    refine ⟨fun {w q} hq => ?_, ?_⟩
    · have hrest : rest = w :: q := hg.queue.symm.trans hq
      cases hgr : granted with
      | nil =>
        rw [hnone rfl hgr] at hrest
        cases hrest
      | cons g gs =>
        refine ⟨g.txnId, (hg.holders g.txnId).mpr (Or.inr ⟨g, by rw [hgr]; exact List.mem_cons_self, rfl⟩), ?_,
          grantWaiters_front hq⟩
        rw [hgr, hrest] at hsingle
        exact (List.nodup_append.mp hsingle).2.2 _ List.mem_cons_self _ List.mem_cons_self
    · rw [hg.queue]
      exact (List.nodup_append.mp hsingle).2.1
  · rename_i hstay
    refine ⟨fun {w q} hq => ?_, hf.single⟩
    obtain ⟨-, -, -, hconf⟩ := hf.front hq
    obtain ⟨u, hu, hne⟩ : ∃ u ∈ e.holders.erase t, u ≠ w.txnId := by
      by_contra hall
      simp only [not_exists, not_and, not_not] at hall
      obtain ⟨u, hu⟩ := Finset.nonempty_iff_ne_empty.mpr hstay
      have hw : w.txnId ∈ e.holders.erase t := hall u hu ▸ hu
      exact hkeep hq (Finset.eq_singleton_iff_unique_mem.mpr ⟨hw, hall⟩)
    exact ⟨u, hu, hne, hconf⟩

end Fair

/-- Every queue of the table is fair. -/
def LockManager.Fair (lm : LockManager) : Prop := ∀ k, (lm.entry k).Fair

section Release

variable {lm : LockManager} {t : TxnId} {k : Key}

/-- The release of a key by `t` leaves a holder that is not at the front of the queue itself. -/
def LockManager.LeavesHolder (lm : LockManager) (t : TxnId) (k : Key) : Prop :=
  ∀ w ∈ (lm.queue k).head?, (lm.holders k).erase t ≠ {w.txnId}

instance (lm : LockManager) (t : TxnId) (k : Key) : Decidable (lm.LeavesHolder t k) :=
  inferInstanceAs (Decidable (∀ w ∈ (lm.queue k).head?, _))

theorem dropHolder_fair (hwf : lm.WF) (hf : lm.Fair) (hkeep : lm.LeavesHolder t k) : (lm.dropHolder t k).Fair := by
  intro a
  rw [(dropHolder_eq lm t k).2]
  split
  · refine dropped_fair (hwf.entries k) (hf k) _ fun {w q} hq => hkeep w ?_
    rw [queue, hq]
    rfl
  · exact hf a

theorem releaseLock_fair (hwf : lm.WF) (hf : lm.Fair) (hkeep : lm.LeavesHolder t k) : (lm.releaseLock t k).Fair := by
  intro a
  rw [(releaseLock_eq hwf t k).1]
  exact dropHolder_fair hwf hf hkeep a

theorem releaseTurns_fair : ∀ {ks : List Key} {r : LockManager × List Key}, ks.Nodup → r.1.WF → r.1.Fair →
    (∀ k ∈ ks, r.1.LeavesHolder t k) → (ks.foldl (releaseTurn t) r).1.Fair
  | [], _, _, _, hf, _ => hf
  | k :: ks, r, hnd, hwf, hf, hkeep => by
    obtain ⟨hk, hnd⟩ := List.nodup_cons.mp hnd
    rw [List.foldl_cons]
    refine releaseTurns_fair hnd (dropHolder_acts hwf).wf (dropHolder_fair hwf hf (hkeep k List.mem_cons_self)) ?_
    -- the keys to come have not been touched
    intro a ha
    have hne : k ≠ a := fun h => hk (h ▸ ha)
    have hsame : (r.1.dropHolder t k).entry a = r.1.entry a := by rw [(dropHolder_eq r.1 t k).2, if_neg hne]
    have ha' := hkeep a (List.mem_cons_of_mem _ ha)
    simp only [LeavesHolder, queue, holders, releaseTurn, hsame] at ha' ⊢
    exact ha'

theorem nodup_keysHeldBy (lm : LockManager) (t : TxnId) : (lm.keysHeldBy t).Nodup :=
  (List.filter_sublist.map Prod.fst).nodup (FinMap.nodup_keys lm.lockTable)

theorem releaseAllLocks_fair (hwf : lm.WF) (hf : lm.Fair) (hkeep : ∀ k ∈ lm.keysHeldBy t, lm.LeavesHolder t k) :
    (lm.releaseAllLocks t).Fair := by
  intro a
  have h := releasing_keysHeldBy hwf t
  have he : (lm.releaseAllLocks t).entry a = _ := entry_erase_all _ h.unused a
  rw [he]
  exact releaseTurns_fair (nodup_keysHeldBy lm t) hwf hf hkeep a

end Release

/-! ## Runs that leave no grantable request waiting -/

/-- The wait ends without the lock. -/
def WaitFlags.fails (f : WaitFlags) : Bool := f.deadlocked || !f.granted

/-- A call that cannot leave a grantable request at the front: a request by a transaction that is not queued for the key
already, the end of a wait that has been granted or is not at the front or before a request that is blocked, too, and a
release that leaves a holder other than the transaction at the front. -/
def Wakes (s : LockState) : LockAction → Prop
  | .acquire t k _ => ∀ w ∈ s.locks.queue k, w.txnId ≠ t
  | .finish t k c => (s.locks.flags.getD c {}).fails = true →
      match s.locks.queue k with
      | w :: w' :: _ => w.txnId = t → (s.locks.entry k).Blocks w'
      | _ => True
  | .release t k => s.locks.LeavesHolder t k
  | .releaseAll t => ∀ k ∈ s.locks.keysHeldBy t, s.locks.LeavesHolder t k

instance (s : LockState) (a : LockAction) : Decidable (Wakes s a) := by
  unfold Wakes
  split
  · infer_instance
  · split <;> infer_instance
  · infer_instance
  · infer_instance

theorem acquireLock_fair {lm : LockManager} {t : TxnId} {k : Key} {m : LockMode} (hwf : lm.WF) (hf : lm.Fair)
    (hm : m ≠ .none) (hnew : ∀ w ∈ lm.queue k, w.txnId ≠ t) : (lm.acquireLock t k m).1.Fair := by
  rcases acquireLock_cases lm t k m with ⟨e', he, hr⟩ | ⟨hr, hn⟩ <;> rw [hr] <;> intro a <;> rw [entry_insert] <;> split
  · exact tryGrant_fair (hwf.entries k) (hf k) hm he
  · exact hf a
  · exact enqueue_fair (hwf.entries k) (hf k) hm hn hnew _
  · exact hf a

theorem finishWait_fst {lm : LockManager} {t : TxnId} {k : Key} {c : Nat} :
    (lm.finishWait t k c).1 = if (lm.flags.getD c {}).fails then lm.dropWaiter t k else lm := by
  unfold finishWait
  generalize lm.flags.getD c {} = f
  obtain ⟨_ | _, _ | _⟩ := f <;> rfl

/-- **One call** of this kind keeps every queue fair. -/
theorem Wakes.fair {s s' : LockState} {a : LockAction} {evs : List LockReply} (hw : Wakes s a)
    (h : lockStep s a = some (s', evs)) (hwf : s.locks.WF) (hf : s.locks.Fair) : s'.locks.Fair := by
  rcases lockStep_locks h with ⟨t, k, m, rfl, hm, hl⟩ | ⟨t, k, c, rfl, hl⟩ | ⟨t, k, rfl, hl⟩ | ⟨t, rfl, hl⟩ <;> rw [hl]
  · exact acquireLock_fair hwf hf hm hw
  · rw [finishWait_fst]
    split
    · rename_i hfails
      intro a
      rw [entry_dropWaiter]
      split
      · refine dropWaiter_fair (hf k) fun {w w' q} hq hwt => ?_
        have hnext := hw hfails
        rw [queue, hq] at hnext
        exact hnext hwt
      · exact hf a
    · exact hf
  · exact releaseLock_fair hwf hf hw
  · exact releaseAllLocks_fair hwf hf hw

theorem fair_empty : LockManager.Fair {} := by
  intro k
  rw [entry_of_none (by simp)]
  exact fair_of_queue_nil rfl

theorem fair_of_run {as : List LockAction} {s : LockState} {tr : List LockReply} (h : Run lockStep Wakes {} as s tr) :
    s.locks.Fair := by
  have hinv : (s.locks.WF ∧ s.locks.Occupied) ∧ s.locks.Fair :=
    Run.invariant (fun _ s => (s.locks.WF ∧ s.locks.Occupied) ∧ s.locks.Fair)
      ⟨⟨wf_empty, fun k e he => by simp at he⟩, fair_empty⟩
      (fun hi hw hs => ⟨lockStep_wf hs hi.1.1 hi.1.2, hw.fair hs hi.1.1 hi.2⟩) h
  exact hinv.2

/-- No request at the front of a queue could be granted: another transaction holds a conflicting lock. -/
def NoGrantableWaiter (lm : LockManager) : Prop :=
  ∀ (k : Key) (e : LockEntry), lm.lockTable[k]? = some e → ∀ w ∈ e.waitQueue.head?,
    ∃ u, u ≠ w.txnId ∧ isCompatible (lm.hasLock u k) w.requestedMode = false

theorem LockManager.Fair.noGrantableWaiter {lm : LockManager} (hf : lm.Fair) : NoGrantableWaiter lm := by
  intro k e he w hw
  have hfair := hf k
  rw [entry_of_some he] at hfair
  cases hq : e.waitQueue with
  | nil => simp [hq] at hw
  | cons v q =>
    simp only [hq, List.head?_cons, Option.mem_some_iff] at hw
    subst hw
    obtain ⟨u, hu, hne, hconf⟩ := hfair.front hq
    refine ⟨u, hne, ?_⟩
    rw [hasLock, he]
    simpa [hu] using hconf

/-- **No grantable request is left waiting** in a run whose releases and timeouts do not make one grantable. -/
theorem front_blocked {as : List LockAction} {s : LockState} {tr : List LockReply}
    (h : Run lockStep Wakes {} as s tr) : NoGrantableWaiter s.locks := (fair_of_run h).noGrantableWaiter

/-- A writer waits for two readers, of which one releases; a third reader waits behind it. -/
theorem front_blocked_writer : ∃ s tr, Run lockStep Wakes {}
    [.acquire 1 [97] .shared, .acquire 2 [97] .shared, .acquire 3 [97] .exclusive, .acquire 4 [97] .shared,
      .releaseAll 1] s tr ∧
    s.locks.queue [97] = [⟨3, .exclusive, 0⟩, ⟨4, .shared, 1⟩] ∧ NoGrantableWaiter s.locks := by
  have hrun := exists_run_of_exec lockStep Wakes {}
    [.acquire 1 [97] .shared, .acquire 2 [97] .shared, .acquire 3 [97] .exclusive, .acquire 4 [97] .shared,
      .releaseAll 1]
    (fun s _ => decide (s.locks.queue [97] = [⟨3, .exclusive, 0⟩, ⟨4, .shared, 1⟩])) (by decide +kernel)
  obtain ⟨s, tr, hr, hp⟩ := hrun
  exact ⟨s, tr, hr, of_decide_eq_true hp, front_blocked hr⟩

/-- What a grantable request looks like: nobody but its own transaction holds the key, or it fits the mode. -/
theorem not_noGrantableWaiter {lm : LockManager} {k : Key} {e : LockEntry} {w : LockWaiter} {q : List LockWaiter}
    (he : lm.lockTable[k]? = some e) (hq : e.waitQueue = w :: q)
    (hg : e.holders = {w.txnId} ∨ isCompatible e.currentMode w.requestedMode = true) : ¬ NoGrantableWaiter lm := by
  intro h
  obtain ⟨u, hne, hconf⟩ := h k e he w (by rw [hq]; rfl)
  rw [hasLock, he] at hconf
  by_cases hu : u ∈ e.holders
  · simp only [hu, if_true] at hconf
    rcases hg with hg | hg
    · rw [hg, Finset.mem_singleton] at hu
      exact hne hu
    · rw [hconf] at hg
      cases hg
  · simp [hu, isCompatible] at hconf

/-- Two ways to leave a grantable request waiting. The second reader releases while the first one waits for its
upgrade; and a waiting writer times out before a reader that would fit. -/
theorem grantable_left_waiting :
    (∃ s tr, Run lockStep (fun _ _ => True) {} [.acquire 1 [97] .shared, .acquire 2 [97] .shared,
      .acquire 1 [97] .exclusive, .releaseAll 2] s tr ∧ ¬ NoGrantableWaiter s.locks) ∧
    ∃ s tr, Run lockStep (fun _ _ => True) {} [.acquire 1 [97] .shared, .acquire 2 [97] .exclusive,
      .acquire 3 [97] .shared, .finish 2 [97] 0] s tr ∧ ¬ NoGrantableWaiter s.locks := by
  have hupgrade := exists_run_of_exec lockStep (fun _ _ => True) {} [.acquire 1 [97] .shared, .acquire 2 [97] .shared,
      .acquire 1 [97] .exclusive, .releaseAll 2]
    (fun s _ => decide (s.locks.lockTable[([97] : Key)]? = some ⟨.shared, {1}, [⟨1, .exclusive, 0⟩]⟩))
    (by decide +kernel)
  have htimeout := exists_run_of_exec lockStep (fun _ _ => True) {} [.acquire 1 [97] .shared,
      .acquire 2 [97] .exclusive, .acquire 3 [97] .shared, .finish 2 [97] 0]
    (fun s _ => decide (s.locks.lockTable[([97] : Key)]? = some ⟨.shared, {1}, [⟨3, .shared, 1⟩]⟩)) (by decide +kernel)
  obtain ⟨s, tr, hr, hp⟩ := hupgrade
  obtain ⟨s', tr', hr', hp'⟩ := htimeout
  exact ⟨⟨s, tr, hr, not_noGrantableWaiter (of_decide_eq_true hp) rfl (Or.inl rfl)⟩,
    ⟨s', tr', hr', not_noGrantableWaiter (of_decide_eq_true hp') rfl (Or.inr rfl)⟩⟩

/-! ## The lock manager of the server -/

theorem length_grantWaiters : ∀ (q : List LockWaiter) (m : LockMode) (h : Finset TxnId) (fl : List WaitFlags),
    (grantWaiters m h fl q).2.length = fl.length
  | [], _, _, _ => rfl
  | w :: q, m, h, fl => by
    by_cases hc : isCompatible m w.requestedMode = true
    · simp only [grantWaiters, hc, if_true]
      rw [length_grantWaiters, List.length_modify]
    · simp [grantWaiters, hc]

theorem length_dropHolder (lm : LockManager) (t : TxnId) (k : Key) :
    (lm.dropHolder t k).flags.length = lm.flags.length := by
  rw [(dropHolder_eq lm t k).1, dropped]
  split
  · exact length_grantWaiters _ _ _ _
  · rfl

theorem length_releaseLock (lm : LockManager) (t : TxnId) (k : Key) :
    (lm.releaseLock t k).flags.length = lm.flags.length := by
  unfold releaseLock
  dsimp only
  split <;> exact length_dropHolder lm t k

theorem length_releaseTurns (t : TxnId) : ∀ (ks : List Key) (r : LockManager × List Key),
    (ks.foldl (releaseTurn t) r).1.flags.length = r.1.flags.length
  | [], _ => rfl
  | k :: ks, r => by rw [List.foldl_cons, length_releaseTurns t ks, releaseTurn, length_dropHolder]

theorem length_finishWait (lm : LockManager) (t : TxnId) (k : Key) (c : Nat) :
    (lm.finishWait t k c).1.flags.length = lm.flags.length := by
  rw [finishWait_fst]
  split
  · rw [flags_dropWaiter]
  · rfl

/-- The lock manager alone and the one of the server are in the same state, and the sessions that wait for a lock are
callers inside their wait, each with flags of its own. -/
structure Tracks (ls : LockState) (c : Core) : Prop where
  locks : ls.locks = c.locks
  waits : ∀ {i op k f}, (c.parties i).phase = .waiting op k f → ((c.parties i).txn.txnId, k, f) ∈ ls.waiting
  below : ∀ {i op k f}, (c.parties i).phase = .waiting op k f → f < c.locks.flags.length
  distinct : ∀ {i j op op' k k' f}, (c.parties i).phase = .waiting op k f → (c.parties j).phase = .waiting op' k' f →
    i = j

section Tracks

variable {ls ls' : LockState} {c c' : Core} {i : SessionId} {p' : Party}

/-- Session `i` does not wait after the step, and the others still do. -/
theorem Tracks.move (h : Tracks ls c) (hps : c'.parties = Function.update c.parties i p')
    (hp : ∀ op k f, p'.phase ≠ .waiting op k f) (hl : ls'.locks = c'.locks)
    (hlen : c'.locks.flags.length = c.locks.flags.length)
    (hw : ∀ j op k f, j ≠ i → (c.parties j).phase = .waiting op k f →
      ((c.parties j).txn.txnId, k, f) ∈ ls'.waiting) : Tracks ls' c' := by
  have hother : ∀ {j op k f}, (c'.parties j).phase = .waiting op k f → j ≠ i ∧ c'.parties j = c.parties j := by
    intro j op k f hj
    rw [hps] at hj ⊢
    by_cases hji : j = i
    · subst hji
      rw [Function.update_self] at hj
      exact absurd hj (hp op k f)
    · exact ⟨hji, Function.update_of_ne hji ..⟩
  refine ⟨hl, fun {j op k f} hj => ?_, fun {j op k f} hj => ?_, fun {j j' op op' k k' f} hj hj' => ?_⟩
  · obtain ⟨hji, he⟩ := hother hj
    rw [he] at hj ⊢
    exact hw j op k f hji hj
  · obtain ⟨-, he⟩ := hother hj
    rw [he] at hj
    rw [hlen]
    exact h.below hj
  · rw [(hother hj).2] at hj
    rw [(hother hj').2] at hj'
    exact h.distinct hj hj'

/-- A session starts to wait, with the next flags. -/
theorem Tracks.wait (h : Tracks ls c) {op : LockOp} {key : Key} (hps : c'.parties = Function.update c.parties i p')
    (hp : p'.phase = .waiting op key c.locks.flags.length) (hl : ls'.locks = c'.locks)
    (hlen : c'.locks.flags.length = c.locks.flags.length + 1)
    (hw : ls'.waiting = ls.waiting ++ [(p'.txn.txnId, key, c.locks.flags.length)]) : Tracks ls' c' := by
  have hcases : ∀ {j op' k f}, (c'.parties j).phase = .waiting op' k f →
      (j = i ∧ c'.parties j = p' ∧ k = key ∧ f = c.locks.flags.length) ∨
      (j ≠ i ∧ c'.parties j = c.parties j ∧ f < c.locks.flags.length) := by
    intro j op' k f hj
    rw [hps] at hj ⊢
    by_cases hji : j = i
    · subst hji
      rw [Function.update_self] at hj ⊢
      rw [hp] at hj
      cases hj
      exact Or.inl ⟨rfl, rfl, rfl, rfl⟩
    · rw [Function.update_of_ne hji] at hj ⊢
      exact Or.inr ⟨hji, rfl, h.below hj⟩
  refine ⟨hl, fun {j op' k f} hj => ?_, fun {j op' k f} hj => ?_, fun {j j' op' op'' k k' f} hj hj' => ?_⟩
  · rw [hw]
    rcases hcases hj with ⟨-, he, rfl, rfl⟩ | ⟨-, he, -⟩
    · rw [he]
      exact List.mem_append_right _ (List.mem_singleton_self _)
    · rw [he] at hj ⊢
      exact List.mem_append_left _ (h.waits hj)
  · rw [hlen]
    rcases hcases hj with ⟨-, -, -, rfl⟩ | ⟨-, -, hlt⟩
    · exact Nat.lt_succ_self _
    · exact Nat.lt_succ_of_lt hlt
  · rcases hcases hj with ⟨rfl, -, -, hf⟩ | ⟨-, he, hlt⟩ <;> rcases hcases hj' with ⟨rfl, -, -, hf'⟩ | ⟨-, he', hlt'⟩
    · rfl
    · omega
    · omega
    · rw [he] at hj
      rw [he'] at hj'
      exact h.distinct hj hj'

end Tracks

/-- A step of the server is one call of the lock manager, or none. -/
theorem CoreStep.lockRun {c c' : Core} {l : Label} {evs : List Event} (h : CoreStep c l evs c') {ls : LockState}
    (ht : Tracks ls c) : ∃ as ls' rs, Run lockStep (fun _ _ => True) ls as ls' rs ∧ Tracks ls' c' := by
  obtain ⟨locks, waiting⟩ := ls
  obtain rfl : locks = c.locks := ht.locks
  -- a step outside the lock manager
  have hquiet : ∀ {i : SessionId} {p' : Party} {c' : Core}, c'.parties = Function.update c.parties i p' →
      (∀ op k f, p'.phase ≠ .waiting op k f) → c'.locks = c.locks →
      ∃ as ls' rs, Run lockStep (fun _ _ => True) ⟨c.locks, waiting⟩ as ls' rs ∧ Tracks ls' c' :=
    fun hps hp hl => ⟨[], _, [], .nil, ht.move hps hp hl.symm (by rw [hl]) fun j op k f _ hj => ht.waits hj⟩
  have hcall : ∀ {c' : Core} (a : LockAction) (ls' : LockState) (rs : List LockReply),
      lockStep ⟨c.locks, waiting⟩ a = some (ls', rs) → Tracks ls' c' →
      ∃ as ls' rs, Run lockStep (fun _ _ => True) ⟨c.locks, waiting⟩ as ls' rs ∧ Tracks ls' c' :=
    fun a ls' rs hs ht' => ⟨[a], ls', rs, by simpa using Run.snoc .nil trivial hs, ht'⟩
  -- the wait of session `i` is over; the others still wait
  have hfinish : ∀ {i : SessionId} {p' : Party} {op : LockOp} {key : Key} {flags : Nat} {locks : LockManager}
      {ok : Bool}, (c.parties i).phase = .waiting op key flags →
      c.locks.finishWait (c.parties i).txn.txnId key flags = (locks, ok) → (∀ op k f, p'.phase ≠ .waiting op k f) →
      ∃ as ls' rs, Run lockStep (fun _ _ => True) ⟨c.locks, waiting⟩ as ls' rs ∧
        Tracks ls' ({ c with locks := locks }.setParty i p') := by
    intro i p' op key flags locks ok hph hfin hp
    have hlen := length_finishWait c.locks (c.parties i).txn.txnId key flags
    rw [hfin] at hlen
    refine hcall (.finish (c.parties i).txn.txnId key flags)
      ⟨locks, waiting.erase ((c.parties i).txn.txnId, key, flags)⟩ [⟨(c.parties i).txn.txnId, key, ok⟩]
      (by simp only [lockStep, ht.waits hph, if_true, hfin]) (ht.move rfl hp rfl hlen fun j op' k f hji hj => ?_)
    refine (List.mem_erase_of_ne fun heq => hji ?_).mpr (ht.waits hj)
    obtain ⟨-, -, rfl⟩ : _ ∧ _ ∧ f = flags := by simpa using heq
    exact ht.distinct hj hph
  cases h with
  | silent _ => exact ⟨[], _, [], .nil, ht⟩
  | @granted i p op key locks hp hph hact hacq =>
    subst hp
    have hlen : locks.flags.length = c.locks.flags.length := by
      rcases acquireLock_cases c.locks (c.parties i).txn.txnId key op.mode with ⟨e', -, hr⟩ | ⟨hr, -⟩ <;>
        rw [hacq] at hr <;> cases hr
      rfl
    refine hcall (.acquire (c.parties i).txn.txnId key op.mode) ⟨locks, waiting⟩ [⟨(c.parties i).txn.txnId, key, true⟩]
      (by simp [lockStep, op.mode_ne_none, hacq]) ?_
    exact ht.move rfl (Party.locked_phase _ _ _).2 rfl hlen fun j op' k f _ hj => ht.waits hj
  | @queued i p op key locks flags hp hph hact hacq =>
    subst hp
    obtain ⟨rfl, hlen⟩ : flags = c.locks.flags.length ∧ locks.flags.length = c.locks.flags.length + 1 := by
      rcases acquireLock_cases c.locks (c.parties i).txn.txnId key op.mode with ⟨e', -, hr⟩ | ⟨hr, -⟩ <;>
        rw [hacq] at hr <;> cases hr
      exact ⟨rfl, by simp⟩
    refine hcall (.acquire (c.parties i).txn.txnId key op.mode)
      ⟨locks, waiting ++ [((c.parties i).txn.txnId, key, c.locks.flags.length)]⟩ []
      (by simp [lockStep, op.mode_ne_none, hacq]) ?_
    exact ht.wait rfl rfl rfl hlen rfl
  | waitGranted hp hph hfin => subst hp; exact hfinish hph hfin (Party.locked_phase _ _ _).2
  | waitFailed hp hph hfin => subst hp; exact hfinish hph hfin (by simp)
  | @release _ i p key hp hph =>
    subst hp
    refine hcall (.release (c.parties i).txn.txnId key) _ _ rfl ?_
    exact ht.move rfl (by simp) rfl (length_releaseLock _ _ _) fun j op' k f _ hj => ht.waits hj
  | @applied _ i p lsn hp hph | @abortRelease _ i p hp hph =>
    subst hp
    refine hcall (.releaseAll (c.parties i).txn.txnId) _ _ rfl ?_
    exact ht.move rfl (by simp) rfl (length_releaseTurns _ _ _) fun j op' k f _ hj => ht.waits hj
  | read hp hph => exact hquiet rfl (by dsimp only; split <;> simp) rfl
  | reset hp hph _ => exact hquiet rfl (by simp) rfl
  | begin | logBegin | startCommit | logWrite | logCommit | apply | startAbort | logAbort =>
    exact hquiet rfl (by simp) rfl

/-- **The lock table of the server** is, in every state of every run, one that calls of the lock manager lead to. -/
theorem server_locks_reachable {P : State → Action → Prop} {st : Store} {s₀ s : State} {as : List Action}
    {tr : List Event} (h0 : Server.Initial st s₀) (h : Run step P s₀ as s tr) :
    ∃ bs ls rs, Run lockStep (fun _ _ => True) {} bs ls rs ∧ Tracks ls s.core := by
  refine Run.invariant (fun _ s => ∃ bs ls rs, Run lockStep (fun _ _ => True) {} bs ls rs ∧ Tracks ls s.core) ?_ ?_ h
  · refine ⟨[], {}, [], .nil, ?_⟩
    cases h0 <;> exact ⟨rfl, fun hi => (by cases hi), fun hi => (by cases hi), fun hi => (by cases hi)⟩
  · rintro _ s a s' evs ⟨bs, ls, rs, hr, ht⟩ _ hs
    obtain ⟨bs', ls', rs', hr', ht'⟩ := (step_core hs).lockRun ht
    exact ⟨_, _, _, hr.append hr', ht'⟩

end Kvdb
