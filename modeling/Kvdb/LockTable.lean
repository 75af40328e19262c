import Kvdb.LockManager

/-!
# The lock table: what its operations keep

`LockManager.entry` reads the table as a total map; an absent key has no holder and no waiter. `LockManager.WF` is
the invariant of the table and its flags: the mode fits the holders, a queue stands only before a held lock, and every
queued waiter has flags of its own that are not set.

What an operation of one transaction may change for the others is said once (`Acts`): nobody loses a lock or its
exclusiveness, a waiter is either still queued or has been granted what it asked for, and new holders come from the
queues. `acquireLock`, `finishWait`, `releaseLock` and `releaseAllLocks` all act like this (`acquireLock_acts`,
`finishWait_acts`, `releaseLock_acts`, `releaseAllLocks_acts`).
-/

namespace Kvdb

open Std

/-! ## The table as a total map -/

namespace LockManager

def entry (lm : LockManager) (key : Key) : LockEntry := lm.lockTable[key]?.getD {}

def holders (lm : LockManager) (key : Key) : Finset TxnId := (lm.entry key).holders

def mode (lm : LockManager) (key : Key) : LockMode := (lm.entry key).currentMode

def queue (lm : LockManager) (key : Key) : List LockWaiter := (lm.entry key).waitQueue

/-- `t` alone holds the key, in `EXCLUSIVE` mode. -/
def Sole (lm : LockManager) (t : TxnId) (key : Key) : Prop := lm.holders key = {t} ∧ lm.mode key = .exclusive

/-- A caller of `acquireLock` inside its wait: queued, or granted what it asked for. -/
def Waits (lm : LockManager) (t : TxnId) (key : Key) (m : LockMode) (c : Nat) : Prop :=
  (⟨t, m, c⟩ ∈ lm.queue key ∧ lm.flags[c]? = some {}) ∨
    (lm.flags[c]? = some { granted := true } ∧ t ∈ lm.holders key ∧ (m = .exclusive → lm.Sole t key))

theorem entry_insert (lm : LockManager) (k a : Key) (e : LockEntry) (fl : List WaitFlags) :
    entry ⟨lm.lockTable.insert k e, fl⟩ a = if k = a then e else lm.entry a := by
  unfold entry
  rw [FinMap.find_insert]
  split <;> rfl

theorem entry_of_none {lm : LockManager} {k : Key} (h : lm.lockTable[k]? = none) : lm.entry k = {} := by
  simp [entry, h]

theorem entry_of_some {lm : LockManager} {k : Key} {e : LockEntry} (h : lm.lockTable[k]? = some e) :
    lm.entry k = e := by simp [entry, h]

end LockManager

/-! ## Well-formed tables -/

/-- The mode fits the holders. -/
def Consistent : LockMode → Finset TxnId → Prop
  | .none, h => h = ∅
  | .shared, h => h ≠ ∅
  | .exclusive, h => ∃ t, h = {t}

structure LockEntry.WF (e : LockEntry) : Prop where
  consistent : Consistent e.currentMode e.holders
  queued : e.holders = ∅ → e.waitQueue = []
  requests : ∀ w ∈ e.waitQueue, w.requestedMode ≠ .none
  cells : (e.waitQueue.map (·.flags)).Nodup

structure LockManager.WF (lm : LockManager) : Prop where
  entries : ∀ k, (lm.entry k).WF
  cells : ∀ k, ∀ w ∈ lm.queue k, lm.flags[w.flags]? = some {}
  distinct : ∀ k k' w w', w ∈ lm.queue k → w' ∈ lm.queue k' → w.flags = w'.flags → k = k'

theorem LockManager.wf_empty : LockManager.WF {} where
  entries k := by
    rw [LockManager.entry_of_none (by simp)]
    exact ⟨rfl, fun _ => rfl, by simp, by simp⟩
  cells k w hw := by
    simp [LockManager.queue, LockManager.entry] at hw
  distinct k k' w w' hw := by
    simp [LockManager.queue, LockManager.entry] at hw

/-- What the operations of a transaction `t` keep for the others. -/
structure Acts (t : TxnId) (lm lm' : LockManager) : Prop where
  wf : lm'.WF
  keep : ∀ u k, u ≠ t → u ∈ lm.holders k → u ∈ lm'.holders k
  sole : ∀ u k, u ≠ t → lm.Sole u k → lm'.Sole u k
  waits : ∀ u k m c, u ≠ t → lm.Waits u k m c → lm'.Waits u k m c
  new : ∀ u k, u ∈ lm'.holders k → u = t ∨ u ∈ lm.holders k ∨ ∃ w ∈ lm.queue k, w.txnId = u
  queue : ∀ k, ∀ w ∈ lm'.queue k, w ∈ lm.queue k ∨ w.txnId = t

theorem Acts.refl {t : TxnId} {lm : LockManager} (h : lm.WF) : Acts t lm lm :=
  ⟨h, fun _ _ _ h => h, fun _ _ _ h => h, fun _ _ _ _ _ h => h, fun _ _ h => Or.inr (Or.inl h), fun _ _ h => Or.inl h⟩

theorem Acts.trans {t : TxnId} {lm₁ lm₂ lm₃ : LockManager} (h₁ : Acts t lm₁ lm₂) (h₂ : Acts t lm₂ lm₃) :
    Acts t lm₁ lm₃ where
  wf := h₂.wf
  keep u k hu h := h₂.keep u k hu (h₁.keep u k hu h)
  sole u k hu h := h₂.sole u k hu (h₁.sole u k hu h)
  waits u k m c hu h := h₂.waits u k m c hu (h₁.waits u k m c hu h)
  new u k h := by
    rcases h₂.new u k h with h | h | ⟨w, hw, rfl⟩
    · exact Or.inl h
    · exact h₁.new u k h
    · rcases h₁.queue k w hw with h | h
      · exact Or.inr (Or.inr ⟨w, h, rfl⟩)
      · exact Or.inl h
  queue k w hw := by
    rcases h₂.queue k w hw with h | h
    · exact h₁.queue k w h
    · exact Or.inr h

/-! ## The grant loop -/

theorem grantWaiters_exclusive {q : List LockWaiter} (hq : ∀ w ∈ q, w.requestedMode ≠ .none) (h : Finset TxnId)
    (fl : List WaitFlags) : grantWaiters .exclusive h fl q = (⟨.exclusive, h, q⟩, fl) := by
  cases q with
  | nil => rfl
  | cons w q =>
    have hw := hq w List.mem_cons_self
    simp [grantWaiters, isCompatible, hw]

/-- What the grant loop makes of a queue: it grants `granted` and leaves `rest`. -/
structure Grants (h : Finset TxnId) (fl : List WaitFlags) (granted rest : List LockWaiter)
    (r : LockEntry × List WaitFlags) : Prop where
  queue : r.1.waitQueue = rest
  holders : ∀ u, u ∈ r.1.holders ↔ u ∈ h ∨ ∃ w ∈ granted, w.txnId = u
  consistent : Consistent r.1.currentMode r.1.holders
  exclusive : ∀ w ∈ granted, w.requestedMode = .exclusive →
    r.1.holders = {w.txnId} ∧ r.1.currentMode = .exclusive
  flags : ∀ c, r.2[c]? =
    if c ∈ granted.map (·.flags) then fl[c]?.map fun f => { f with granted := true } else fl[c]?

theorem consistent_grant {m m' : LockMode} {h : Finset TxnId} {t : TxnId} (hc : Consistent m h)
    (hm : m' ≠ .none) (hcompat : isCompatible m m' = true) : Consistent (m.grant m') (insert t h) := by
  cases m <;> cases m' <;> simp_all [Consistent, isCompatible, LockMode.grant]

theorem grantWaiters_grants : ∀ {q : List LockWaiter} {m : LockMode} {h : Finset TxnId} (fl : List WaitFlags),
    Consistent m h → (∀ w ∈ q, w.requestedMode ≠ .none) →
    ∃ granted rest, q = granted ++ rest ∧ Grants h fl granted rest (grantWaiters m h fl q) ∧
      (m = .none → granted = [] → rest = [])
  | [], m, h, fl, hc, _ => ⟨[], [], rfl, ⟨rfl, by simp [grantWaiters], hc, by simp, by simp [grantWaiters]⟩, by simp⟩
  | w :: q, m, h, fl, hc, hq => by
    have hw := hq w List.mem_cons_self
    have hq' : ∀ v ∈ q, v.requestedMode ≠ .none := fun v hv => hq v (List.mem_cons_of_mem _ hv)
    by_cases hcompat : isCompatible m w.requestedMode = true
    · obtain ⟨granted, rest, hsplit, hg, -⟩ := grantWaiters_grants
        (fl.modify w.flags fun f => { f with granted := true }) (consistent_grant (t := w.txnId) hc hw hcompat) hq'
      have hr : grantWaiters m h fl (w :: q) = grantWaiters (m.grant w.requestedMode) (insert w.txnId h)
          (fl.modify w.flags fun f => { f with granted := true }) q := by
        simp [grantWaiters, hcompat]
      refine ⟨w :: granted, rest, by rw [hsplit]; rfl, ?_, by simp⟩
      rw [hr]
      refine ⟨hg.queue, ?_, hg.consistent, ?_, ?_⟩
      · intro u
        rw [hg.holders]
        simp only [Finset.mem_insert, List.exists_mem_cons_iff]
        tauto
      · intro v hv hx
        rcases List.mem_cons.mp hv with rfl | hv
        · -- an exclusive grant starts from a free lock and ends the loop
          have hm : m = .none := by
            cases m <;> simp_all [isCompatible]
          subst hm
          have hh : h = ∅ := hc
          rw [hh, show LockMode.grant .none v.requestedMode = .exclusive by simp [LockMode.grant, hx],
            grantWaiters_exclusive hq']
          exact ⟨rfl, rfl⟩
        · exact hg.exclusive v hv hx
      · intro c
        rw [hg.flags, List.getElem?_modify]
        simp only [List.map_cons, List.mem_cons]
        by_cases hcw : c = w.flags
        · subst hcw
          by_cases hmem : w.flags ∈ granted.map (·.flags) <;> simp [hmem, Function.comp_def]
        · simp [hcw, Ne.symm hcw]
    · have hr : grantWaiters m h fl (w :: q) = (⟨m, h, w :: q⟩, fl) := by simp [grantWaiters, hcompat]
      refine ⟨[], w :: q, rfl, ?_, ?_⟩
      · rw [hr]
        exact ⟨rfl, by simp, hc, by simp, by simp⟩
      · intro hm
        simp [hm, isCompatible] at hcompat

/-! ## Changing one entry -/

/-- A new entry `e'` for the key `k`, and the new flags, that make an action of `t`: no other holder suffers, the
waiters of others that leave the queue are granted what they asked for, and only their flags are set. -/
structure EntryActs (t : TxnId) (k : Key) (lm : LockManager) (e' : LockEntry) (fl' : List WaitFlags) : Prop where
  wf : e'.WF
  keep : ∀ u, u ≠ t → u ∈ lm.holders k → u ∈ e'.holders
  sole : ∀ u, u ≠ t → lm.Sole u k → e'.holders = {u} ∧ e'.currentMode = .exclusive
  new : ∀ u ∈ e'.holders, u = t ∨ u ∈ lm.holders k ∨ ∃ w ∈ lm.queue k, w.txnId = u
  queue : ∀ w ∈ e'.waitQueue, (w ∈ lm.queue k ∨ w.txnId = t ∧ w.flags = lm.flags.length) ∧ fl'[w.flags]? = some {}
  left : ∀ w ∈ lm.queue k, w.txnId ≠ t → w ∈ e'.waitQueue ∨
    (fl'[w.flags]? = some { granted := true } ∧ w.txnId ∈ e'.holders ∧
      (w.requestedMode = .exclusive → e'.holders = {w.txnId} ∧ e'.currentMode = .exclusive))
  flags : ∀ c f, lm.flags[c]? = some f → fl'[c]? = some f ∨ ∃ w ∈ lm.queue k, w.flags = c

section EntryActs

variable {t : TxnId} {k : Key} {lm lm' : LockManager} {e' : LockEntry}

/-- The flags of a waiter of another key do not change. -/
theorem EntryActs.flags_of_queue (h : EntryActs t k lm e' lm'.flags) (hwf : lm.WF) {a : Key} (ha : k ≠ a)
    {w : LockWaiter} (hw : w ∈ lm.queue a) : lm'.flags[w.flags]? = some {} := by
  rcases h.flags _ _ (hwf.cells a w hw) with h' | ⟨v, hv, hvw⟩
  · exact h'
  · exact absurd (hwf.distinct k a v w hv hw hvw) ha

/-- Flags that say "granted" belong to nobody in a queue, so they do not change. -/
theorem EntryActs.flags_of_granted (h : EntryActs t k lm e' lm'.flags) (hwf : lm.WF) {c : Nat}
    (hc : lm.flags[c]? = some { granted := true }) : lm'.flags[c]? = some { granted := true } := by
  rcases h.flags _ _ hc with h' | ⟨v, hv, rfl⟩
  · exact h'
  · rw [hwf.cells k v hv] at hc
    cases hc

theorem EntryActs.wf_after (h : EntryActs t k lm e' lm'.flags) (hwf : lm.WF)
    (he : ∀ a, lm'.entry a = if k = a then e' else lm.entry a) : lm'.WF where
  entries a := by
    rw [he]
    split
    · exact h.wf
    · exact hwf.entries a
  cells a w hw := by
    rw [LockManager.queue, he] at hw
    split at hw
    · exact (h.queue w hw).2
    · exact h.flags_of_queue hwf ‹_› hw
  distinct a b w v hw hv hc := by
    -- a waiter that has just queued has fresh flags
    have hfresh : ∀ {b : Key} {v : LockWaiter}, v ∈ lm.queue b → v.flags ≠ lm.flags.length := by
      intro b v hv heq
      have hcell := hwf.cells b v hv
      rw [heq, List.getElem?_eq_none (Nat.le_refl _)] at hcell
      cases hcell
    rw [LockManager.queue, he] at hw hv
    split at hw <;> split at hv
    · simp_all
    · subst_vars
      rcases (h.queue w hw).1 with hw | hw
      · exact hwf.distinct _ _ w v hw hv hc
      · exact absurd (hc ▸ hw.2) (hfresh hv)
    · subst_vars
      rcases (h.queue v hv).1 with hv | hv
      · exact hwf.distinct _ _ w v hw hv hc
      · exact absurd (hc ▸ hv.2) (hfresh hw)
    · exact hwf.distinct _ _ w v hw hv hc

/-- Changing one entry like this is an action of `t`. -/
theorem EntryActs.acts (h : EntryActs t k lm e' lm'.flags) (hwf : lm.WF)
    (he : ∀ a, lm'.entry a = if k = a then e' else lm.entry a) : Acts t lm lm' := by
  have hk : lm'.entry k = e' := by rw [he, if_pos rfl]
  have hne : ∀ {a}, k ≠ a → lm'.entry a = lm.entry a := fun ha => by rw [he, if_neg ha]
  refine ⟨h.wf_after hwf he, ?_, ?_, ?_, ?_, ?_⟩
  · intro u a hu hm
    by_cases ha : k = a
    · subst ha; rw [LockManager.holders, hk]; exact h.keep u hu hm
    · rw [LockManager.holders, hne ha]; exact hm
  · intro u a hu hs
    by_cases ha : k = a
    · subst ha; rw [LockManager.Sole, LockManager.holders, LockManager.mode, hk]; exact h.sole u hu hs
    · rw [LockManager.Sole, LockManager.holders, LockManager.mode, hne ha]; exact hs
  · intro u a m c hu hw
    by_cases ha : k = a
    · subst ha
      simp only [LockManager.Waits, LockManager.Sole, LockManager.holders, LockManager.mode, LockManager.queue, hk]
      rcases hw with ⟨hq, _⟩ | ⟨hf, hm, hx⟩
      · rcases h.left _ hq hu with hq' | hg
        · exact Or.inl ⟨hq', (h.queue _ hq').2⟩
        · exact Or.inr hg
      · exact Or.inr ⟨h.flags_of_granted hwf hf, h.keep u hu hm, fun hm => h.sole u hu (hx hm)⟩
    · simp only [LockManager.Waits, LockManager.Sole, LockManager.holders, LockManager.mode, LockManager.queue, hne ha]
      rcases hw with ⟨hq, _⟩ | ⟨hf, hm, hx⟩
      · exact Or.inl ⟨hq, h.flags_of_queue hwf ha hq⟩
      · exact Or.inr ⟨h.flags_of_granted hwf hf, hm, hx⟩
  · intro u a hm
    by_cases ha : k = a
    · subst ha; rw [LockManager.holders, hk] at hm; exact h.new u hm
    · rw [LockManager.holders, hne ha] at hm; exact Or.inr (Or.inl hm)
  · intro a w hw
    by_cases ha : k = a
    · subst ha; rw [LockManager.queue, hk] at hw; exact (h.queue w hw).1.imp_right And.left
    · rw [LockManager.queue, hne ha] at hw; exact Or.inl hw

theorem EntryActs.insert_acts {fl' : List WaitFlags} (h : EntryActs t k lm e' fl') (hwf : lm.WF) :
    Acts t lm ⟨lm.lockTable.insert k e', fl'⟩ :=
  have h' : EntryActs t k lm e' (LockManager.mk (lm.lockTable.insert k e') fl').flags := h
  h'.acts hwf fun a => LockManager.entry_insert lm k a e' fl'

end EntryActs

/-! ## Acquiring -/

/-- The cases of `tryGrant`: the lock is held as asked for, the only holder upgrades, or a new holder comes in. -/
theorem tryGrant_cases {e e' : LockEntry} {t : TxnId} {m : LockMode} (hm : m ≠ .none)
    (h : e.tryGrant t m = some e') :
    (e' = e ∧ t ∈ e.holders ∧ (e.currentMode = .exclusive ∨ m = .shared)) ∨
    (e.holders = {t} ∧ m = .exclusive ∧ e'.holders = {t} ∧ e'.currentMode = .exclusive ∧
      (e'.waitQueue = e.waitQueue ∨ ∃ w, w.txnId = t ∧ e.waitQueue = w :: e'.waitQueue)) ∨
    (t ∉ e.holders ∧ isCompatible e.currentMode m = true ∧ e.waitQueue = [] ∧
      e' = { e with holders := insert t e.holders, currentMode := e.currentMode.grant m }) := by
  unfold LockEntry.tryGrant at h
  split at h
  · rename_i hmem
    split at h
    · rename_i hx
      cases h
      exact Or.inl ⟨rfl, hmem, hx⟩
    · rename_i hx
      have hm : m = .exclusive := by cases m <;> simp_all
      split at h
      · rename_i hcard
        obtain ⟨u, hu⟩ := Finset.card_eq_one.mp hcard
        obtain rfl : t = u := by rw [hu] at hmem; simpa using hmem
        refine Or.inr (Or.inl ?_)
        split at h
        · cases h
          exact ⟨hu, hm, hu, rfl, Or.inl rfl⟩
        · split at h
          · rename_i hfront
            cases hq : e.waitQueue with
            | nil => simp [hq] at hfront
            | cons w q =>
              simp only [hq, List.head?_cons, Option.map_some, Option.some.injEq] at hfront
              rw [hq] at h
              cases h
              exact ⟨hu, hm, hu, rfl, Or.inr ⟨w, hfront, rfl⟩⟩
          · cases h
      · cases h
  · rename_i hmem
    split at h
    · rename_i hc
      cases h
      exact Or.inr (Or.inr ⟨hmem, hc.1, hc.2, rfl⟩)
    · cases h

/-- A grant makes the caller a holder, and the only one when it asked for `EXCLUSIVE`. -/
theorem tryGrant_holds {e e' : LockEntry} {t : TxnId} {m : LockMode} (hwf : e.WF) (hm : m ≠ .none)
    (h : e.tryGrant t m = some e') :
    t ∈ e'.holders ∧ (m = .exclusive → e'.holders = {t} ∧ e'.currentMode = .exclusive) := by
  rcases tryGrant_cases hm h with ⟨rfl, hmem, hx⟩ | ⟨_, _, h1, h2, _⟩ | ⟨_, hc, _, rfl⟩
  · refine ⟨hmem, fun hm => ?_⟩
    have hmode : e'.currentMode = .exclusive := hx.resolve_right (by simp [hm])
    have hcons := hwf.consistent
    rw [hmode] at hcons
    obtain ⟨u, hu⟩ := hcons
    obtain rfl : t = u := by rw [hu] at hmem; simpa using hmem
    exact ⟨hu, hmode⟩
  · exact ⟨by simp [h1], fun _ => ⟨h1, h2⟩⟩
  · refine ⟨by simp, fun hm => ?_⟩
    have hfree : e.currentMode = .none := by
      cases hcm : e.currentMode <;> simp_all [isCompatible]
    have hcons := hwf.consistent
    rw [hfree] at hcons
    simp [hfree, hm, LockMode.grant, show e.holders = ∅ from hcons]

theorem tryGrant_wf {e e' : LockEntry} {t : TxnId} {m : LockMode} (hwf : e.WF) (hm : m ≠ .none)
    (h : e.tryGrant t m = some e') : e'.WF := by
  rcases tryGrant_cases hm h with ⟨rfl, _⟩ | ⟨_, _, h1, h2, hq⟩ | ⟨_, hc, hq, rfl⟩
  · exact hwf
  · have hsub : e'.waitQueue.Sublist e.waitQueue := by
      rcases hq with hq | ⟨w, _, hq⟩ <;> rw [hq]
      exact List.sublist_cons_self _ _
    exact ⟨by rw [h1, h2]; exact ⟨t, rfl⟩, by simp [h1], fun w hw => hwf.requests w (hsub.subset hw),
      (hsub.map _).nodup hwf.cells⟩
  · refine ⟨consistent_grant hwf.consistent hm hc, ?_, hwf.requests, hwf.cells⟩
    intro h
    exact absurd h (Finset.insert_ne_empty _ _)

theorem tryGrant_acts {lm : LockManager} {e' : LockEntry} {t : TxnId} {k : Key} {m : LockMode} (hwf : lm.WF)
    (hm : m ≠ .none) (h : (lm.entry k).tryGrant t m = some e') : EntryActs t k lm e' lm.flags := by
  have he := hwf.entries k
  have hcells := hwf.cells k
  unfold LockManager.queue at hcells
  refine ⟨tryGrant_wf he hm h, ?_, ?_, ?_, ?_, ?_, fun c f hf => Or.inl hf⟩
  all_goals
    simp only [LockManager.Sole, LockManager.holders, LockManager.mode, LockManager.queue]
    rcases tryGrant_cases hm h with ⟨rfl, hmem, _⟩ | ⟨h0, _, h1, h2, hq⟩ | ⟨hnm, hc, hq, rfl⟩
  · exact fun u _ hu => hu
  · intro u hne hu; simp_all
  · intro u _ hu; simp [hu]
  · exact fun u _ hu => hu
  · intro u hne hu
    rw [h0] at hu
    exact absurd (Finset.singleton_inj.mp hu.1).symm hne
  · -- a lock held exclusively by another is not compatible with any request
    intro u hne hu
    rw [hu.2] at hc
    cases m <;> simp_all [isCompatible]
  · exact fun u hu => Or.inr (Or.inl hu)
  · intro u hu; rw [h1] at hu; exact Or.inl (by simpa using hu)
  · intro u hu
    rcases Finset.mem_insert.mp hu with rfl | hu
    · exact Or.inl rfl
    · exact Or.inr (Or.inl hu)
  · exact fun w hw => ⟨Or.inl hw, hcells w hw⟩
  · intro w hw
    have hw' : w ∈ (lm.entry k).waitQueue := by
      rcases hq with hq | ⟨v, _, hq⟩
      · exact hq ▸ hw
      · rw [hq]; exact List.mem_cons_of_mem _ hw
    exact ⟨Or.inl hw', hcells w hw'⟩
  · intro w hw; simp [hq] at hw
  · exact fun w hw _ => Or.inl hw
  · intro w hw hne
    rcases hq with hq | ⟨v, hv, hq⟩
    · exact Or.inl (by rw [hq]; exact hw)
    · rw [hq] at hw
      rcases List.mem_cons.mp hw with rfl | hw
      · exact absurd hv hne
      · exact Or.inl hw
  · intro w hw; simp [hq] at hw

namespace LockManager

/-- No queue has a waiter of `t`. -/
def NotQueued (lm : LockManager) (t : TxnId) : Prop := ∀ a, ∀ w ∈ lm.queue a, w.txnId ≠ t

/-- `t` has lost no lock, and holds alone what it held alone. -/
def KeptBy (t : TxnId) (lm lm' : LockManager) : Prop :=
  (∀ a, t ∈ lm.holders a → t ∈ lm'.holders a) ∧ ∀ a, lm.Sole t a → lm'.Sole t a

section Acquire

variable {lm : LockManager} {t : TxnId} {k : Key} {m : LockMode}

/-- `acquireLock` either grants at once or queues the caller with fresh flags. -/
theorem acquireLock_cases (lm : LockManager) (t : TxnId) (k : Key) (m : LockMode) :
    (∃ e', (lm.entry k).tryGrant t m = some e' ∧
      lm.acquireLock t k m = (⟨lm.lockTable.insert k e', lm.flags⟩, .granted)) ∨
    lm.acquireLock t k m =
      (⟨lm.lockTable.insert k { lm.entry k with waitQueue := lm.queue k ++ [⟨t, m, lm.flags.length⟩] },
        lm.flags ++ [({} : WaitFlags)]⟩, .waiting lm.flags.length) ∧ (lm.entry k).tryGrant t m = none := by
  unfold acquireLock
  cases h : (lm.lockTable[k]?.getD {}).tryGrant t m with
  | some e' => exact Or.inl ⟨e', h, by simp only [h]⟩
  | none => exact Or.inr ⟨by simp only [h, entry, queue], h⟩

/-- Nobody waits for a lock that nobody holds. -/
theorem holders_ne_of_tryGrant (hwf : lm.WF) (h : (lm.entry k).tryGrant t m = none) :
    (lm.entry k).holders ≠ ∅ := by
  intro hh
  have he := hwf.entries k
  have hq := he.queued hh
  have hmode : (lm.entry k).currentMode = .none := by
    have hc := he.consistent
    cases hm : (lm.entry k).currentMode <;> simp_all [Consistent]
  simp [LockEntry.tryGrant, hh, hq, hmode, isCompatible] at h

theorem enqueue_acts (hwf : lm.WF) (hm : m ≠ .none) (h : (lm.entry k).tryGrant t m = none) :
    EntryActs t k lm { lm.entry k with waitQueue := lm.queue k ++ [⟨t, m, lm.flags.length⟩] }
      (lm.flags ++ [({} : WaitFlags)]) := by
  have he := hwf.entries k
  have hold : ∀ {c : Nat} {f : WaitFlags}, lm.flags[c]? = some f → (lm.flags ++ [({} : WaitFlags)])[c]? = some f := by
    intro c f hf
    rw [List.getElem?_append_left (List.getElem?_eq_some_iff.mp hf).1]
    exact hf
  have hfresh : lm.flags.length ∉ (lm.queue k).map (·.flags) := by
    intro hmem
    obtain ⟨w, hw, hwc⟩ := List.mem_map.mp hmem
    have hcell := hwf.cells k w hw
    rw [hwc, List.getElem?_eq_none (Nat.le_refl _)] at hcell
    cases hcell
  refine ⟨⟨he.consistent, fun hh => absurd hh (holders_ne_of_tryGrant hwf h), ?_, ?_⟩, fun u _ hu => hu,
    fun u _ hu => hu, fun u hu => Or.inr (Or.inl hu), ?_, fun w hw _ => Or.inl (List.mem_append_left _ hw),
    fun c f hf => Or.inl (hold hf)⟩
  · intro w hw
    rcases List.mem_append.mp hw with hw | hw
    · exact he.requests w hw
    · obtain rfl := List.mem_singleton.mp hw
      exact hm
  · rw [List.map_append, List.nodup_append]
    refine ⟨he.cells, by simp, ?_⟩
    intro c hc d hd
    obtain rfl : d = lm.flags.length := by simpa using hd
    exact fun hcd => hfresh (hcd ▸ hc)
  · intro w hw
    rcases List.mem_append.mp hw with hw | hw
    · exact ⟨Or.inl hw, hold (hwf.cells k w hw)⟩
    · obtain rfl := List.mem_singleton.mp hw
      exact ⟨Or.inr ⟨rfl, rfl⟩, by simp⟩

theorem acquireLock_acts (hwf : lm.WF) (hm : m ≠ .none) : Acts t lm (lm.acquireLock t k m).1 := by
  rcases acquireLock_cases lm t k m with ⟨e', he, hr⟩ | ⟨hr, hn⟩ <;> rw [hr]
  · exact (tryGrant_acts hwf hm he).insert_acts hwf
  · exact (enqueue_acts hwf hm hn).insert_acts hwf

/-- Holding a lock, in whatever mode, is not given up by asking for one. -/
theorem acquireLock_kept (hwf : lm.WF) (hm : m ≠ .none) : KeptBy t lm (lm.acquireLock t k m).1 := by
  rcases acquireLock_cases lm t k m with ⟨e', he, hr⟩ | ⟨hr, hn⟩ <;> rw [hr] <;> constructor <;> intro a <;>
    simp only [Sole, holders, mode, entry_insert] <;> split
  · exact fun _ => (tryGrant_holds (hwf.entries k) hm he).1
  · exact id
  · subst_vars
    rintro ⟨h1, h2⟩
    rcases tryGrant_cases hm he with ⟨rfl, _⟩ | ⟨_, _, h3, h4, _⟩ | ⟨hnm, _⟩
    · exact ⟨h1, h2⟩
    · exact ⟨h3, h4⟩
    · simp [h1] at hnm
  · exact id
  · subst_vars; exact id
  · exact id
  · subst_vars; exact id
  · exact id

theorem acquireLock_granted (hwf : lm.WF) (hm : m ≠ .none) (h : (lm.acquireLock t k m).2 = .granted) :
    t ∈ (lm.acquireLock t k m).1.holders k ∧ (m = .exclusive → (lm.acquireLock t k m).1.Sole t k) ∧
      (lm.NotQueued t → (lm.acquireLock t k m).1.NotQueued t) := by
  rcases acquireLock_cases lm t k m with ⟨e', he, hr⟩ | ⟨hr, hn⟩
  · obtain ⟨h1, h2⟩ := tryGrant_holds (hwf.entries k) hm he
    rw [hr]
    refine ⟨by simpa [holders, entry_insert] using h1, by simpa [Sole, holders, mode, entry_insert] using h2, ?_⟩
    intro hq a w hw
    simp only [queue, entry_insert] at hw
    split at hw
    · rcases ((tryGrant_acts hwf hm he).queue w hw).1 with hw' | ⟨_, hc⟩
      · exact hq k w hw'
      · have hcell := ((tryGrant_acts hwf hm he).queue w hw).2
        rw [hc, List.getElem?_eq_none (Nat.le_refl _)] at hcell
        cases hcell
    · exact hq a w hw
  · rw [hr] at h
    cases h

/-- The lock manager grants a lock to its holder again. -/
theorem acquireLock_of_sole (h : lm.Sole t k) (m : LockMode) :
    lm.acquireLock t k m = (⟨lm.lockTable.insert k (lm.entry k), lm.flags⟩, .granted) := by
  have hmem : t ∈ (lm.entry k).holders := by
    rw [show (lm.entry k).holders = {t} from h.1]
    exact Finset.mem_singleton_self t
  have hgrant : (lm.entry k).tryGrant t m = some (lm.entry k) := by
    have hheld : (lm.entry k).currentMode = .exclusive ∨ m = .shared := Or.inl h.2
    rw [LockEntry.tryGrant, if_pos hmem, if_pos hheld]
  rcases acquireLock_cases lm t k m with ⟨e', he, hr⟩ | ⟨-, hnone⟩
  · rw [hgrant] at he
    cases he
    exact hr
  · rw [hgrant] at hnone
    cases hnone

theorem acquireLock_waiting {c : Nat} (h : (lm.acquireLock t k m).2 = .waiting c) :
    (lm.acquireLock t k m).1.Waits t k m c ∧ (lm.NotQueued t → ∀ a, ∀ w ∈ (lm.acquireLock t k m).1.queue a,
      w.txnId = t → a = k ∧ w = ⟨t, m, c⟩) := by
  rcases acquireLock_cases lm t k m with ⟨e', he, hr⟩ | ⟨hr, hn⟩
  · rw [hr] at h
    cases h
  · rw [hr] at h ⊢
    cases h
    refine ⟨Or.inl ⟨by simp [queue, entry_insert], by simp⟩, ?_⟩
    intro hq a w hw ht
    simp only [queue, entry_insert] at hw
    split at hw
    · rcases List.mem_append.mp hw with hw | hw
      · exact absurd ht (hq k w hw)
      · exact ⟨Eq.symm ‹_›, List.mem_singleton.mp hw⟩
    · exact absurd ht (hq a w hw)

end Acquire

/-! ## The end of a wait -/

section FinishWait

variable {lm : LockManager} {t : TxnId} {k : Key} {m : LockMode} {c : Nat}

theorem entry_dropWaiter (lm : LockManager) (t : TxnId) (k a : Key) : (lm.dropWaiter t k).entry a =
    if k = a then { lm.entry k with waitQueue := (lm.queue k).filter (·.txnId ≠ t) } else lm.entry a := by
  unfold dropWaiter
  cases h : lm.lockTable[k]? with
  | none =>
    simp only [queue, entry_of_none h]
    split
    · subst_vars; simp [entry_of_none h]
    · rfl
  | some e =>
    simp only [queue, entry_of_some h, entry_insert]

theorem flags_dropWaiter (lm : LockManager) (t : TxnId) (k : Key) : (lm.dropWaiter t k).flags = lm.flags := by
  unfold dropWaiter
  split <;> rfl

/-- A waiter that gives up changes nothing but the queue it leaves. -/
theorem dropWaiter_holders (lm : LockManager) (t : TxnId) (k a : Key) :
    (lm.dropWaiter t k).holders a = lm.holders a ∧ (lm.dropWaiter t k).mode a = lm.mode a := by
  simp only [holders, mode, entry_dropWaiter]
  split <;> simp_all

theorem dropWaiter_acts (hwf : lm.WF) : Acts t lm (lm.dropWaiter t k) := by
  have he := hwf.entries k
  have hsub : ((lm.queue k).filter (·.txnId ≠ t)).Sublist (lm.queue k) := List.filter_sublist
  have h : EntryActs t k lm { lm.entry k with waitQueue := (lm.queue k).filter (·.txnId ≠ t) }
      (lm.dropWaiter t k).flags := by
    rw [flags_dropWaiter]
    refine ⟨⟨he.consistent, ?_, fun w hw => he.requests w (hsub.subset hw), (hsub.map _).nodup he.cells⟩,
      fun u _ hu => hu, fun u _ hu => hu, fun u hu => Or.inr (Or.inl hu),
      fun w hw => ⟨Or.inl (hsub.subset hw), hwf.cells k w (hsub.subset hw)⟩, ?_, fun c f hf => Or.inl hf⟩
    · intro hh
      simp [queue, he.queued hh]
    · intro w hw hne
      exact Or.inl (List.mem_filter.mpr ⟨hw, by simpa using hne⟩)
  exact h.acts hwf (entry_dropWaiter lm t k)

theorem finishWait_cases (lm : LockManager) (t : TxnId) (k : Key) (c : Nat) :
    (lm.finishWait t k c = (lm, true) ∧ (lm.flags.getD c {}).granted = true) ∨
      lm.finishWait t k c = (lm.dropWaiter t k, false) := by
  unfold finishWait
  generalize lm.flags.getD c {} = f
  obtain ⟨_ | _, _ | _⟩ := f <;> simp

theorem finishWait_acts (hwf : lm.WF) : Acts t lm (lm.finishWait t k c).1 := by
  rcases finishWait_cases lm t k c with ⟨h, _⟩ | h <;> rw [h]
  · exact Acts.refl hwf
  · exact dropWaiter_acts hwf

theorem finishWait_kept (lm : LockManager) (t : TxnId) (k : Key) (c : Nat) :
    KeptBy t lm (lm.finishWait t k c).1 := by
  rcases finishWait_cases lm t k c with ⟨h, _⟩ | h <;> rw [h]
  · exact ⟨fun _ => id, fun _ => id⟩
  · constructor <;> intro a
    · rw [(dropWaiter_holders lm t k a).1]; exact id
    · simp only [Sole, (dropWaiter_holders lm t k a).1, (dropWaiter_holders lm t k a).2]; exact id

/-- A wait that succeeds has been granted what it asked for. -/
theorem finishWait_true (hw : lm.Waits t k m c) (h : (lm.finishWait t k c).2 = true) :
    (lm.finishWait t k c).1 = lm ∧ t ∈ lm.holders k ∧ (m = .exclusive → lm.Sole t k) ∧
      lm.flags[c]? = some { granted := true } := by
  rcases finishWait_cases lm t k c with ⟨hr, hg⟩ | hr
  · rcases hw with ⟨_, hf⟩ | ⟨hf, hm, hx⟩
    · simp [List.getD_eq_getElem?_getD, hf] at hg
    · exact ⟨by rw [hr], hm, hx, hf⟩
  · rw [hr] at h
    cases h

/-- After a wait that fails no waiter of the caller is left at the key. -/
theorem finishWait_false (h : (lm.finishWait t k c).2 = false) :
    ∀ a, ∀ w ∈ (lm.finishWait t k c).1.queue a, w ∈ lm.queue a ∧ (a = k → w.txnId ≠ t) := by
  rcases finishWait_cases lm t k c with ⟨hr, _⟩ | hr
  · rw [hr] at h
    cases h
  · intro a w hw
    simp only [hr, queue, entry_dropWaiter] at hw
    split at hw
    · subst_vars
      have hw' := List.mem_filter.mp hw
      exact ⟨hw'.1, fun _ => by simpa using hw'.2⟩
    · exact ⟨hw, fun ha => absurd ha.symm ‹_›⟩

end FinishWait

/-! ## Releasing -/

section Release

variable {lm : LockManager} {t : TxnId} {k : Key}

/-- The entry and the flags after `t` is dropped from the holders of an entry. -/
def dropped (e : LockEntry) (fl : List WaitFlags) (t : TxnId) : LockEntry × List WaitFlags :=
  if e.holders.erase t = ∅ then grantWaiters .none ∅ fl e.waitQueue
  else ({ e with holders := e.holders.erase t }, fl)

theorem dropHolder_eq (lm : LockManager) (t : TxnId) (k : Key) :
    (lm.dropHolder t k).flags = (dropped (lm.entry k) lm.flags t).2 ∧
      ∀ a, (lm.dropHolder t k).entry a = if k = a then (dropped (lm.entry k) lm.flags t).1 else lm.entry a := by
  unfold dropHolder dropped
  cases h : lm.lockTable[k]? with
  | none =>
    rw [entry_of_none h]
    refine ⟨by simp [grantWaiters], fun a => ?_⟩
    by_cases ha : k = a
    · subst ha
      simp [entry_of_none h, grantWaiters]
    · simp [ha]
  | some e =>
    rw [entry_of_some h]
    by_cases he : e.holders.erase t = ∅
    · simp only [he, if_true, processWaiters, FinMap.find_insert, true_and]
      intro a
      simp only [entry, FinMap.find_insert]
      split <;> rfl
    · simp only [he, if_false, true_and]
      exact fun a => entry_insert _ _ _ _ _

/-- The last holder goes and the queue is served. -/
theorem served_acts (hwf : lm.WF) (hh : (lm.entry k).holders.erase t = ∅) :
    EntryActs t k lm (dropped (lm.entry k) lm.flags t).1 (dropped (lm.entry k) lm.flags t).2 := by
  have he := hwf.entries k
  have hlast : ∀ u, u ∈ lm.holders k → u = t := by
    intro u hu
    by_contra hne
    exact absurd (hh ▸ Finset.mem_erase.mpr ⟨hne, hu⟩) (Finset.notMem_empty u)
  obtain ⟨granted, rest, hsplit, hg, hfirst⟩ := grantWaiters_grants lm.flags
    (show Consistent .none ∅ from rfl) he.requests
  simp only [dropped, hh, if_true]
  have hnodup : (granted.map (·.flags)).Disjoint (rest.map (·.flags)) ∧ (rest.map (·.flags)).Nodup := by
    have := he.cells
    rw [hsplit, List.map_append, List.nodup_append] at this
    exact ⟨fun c hc hd => this.2.2 c hc c hd rfl, this.2.1⟩
  have hmem : ∀ w, w ∈ lm.queue k ↔ w ∈ granted ∨ w ∈ rest := by
    intro w
    rw [queue, hsplit, List.mem_append]
  refine ⟨⟨hg.consistent, ?_, ?_, ?_⟩, ?_, ?_, ?_, ?_, ?_, ?_⟩
  · intro hempty
    rw [hg.queue]
    apply hfirst rfl
    cases granted with
    | nil => rfl
    | cons w ws => exact absurd ((hg.holders w.txnId).mpr (Or.inr ⟨w, List.mem_cons_self, rfl⟩)) (by simp [hempty])
  · rw [hg.queue]
    exact fun w hw => he.requests w (by rw [hsplit]; exact List.mem_append_right _ hw)
  · rw [hg.queue]; exact hnodup.2
  · exact fun u hu hm => absurd (hlast u hm) hu
  · intro u hu hs
    exact absurd (hlast u (by rw [hs.1]; exact Finset.mem_singleton_self u)) hu
  · intro u hu
    rcases (hg.holders u).mp hu with hu | ⟨w, hw, rfl⟩
    · exact absurd hu (Finset.notMem_empty u)
    · exact Or.inr (Or.inr ⟨w, (hmem w).mpr (Or.inl hw), rfl⟩)
  · intro w hw
    rw [hg.queue] at hw
    have hw' := (hmem w).mpr (Or.inr hw)
    refine ⟨Or.inl hw', ?_⟩
    rw [hg.flags, if_neg fun hc => hnodup.1 hc (List.mem_map_of_mem hw)]
    exact hwf.cells k w hw'
  · intro w hw _
    rcases (hmem w).mp hw with hw' | hw'
    · refine Or.inr ⟨?_, (hg.holders _).mpr (Or.inr ⟨w, hw', rfl⟩), hg.exclusive w hw'⟩
      rw [hg.flags, if_pos (List.mem_map_of_mem hw'), hwf.cells k w hw]
      rfl
    · exact Or.inl (by rw [hg.queue]; exact hw')
  · intro c f hf
    rw [hg.flags]
    split
    · rename_i hc
      obtain ⟨w, hw, rfl⟩ := List.mem_map.mp hc
      exact Or.inr ⟨w, (hmem w).mpr (Or.inl hw), rfl⟩
    · exact Or.inl hf

theorem dropped_acts (hwf : lm.WF) : EntryActs t k lm (dropped (lm.entry k) lm.flags t).1
    (dropped (lm.entry k) lm.flags t).2 := by
  have he := hwf.entries k
  by_cases hh : (lm.entry k).holders.erase t = ∅
  · exact served_acts hwf hh
  · simp only [dropped, hh, if_false]
    refine ⟨⟨?_, fun h => absurd h hh, he.requests, he.cells⟩, fun u hu hm => Finset.mem_erase.mpr ⟨hu, hm⟩, ?_,
      fun u hu => Or.inr (Or.inl (Finset.mem_of_mem_erase hu)), fun w hw => ⟨Or.inl hw, hwf.cells k w hw⟩,
      fun w hw _ => Or.inl hw, fun c f hf => Or.inl hf⟩
    · have hc := he.consistent
      cases hm : (lm.entry k).currentMode with
      | none => rw [hm] at hc; exact absurd (by rw [show (lm.entry k).holders = ∅ from hc]; rfl) hh
      | shared => exact hh
      | exclusive =>
        rw [hm] at hc
        obtain ⟨u, hu⟩ := hc
        refine ⟨u, ?_⟩
        rw [hu] at hh ⊢
        by_cases htu : t = u
        · exact absurd (by simp [htu]) hh
        · exact Finset.erase_eq_of_notMem (by simpa using htu)
    · rintro u hu ⟨h1, h2⟩
      refine ⟨?_, h2⟩
      simp only [holders] at h1
      rw [h1]
      exact Finset.erase_eq_of_notMem (by simpa using Ne.symm hu)

theorem dropHolder_acts (hwf : lm.WF) : Acts t lm (lm.dropHolder t k) := by
  obtain ⟨hfl, he⟩ := dropHolder_eq lm t k
  have h := dropped_acts (t := t) (k := k) hwf
  rw [← hfl] at h
  exact h.acts hwf he

/-- The dropped holder comes back only from the queue, and the queue only gets shorter. -/
theorem dropped_queue {e : LockEntry} (he : e.WF) (fl : List WaitFlags) (t : TxnId) :
    (∀ w ∈ (dropped e fl t).1.waitQueue, w ∈ e.waitQueue) ∧
      (t ∈ (dropped e fl t).1.holders → ∃ w ∈ e.waitQueue, w.txnId = t) := by
  unfold dropped
  split
  · obtain ⟨granted, rest, hsplit, hg, _⟩ := grantWaiters_grants fl (show Consistent .none ∅ from rfl)
      he.requests
    rw [hsplit] at hg ⊢
    refine ⟨fun w hw => List.mem_append_right _ (hg.queue ▸ hw), fun ht => ?_⟩
    rcases (hg.holders t).mp ht with ht | ⟨w, hw, hwt⟩
    · exact absurd ht (Finset.notMem_empty t)
    · exact ⟨w, List.mem_append_left _ hw, hwt⟩
  · exact ⟨fun w hw => hw, fun ht => absurd rfl (Finset.ne_of_mem_erase ht)⟩

theorem dropHolder_notQueued (hwf : lm.WF) (hq : lm.NotQueued t) : (lm.dropHolder t k).NotQueued t := by
  intro a w hw
  rw [queue, (dropHolder_eq lm t k).2] at hw
  split at hw
  · exact hq k w ((dropped_queue (hwf.entries k) lm.flags t).1 w hw)
  · exact hq a w hw

/-- Dropping `t` from `k` takes `k` away from it and gives it no other key. -/
theorem dropHolder_notMem (hwf : lm.WF) (hq : lm.NotQueued t) {a : Key} (h : t ∈ (lm.dropHolder t k).holders a) :
    a ≠ k ∧ t ∈ lm.holders a := by
  rw [holders, (dropHolder_eq lm t k).2] at h
  split at h
  · obtain ⟨w, hw, hwt⟩ := (dropped_queue (hwf.entries k) lm.flags t).2 h
    exact absurd hwt (hq k w hw)
  · exact ⟨Ne.symm ‹_›, h⟩

/-- Only the entries and the flags matter. -/
theorem acts_of_same {lm' : LockManager} (hwf : lm.WF) (he : ∀ a, lm'.entry a = lm.entry a)
    (hf : lm'.flags = lm.flags) : Acts t lm lm' := by
  refine ⟨⟨fun a => by rw [he]; exact hwf.entries a, fun a w hw => ?_, fun a b w v hw hv => ?_⟩, ?_, ?_, ?_, ?_, ?_⟩
  · rw [queue, he] at hw
    rw [hf]
    exact hwf.cells a w hw
  · rw [queue, he] at hw hv
    exact hwf.distinct a b w v hw hv
  all_goals simp only [Waits, Sole, holders, mode, queue, he, hf]
  · exact fun u a _ h => h
  · exact fun u a _ h => h
  · exact fun u a m c _ h => h
  · exact fun u a h => Or.inr (Or.inl h)
  · exact fun a w h => Or.inl h

theorem entry_eq_of_isUnused (hwf : lm.WF) (h : lm.isUnused k = true) : lm.entry k = {} := by
  unfold isUnused at h
  cases he : lm.lockTable[k]? with
  | none => exact entry_of_none he
  | some e =>
    simp only [he, Bool.decide_and, Bool.and_eq_true, decide_eq_true_eq] at h
    have hc := (hwf.entries k).consistent
    rw [entry_of_some he] at hc ⊢
    obtain ⟨m, hs, q⟩ := e
    obtain ⟨rfl, rfl⟩ := h
    cases m with
    | none => rfl
    | shared => exact absurd rfl hc
    | exclusive => obtain ⟨u, hu⟩ := hc; exact absurd hu.symm (Finset.singleton_ne_empty u)

/-- Erasing an entry without holders and waiters cannot be seen. -/
theorem entry_erase {tbl : ExtTreeMap Key LockEntry} {fl : List WaitFlags} (h : entry ⟨tbl, fl⟩ k = {}) (a : Key) :
    entry ⟨tbl.erase k, fl⟩ a = entry ⟨tbl, fl⟩ a := by
  by_cases ha : k = a
  · subst ha
    rw [h, entry_of_none (by simp)]
  · simp [entry, FinMap.find_erase, ha]

theorem releaseLock_eq (hwf : lm.WF) (t : TxnId) (k : Key) :
    (∀ a, (lm.releaseLock t k).entry a = (lm.dropHolder t k).entry a) ∧
      (lm.releaseLock t k).flags = (lm.dropHolder t k).flags := by
  unfold releaseLock
  dsimp only
  split
  · have hu := entry_eq_of_isUnused (dropHolder_acts (t := t) (k := k) hwf).wf ‹_›
    exact ⟨entry_erase hu, rfl⟩
  · exact ⟨fun _ => rfl, rfl⟩

theorem releaseLock_acts (hwf : lm.WF) : Acts t lm (lm.releaseLock t k) := by
  obtain ⟨he, hf⟩ := releaseLock_eq hwf t k
  have h := dropHolder_acts (t := t) (k := k) hwf
  exact h.trans (acts_of_same h.wf he hf)

theorem releaseLock_notQueued (hwf : lm.WF) (hq : lm.NotQueued t) : (lm.releaseLock t k).NotQueued t := by
  intro a w hw
  rw [queue, (releaseLock_eq hwf t k).1] at hw
  exact dropHolder_notQueued hwf hq a w hw

/-- `releaseLock` touches one key only. -/
theorem releaseLock_of_ne (hwf : lm.WF) {a : Key} (ha : a ≠ k) {u : TxnId} :
    (u ∈ lm.holders a → u ∈ (lm.releaseLock t k).holders a) ∧ (lm.Sole u a → (lm.releaseLock t k).Sole u a) := by
  simp only [Sole, holders, mode, (releaseLock_eq hwf t k).1, (dropHolder_eq lm t k).2, if_neg (Ne.symm ha)]
  exact ⟨id, id⟩

/-! ## Releasing everything -/

/-- Every entry of the table is held. -/
def Occupied (lm : LockManager) : Prop := ∀ (k : Key) (e : LockEntry), lm.lockTable[k]? = some e → e.holders ≠ ∅

theorem dropHolder_lockTable_of_ne {a : Key} (ha : k ≠ a) : (lm.dropHolder t k).lockTable[a]? = lm.lockTable[a]? := by
  unfold dropHolder
  cases h : lm.lockTable[k]? with
  | none => rfl
  | some e =>
    by_cases he : e.holders.erase t = ∅
    · simp only [he, if_true, processWaiters, FinMap.find_insert, if_neg ha]
    · simp only [he, if_false, FinMap.find_insert, if_neg ha]

/-- An entry that nobody holds has no waiters, and is found to be unused. -/
theorem isUnused_of_holders {e : LockEntry} (hwf : lm.WF) (h : lm.lockTable[k]? = some e) (he : e.holders = ∅) :
    lm.isUnused k = true := by
  have hq := (hwf.entries k).queued
  rw [entry_of_some h] at hq
  simp [isUnused, h, he, hq he]

/-- What the first loop of `releaseAllLocks` keeps true of the table and the keys to erase. -/
structure Releasing (t : TxnId) (lm : LockManager) (done : List Key) (r : LockManager × List Key) : Prop where
  acts : Acts t lm r.1
  notQueued : lm.NotQueued t → r.1.NotQueued t
  released : lm.NotQueued t → ∀ a, t ∈ r.1.holders a → a ∉ done ∧ t ∈ lm.holders a
  unused : ∀ a ∈ r.2, r.1.entry a = {}
  occupied : lm.Occupied → ∀ {a e}, r.1.lockTable[a]? = some e → e.holders ≠ ∅ ∨ a ∈ r.2

theorem dropHolder_unused {a : Key} (h : lm.entry a = {}) : (lm.dropHolder t k).entry a = {} := by
  rw [(dropHolder_eq lm t k).2]
  split
  · subst_vars
    simp [h, dropped, grantWaiters]
  · exact h

theorem Releasing.turn {done : List Key} {r : LockManager × List Key} (h : Releasing t lm done r) (k : Key) :
    Releasing t lm (done ++ [k]) (releaseTurn t r k) where
  acts := h.acts.trans (dropHolder_acts h.acts.wf)
  notQueued hq := dropHolder_notQueued h.acts.wf (h.notQueued hq)
  released hq a ha := by
    obtain ⟨hne, ha⟩ := dropHolder_notMem h.acts.wf (h.notQueued hq) ha
    obtain ⟨hd, ha⟩ := h.released hq a ha
    exact ⟨by simp [hd, hne], ha⟩
  unused a ha := by
    simp only [releaseTurn] at ha ⊢
    split at ha
    · rcases List.mem_append.mp ha with ha | ha
      · exact dropHolder_unused (h.unused a ha)
      · obtain rfl := List.mem_singleton.mp ha
        exact entry_eq_of_isUnused (dropHolder_acts h.acts.wf).wf ‹_›
    · exact dropHolder_unused (h.unused a ha)
  occupied hocc a e he := by
    simp only [releaseTurn] at he ⊢
    by_cases ha : k = a
    · subst ha
      by_cases hh : e.holders = ∅
      · rw [if_pos (isUnused_of_holders (dropHolder_acts h.acts.wf).wf he hh)]
        exact Or.inr (by simp)
      · exact Or.inl hh
    · rw [dropHolder_lockTable_of_ne ha] at he
      refine (h.occupied hocc he).imp_right fun hmem => ?_
      split
      · exact List.mem_append_left _ hmem
      · exact hmem

theorem Releasing.turns : ∀ (ks : List Key) {done : List Key} {r : LockManager × List Key},
    Releasing t lm done r → Releasing t lm (done ++ ks) (ks.foldl (releaseTurn t) r)
  | [], done, r, h => by simpa using h
  | k :: ks, done, r, h => by
    have h' := (h.turn k).turns ks
    rw [List.append_assoc] at h'
    exact h'

theorem releasing_keysHeldBy (hwf : lm.WF) (t : TxnId) :
    Releasing t lm (lm.keysHeldBy t) ((lm.keysHeldBy t).foldl (releaseTurn t) (lm, [])) := by
  have h0 : Releasing t lm [] (lm, []) :=
    ⟨Acts.refl hwf, id, fun _ a ha => ⟨by simp, ha⟩, by simp, fun hocc _ _ he => Or.inl (hocc _ _ he)⟩
  exact h0.turns (lm.keysHeldBy t)

theorem entry_erase_all : ∀ (ks : List Key) {tbl : ExtTreeMap Key LockEntry} {fl : List WaitFlags},
    (∀ k ∈ ks, entry ⟨tbl, fl⟩ k = {}) → ∀ a, entry ⟨ks.foldl ExtTreeMap.erase tbl, fl⟩ a = entry ⟨tbl, fl⟩ a
  | [], _, _, _, _ => rfl
  | k :: ks, tbl, fl, h, a => by
    have hk := h k List.mem_cons_self
    rw [List.foldl_cons, entry_erase_all ks, entry_erase hk]
    intro b hb
    rw [entry_erase hk]
    exact h b (List.mem_cons_of_mem _ hb)

theorem find_erase_all {a : Key} {e : LockEntry} : ∀ (ks : List Key) {tbl : ExtTreeMap Key LockEntry},
    (ks.foldl ExtTreeMap.erase tbl)[a]? = some e → tbl[a]? = some e ∧ a ∉ ks
  | [], _, h => ⟨h, List.not_mem_nil⟩
  | k :: ks, tbl, h => by
    obtain ⟨h', hks⟩ := find_erase_all ks h
    rw [FinMap.find_erase] at h'
    split at h'
    · cases h'
    · exact ⟨h', List.not_mem_cons_of_ne_of_not_mem (Ne.symm ‹_›) hks⟩

theorem mem_keysHeldBy {a : Key} (h : t ∈ lm.holders a) : a ∈ lm.keysHeldBy t := by
  unfold holders entry at h
  cases he : lm.lockTable[a]? with
  | none => simp [he] at h
  | some e =>
    simp only [he, Option.getD_some] at h
    refine List.mem_map.mpr ⟨(a, e), List.mem_filter.mpr ⟨?_, by simpa using h⟩, rfl⟩
    rwa [ExtTreeMap.mem_toList_iff_getElem?_eq_some]

/-- `releaseAllLocks` takes nothing from the others. -/
theorem releaseAllLocks_acts (hwf : lm.WF) (t : TxnId) : Acts t lm (lm.releaseAllLocks t) := by
  have h := releasing_keysHeldBy hwf t
  exact h.acts.trans (acts_of_same h.acts.wf (entry_erase_all _ h.unused) rfl)

/-- What passes from `dropHolder` to the two release functions: only the entries and the flags matter to it, and it
composes along calls of `t`. -/
structure Lifts (t : TxnId) (R : LockManager → LockManager → Prop) : Prop where
  same : ∀ {lm lm'}, lm.WF → (∀ a, lm'.entry a = lm.entry a) → lm'.flags = lm.flags → R lm lm'
  trans : ∀ {lm lm' lm''}, lm.WF → Acts t lm lm' → R lm lm' → Acts t lm' lm'' → R lm' lm'' → R lm lm''
  dropHolder : ∀ {lm k}, lm.WF → R lm (lm.dropHolder t k)

section Lifts

variable {R : LockManager → LockManager → Prop}

theorem Lifts.releaseLock (h : Lifts t R) (hwf : lm.WF) : R lm (lm.releaseLock t k) := by
  obtain ⟨he, hf⟩ := releaseLock_eq hwf t k
  have hd : Acts t lm (lm.dropHolder t k) := dropHolder_acts hwf
  exact h.trans hwf hd (h.dropHolder hwf) (acts_of_same hd.wf he hf) (h.same hd.wf he hf)

theorem Lifts.turns (h : Lifts t R) (hwf : lm.WF) : ∀ (ks : List Key) {r : LockManager × List Key}, Acts t lm r.1 →
    R lm r.1 → R lm (ks.foldl (releaseTurn t) r).1
  | [], _, _, hr => hr
  | k :: ks, r, ha, hr => by
    have hd : Acts t r.1 (releaseTurn t r k).1 := dropHolder_acts ha.wf
    exact h.turns hwf ks (ha.trans hd) (h.trans hwf ha hr hd (h.dropHolder ha.wf))

theorem Lifts.releaseAllLocks (h : Lifts t R) (hwf : lm.WF) : R lm (lm.releaseAllLocks t) := by
  have hr := releasing_keysHeldBy hwf t
  have he := entry_erase_all _ hr.unused
  have hturns := h.turns hwf (lm.keysHeldBy t) (r := (lm, [])) (Acts.refl hwf) (h.same hwf (fun _ => rfl) rfl)
  exact h.trans hwf hr.acts hturns (acts_of_same hr.acts.wf he rfl) (h.same hr.acts.wf he rfl)

end Lifts

/-- `releaseAllLocks` leaves nothing to its caller. -/
theorem releaseAllLocks_free (hwf : lm.WF) (hq : lm.NotQueued t) :
    (lm.releaseAllLocks t).NotQueued t ∧ ∀ a, t ∉ (lm.releaseAllLocks t).holders a := by
  have h := releasing_keysHeldBy hwf t
  have he : ∀ a, (lm.releaseAllLocks t).entry a = _ := entry_erase_all _ h.unused
  refine ⟨fun a w hw => ?_, fun a ha => ?_⟩
  · rw [queue, he] at hw
    exact h.notQueued hq a w hw
  · rw [holders, he] at ha
    obtain ⟨hn, ha⟩ := h.released hq a ha
    exact hn (mem_keysHeldBy ha)

end Release

end LockManager

end Kvdb
