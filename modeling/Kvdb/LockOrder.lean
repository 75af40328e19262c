import Kvdb.LockCalls

/-!
# The order of the requests at a key

A request that finds another one in the queue of its key waits behind it. The queue loses requests at its front, by
grants, and wherever the caller gives up, and gains them at its end (`lockStep_queue`), so the later request stays
behind the earlier one until one of the two has left it (`Behind`). This is why no request is overtaken
(`not_overtaken`).
-/

namespace Kvdb

open Std LockManager Machine

/-! ## What a step does to a queue -/

section Queues

variable {lm : LockManager} {t : TxnId} {k : Key} {m : LockMode}

/-- The grants are taken from the front. -/
theorem dropHolder_suffix (hwf : lm.WF) (t : TxnId) (k a : Key) : (lm.dropHolder t k).queue a <:+ lm.queue a := by
  rw [queue, (dropHolder_eq lm t k).2]
  split
  · subst_vars
    unfold dropped
    split
    · obtain ⟨granted, rest, hsplit, hg, -⟩ := grantWaiters_grants lm.flags (show Consistent .none ∅ from rfl)
        (hwf.entries a).requests
      rw [hg.queue, queue, hsplit]
      exact List.suffix_append granted rest
    · exact List.suffix_rfl
  · exact List.suffix_rfl

theorem suffix_lifts (t : TxnId) : Lifts t fun lm lm' => ∀ a, lm'.queue a <:+ lm.queue a where
  same _ he _ a := by rw [queue, he]; exact List.suffix_rfl
  trans _ _ h _ h' a := (h' a).trans (h a)
  dropHolder hwf := dropHolder_suffix hwf t _

/-- A transaction that needs the key finds a request in its queue that is not its own: it has to wait. -/
theorem tryGrant_of_mem_queue {w : LockWaiter} (hw : w ∈ lm.queue k) (hnq : lm.NotQueued t)
    (hneeds : t ∈ lm.holders k → lm.mode k ≠ .exclusive ∧ m ≠ .shared) : (lm.entry k).tryGrant t m = none := by
  have hne : (lm.entry k).waitQueue ≠ [] := List.ne_nil_of_mem hw
  have hfront : (lm.entry k).waitQueue.head?.map (·.txnId) ≠ some t := by
    intro hhead
    obtain ⟨v, hv, hvt⟩ := Option.map_eq_some_iff.mp hhead
    exact hnq k v (List.mem_of_mem_head? hv) hvt
  rw [LockEntry.tryGrant]
  by_cases hmem : t ∈ (lm.entry k).holders
  · have hheld : ¬ ((lm.entry k).currentMode = .exclusive ∨ m = .shared) := not_or.mpr (hneeds hmem)
    rw [if_pos hmem, if_neg hheld, if_neg hne, if_neg hfront]
    exact ite_self none
  · rw [if_neg hmem, if_neg fun h => hne h.2]

end Queues

section Step

variable {s s' : LockState} {a : LockAction} {evs : List LockReply} {t : TxnId} {k : Key} {m : LockMode}

/-- A call that is granted at once does so beside the queue: the caller's own request is not in it. -/
theorem tryGrant_queue {lm : LockManager} {e' : LockEntry} (hnq : lm.NotQueued t) (hm : m ≠ .none)
    (h : (lm.entry k).tryGrant t m = some e') : e'.waitQueue = lm.queue k := by
  rcases tryGrant_cases hm h with ⟨rfl, -⟩ | ⟨-, -, -, -, hq | ⟨w, hwt, hq⟩⟩ | ⟨-, -, -, rfl⟩
  · rfl
  · exact hq
  · exact absurd hwt (hnq k w (by rw [queue, hq]; exact List.mem_cons_self))
  · rfl

theorem acquireLock_queue {lm : LockManager} (hnq : lm.NotQueued t) (hm : m ≠ .none) (b : Key) :
    ∃ new, (lm.acquireLock t k m).1.queue b = lm.queue b ++ new ∧ ∀ v ∈ new, v.flags = lm.flags.length := by
  rcases acquireLock_cases lm t k m with ⟨e', he, hr⟩ | ⟨hr, -⟩ <;> rw [hr, queue, entry_insert] <;> split
  · subst_vars
    exact ⟨[], by rw [tryGrant_queue hnq hm he, List.append_nil], by simp⟩
  · exact ⟨[], (List.append_nil _).symm, by simp⟩
  · subst_vars
    exact ⟨[⟨t, m, lm.flags.length⟩], rfl, by simp⟩
  · exact ⟨[], (List.append_nil _).symm, by simp⟩

theorem filter_queue_of_notQueued {lm : LockManager} (hnq : lm.NotQueued t) {rest : List LockWaiter}
    (hrest : rest <:+ lm.queue k) : rest.filter (·.txnId ≠ t) = rest :=
  List.filter_eq_self.mpr fun w hw => decide_eq_true (hnq k w (hrest.subset hw))

/-- **What a step does to a queue**: requests leave it at the front, the caller's own request leaves it from anywhere,
and a new one comes to its end. -/
theorem lockStep_queue (hinv : RequestInv s) (hone : OneRequest s a) (hs : lockStep s a = some (s', evs)) (k : Key) :
    ∃ rest new, rest <:+ s.locks.queue k ∧ s'.locks.queue k = rest.filter (·.txnId ≠ a.txnId) ++ new ∧
      ∀ v ∈ new, v.flags = s.locks.flags.length := by
  cases a with
  | acquire t b m =>
    have hnq := hinv.notQueued hone
    obtain ⟨hm, hlocks, -⟩ := lockStep_acquire hs
    obtain ⟨new, hq, hnew⟩ := acquireLock_queue hnq hm k (k := b)
    refine ⟨s.locks.queue k, new, List.suffix_rfl, ?_, hnew⟩
    rw [hlocks, hq, LockAction.txnId, filter_queue_of_notQueued hnq List.suffix_rfl]
  | finish t b c =>
    refine ⟨s.locks.queue k, [], List.suffix_rfl, ?_, by simp⟩
    obtain ⟨hmem, hlocks, -⟩ := lockStep_finish hs
    rw [hlocks, List.append_nil, LockAction.txnId]
    -- the caller waits at one key only
    have hkey : ∀ w ∈ s.locks.queue k, w.txnId = t → k = b ∧ w.flags = c := by
      intro w hw ht
      have heq : (w.txnId, k, w.flags) = (t, b, c) := hinv.eq_of_mem (hinv.queued k w hw) hmem ht
      simpa [ht] using heq
    have hself : (∀ w ∈ s.locks.queue k, w.txnId ≠ t) → (s.locks.queue k).filter (·.txnId ≠ t) = s.locks.queue k :=
      fun h => List.filter_eq_self.mpr fun w hw => decide_eq_true (h w hw)
    rcases finishWait_cases s.locks t b c with ⟨hr, hg⟩ | hr <;> rw [hr]
    · rw [hself fun w hw ht => ?_]
      obtain ⟨-, rfl⟩ := hkey w hw ht
      exact notQueued_of_granted hinv.wf hg k w hw rfl
    · rw [queue, entry_dropWaiter]
      split
      · subst_vars
        rfl
      · exact (hself fun w hw ht => absurd (hkey w hw ht).1.symm ‹_›).symm
  | release t b =>
    cases hs
    have hsuffix := (suffix_lifts t).releaseLock (k := b) hinv.wf k
    refine ⟨_, [], hsuffix, ?_, by simp⟩
    rw [LockAction.txnId, filter_queue_of_notQueued (hinv.notQueued hone) hsuffix, List.append_nil]
  | releaseAll t =>
    cases hs
    have hsuffix := (suffix_lifts t).releaseAllLocks hinv.wf k
    refine ⟨_, [], hsuffix, ?_, by simp⟩
    rw [LockAction.txnId, filter_queue_of_notQueued (hinv.notQueued hone) hsuffix, List.append_nil]

end Step

/-! ## One request behind another -/

/-- What stands behind a member of a list stands behind it in every end of the list it is in. -/
theorem sublist_of_suffix {α : Type*} {x y : α} {rest l : List α} (hn : l.Nodup) (hrest : rest <:+ l)
    (h : [x, y].Sublist l) (hx : x ∈ rest) : [x, y].Sublist rest := by
  obtain ⟨front, rfl⟩ := hrest
  have hfront : x ∉ front := fun hmem => List.disjoint_of_nodup_append hn hmem hx
  obtain ⟨l₁, l₂, heq, h₁, h₂⟩ := List.sublist_append_iff.mp h
  cases l₁ with
  | nil =>
    rw [heq]
    exact h₂
  | cons z l₁ =>
    obtain rfl : x = z := (List.cons.inj heq).1
    exact absurd (h₁.subset List.mem_cons_self) hfront

/-- The request `v` has been made while `w` was in the queue of the key: as long as `w` is in it, `v` is behind it or
has timed out. -/
structure Behind (lm₁ : LockManager) (k : Key) (w v : LockWaiter) (s : LockState) : Prop where
  inv : RequestInv s
  earlier : Outstanding lm₁ w.txnId k w.requestedMode w.flags s ∨ ∃ f, Returned w.txnId k w.flags f s
  order : w ∈ s.locks.queue k → [w, v].Sublist (s.locks.queue k) ∨ Returned v.txnId k v.flags {} s

section Behind

variable {lm₁ : LockManager} {k : Key} {w v : LockWaiter} {s s' : LockState} {a : LockAction} {evs : List LockReply}
  {t : TxnId} {m : LockMode}

/-- A queued request waits. -/
theorem outstanding_of_mem (hinv : RequestInv s) (hw : w ∈ s.locks.queue k) :
    Outstanding s.locks w.txnId k w.requestedMode w.flags s :=
  ⟨hinv, hinv.queued k w hw, Or.inl ⟨hw, hinv.wf.cells k w hw⟩, fun _ => ⟨Iff.rfl, fun _ => rfl⟩⟩

/-- The wait of a queued request ends: it has timed out. -/
theorem returned_of_finish (hinv : RequestInv s) (hw : w ∈ s.locks.queue k)
    (hs : lockStep s (.finish w.txnId k w.flags) = some (s', evs)) : Returned w.txnId k w.flags {} s' := by
  have hflags : s'.locks.flags = s.locks.flags := by
    rw [(lockStep_finish hs).2.1]
    rcases finishWait_cases s.locks w.txnId k w.flags with ⟨hr, -⟩ | hr <;> rw [hr]
    exact flags_dropWaiter ..
  rcases (outstanding_of_mem hinv hw).finish hs with ⟨-, -, hret⟩ | ⟨-, -, -, -, hret⟩
  · have hf := hret.flags
    rw [hflags, hinv.wf.cells k w hw] at hf
    cases hf
  · exact hret

/-- The flags of a request are there from its call on. -/
theorem Behind.flags_lt (h : Behind lm₁ k w v s) : w.flags < s.locks.flags.length := by
  have hflags : ∃ f, s.locks.flags[w.flags]? = some f := by
    rcases h.earlier with ⟨-, -, ⟨-, hf⟩ | ⟨hf, -⟩, -⟩ | ⟨f, hret⟩
    · exact ⟨_, hf⟩
    · exact ⟨_, hf⟩
    · exact ⟨f, hret.flags⟩
  obtain ⟨f, hf⟩ := hflags
  exact (List.getElem?_eq_some_iff.mp hf).1

theorem Behind.step (h : Behind lm₁ k w v s) (hone : OneRequest s a) (hs : lockStep s a = some (s', evs)) :
    Behind lm₁ k w v s' := by
  have hreach : s.Reaches s' := ⟨[a], evs, by simpa using Run.snoc .nil hone hs⟩
  refine ⟨h.inv.step hone hs, ?_, fun hw' => ?_⟩
  · rcases h.earlier with h | ⟨f, h⟩
    · exact outstanding_of_reaches hreach h
    · exact Or.inr ⟨f, h.step hs⟩
  · obtain ⟨rest, new, hsuffix, hq, hnew⟩ := lockStep_queue h.inv hone hs k
    -- a new request has other flags, so `w` was in the queue before
    obtain ⟨hrest, hwt⟩ : w ∈ rest ∧ w.txnId ≠ a.txnId := by
      rw [hq] at hw'
      rcases List.mem_append.mp hw' with hw' | hw'
      · exact ⟨(List.mem_filter.mp hw').1, of_decide_eq_true (List.mem_filter.mp hw').2⟩
      · exact absurd (hnew w hw') (Nat.ne_of_lt h.flags_lt)
    rcases h.order (hsuffix.subset hrest) with horder | hret
    · by_cases hvt : v.txnId = a.txnId
      · have hv : v ∈ s.locks.queue k := horder.subset (by simp)
        have hfinish : a = .finish v.txnId k v.flags := by
          by_contra hne
          exact (outstanding_of_mem h.inv hv).txnId_ne hone hs hne hvt
        subst hfinish
        exact Or.inr (returned_of_finish h.inv hv hs)
      · left
        have hnodup : (s.locks.queue k).Nodup := (h.inv.wf.entries k).cells.of_map _
        have hsub := (sublist_of_suffix hnodup hsuffix horder hrest).filter (·.txnId ≠ a.txnId)
        rw [List.filter_eq_self.mpr (by simp [hwt, hvt])] at hsub
        rw [hq]
        exact hsub.trans (List.sublist_append_left _ _)
    · exact Or.inr (hret.step hs)

theorem behind_of_reaches (h : s.Reaches s') (h0 : Behind lm₁ k w v s) : Behind lm₁ k w v s' :=
  h.invariant (Behind lm₁ k w v) Behind.step h0

/-- The later request is behind the earlier one as soon as it is made. -/
theorem Behind.of_acquire (hinv : RequestInv s) (hw : w ∈ s.locks.queue k) (hone : OneRequest s (.acquire t k m))
    (hneeds : t ∈ s.locks.holders k → s.locks.mode k ≠ .exclusive ∧ m ≠ .shared)
    (hs : lockStep s (.acquire t k m) = some (s', evs)) :
    evs = [] ∧ Behind s.locks k w ⟨t, m, s.locks.flags.length⟩ s' := by
  have hnone := tryGrant_of_mem_queue hw (hinv.notQueued hone) hneeds
  rcases acquireLock_cases s.locks t k m with ⟨e', he, -⟩ | ⟨hr, -⟩
  · rw [hnone] at he
    cases he
  · have hreach : s.Reaches s' := ⟨[_], evs, by simpa using Run.snoc .nil hone hs⟩
    obtain ⟨-, hlocks, ⟨hacq, -⟩ | ⟨-, -, hevs⟩⟩ := lockStep_acquire hs
    · rw [hr] at hacq
      cases hacq
    · refine ⟨hevs, hinv.step hone hs, outstanding_of_reaches hreach (outstanding_of_mem hinv hw), fun _ => Or.inl ?_⟩
      rw [hlocks, hr, queue, entry_insert, if_pos rfl]
      exact (List.singleton_sublist.mpr hw).append (List.Sublist.refl _)

/-- While the earlier request is queued, the later one has not been granted. -/
theorem Behind.not_granted (h : Behind lm₁ k w v s) (hw : w ∈ s.locks.queue k) : ¬ s.locks.Granted v.flags := by
  intro hg
  rcases h.order hw with horder | hret
  · exact notQueued_of_granted h.inv.wf hg k v (horder.subset (by simp)) rfl
  · rw [granted_iff hret.flags] at hg
    cases hg

end Behind

/-- **No request is overtaken.** A transaction asks for a key at which another one waits, and needs a new lock or an
upgrade. It is not granted at once, and in every later state: while the earlier request is queued, the later one has not
been granted, and its wait can only end with `false`; once the later one is granted, the earlier one has been granted or
its call has returned. -/
theorem not_overtaken {s₁ s₂ : LockState} {w : LockWaiter} {t : TxnId} {k : Key} {m : LockMode} {evs : List LockReply}
    (h₁ : LockState.Reaches {} s₁) (hw : w ∈ s₁.locks.queue k) (hone : OneRequest s₁ (.acquire t k m))
    (hneeds : t ∈ s₁.locks.holders k → s₁.locks.mode k ≠ .exclusive ∧ m ≠ .shared)
    (hcall : lockStep s₁ (.acquire t k m) = some (s₂, evs)) :
    w.txnId ≠ t ∧ evs = [] ∧ ∀ s, s₂.Reaches s →
      (w ∈ s.locks.queue k → ¬ s.locks.Granted s₁.locks.flags.length ∧
        ∀ s' evs', lockStep s (.finish t k s₁.locks.flags.length) = some (s', evs') → evs' = [⟨t, k, false⟩]) ∧
      (s.locks.Granted s₁.locks.flags.length → s.locks.Granted w.flags ∨ (w.txnId, k, w.flags) ∉ s.waiting) := by
  have hinv := requestInv_of_reaches h₁ requestInv_empty
  obtain ⟨hevs, hbehind⟩ := Behind.of_acquire hinv hw hone hneeds hcall
  refine ⟨hinv.notQueued hone k w hw, hevs, fun s hreach => ?_⟩
  have h := behind_of_reaches hreach hbehind
  refine ⟨fun hw' => ⟨h.not_granted hw', fun s' evs' hs => ?_⟩, fun hg => ?_⟩
  · rcases finishWait_cases s.locks t k s₁.locks.flags.length with ⟨-, hg⟩ | hr
    · exact absurd hg (h.not_granted hw')
    · rw [(lockStep_finish hs).2.2.2, hr]
  · rcases h.earlier with ⟨-, -, ⟨hw', -⟩ | ⟨hf, -⟩, -⟩ | ⟨f, hret⟩
    · exact absurd hg (h.not_granted hw')
    · exact Or.inl ((granted_iff hf).mpr rfl)
    · exact Or.inr hret.notMem

/-- A reader holds the key, a writer waits, and a second reader comes: it waits behind the writer, and the writer is
granted first. -/
theorem not_overtaken_reader : ∃ s₁ s₂ s, ∃ w ∈ s₁.locks.queue [97], LockState.Reaches {} s₁ ∧
    lockStep s₁ (.acquire 3 [97] .shared) = some (s₂, []) ∧ s₂.Reaches s ∧
    s.locks.Granted 1 ∧ (s.locks.Granted w.flags ∨ (w.txnId, [97], w.flags) ∉ s.waiting) := by
  have hrun := exists_run_of_exec lockStep OneRequest {} [.acquire 1 [97] .shared, .acquire 2 [97] .exclusive]
    (fun s₁ _ => decide (s₁.locks.queue [97] = [⟨2, .exclusive, 0⟩] ∧ 3 ∉ s₁.locks.holders [97] ∧
        s₁.locks.flags.length = 1 ∧ OneRequest s₁ (.acquire 3 [97] .shared)) &&
      (lockStep s₁ (.acquire 3 [97] .shared)).any fun r => decide (r.2 = []) &&
        (exec lockStep OneRequest r.1 [.release 1 [97], .finish 2 [97] 0, .release 2 [97]]).any fun r' =>
          (r'.1.locks.flags.getD 1 {}).granted)
    (by decide +kernel)
  obtain ⟨s₁, tr, hr, hp⟩ := hrun
  simp only [Bool.and_eq_true, decide_eq_true_eq, Option.any_eq_true] at hp
  obtain ⟨⟨hq, hmem, hlen, hone⟩, ⟨s₂, evs⟩, hcall, hevs, hexec⟩ := hp
  obtain rfl : evs = [] := hevs
  obtain ⟨⟨s, tr'⟩, hlater, hg⟩ := hexec
  have hreach : LockState.Reaches {} s₁ := ⟨_, tr, hr⟩
  have hw : ⟨2, .exclusive, 0⟩ ∈ s₁.locks.queue [97] := hq ▸ List.mem_singleton_self _
  have hlater : s₂.Reaches s := ⟨_, tr', exec_run hlater⟩
  obtain ⟨-, -, hafter⟩ := not_overtaken hreach hw hone (fun h => absurd h hmem) hcall
  rw [hlen] at hafter
  exact ⟨s₁, s₂, s, _, hw, hreach, hcall, hlater, hg, (hafter s hlater).2 hg⟩

end Kvdb
