import Mathlib.Data.List.Basic
import Mathlib.Logic.Function.Basic

/-!
# Atomic transactional stores

The specification of a store with transactions: a history is a list of observations, and the store accepts it when
every one of them is possible in the state that the earlier ones lead to. A `get` is answered from the own writes of
the transaction and the committed values at that instant, a commit puts all writes of the transaction into the
committed values at once, and an abort has no effect. A transaction may be *stable*: what it has read stays protected
from the writes of the others until it ends.

- `next`, `after`: the state that observations lead to; `Enabled`, `Accepts`: when they are possible;
- `Accepts.consistent`: in an accepted history every stable transaction could make all its calls again, with the same
  answers, over the committed values of any later instant of its life, and in particular of its commit.

How an answer depends on the own write and on the committed value is a parameter.
-/

namespace Kvdb.AtomicStore

variable {T K V R : Type}

/-- A call with its answer. -/
inductive Call (K V R : Type)
  | put (key : K) (value : V)
  | delete (key : K)
  | get (key : K) (answer : R)
  deriving DecidableEq, Repr

/-- A transaction that has neither committed nor aborted. -/
structure Txn (K V R : Type) where
  stable : Bool
  calls : List (Call K V R) := []
  deriving DecidableEq, Repr

inductive Observation (T K V R : Type)
  | began (t : T) (stable : Bool)
  | called (t : T) (call : Call K V R)
  | committed (t : T)
  | aborted (t : T)
  deriving DecidableEq, Repr

structure State (T K V R : Type) where
  values : K → Option V
  live : T → Option (Txn K V R) := fun _ => none

/-! ## Own writes and replays -/

section Calls

variable [DecidableEq K]

/-- What the call writes to the key; `some none` is a deletion. -/
def Call.write (k : K) : Call K V R → Option (Option V)
  | .put key value => if key = k then some (some value) else none
  | .delete key => if key = k then some none else none
  | .get _ _ => none

/-- The last write of the key among the calls. -/
def written (calls : List (Call K V R)) (k : K) : Option (Option V) :=
  calls.foldl (fun w c => (c.write k).or w) none

@[simp] theorem written_nil (k : K) : written ([] : List (Call K V R)) k = none := rfl

@[simp] theorem written_append (calls : List (Call K V R)) (c : Call K V R) (k : K) :
    written (calls ++ [c]) k = (c.write k).or (written calls k) := by simp [written]

/-- Every `get` among the calls would be answered the same way over these values. -/
def Replays (answer : Option (Option V) → Option V → R) (values : K → Option V) (calls : List (Call K V R)) : Prop :=
  ∀ pre k r post, calls = pre ++ .get k r :: post → r = answer (written pre k) (values k)

variable {answer : Option (Option V) → Option V → R} {values values' : K → Option V} {calls : List (Call K V R)}

theorem replays_nil : Replays answer values ([] : List (Call K V R)) := by
  intro pre k r post h
  simp at h

/-- One more call is one more answer to compare. -/
theorem Replays.append (h : Replays answer values calls) {c : Call K V R}
    (hc : ∀ k r, c = .get k r → r = answer (written calls k) (values k)) : Replays answer values (calls ++ [c]) := by
  intro pre k r post heq
  rcases List.eq_nil_or_concat post with rfl | ⟨post', c', rfl⟩
  · obtain ⟨rfl, hlast⟩ := List.append_inj' heq rfl
    exact hc k r (List.singleton_inj.mp hlast)
  · rw [List.concat_eq_append, ← List.cons_append, ← List.append_assoc] at heq
    exact h pre k r post' (List.append_inj' heq rfl).1

/-- Only the values of the keys that are read count. -/
theorem Replays.congr (h : Replays answer values calls) (hv : ∀ k r, .get k r ∈ calls → values' k = values k) :
    Replays answer values' calls := by
  intro pre k r post heq
  rw [hv k r (by rw [heq]; simp)]
  exact h pre k r post heq

end Calls

/-! ## The store -/

section Store

variable [DecidableEq T] [DecidableEq K]

/-- The committed values after the transaction with these calls commits. -/
def overlay (values : K → Option V) (calls : List (Call K V R)) : K → Option V :=
  fun k => (written calls k).getD (values k)

/-- The state an observation leads to. -/
def next (s : State T K V R) : Observation T K V R → State T K V R
  | .began t stable => { s with live := Function.update s.live t (some { stable := stable }) }
  | .called t c =>
    { s with live := Function.update s.live t ((s.live t).map fun x => { x with calls := x.calls ++ [c] }) }
  | .committed t =>
    { values := match s.live t with
        | some x => overlay s.values x.calls
        | none => s.values
      live := Function.update s.live t none }
  | .aborted t => { s with live := Function.update s.live t none }

def after (s : State T K V R) (os : List (Observation T K V R)) : State T K V R := os.foldl next s

/-- No other transaction has written the key. -/
def Unwritten (s : State T K V R) (t : T) (k : K) : Prop :=
  ∀ t' x, t' ≠ t → s.live t' = some x → written x.calls k = none

/-- No other stable transaction has read the key. -/
def Unread (s : State T K V R) (t : T) (k : K) : Prop :=
  ∀ t' x r, t' ≠ t → s.live t' = some x → x.stable = true → .get k r ∉ x.calls

/-- The call is possible, with this answer. -/
def CallEnabled (answer : Option (Option V) → Option V → R) (s : State T K V R) (t : T) (x : Txn K V R) :
    Call K V R → Prop
  | .put k _ | .delete k => Unwritten s t k ∧ Unread s t k
  | .get k r => r = answer (written x.calls k) (s.values k) ∧ Unwritten s t k

/-- The observation is possible. -/
def Enabled (answer : Option (Option V) → Option V → R) (s : State T K V R) : Observation T K V R → Prop
  | .began t _ => s.live t = none
  | .called t c => ∃ x, s.live t = some x ∧ CallEnabled answer s t x c
  | .committed t | .aborted t => (s.live t).isSome = true

/-- Every observation is possible in its turn. -/
def Accepts (answer : Option (Option V) → Option V → R) (s : State T K V R) : List (Observation T K V R) → Prop
  | [] => True
  | o :: os => Enabled answer s o ∧ Accepts answer (next s o) os

variable {answer : Option (Option V) → Option V → R} {s : State T K V R}

@[simp] theorem after_nil : after s [] = s := rfl

theorem after_append (os os' : List (Observation T K V R)) : after s (os ++ os') = after (after s os) os' :=
  List.foldl_append ..

theorem accepts_append : ∀ {s : State T K V R} {os os' : List (Observation T K V R)},
    Accepts answer s (os ++ os') ↔ Accepts answer s os ∧ Accepts answer (after s os) os'
  | s, [], os' => by simp [Accepts]
  | s, o :: os, os' => by
    rw [List.cons_append, Accepts, Accepts, accepts_append, and_assoc]
    rfl

/-! ## Stable transactions -/

/-- What stable transactions have read is still valid, and no other transaction has written it. -/
structure Consistent (answer : Option (Option V) → Option V → R) (s : State T K V R) : Prop where
  replays : ∀ {t x}, s.live t = some x → x.stable = true → Replays answer s.values x.calls
  guarded : ∀ {t x k r}, s.live t = some x → x.stable = true → .get k r ∈ x.calls → Unwritten s t k

omit [DecidableEq T] in
theorem consistent_of_idle (h : ∀ t, s.live t = none) : Consistent answer s :=
  ⟨fun hx => by simp [h] at hx, fun hx => by simp [h] at hx⟩

/-- One transaction changes or ends, and values change that no other stable transaction has read. -/
theorem Consistent.update (h : Consistent answer s) {t : T} {y : Option (Txn K V R)} {values' : K → Option V}
    (hvalues : ∀ k, values' k = s.values k ∨ Unread s t k)
    (hreplays : ∀ x, y = some x → x.stable = true → Replays answer values' x.calls)
    (hguarded : ∀ x k r, y = some x → x.stable = true → .get k r ∈ x.calls → Unwritten s t k)
    (hwrites : ∀ x k, y = some x → written x.calls k = none ∨ Unread s t k) :
    Consistent answer ⟨values', Function.update s.live t y⟩ := by
  have hself : Function.update s.live t y t = y := Function.update_self ..
  have hother : ∀ {t'}, t' ≠ t → Function.update s.live t y t' = s.live t' := fun ht => Function.update_of_ne ht ..
  refine ⟨fun {t' x} hx hst => ?_, fun {t' x k r} hx hst hg u z hu hz => ?_⟩
  · by_cases ht : t' = t
    · subst ht
      exact hreplays x (hself ▸ hx) hst
    · replace hx : s.live t' = some x := hother ht ▸ hx
      refine (h.replays hx hst).congr fun k r hg => ?_
      exact (hvalues k).resolve_right fun hun => hun t' x r ht hx hst hg
  · by_cases ht : t' = t
    · subst ht
      exact hguarded x k r (hself ▸ hx) hst hg u z hu (hother hu ▸ hz)
    · replace hx : s.live t' = some x := hother ht ▸ hx
      by_cases hut : u = t
      · subst hut
        exact (hwrites z k (hself ▸ hz)).resolve_right fun hun => hun t' x r ht hx hst hg
      · exact h.guarded hx hst hg u z hu (hother hut ▸ hz)

omit [DecidableEq T] in
/-- What a transaction has written, no other stable transaction has read. -/
theorem Consistent.unread (h : Consistent answer s) {t : T} {x : Txn K V R} (hx : s.live t = some x) (k : K) :
    written x.calls k = none ∨ Unread s t k := by
  refine (Option.eq_none_or_eq_some _).imp_right ?_
  rintro ⟨w, hw⟩ t' y r ht hy hst hg
  rw [h.guarded hy hst hg t x (Ne.symm ht) hx] at hw
  cases hw

theorem Consistent.next (h : Consistent answer s) {o : Observation T K V R} (ho : Enabled answer s o) :
    Consistent answer (next s o) := by
  cases o with
  | began t stable =>
    refine h.update (fun _ => Or.inl rfl) ?_ ?_ ?_
    · rintro x ⟨rfl⟩ _
      exact replays_nil
    · rintro x k r ⟨rfl⟩ _ hg
      cases hg
    · rintro x k ⟨rfl⟩
      exact Or.inl rfl
  | called t c =>
    obtain ⟨x, hx, hc⟩ := ho
    show Consistent answer ⟨s.values, Function.update s.live t _⟩
    rw [hx, Option.map_some]
    refine h.update (fun _ => Or.inl rfl) ?_ ?_ ?_
    · rintro y ⟨rfl⟩ hst
      refine (h.replays hx hst).append ?_
      rintro k r rfl
      exact hc.1
    · rintro y k r ⟨rfl⟩ hst hg
      rcases List.mem_append.mp hg with hg | hg
      · exact h.guarded hx hst hg
      · obtain rfl := List.mem_singleton.mp hg
        exact hc.2
    · rintro y k ⟨rfl⟩
      rw [written_append]
      cases c with
      | get key r => exact h.unread hx k
      | put key value | delete key =>
        by_cases hk : key = k
        · subst hk
          exact Or.inr hc.2
        · simpa [Call.write, hk] using h.unread hx k
  | committed t =>
    obtain ⟨x, hx⟩ := Option.isSome_iff_exists.mp ho
    show Consistent answer ⟨match s.live t with | some x => overlay s.values x.calls | none => s.values, _⟩
    rw [hx]
    refine h.update (fun k => ?_) (by simp) (by simp) (by simp)
    refine (h.unread hx k).imp_left fun hw => ?_
    simp [overlay, hw]
  | aborted t => exact h.update (fun _ => Or.inl rfl) (by simp) (by simp) (by simp)

/-- **Stable transactions are consistent along every accepted history**, whether they will commit or not. -/
theorem Accepts.consistent {os : List (Observation T K V R)} (ho : Accepts answer s os) (h : Consistent answer s) :
    Consistent answer (after s os) := by
  induction os generalizing s with
  | nil => exact h
  | cons o os ih => exact ih ho.2 (h.next ho.1)

end Store

end Kvdb.AtomicStore
