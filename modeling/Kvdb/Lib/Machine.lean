import Mathlib.Data.List.Basic

/-!
# Machines that emit events

A machine is a partial function `step : σ → α → Option (σ × List ε)`: from a state and an action it gives the next
state and the events the step emits, or nothing when the action is not enabled.

- `Run step P s₀ as s tr`: the actions `as`, each of them taken in a state where `P` allows it, lead from `s₀` to `s`
  and emit the events `tr`;
- `Run.invariant`: what holds initially and is kept by every allowed step holds at the end of every run;
- `Takes step s₀ as tr s a`: a moment of the run of `as`, at which it takes the action `a` in the state `s`;
- `Run.length_add_le`, `exists_run_of_lt`: runs along which a potential falls end, and there is one that ends;
- `Run.mono`, `Run.strengthen`: a run under one condition is a run under another;
- `Run.unique`, `Run.beginning`: the actions determine the run, and their beginnings its beginnings;
- `Run.project`: where every step is a step of a second machine or leaves its state alone, a run is a run of it;
- `exec` runs a list of actions, so that a concrete run can be computed (`exec_run`).
-/

namespace Kvdb.Machine

variable {σ α ε : Type}

/-- The runs from `s₀` all of whose steps satisfy `P`. -/
inductive Run (step : σ → α → Option (σ × List ε)) (P : σ → α → Prop) (s₀ : σ) :
    List α → σ → List ε → Prop
  | nil : Run step P s₀ [] s₀ []
  | snoc {as : List α} {s s' : σ} {tr evs : List ε} {a : α} : Run step P s₀ as s tr → P s a →
      step s a = some (s', evs) → Run step P s₀ (as ++ [a]) s' (tr ++ evs)

variable {step : σ → α → Option (σ × List ε)} {P Q : σ → α → Prop} {s₀ : σ}

/-- The invariant rule for what depends on the actions, too. -/
theorem Run.invariant_actions (I : List α → List ε → σ → Prop) (h0 : I [] [] s₀)
    (hstep : ∀ {as tr s a s' evs}, Run step P s₀ as s tr → I as tr s → P s a → step s a = some (s', evs) →
      I (as ++ [a]) (tr ++ evs) s')
    {as : List α} {s : σ} {tr : List ε} (h : Run step P s₀ as s tr) : I as tr s := by
  induction h with
  | nil => exact h0
  | snoc hrun hP hs ih => exact hstep hrun ih hP hs

/-- **The invariant rule.** -/
theorem Run.invariant (I : List ε → σ → Prop) (h0 : I [] s₀)
    (hstep : ∀ {tr s a s' evs}, I tr s → P s a → step s a = some (s', evs) → I (tr ++ evs) s')
    {as : List α} {s : σ} {tr : List ε} (h : Run step P s₀ as s tr) : I tr s :=
  h.invariant_actions (fun _ => I) h0 fun _ => hstep

/-- A run under one condition is a run under another that follows from it along the run, as long as `B` holds of the
events; `B` holds of the beginning of what it holds of. -/
theorem Run.strengthen (B : List ε → Prop) (J : List ε → σ → Prop) (hB : ∀ {tr evs}, B (tr ++ evs) → B tr)
    (h0 : J [] s₀)
    (hJ : ∀ {tr s a s' evs}, J tr s → P s a → step s a = some (s', evs) → B (tr ++ evs) → J (tr ++ evs) s')
    (hQ : ∀ {tr s a s' evs}, J tr s → P s a → step s a = some (s', evs) → B (tr ++ evs) → Q s a)
    {as : List α} {s : σ} {tr : List ε} (h : Run step P s₀ as s tr) (hb : B tr) :
    Run step Q s₀ as s tr ∧ J tr s := by
  induction h with
  | nil => exact ⟨.nil, h0⟩
  | snoc _ hP hs ih =>
    obtain ⟨hrun, hj⟩ := ih (hB hb)
    exact ⟨.snoc hrun (hQ hj hP hs hb) hs, hJ hj hP hs hb⟩

theorem Run.mono (hPQ : ∀ s a, P s a → Q s a) {as : List α} {s : σ} {tr : List ε}
    (h : Run step P s₀ as s tr) : Run step Q s₀ as s tr := by
  induction h with
  | nil => exact .nil
  | snoc _ hP hs ih => exact .snoc ih (hPQ _ _ hP) hs

/-- **The potential rule.** A run whose steps all lower a potential is no longer than the potential it starts with. -/
theorem Run.length_add_le (I : σ → Prop) (μ : σ → Nat) (h0 : I s₀)
    (hstep : ∀ {s a s' evs}, I s → P s a → step s a = some (s', evs) → I s' ∧ μ s' < μ s)
    {as : List α} {s : σ} {tr : List ε} (h : Run step P s₀ as s tr) : I s ∧ as.length + μ s ≤ μ s₀ := by
  induction h with
  | nil => exact ⟨h0, by simp⟩
  | snoc _ hP hs ih =>
    obtain ⟨hI, hlt⟩ := hstep ih.1 hP hs
    refine ⟨hI, ?_⟩
    rw [List.length_append, List.length_singleton]
    omega

/-- Runs compose. -/
theorem Run.append {as bs : List α} {s s' : σ} {tr tr' : List ε} (h : Run step P s₀ as s tr)
    (h' : Run step P s bs s' tr') : Run step P s₀ (as ++ bs) s' (tr ++ tr') := by
  induction h' with
  | nil => simpa using h
  | snoc _ hP hs ih => rw [← List.append_assoc, ← List.append_assoc]; exact .snoc ih hP hs

/-- From every state in which `I` holds, there is a run that ends with `done`, if until then there always is an allowed
step that keeps `I` and lowers the potential. -/
theorem exists_run_of_lt (I done : σ → Prop) (μ : σ → Nat)
    (hstep : ∀ {s}, I s → ¬ done s → ∃ a s' evs, P s a ∧ step s a = some (s', evs) ∧ I s' ∧ μ s' < μ s) {s : σ}
    (h : I s) : ∃ as s' tr, Run step P s as s' tr ∧ done s' := by
  induction hn : μ s using Nat.strongRecOn generalizing s with
  | ind n ih =>
    by_cases hd : done s
    · exact ⟨[], s, [], .nil, hd⟩
    · obtain ⟨a, s₁, evs, hP, hs, hI, hlt⟩ := hstep h hd
      obtain ⟨as, s', tr, hrun, hd'⟩ := ih (μ s₁) (hn ▸ hlt) hI rfl
      exact ⟨_, s', _, (Run.snoc .nil hP hs).append hrun, hd'⟩

/-- A machine does not choose. -/
theorem Run.unique {as : List α} {s s' : σ} {tr tr' : List ε} (h : Run step P s₀ as s tr)
    (h' : Run step Q s₀ as s' tr') : s' = s ∧ tr' = tr := by
  induction h generalizing s' tr' with
  | nil =>
    generalize has : ([] : List α) = as at h'
    cases h' with
    | nil => exact ⟨rfl, rfl⟩
    | snoc => simp at has
  | @snoc as s s₁ tr evs a _ _ hs ih =>
    generalize has : as ++ [a] = as' at h'
    cases h' with
    | nil => simp at has
    | snoc hrun _ hs' =>
      obtain ⟨rfl, ha⟩ := List.append_inj' has rfl
      cases ha
      obtain ⟨rfl, rfl⟩ := ih hrun
      cases hs.symm.trans hs'
      exact ⟨rfl, rfl⟩

/-- A beginning of a run is under the same condition. -/
theorem Run.beginning {as bs : List α} {s s₁ : σ} {tr tr₁ : List ε} (h : Run step P s₀ as s tr) (hbs : bs <+: as)
    (h₁ : Run step Q s₀ bs s₁ tr₁) : Run step P s₀ bs s₁ tr₁ ∧ tr₁ <+: tr := by
  induction h with
  | nil =>
    obtain rfl := List.prefix_nil.mp hbs
    obtain ⟨rfl, rfl⟩ := Run.unique (.nil : Run step P s₀ [] s₀ []) h₁
    exact ⟨.nil, List.prefix_rfl⟩
  | snoc hrun hP hs ih =>
    rcases List.prefix_concat_iff.mp hbs with rfl | hbs
    · obtain ⟨rfl, rfl⟩ := (hrun.snoc hP hs).unique h₁
      exact ⟨hrun.snoc hP hs, List.prefix_rfl⟩
    · exact (ih hbs).imp_right fun htr => htr.trans (List.prefix_append ..)

/-- A moment of a run: some beginning of `as` leads to `s` and emits `tr`, and `a` is the next action. -/
def Takes (step : σ → α → Option (σ × List ε)) (s₀ : σ) (as : List α) (tr : List ε) (s : σ) (a : α) : Prop :=
  ∃ bs, bs ++ [a] <+: as ∧ Run step (fun _ _ => True) s₀ bs s tr

theorem Takes.mono {as as' : List α} {tr : List ε} {s : σ} {a : α} (h : Takes step s₀ as tr s a) (has : as <+: as') :
    Takes step s₀ as' tr s a := by
  obtain ⟨bs, hbs, hrun⟩ := h
  exact ⟨bs, hbs.trans has, hrun⟩

/-- The last action of a run. -/
theorem Run.takes {as : List α} {s : σ} {tr : List ε} (h : Run step P s₀ as s tr) (a : α) :
    Takes step s₀ (as ++ [a]) tr s a :=
  ⟨as, List.prefix_rfl, h.mono fun _ _ _ => trivial⟩

/-- **Stuttering simulation.** The state of a second machine is read off by `f`, its events by `g`. -/
theorem Run.project {τ β η : Type} {step' : τ → β → Option (τ × List η)} {R : τ → β → Prop} (f : σ → τ)
    (g : ε → Option η)
    (hsim : ∀ {s a s' evs}, P s a → step s a = some (s', evs) → f s' = f s ∧ evs.filterMap g = [] ∨
      ∃ b, R (f s) b ∧ step' (f s) b = some (f s', evs.filterMap g))
    {as : List α} {s : σ} {tr : List ε} (h : Run step P s₀ as s tr) :
    ∃ bs, Run step' R (f s₀) bs (f s) (tr.filterMap g) := by
  induction h with
  | nil => exact ⟨[], .nil⟩
  | snoc _ hP hs ih =>
    obtain ⟨bs, hrun⟩ := ih
    rw [List.filterMap_append]
    rcases hsim hP hs with ⟨hf, hg⟩ | ⟨b, hR, hb⟩
    · exact ⟨bs, by rw [hf, hg, List.append_nil]; exact hrun⟩
    · exact ⟨bs ++ [b], .snoc hrun hR hb⟩

/-! ## Computing a run -/

section Exec

variable (step P) [∀ s a, Decidable (P s a)]

/-- The state and the events after the actions, if every one of them is allowed and enabled. -/
def exec : σ → List α → Option (σ × List ε)
  | s, [] => some (s, [])
  | s, a :: as =>
    if P s a then
      match step s a with
      | none => none
      | some (s', evs) =>
        match exec s' as with
        | none => none
        | some (s'', evs') => some (s'', evs ++ evs')
    else none

variable {step P}

theorem exec_run : ∀ {as : List α} {s s' : σ} {tr : List ε}, exec step P s as = some (s', tr) →
    Run step P s as s' tr
  | [], s, s', tr, h => by
    simp only [exec, Option.some.injEq, Prod.mk.injEq] at h
    obtain ⟨rfl, rfl⟩ := h
    exact .nil
  | a :: as, s, s', tr, h => by
    simp only [exec] at h
    split at h
    · rename_i hP
      split at h
      · cases h
      · rename_i s₁ evs hs
        split at h
        · cases h
        · rename_i s₂ evs' hr
          simp only [Option.some.injEq, Prod.mk.injEq] at h
          obtain ⟨rfl, rfl⟩ := h
          have h1 : Run step P s [a] s₁ evs := by simpa using Run.snoc .nil hP hs
          simpa using h1.append (exec_run hr)
    · cases h

/-- A computed run that ends with `p` is a run that ends with `p`. -/
theorem exists_run_of_exec (step : σ → α → Option (σ × List ε)) (P : σ → α → Prop) [∀ s a, Decidable (P s a)] (s : σ)
    (as : List α) (p : σ → List ε → Bool) (h : (exec step P s as).any (fun r => p r.1 r.2) = true) :
    ∃ s' tr, Run step P s as s' tr ∧ p s' tr = true := by
  cases hr : exec step P s as with
  | none => simp [hr] at h
  | some r =>
    simp only [hr, Option.any_some] at h
    exact ⟨r.1, r.2, exec_run hr, h⟩

/-- A computed run that is continued under a second condition. -/
theorem exists_runs_of_exec (step : σ → α → Option (σ × List ε)) (P Q : σ → α → Prop) [∀ s a, Decidable (P s a)]
    [∀ s a, Decidable (Q s a)] (s : σ) (as bs : List α) (p : σ → σ → Bool)
    (h : (exec step P s as).any (fun r => (exec step Q r.1 bs).any fun r' => p r.1 r'.1) = true) :
    ∃ s₁ tr₁ s₂ tr₂, Run step P s as s₁ tr₁ ∧ Run step Q s₁ bs s₂ tr₂ ∧ p s₁ s₂ = true := by
  obtain ⟨⟨s₁, tr₁⟩, h₁, h⟩ := (Option.any_eq_true _ _).mp h
  obtain ⟨⟨s₂, tr₂⟩, h₂, h⟩ := (Option.any_eq_true _ _).mp h
  exact ⟨s₁, tr₁, s₂, tr₂, exec_run h₁, exec_run h₂, h⟩

end Exec

end Kvdb.Machine
