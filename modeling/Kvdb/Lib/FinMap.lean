import Std.Data.ExtTreeMap
import Mathlib.Data.List.Nodup

/-!
# Ordered finite maps

`Std.ExtTreeMap` compares keys with `compare`; for a key type whose `compare` decides equality the lookups read as
equations (`find_insert`, `find_erase`). A batch of updates `(k, some v)` or `(k, none)` applied from the left is
`update`; with distinct keys its result at a key is that key's update (`find_update_of_mem`). In general the last update
of a key decides, so a batch that later batches write over can be left out (`update_flatMap_filter`).
-/

namespace Kvdb.FinMap

open Std

variable {κ ν : Type} [Ord κ] [TransOrd κ]

theorem mem_keys_iff (m : ExtTreeMap κ ν) (k : κ) : k ∈ m ↔ ∃ v, m[k]? = some v := by
  rw [ExtTreeMap.mem_iff_isSome_getElem?, Option.isSome_iff_exists]

theorem find_insert [LawfulEqOrd κ] [DecidableEq κ] (m : ExtTreeMap κ ν) (k a : κ) (v : ν) :
    (m.insert k v)[a]? = if k = a then some v else m[a]? := by
  rw [ExtTreeMap.getElem?_insert]
  simp only [Std.compare_eq_iff_eq]

theorem find_erase [LawfulEqOrd κ] [DecidableEq κ] (m : ExtTreeMap κ ν) (k a : κ) :
    (m.erase k)[a]? = if k = a then none else m[a]? := by
  rw [ExtTreeMap.getElem?_erase]
  simp only [Std.compare_eq_iff_eq]

theorem mem_insert_iff [LawfulEqOrd κ] {m : ExtTreeMap κ ν} {k a : κ} {v : ν} : a ∈ m.insert k v ↔ k = a ∨ a ∈ m := by
  rw [ExtTreeMap.mem_insert, Std.compare_eq_iff_eq]

theorem mem_erase_iff [LawfulEqOrd κ] {m : ExtTreeMap κ ν} {k a : κ} : a ∈ m.erase k ↔ k ≠ a ∧ a ∈ m := by
  rw [ExtTreeMap.mem_erase, ne_eq, Std.compare_eq_iff_eq]

theorem nodup_keys [LawfulEqOrd κ] (m : ExtTreeMap κ ν) : (m.toList.map Prod.fst).Nodup := by
  have h := ExtTreeMap.distinct_keys_toList (t := m)
  rw [List.Nodup, List.pairwise_map]
  exact h.imp fun hne heq => hne (Std.compare_eq_iff_eq.mpr heq)

/-! ## Batches of updates -/

/-- One update: bind the key, or unbind it. -/
def update1 (m : ExtTreeMap κ ν) : κ × Option ν → ExtTreeMap κ ν
  | (k, some v) => m.insert k v
  | (k, none) => m.erase k

/-- The updates of a list, from the left. -/
def update (m : ExtTreeMap κ ν) (us : List (κ × Option ν)) : ExtTreeMap κ ν := us.foldl update1 m

@[simp] theorem update_cons (m : ExtTreeMap κ ν) (u : κ × Option ν) (us : List (κ × Option ν)) :
    update m (u :: us) = update (update1 m u) us := rfl

theorem update_append (m : ExtTreeMap κ ν) (us vs : List (κ × Option ν)) :
    update m (us ++ vs) = update (update m us) vs := List.foldl_append

variable [LawfulEqOrd κ] [DecidableEq κ]

theorem find_update1 (m : ExtTreeMap κ ν) (u : κ × Option ν) (a : κ) :
    (update1 m u)[a]? = if u.1 = a then u.2 else m[a]? := by
  obtain ⟨k, _ | v⟩ := u
  · exact find_erase m k a
  · exact find_insert m k a v

/-- A key without an update keeps its binding. -/
theorem find_update_of_notMem {us : List (κ × Option ν)} {a : κ} (h : a ∉ us.map Prod.fst)
    (m : ExtTreeMap κ ν) : (update m us)[a]? = m[a]? := by
  induction us generalizing m with
  | nil => rfl
  | cons u us ih =>
    simp only [List.map_cons, List.mem_cons, not_or] at h
    rw [update_cons, ih h.2, find_update1, if_neg (Ne.symm h.1)]

/-- A key with one update has what the update says. -/
theorem find_update_of_mem {us : List (κ × Option ν)} (hd : (us.map Prod.fst).Nodup) {a : κ} {o : Option ν}
    (h : (a, o) ∈ us) (m : ExtTreeMap κ ν) : (update m us)[a]? = o := by
  induction us generalizing m with
  | nil => cases h
  | cons u us ih =>
    simp only [List.map_cons, List.nodup_cons] at hd
    rw [update_cons]
    rcases List.mem_cons.mp h with rfl | h
    · rw [find_update_of_notMem hd.1, find_update1, if_pos rfl]
    · exact ih hd.2 h _

/-! ## Last writers -/

/-- What a batch leaves at a key it updates does not depend on the map it was applied to. -/
theorem find_update_congr {us : List (κ × Option ν)} {a : κ} (h : a ∈ us.map Prod.fst) (m m' : ExtTreeMap κ ν) :
    (update m us)[a]? = (update m' us)[a]? := by
  induction us generalizing m m' with
  | nil => cases h
  | cons u us ih =>
    rw [update_cons, update_cons]
    by_cases hus : a ∈ us.map Prod.fst
    · exact ih hus _ _
    · have hu : u.1 = a := ((List.mem_cons.mp h).resolve_right hus).symm
      rw [find_update_of_notMem hus, find_update_of_notMem hus, find_update1, find_update1, if_pos hu, if_pos hu]

/-- A batch leaves nothing behind if all its keys are updated again. -/
theorem update_update {us vs : List (κ × Option ν)} (h : us.map Prod.fst ⊆ vs.map Prod.fst) (m : ExtTreeMap κ ν) :
    update (update m us) vs = update m vs := by
  refine ExtTreeMap.ext_getElem? fun {a} => ?_
  by_cases ha : a ∈ vs.map Prod.fst
  · exact find_update_congr ha _ _
  · rw [find_update_of_notMem ha, find_update_of_notMem ha, find_update_of_notMem fun hu => ha (h hu)]

/-- **Last writer**: of batches in the order of their ranks, those may be left out whose keys later batches update. -/
theorem update_flatMap_filter {ι : Type} {f : ι → List (κ × Option ν)} {rank : ι → Nat} {p : ι → Bool} :
    ∀ {l : List ι}, (l.Pairwise fun e e' => rank e < rank e') →
      (∀ e ∈ l, ¬ p e → ∀ a ∈ (f e).map Prod.fst, ∃ e' ∈ l, rank e < rank e' ∧ a ∈ (f e').map Prod.fst) →
      ∀ m, update m ((l.filter p).flatMap f) = update m (l.flatMap f)
  | [], _, _, _ => rfl
  | e :: l, hl, h, m => by
    obtain ⟨he, hl⟩ := List.pairwise_cons.mp hl
    -- a later batch is one of `l`
    have later : ∀ {x e'}, x = e ∨ x ∈ l → e' ∈ e :: l → rank x < rank e' → e' ∈ l := by
      rintro x e' hx hmem hlt
      rcases List.mem_cons.mp hmem with rfl | hmem
      · rcases hx with rfl | hx
        · exact absurd hlt (Nat.lt_irrefl _)
        · exact absurd (he x hx) (Nat.lt_asymm hlt)
      · exact hmem
    have ih := update_flatMap_filter (p := p) hl fun x hx hp a ha => by
      obtain ⟨e', hmem, hlt, ha'⟩ := h x (List.mem_cons_of_mem _ hx) hp a ha
      exact ⟨e', later (.inr hx) hmem hlt, hlt, ha'⟩
    rw [List.flatMap_cons, update_append, ← ih]
    by_cases hp : p e
    · rw [List.filter_cons_of_pos hp, List.flatMap_cons, update_append]
    · rw [List.filter_cons_of_neg hp, ih, ih, update_update]
      intro a ha
      obtain ⟨e', hmem, hlt, ha'⟩ := h e List.mem_cons_self hp a ha
      obtain ⟨u, hu, rfl⟩ := List.mem_map.mp ha'
      exact List.mem_map.mpr ⟨u, List.mem_flatMap.mpr ⟨e', later (.inl rfl) hmem hlt, hu⟩, rfl⟩

end Kvdb.FinMap
