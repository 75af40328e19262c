import Kvdb.Lib.FinMap

/-!
# Keys, values, lock modes and the store

The types of `kvdb.h` and the in-memory `Store`. Strings are byte strings; `compare` on them is the lexicographic
order of unsigned bytes, the order of `std::map<std::string, _>`. A transaction id is a 32-bit counter. The hash map
`data_` is a finite map: what depends on its iteration order takes that order as a parameter.
-/

namespace Kvdb

open Std

abbrev Bytes := List UInt8
abbrev Key := Bytes
abbrev Value := Bytes
abbrev TxnId := UInt32
abbrev SessionId := Nat

inductive LockMode
  | none
  | shared
  | exclusive
  deriving DecidableEq, Repr

inductive IsolationLevel
  | readCommitted
  | repeatableRead
  deriving DecidableEq, Repr

inductive TxnState
  | idle
  | active
  | committed
  | aborted
  deriving DecidableEq, Repr

/-! ## The store -/

abbrev Store := ExtTreeMap Key Value

namespace Store

def get (st : Store) (key : Key) : Option Value := st[key]?

def put (st : Store) (key : Key) (value : Value) : Store := st.insert key value

def deleteKey (st : Store) (key : Key) : Store := ExtTreeMap.erase st key

/-- `getAllEntries` copies the hash map; the copy is iterated in an unspecified order. -/
def IsEntries (st : Store) (entries : List (Key × Value)) : Prop := entries.Perm (ExtTreeMap.toList st)

instance (st : Store) (entries : List (Key × Value)) : Decidable (st.IsEntries entries) :=
  inferInstanceAs (Decidable (entries.Perm _))

end Store

/-! ## Pending buffers -/

/-- `std::map<Key, std::pair<Value, bool>>`: the value, and whether the key was deleted. -/
abbrev PendingBuffer := ExtTreeMap Key (Value × Bool)

/-- One entry of a pending buffer. -/
abbrev Write := Key × (Value × Bool)

/-- What an entry does to a key: bind it to the value, or unbind it. -/
def Write.effect (w : Write) : Key × Option Value := (w.1, if w.2.2 then none else some w.2.1)

/-- One turn of the loop of `applyPendingBuffer`. -/
def applyWrite (st : Store) (w : Write) : Store :=
  if w.2.2 then st.deleteKey w.1 else st.put w.1 w.2.1

/-- The loop of `applyPendingBuffer` over the given entries. -/
def applyWrites (st : Store) (ws : List Write) : Store := ws.foldl applyWrite st

theorem applyWrite_eq (st : Store) (w : Write) : applyWrite st w = FinMap.update1 st w.effect := by
  obtain ⟨k, v, _ | _⟩ := w <;> rfl

theorem applyWrites_eq (st : Store) (ws : List Write) :
    applyWrites st ws = FinMap.update st (ws.map Write.effect) := by
  induction ws generalizing st with
  | nil => rfl
  | cons w ws ih =>
    simp only [applyWrites, List.foldl_cons, List.map_cons, FinMap.update_cons] at *
    rw [applyWrite_eq]
    exact ih _

theorem map_effect_keys (ws : List Write) : (ws.map Write.effect).map Prod.fst = ws.map Prod.fst := by
  simp [Function.comp_def, Write.effect]

/-- A key that no entry names keeps its binding. -/
theorem get_applyWrites_of_notMem {ws : List Write} {k : Key} (h : k ∉ ws.map Prod.fst) (st : Store) :
    (applyWrites st ws)[k]? = st[k]? := by
  rw [applyWrites_eq]
  exact FinMap.find_update_of_notMem (by rw [map_effect_keys]; exact h) st

/-- A key that one entry names gets what the entry says. -/
theorem get_applyWrites_of_mem {ws : List Write} (hd : (ws.map Prod.fst).Nodup) {w : Write} (h : w ∈ ws)
    (st : Store) : (applyWrites st ws)[w.1]? = w.effect.2 := by
  have hm : w.effect ∈ ws.map Write.effect := List.mem_map_of_mem h
  rw [applyWrites_eq]
  exact FinMap.find_update_of_mem (by rw [map_effect_keys]; exact hd) hm st

theorem get_applyWrite (st : Store) (w : Write) (k : Key) :
    (applyWrite st w)[k]? = if w.1 = k then w.effect.2 else st[k]? := by
  rw [applyWrite_eq, FinMap.find_update1]
  rfl

end Kvdb
