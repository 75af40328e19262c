import Kvdb.WritePaths

/-!
# Read-modify-write transactions

The counter of the chaos suite reads a key and writes what it makes of the value. At `REPEATABLE_READ` no such update is
lost: however many sessions update the key, with whatever timeouts and retries, its value is the result of all committed
updates one after the other (`no_lost_updates`).
-/

namespace Kvdb

open Std Machine

/-- The transaction reads the key and later writes what `f` makes of it, and it writes the key at no other place. -/
def Updates (k : Key) (f : Option Value → Value) (ops : List Op) : Prop :=
  ∃ before reply between after, ops = before ++ .get k reply :: (between ++ .put k (f reply.found) :: after) ∧
    ∀ op ∈ before ++ between ++ after, op.writes k = false

/-- The transactions of a history that write the key. -/
def writersOf (k : Key) (txns : List (List Op)) : Nat := txns.countP fun ops => ops.any (Op.writes k)

section Serial

variable {k : Key} {f : Option Value → Value} {st st' : Store} {ops : List Op}

theorem serialTxn_get_of_buffer {b : PendingBuffer} (h : serialTxn st ops = some st') (hb : runOps st ops = some b) :
    st'[k]? = match b[k]? with
      | some (value, isDeleted) => if isDeleted then none else some value
      | none => st[k]? := by
  rw [serialTxn, hb, Option.map_some] at h
  cases h
  exact get_applyWrites_toList st b k

/-- A transaction that does not write the key. -/
theorem serialTxn_get_of_unwritten (h : serialTxn st ops = some st') (hops : ∀ op ∈ ops, op.writes k = false) :
    st'[k]? = st[k]? := by
  obtain ⟨b, hb, -⟩ := Option.map_eq_some_iff.mp h
  have hnone : b[k]? = none := (foldlM_runOp_get hb hops).trans (by simp)
  rw [serialTxn_get_of_buffer h hb, hnone]

/-- A transaction that updates the key. -/
theorem serialTxn_get_of_updates (h : serialTxn st ops = some st') (hops : Updates k f ops) :
    st'[k]? = some (f st[k]?) := by
  obtain ⟨b, hb, -⟩ := Option.map_eq_some_iff.mp h
  rw [serialTxn_get_of_buffer h hb]
  obtain ⟨before, reply, between, after, rfl, hwrites⟩ := hops
  rw [runOps, List.foldlM_append] at hb
  obtain ⟨b₁, hbefore, hb⟩ := Option.bind_eq_some_iff.mp hb
  rw [List.foldlM_cons] at hb
  obtain ⟨b₂, hget, hb⟩ := Option.bind_eq_some_iff.mp hb
  rw [List.foldlM_append] at hb
  obtain ⟨b₃, -, hb⟩ := Option.bind_eq_some_iff.mp hb
  rw [List.foldlM_cons] at hb
  obtain ⟨b₄, hput, hafter⟩ := Option.bind_eq_some_iff.mp hb
  -- the read finds the stored value, and nothing after the write touches the key
  obtain ⟨hreply, rfl⟩ := runOp_get.mp hget
  have hnone : b₂[k]? = none :=
    (foldlM_runOp_get hbefore fun op hop => hwrites op (by simp [hop])).trans (by simp)
  have hfound : reply.found = st[k]? := by
    rw [← hreply, found_readKey, Store.get, get_applyWrites_toList, hnone]
  cases hput
  have hlast : b[k]? = some (f reply.found, false) := by
    rw [foldlM_runOp_get hafter fun op hop => hwrites op (by simp [hop])]
    simp
  rw [hlast, hfound]
  rfl

theorem any_writes_of_updates (h : Updates k f ops) : ops.any (Op.writes k) = true := by
  obtain ⟨before, reply, between, after, rfl, -⟩ := h
  simp [Op.writes]

/-- **Run lemma**, by induction on the transactions. -/
theorem serialRun_get : ∀ {txns : List (List Op)} {st st' : Store}, serialRun st txns = some st' →
    (∀ ops ∈ txns, (∀ op ∈ ops, op.writes k = false) ∨ Updates k f ops) →
    st'[k]? = (fun v => some (f v))^[writersOf k txns] st[k]?
  | [], st, st', h, _ => by
    cases h
    rfl
  | ops :: txns, st, st', h, hall => by
    rw [serialRun, List.foldlM_cons] at h
    obtain ⟨st₁, h₁, h⟩ := Option.bind_eq_some_iff.mp h
    rw [serialRun_get h fun ops hops => hall ops (List.mem_cons_of_mem _ hops)]
    rcases hall ops List.mem_cons_self with hnot | hupd
    · have hcount : ops.any (Op.writes k) = false := List.any_eq_false.mpr fun op hop => by simp [hnot op hop]
      rw [serialTxn_get_of_unwritten h₁ hnot, writersOf, writersOf, List.countP_cons_of_neg (by simp [hcount])]
    · rw [serialTxn_get_of_updates h₁ hupd, writersOf, writersOf,
        List.countP_cons_of_pos (by simpa using any_writes_of_updates hupd), Function.iterate_succ_apply]

end Serial

/-- **No update is lost.** If every committed transaction that writes the key has read it first and writes what `f`
makes of what it found, then the value of the key, whenever no session is inside `commit`, is `f` applied once for each
of them, in whatever order and with whatever interleaving they ran. -/
theorem no_lost_updates {st : Store} {s₀ s : State} {as : List Action} {tr : List Event} (h0 : Server.Initial st s₀)
    (h : Run step BeginsRepeatableRead s₀ as s tr) (hn : (begunOf tr).length < 2 ^ 32) {k : Key}
    {f : Option Value → Value}
    (hall : ∀ ops ∈ (historyOf tr).committed.map Prod.snd, (∀ op ∈ ops, op.writes k = false) ∨ Updates k f ops)
    (hquiet : ∀ i, (s.sessions i).pc.inCommit = false) :
    s.store.get k = (fun v => some (f v))^[writersOf k ((historyOf tr).committed.map Prod.snd)] (st.get k) := by
  have hinv := serialInv_of_run h0 h hn
  rw [hinv.store.store_of_noCommit hquiet]
  exact serialRun_get hinv.serial hall

/-- Two sessions, one after the other, append a byte to the value of `a`. -/
theorem no_lost_updates_two : ∃ as s tr, Run step BeginsRepeatableRead (Server.boot {} ∅) as s tr ∧
    (historyOf tr).committed.map Prod.snd = [[.get [97] .notFound, .put [97] [43]],
      [.get [97] (.value [43]), .put [97] [43, 43]]] ∧ s.store.get [97] = some [43, 43] := by
  have hrun := exists_run_of_exec step BeginsRepeatableRead (Server.boot {} ∅)
    [.connect, .connect, .command 0 (.begin .repeatableRead), .thread 0, .command 1 (.begin .repeatableRead), .thread 1,
      .command 0 (.get [97]), .thread 0, .command 0 (.put [97] [43]), .command 0 .commit, .command 1 (.get [97]),
      .thread 0, .thread 0, .worker, .worker, .worker, .worker, .worker, .worker, .worker, .worker, .worker, .thread 0,
      .thread 0, .thread 0, .thread 0, .thread 0, .thread 1, .thread 1, .command 1 (.put [97] [43, 43]),
      .command 1 .commit, .thread 1, .thread 1, .worker, .worker, .worker, .worker, .worker, .worker, .worker, .worker,
      .thread 1, .thread 1, .thread 1, .thread 1, .thread 1]
    (fun s tr => decide ((s.sessionCount = 2 ∧ (s.sessions 0).pc.inCommit = false ∧ (s.sessions 1).pc.inCommit = false ∧
      (begunOf tr).length < 2 ^ 32) ∧ (historyOf tr).committed.map Prod.snd = [[.get [97] .notFound, .put [97] [43]],
      [.get [97] (.value [43]), .put [97] [43, 43]]])) (by decide +kernel)
  obtain ⟨s, tr, hr, hp⟩ := hrun
  obtain ⟨⟨hcount, hi0, hi1, hn⟩, hops⟩ := of_decide_eq_true hp
  refine ⟨_, s, tr, hr, hops, ?_⟩
  have hquiet : ∀ i, (s.sessions i).pc.inCommit = false := by
    rintro (_ | _ | i)
    · exact hi0
    · exact hi1
    · rw [unconnected_of_run (.opened {}) hr (i + 2) (by rw [hcount]; omega)]
      rfl
  have hall : ∀ ops ∈ (historyOf tr).committed.map Prod.snd, (∀ op ∈ ops, op.writes [97] = false) ∨
      Updates [97] (fun v => v.getD [] ++ [43]) ops := by
    rw [hops]
    rintro ops hmem
    rcases List.mem_pair.mp hmem with rfl | rfl
    · exact Or.inr ⟨[], .notFound, [], [], rfl, by simp⟩
    · exact Or.inr ⟨[], .value [43], [], [], rfl, by simp⟩
  rw [no_lost_updates (.opened {}) hr hn hall hquiet, hops]
  decide

end Kvdb
