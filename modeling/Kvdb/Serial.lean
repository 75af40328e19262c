import Kvdb.History
import Kvdb.Locking

/-!
# Serializability

The serial specification: `serialTxn` runs the calls of one transaction alone, with a pending buffer of its own, and
applies the buffer at the end; it fails when a `get` would answer something else than it did. `serialRun` runs
transactions one after the other.

Along a run, `applyCommits` of the commits so far is the store of the serial run. `StoreInv` says how the real store
lags behind it, `ReadInv` that the calls of every `REPEATABLE_READ` transaction would still be answered the same way.
Both follow from two-phase locking, step by step (`CoreStep.storeInv`, `CoreStep.readInv`).

Runs of `REPEATABLE_READ` transactions are serializable in the order of their `COMMIT` records (`serializable`), and
reads are repeatable also next to `READ_COMMITTED` transactions as long as the locks are kept (`repeatable_reads`).
-/

namespace Kvdb

open Std LockManager

/-! ## The serial specification -/

/-- A call in a serial run over `st`; nothing when it would be answered differently. -/
def runOp (st : Store) (buffer : PendingBuffer) : Op → Option PendingBuffer
  | .put key value => some (buffer.insert key (value, false))
  | .delete key => some (buffer.insert key ([], true))
  | .get key reply => if readKey buffer st key = reply then some buffer else none

/-- The pending buffer after the calls of a transaction. -/
def runOps (st : Store) (ops : List Op) : Option PendingBuffer := ops.foldlM (runOp st) ∅

/-- One transaction, alone. -/
def serialTxn (st : Store) (ops : List Op) : Option Store := (runOps st ops).map fun b => applyWrites st b.toList

/-- The transactions one by one. -/
def serialRun (st : Store) (txns : List (List Op)) : Option Store := txns.foldlM serialTxn st

theorem runOps_append (st : Store) (ops : List Op) (op : Op) :
    runOps st (ops ++ [op]) = (runOps st ops).bind fun b => runOp st b op := by
  simp [runOps, List.foldlM_append]

theorem serialRun_append (st : Store) (txns : List (List Op)) (ops : List Op) :
    serialRun st (txns ++ [ops]) = (serialRun st txns).bind fun st' => serialTxn st' ops := by
  simp [serialRun, List.foldlM_append]

theorem readKey_congr {st st' : Store} {key : Key} (h : st[key]? = st'[key]?) (b : PendingBuffer) :
    readKey b st key = readKey b st' key := by
  unfold readKey Store.get
  rw [h]

/-- A transaction only sees the keys it gets. -/
theorem runOps_congr {st st' : Store} {ops : List Op} (h : ∀ key reply, .get key reply ∈ ops → st[key]? = st'[key]?) :
    runOps st ops = runOps st' ops := by
  unfold runOps
  generalize (∅ : PendingBuffer) = b
  induction ops generalizing b with
  | nil => rfl
  | cons op ops ih =>
    have hop : runOp st b op = runOp st' b op := by
      cases op with
      | put key value => rfl
      | delete key => rfl
      | get key reply => simp only [runOp, readKey_congr (h key reply List.mem_cons_self) b]
    rw [List.foldlM_cons, List.foldlM_cons, hop]
    congr 1
    funext b'
    exact ih (fun key reply hm => h key reply (List.mem_cons_of_mem _ hm)) b'

/-! ## The store lags behind the serial store -/

/-- The writes of an applying session are still to come; every other key is up to date. -/
structure StoreInv (serial : Store) (store : Store) (ps : SessionId → Party) : Prop where
  settled : ∀ k, (∀ i lsn ws, (ps i).phase = .applying lsn ws → k ∉ ws.map Prod.fst) → store[k]? = serial[k]?
  suffix : ∀ {i lsn ws}, (ps i).phase = .applying lsn ws → ws <:+ (ps i).txn.pendingBuffer.toList
  unapplied : ∀ {i lsn ws}, (ps i).phase = .applying lsn ws → ∀ w ∈ ws, serial[w.1]? = w.effect.2

theorem mem_pending_of_mem_toList {b : PendingBuffer} {k : Key} (h : k ∈ b.toList.map Prod.fst) : k ∈ b := by
  obtain ⟨w, hw, rfl⟩ := List.mem_map.mp h
  exact (FinMap.mem_keys_iff b w.1).mpr ⟨w.2, ExtTreeMap.mem_toList_iff_getElem?_eq_some.mp hw⟩

theorem StoreInv.mem_pending {serial store : Store} {ps : SessionId → Party} (h : StoreInv serial store ps)
    {i : SessionId} {lsn : Nat} {ws : List Write} (hp : (ps i).phase = .applying lsn ws) {k : Key}
    (hk : k ∈ ws.map Prod.fst) : k ∈ (ps i).txn.pendingBuffer :=
  mem_pending_of_mem_toList (List.map_subset _ (h.suffix hp).subset hk)

def Phase.isApplying : Phase → Bool
  | .applying _ _ => true
  | _ => false

/-- A step of a session that is not applying, before or after. -/
theorem StoreInv.frame {serial store : Store} {ps : SessionId → Party} (h : StoreInv serial store ps) {i : SessionId}
    {p' : Party} (hold : (ps i).phase.isApplying = false) (hnew : p'.phase.isApplying = false) :
    StoreInv serial store (Function.update ps i p') := by
  have hphase : ∀ {j lsn ws}, (Function.update ps i p' j).phase = .applying lsn ws → j ≠ i := by
    rintro j lsn ws hj rfl
    rw [Function.update_self] at hj
    simp [hj, Phase.isApplying] at hnew
  refine ⟨fun k hk => h.settled k fun j lsn ws hj => ?_, fun {j lsn ws} hj => ?_, fun {j lsn ws} hj => ?_⟩
  · have hji : j ≠ i := by rintro rfl; simp [hj, Phase.isApplying] at hold
    exact hk j lsn ws (by rw [Function.update_of_ne hji]; exact hj)
  · have hji := hphase hj
    rw [Function.update_of_ne hji] at hj ⊢
    exact h.suffix hj
  · rw [Function.update_of_ne (hphase hj)] at hj
    exact h.unapplied hj

theorem nodup_pending (b : PendingBuffer) : (b.toList.map Prod.fst).Nodup := FinMap.nodup_keys b

/-- Two transactions never have a pending key in common. -/
theorem LockInv.pending_disjoint {lm : LockManager} {ps : SessionId → Party} (h : LockInv lm ps) {i j : SessionId}
    (hi : (ps i).active) (hj : (ps j).active) {k : Key} (hki : k ∈ (ps i).txn.pendingBuffer)
    (hkj : k ∈ (ps j).txn.pendingBuffer) : i = j :=
  h.unique hi hj (Finset.singleton_inj.mp (((h.parties hi).sole hki).1.symm.trans ((h.parties hj).sole hkj).1))

/-- A transaction commits: its buffer is in the serial store at once and in the store later. -/
theorem StoreInv.commit {serial store : Store} {lm : LockManager} {ps : SessionId → Party}
    (h : StoreInv serial store ps) (hl : LockInv lm ps) {i : SessionId} (hact : (ps i).active)
    (hold : (ps i).phase.isApplying = false) (lsn : Nat) :
    StoreInv (applyWrites serial (ps i).txn.pendingBuffer.toList) store
      (Function.update ps i { ps i with phase := .applying lsn (ps i).txn.pendingBuffer.toList }) := by
  set ws := (ps i).txn.pendingBuffer.toList with hws
  set ps' := Function.update ps i { ps i with phase := .applying lsn ws } with hps'
  have hself : ps' i = { ps i with phase := .applying lsn ws } := Function.update_self ..
  have hother : ∀ {j}, j ≠ i → ps' j = ps j := fun hj => Function.update_of_ne hj ..
  -- the keys that other sessions are applying are not in this buffer
  have hdisj : ∀ {j lsn' ws'}, j ≠ i → (ps j).phase = .applying lsn' ws' → ∀ w ∈ ws', w.1 ∉ ws.map Prod.fst := by
    intro j lsn' ws' hj hp w hw hk
    have hjact := hl.active j (by rw [hp]; simp)
    have hkj := h.mem_pending hp (List.mem_map_of_mem hw)
    exact hj (hl.pending_disjoint hjact hact hkj (mem_pending_of_mem_toList hk))
  refine ⟨fun k hk => ?_, fun {j lsn' ws'} hj => ?_, fun {j lsn' ws'} hj w hw => ?_⟩
  · have hki : k ∉ ws.map Prod.fst := hk i lsn ws (by rw [hself])
    rw [get_applyWrites_of_notMem hki]
    refine h.settled k fun j lsn' ws' hj => ?_
    have hji : j ≠ i := by rintro rfl; simp [hj, Phase.isApplying] at hold
    exact hk j lsn' ws' (by rw [hother hji]; exact hj)
  · by_cases hji : j = i
    · subst hji
      rw [hself] at hj ⊢
      obtain ⟨rfl, rfl⟩ := Phase.applying.inj hj
      exact List.suffix_refl _
    · rw [hother hji] at hj ⊢
      exact h.suffix hj
  · by_cases hji : j = i
    · subst hji
      rw [hself] at hj
      obtain ⟨rfl, rfl⟩ := Phase.applying.inj hj
      exact get_applyWrites_of_mem (nodup_pending _) hw _
    · rw [hother hji] at hj
      rw [get_applyWrites_of_notMem (hdisj hji hj w hw)]
      exact h.unapplied hj w hw

/-- One entry of a committed buffer reaches the store. -/
theorem StoreInv.apply {serial store : Store} {ps : SessionId → Party} (h : StoreInv serial store ps) {i : SessionId}
    {lsn : Nat} {w : Write} {ws : List Write} (hp : (ps i).phase = .applying lsn (w :: ws)) :
    StoreInv serial (applyWrite store w) (Function.update ps i { ps i with phase := .applying lsn ws }) := by
  set ps' := Function.update ps i { ps i with phase := .applying lsn ws } with hps'
  have hself : ps' i = { ps i with phase := .applying lsn ws } := Function.update_self ..
  have hother : ∀ {j}, j ≠ i → ps' j = ps j := fun hj => Function.update_of_ne hj ..
  refine ⟨fun k hk => ?_, fun {j lsn' ws'} hj => ?_, fun {j lsn' ws'} hj v hv => ?_⟩
  · rw [get_applyWrite]
    split
    · subst_vars
      exact (h.unapplied hp w List.mem_cons_self).symm
    · rename_i hne
      refine h.settled k fun j lsn' ws' hj => ?_
      by_cases hji : j = i
      · subst hji
        rw [hp] at hj
        cases hj
        have hk' := hk j lsn ws (by rw [hself])
        simpa [Ne.symm hne] using hk'
      · exact hk j lsn' ws' (by rw [hother hji]; exact hj)
  · by_cases hji : j = i
    · subst hji
      rw [hself] at hj ⊢
      cases hj
      exact (List.suffix_cons w ws).trans (h.suffix hp)
    · rw [hother hji] at hj ⊢
      exact h.suffix hj
  · by_cases hji : j = i
    · subst hji
      rw [hself] at hj
      cases hj
      exact h.unapplied hp v (List.mem_cons_of_mem _ hv)
    · rw [hother hji] at hj
      exact h.unapplied hj v hv

/-- The last entry of a committed buffer is in the store. -/
theorem StoreInv.applied {serial store : Store} {ps : SessionId → Party} (h : StoreInv serial store ps)
    {i : SessionId} {lsn : Nat} (hp : (ps i).phase = .applying lsn []) {p' : Party}
    (hnew : p'.phase.isApplying = false) : StoreInv serial store (Function.update ps i p') := by
  have hother : ∀ {j lsn ws}, (Function.update ps i p' j).phase = .applying lsn ws → j ≠ i := by
    rintro j lsn ws hj rfl
    rw [Function.update_self] at hj
    simp [hj, Phase.isApplying] at hnew
  refine ⟨fun k hk => h.settled k fun j lsn' ws hj => ?_, fun {j lsn' ws} hj => ?_, fun {j lsn' ws} hj => ?_⟩
  · by_cases hji : j = i
    · subst hji
      rw [hp] at hj
      cases hj
      simp
    · exact hk j lsn' ws (by rw [Function.update_of_ne hji]; exact hj)
  · have hji := hother hj
    rw [Function.update_of_ne hji] at hj ⊢
    exact h.suffix hj
  · rw [Function.update_of_ne (hother hj)] at hj
    exact h.unapplied hj

theorem Party.locked_not_applying (txn : TransactionInfo) (op : LockOp) (key : Key) :
    (Party.locked txn op key).phase.isApplying = false := by cases op <;> rfl

/-- **The store follows the serial store.** -/
theorem CoreStep.storeInv {c c' : Core} {l : Label} {evs tr : List Event} {st₀ : Store} (h : CoreStep c l evs c')
    (hl : LockInv c.locks c.parties) (hs : StoreInv (applyCommits st₀ (commitsOf tr)) c.store c.parties) :
    StoreInv (applyCommits st₀ (commitsOf (tr ++ evs))) c'.store c'.parties := by
  rw [commitsOf_append]
  cases h with
  | silent he => rw [commitsOf_silent he, List.append_nil]; exact hs
  | begin level hph _ => exact (List.append_nil (commitsOf tr)).symm ▸ hs.frame (by rw [hph]; rfl) rfl
  | granted hp hph _ _ =>
    subst hp
    rw [(lockedEvents_logsNothing ..).commits, List.append_nil]
    exact hs.frame (by rw [hph]; rfl) (Party.locked_not_applying ..)
  | waitGranted hp hph _ =>
    subst hp
    rw [(lockedEvents_logsNothing ..).commits, List.append_nil]
    exact hs.frame (by rw [hph]; rfl) (Party.locked_not_applying ..)
  | @logCommit _ i p hp hph =>
    subst hp
    rw [applyCommits_append]
    exact hs.commit hl (hl.active i (by rw [hph]; simp)) (by rw [hph]; rfl) _
  | apply hp hph => subst hp; exact (List.append_nil (commitsOf tr)).symm ▸ hs.apply hph
  | applied hp hph => subst hp; exact (List.append_nil (commitsOf tr)).symm ▸ hs.applied hph rfl
  | reset hp hph he =>
    subst hp
    rw [commitsOf_silent he, List.append_nil]
    exact hs.frame (by rw [hph]; rfl) rfl
  | read hp hph =>
    subst hp
    refine (List.append_nil (commitsOf tr)).symm ▸ hs.frame (by rw [hph]; rfl) ?_
    dsimp only
    split <;> rfl
  | logBegin hp hph | queued hp hph | waitFailed hp hph | release hp hph | startCommit hp hph | logWrite hp hph
  | startAbort hp hph | logAbort hp hph | abortRelease hp hph =>
    subst hp
    exact (List.append_nil (commitsOf tr)).symm ▸ hs.frame (by rw [hph]; rfl) rfl

/-! ## Reads stay valid -/

/-- Phases of a transaction that has neither committed nor been aborted. -/
def Phase.uncommitted : Phase → Bool
  | .applying _ _ | .aborted | .released => false
  | _ => true

/-- Every call of an uncommitted `REPEATABLE_READ` transaction would be answered the same way over the serial store,
and what it has read is locked. -/
structure ReadInv (serial : Store) (current : SessionId → Calls) (ps : SessionId → Party) : Prop where
  level : ∀ {i}, (ps i).active → (current i).level = (ps i).txn.isolationLevel
  held : ∀ {i k r}, (ps i).active → (ps i).txn.isolationLevel = .repeatableRead → .get k r ∈ (current i).ops →
    k ∈ (ps i).txn.locksHeld
  replay : ∀ {i}, (ps i).active → (ps i).txn.isolationLevel = .repeatableRead → (ps i).phase.uncommitted = true →
    runOps serial (current i).ops = some (ps i).txn.pendingBuffer

namespace ReadInv

variable {serial serial' : Store} {current current' : SessionId → Calls} {ps : SessionId → Party} {i : SessionId}
  {p' : Party} {tr : List Event}

/-- A step of one session. -/
theorem update (h : ReadInv serial current ps) (hc : ∀ j, j ≠ i → current' j = current j)
    (hserial : ∀ j, j ≠ i → (ps j).active → (ps j).txn.isolationLevel = .repeatableRead →
      (ps j).phase.uncommitted = true → ∀ k r, .get k r ∈ (current j).ops → serial[k]? = serial'[k]?)
    (hlevel : p'.active → (current' i).level = p'.txn.isolationLevel)
    (hheld : p'.active → p'.txn.isolationLevel = .repeatableRead → ∀ k r, .get k r ∈ (current' i).ops →
      k ∈ p'.txn.locksHeld)
    (hreplay : p'.active → p'.txn.isolationLevel = .repeatableRead → p'.phase.uncommitted = true →
      runOps serial' (current' i).ops = some p'.txn.pendingBuffer) :
    ReadInv serial' current' (Function.update ps i p') := by
  have hself : Function.update ps i p' i = p' := Function.update_self ..
  have hother : ∀ {j}, j ≠ i → Function.update ps i p' j = ps j := fun hj => Function.update_of_ne hj ..
  refine ⟨fun {j} hj => ?_, fun {j k r} hj hrr hg => ?_, fun {j} hj hrr hu => ?_⟩ <;> by_cases hji : j = i
  · subst hji; rw [hself] at hj ⊢; exact hlevel hj
  · rw [hother hji] at hj ⊢; rw [hc j hji]; exact h.level hj
  · subst hji; rw [hself] at hj hrr ⊢; exact hheld hj hrr k r hg
  · rw [hother hji] at hj hrr ⊢; rw [hc j hji] at hg; exact h.held hj hrr hg
  · subst hji; rw [hself] at hj hrr hu ⊢; exact hreplay hj hrr hu
  · rw [hother hji] at hj hrr hu ⊢
    rw [hc j hji, ← runOps_congr (hserial j hji hj hrr hu)]
    exact h.replay hj hrr hu

/-- A step of one session that changes neither the calls nor the transaction. -/
theorem setPhase (h : ReadInv serial current ps) (ph : Phase)
    (hph : ph.uncommitted = true → (ps i).phase.uncommitted = true) :
    ReadInv serial current (Function.update ps i { ps i with phase := ph }) :=
  h.update (fun _ _ => rfl) (fun _ _ _ _ _ _ _ _ => rfl) (fun hact => h.level hact)
    (fun hact hrr _ _ hg => h.held hact hrr hg) (fun hact hrr hu => h.replay hact hrr (hph hu))

/-- A `put`, `delete_key` or `get` has its lock. -/
theorem locked (h : ReadInv serial current ps) (hact : (ps i).active) (hu : (ps i).phase.uncommitted = true)
    (op : LockOp) (key : Key) (hcur : current = (historyOf tr).current) :
    ReadInv serial (historyOf (tr ++ lockedEvents i (ps i).txn.txnId op key)).current
      (Function.update ps i (.locked (ps i).txn op key)) := by
  subst hcur
  rw [historyOf_append]
  have hins : ∀ {k : Key} {m : LockMode}, k ∈ (ps i).txn.locksHeld → k ∈ (ps i).txn.locksHeld.insert key m :=
    fun hk => FinMap.mem_insert_iff.mpr (Or.inr hk)
  cases op with
  | get =>
    refine h.update (fun _ _ => rfl) (fun _ _ _ _ _ _ _ _ => rfl) (fun _ => h.level hact) ?_ ?_
    · exact fun _ hrr k r hg => hins (h.held hact hrr hg)
    · exact fun _ hrr _ => h.replay hact hrr hu
  | put value | delete =>
    simp only [lockedEvents, List.foldl_cons, List.foldl_nil, History.add]
    refine h.update (fun j hj => Function.update_of_ne hj ..) (fun _ _ _ _ _ _ _ _ => rfl) ?_ ?_ ?_ <;>
      rw [Function.update_self]
    · exact fun _ => h.level hact
    · intro _ hrr k r hg
      exact hins (h.held hact hrr (by simpa using hg))
    · intro _ hrr _
      rw [runOps_append, h.replay hact hrr hu]
      rfl

end ReadInv

/-- A key that a session holds is pending in no other session. -/
theorem LockInv.eq_of_held {lm : LockManager} {ps : SessionId → Party} (h : LockInv lm ps) {i j : SessionId}
    (hi : (ps i).active) (hj : (ps j).active) {k : Key} (hk : k ∈ (ps i).txn.locksHeld)
    (hp : (ps i).phase ≠ .released) (hkj : k ∈ (ps j).txn.pendingBuffer) : i = j := by
  have hmem := (h.parties hi).held hk hp
  rw [((h.parties hj).sole hkj).1, Finset.mem_singleton] at hmem
  exact h.unique hi hj hmem

/-- What a session with its lock reads in the store is what the serial store has. -/
theorem get_eq_of_reading {serial store : Store} {lm : LockManager} {ps : SessionId → Party}
    (hl : LockInv lm ps) (hs : StoreInv serial store ps) {i : SessionId} {k : Key} (hp : (ps i).phase = .reading k) :
    store[k]? = serial[k]? := by
  have hact := hl.active i (by rw [hp]; simp)
  refine hs.settled k fun j lsn ws hj hk => ?_
  have hjact := hl.active j (by rw [hj]; simp)
  obtain rfl := hl.eq_of_held hact hjact ((hl.parties hact).reading hp) (by rw [hp]; simp) (hs.mem_pending hj hk)
  rw [hp] at hj
  cases hj

/-- **What a transaction has read stays valid.** -/
theorem CoreStep.readInv {c c' : Core} {l : Label} {evs tr : List Event} {st₀ : Store} (h : CoreStep c l evs c')
    (hl : LockInv c.locks c.parties) (hs : StoreInv (applyCommits st₀ (commitsOf tr)) c.store c.parties)
    (hr : ReadInv (applyCommits st₀ (commitsOf tr)) (historyOf tr).current c.parties) :
    ReadInv (applyCommits st₀ (commitsOf (tr ++ evs))) (historyOf (tr ++ evs)).current c'.parties := by
  rw [commitsOf_append]
  cases h with
  | silent he => rw [commitsOf_silent he, historyOf_silent he, List.append_nil]; exact hr
  | begin level hph _ =>
    rw [show commitsOf [Event.began _ c.nextTxnId level] = [] from rfl, List.append_nil, historyOf_append]
    refine hr.update (fun j hj => Function.update_of_ne hj ..) (fun _ _ _ _ _ _ _ _ => rfl) ?_ ?_ ?_ <;>
      simp [History.add, runOps]
  | @granted i p op key locks hp hph hact _ =>
    subst hp
    rw [(lockedEvents_logsNothing ..).commits, List.append_nil]
    exact hr.locked hact (by rw [hph]; rfl) op key rfl
  | @waitGranted _ i p op key flags locks hp hph _ =>
    subst hp
    rw [(lockedEvents_logsNothing ..).commits, List.append_nil]
    exact hr.locked (hl.active i (by rw [hph]; simp)) (by rw [hph]; rfl) op key rfl
  | @read _ i p key hp hph =>
    subst hp
    have hact := hl.active i (by rw [hph]; simp)
    rw [show commitsOf [Event.done i _ _] = [] from rfl, List.append_nil, historyOf_append]
    simp only [List.foldl_cons, List.foldl_nil, History.add]
    refine hr.update (fun j hj => Function.update_of_ne hj ..) (fun _ _ _ _ _ _ _ _ => rfl) ?_ ?_ ?_ <;>
      rw [Function.update_self]
    · exact fun _ => hr.level hact
    · intro _ hrr k r hg
      rcases List.mem_append.mp hg with hg | hg
      · exact hr.held hact hrr hg
      · obtain ⟨rfl, _⟩ : k = key ∧ _ := by simpa using hg
        exact (hl.parties hact).reading hph
    · intro _ hrr _
      rw [runOps_append, hr.replay hact hrr (by rw [hph]; rfl)]
      simp [runOp, readKey_congr (get_eq_of_reading hl hs hph)]
  | @release _ i p key hp hph =>
    -- only a `READ_COMMITTED` transaction releases early
    subst hp
    have hact := hl.active i (by rw [hph]; simp)
    have hrc := (hl.parties hact).releasing hph
    rw [show commitsOf [] = [] from rfl, List.append_nil, List.append_nil]
    refine hr.update (fun _ _ => rfl) (fun _ _ _ _ _ _ _ _ => rfl) (fun _ => hr.level hact) ?_ ?_
    · intro _ hrr; rw [hrc] at hrr; cases hrr
    · intro _ hrr; rw [hrc] at hrr; cases hrr
  | @logCommit _ i p hp hph =>
    subst hp
    have hact := hl.active i (by rw [hph]; simp)
    rw [applyCommits_append, historyOf_append]
    refine hr.update (fun _ _ => rfl) ?_ (fun _ => hr.level hact) (fun _ hrr _ _ hg => hr.held hact hrr hg) ?_
    · intro j hji hj hrr hu k r hg
      refine (get_applyWrites_of_notMem (fun hk => hji ?_) _).symm
      exact hl.eq_of_held hj hact (hr.held hj hrr hg) (by rintro he; simp [he, Phase.uncommitted] at hu)
        (mem_pending_of_mem_toList hk)
    · intro _ _ hu
      cases hu
  | reset hp hph he =>
    subst hp
    rw [commitsOf_silent he, historyOf_silent he, List.append_nil]
    refine hr.update (fun _ _ => rfl) (fun _ _ _ _ _ _ _ _ => rfl) ?_ ?_ ?_ <;> intro hact <;> cases hact
  | @applied _ i p lsn hp hph =>
    subst hp
    have hact := hl.active i (by rw [hph]; simp)
    rw [show commitsOf [] = [] from rfl, List.append_nil, List.append_nil]
    exact hr.update (fun _ _ => rfl) (fun _ _ _ _ _ _ _ _ => rfl) (fun _ => hr.level hact)
      (fun _ hrr _ _ hg => hr.held hact hrr hg) (fun _ _ hu => by cases hu)
  | @logAbort _ i p hp hph =>
    subst hp
    have hact := hl.active i (by rw [hph]; simp)
    rw [show commitsOf [Event.logged _] = [] from rfl, List.append_nil, historyOf_append]
    exact hr.update (fun _ _ => rfl) (fun _ _ _ _ _ _ _ _ => rfl) (fun _ => hr.level hact)
      (fun _ hrr _ _ hg => hr.held hact hrr hg) (fun _ _ hu => by cases hu)
  | logBegin hp hph | queued hp hph | waitFailed hp hph | startCommit hp hph | logWrite hp hph | apply hp hph
  | startAbort hp hph | abortRelease hp hph =>
    subst hp
    rw [historyOf_append]
    exact (List.append_nil (commitsOf tr)).symm ▸ hr.setPhase _ (by simp [hph, Phase.uncommitted])

/-! ## Runs -/

open Machine

/-- What two-phase locking gives along a run. -/
structure TxnInv (st₀ : Store) (tr : List Event) (s : State) : Prop where
  unconnected : s.Unconnected
  locks : LockInv s.core.locks s.core.parties
  store : StoreInv (applyCommits st₀ (commitsOf tr)) s.core.store s.core.parties
  reads : ReadInv (applyCommits st₀ (commitsOf tr)) (historyOf tr).current s.core.parties

theorem txnInv_initial {st : Store} {s₀ : State} (h : Server.Initial st s₀) : TxnInv st [] s₀ := by
  obtain ⟨hu, hl⟩ := lockInv_initial h
  refine ⟨hu, hl, ?_, ?_⟩
  · cases h <;> exact ⟨fun _ _ => rfl, fun hp => (by cases hp), fun hp => (by cases hp)⟩
  · cases h <;> exact ⟨fun hi => (by cases hi), fun hi => (by cases hi), fun hi => (by cases hi)⟩

theorem TxnInv.step {st₀ : Store} {tr evs : List Event} {s s' : State} {a : Action} (h : TxnInv st₀ tr s)
    (hk : KeepsLocks s a) (hs : step s a = some (s', evs)) : TxnInv st₀ (tr ++ evs) s' where
  unconnected := step_unconnected hs h.unconnected
  locks := (step_core hs).lockInv (hk.allowed h.unconnected) h.locks
  store := (step_core hs).storeInv h.locks h.store
  reads := (step_core hs).readInv h.locks h.store h.reads

theorem txnInv_of_run {st : Store} {s₀ s : State} {as : List Action} {tr : List Event} (h0 : Server.Initial st s₀)
    (h : Run step KeepsLocks s₀ as s tr) : TxnInv st tr s :=
  Run.invariant (TxnInv st) (txnInv_initial h0) (fun hi hk hs => hi.step hk hs) h

/-! ## Repeatable reads -/

/-- A `put` or `delete_key` of the key. -/
def Op.writes (key : Key) : Op → Bool
  | .put k _ | .delete k => k = key
  | .get _ _ => false

/-- Two gets of one key without a `put` or `delete_key` of it in between have been answered the same way. -/
def Repeatable (ops : List Op) : Prop :=
  ∀ before between after key reply reply', ops = before ++ .get key reply :: between ++ .get key reply' :: after →
    (∀ op ∈ between, op.writes key = false) → reply = reply'

theorem runOp_get {st : Store} {b b' : PendingBuffer} {key : Key} {reply : GetReply} :
    runOp st b (.get key reply) = some b' ↔ readKey b st key = reply ∧ b' = b := by
  simp [runOp, eq_comm]

/-- Calls that do not write a key leave its entry in the buffer. -/
theorem foldlM_runOp_get {st : Store} {key : Key} : ∀ {ops : List Op} {b b' : PendingBuffer},
    ops.foldlM (runOp st) b = some b' → (∀ op ∈ ops, op.writes key = false) → b'[key]? = b[key]?
  | [], b, b', h, _ => by cases h; rfl
  | op :: ops, b, b', h, hw => by
    rw [List.foldlM_cons] at h
    obtain ⟨b₁, h1, h2⟩ := Option.bind_eq_some_iff.mp h
    rw [foldlM_runOp_get h2 fun op hop => hw op (List.mem_cons_of_mem _ hop)]
    have hop := hw op List.mem_cons_self
    cases op with
    | put k v =>
      cases h1
      rw [FinMap.find_insert, if_neg (by simpa [Op.writes] using hop)]
    | delete k =>
      cases h1
      rw [FinMap.find_insert, if_neg (by simpa [Op.writes] using hop)]
    | get k r => rw [(runOp_get.mp h1).2]

/-- Calls that have a serial run are repeatable. -/
theorem repeatable_of_runOps {st : Store} {ops : List Op} {b : PendingBuffer} (h : runOps st ops = some b) :
    Repeatable ops := by
  rintro before between after key reply reply' rfl hw
  unfold runOps at h
  rw [List.append_assoc, List.foldlM_append] at h
  obtain ⟨b₁, _, h⟩ := Option.bind_eq_some_iff.mp h
  rw [List.cons_append, List.foldlM_cons] at h
  obtain ⟨b₂, hget, h⟩ := Option.bind_eq_some_iff.mp h
  rw [List.foldlM_append] at h
  obtain ⟨b₃, hmid, h⟩ := Option.bind_eq_some_iff.mp h
  rw [List.foldlM_cons] at h
  obtain ⟨b₄, hget', _⟩ := Option.bind_eq_some_iff.mp h
  obtain ⟨h1, rfl⟩ := runOp_get.mp hget
  obtain ⟨h2, rfl⟩ := runOp_get.mp hget'
  rw [← h1, ← h2]
  unfold readKey
  rw [foldlM_runOp_get hmid hw]

/-- A session whose calls have changed has just begun, or has an uncommitted transaction. -/
theorem CoreStep.current_eq {c c' : Core} {l : Label} {evs : List Event} (h : CoreStep c l evs c')
    (hl : LockInv c.locks c.parties) (tr : List Event) (j : SessionId) :
    (historyOf (tr ++ evs)).current j = (historyOf tr).current j ∨
      (c'.parties j).active ∧ (c'.parties j).phase.uncommitted = true := by
  have hlocked : ∀ {i : SessionId} {p : Party} {op : LockOp} {key : Key} {c₁ : Core}, p.active →
      (historyOf (tr ++ lockedEvents i p.txn.txnId op key)).current j = (historyOf tr).current j ∨
        ((c₁.setParty i (.locked p.txn op key)).parties j).active ∧
          ((c₁.setParty i (.locked p.txn op key)).parties j).phase.uncommitted = true := by
    intro i p op key c₁ hact
    rw [historyOf_append]
    by_cases hji : j = i
    · subst hji
      right
      simp only [Core.setParty, Function.update_self]
      cases op <;> exact ⟨hact, rfl⟩
    · left
      cases op <;> simp [lockedEvents, History.add, hji]
  cases h with
  | silent he => exact Or.inl (by rw [historyOf_silent he])
  | @begin i level _ _ =>
    rw [historyOf_append]
    by_cases hji : j = i
    · subst hji
      exact Or.inr (by simp [Core.setParty, Party.active, Phase.uncommitted])
    · exact Or.inl (by simp [History.add, hji])
  | granted _ _ hact _ => exact hlocked hact
  | @waitGranted _ i p op key flags locks hp hph _ =>
    subst hp
    exact hlocked (hl.active i (by rw [hph]; simp))
  | @read _ i p key hp hph =>
    subst hp
    rw [historyOf_append]
    by_cases hji : j = i
    · subst hji
      refine Or.inr ?_
      simp only [Core.setParty, Function.update_self]
      exact ⟨hl.active j (by rw [hph]; simp), by split <;> rfl⟩
    · exact Or.inl (by simp [History.add, hji])
  | reset _ _ he => exact Or.inl (by rw [historyOf_silent he])
  | logBegin | queued | waitFailed | release | startCommit | logWrite | logCommit | apply | applied
  | startAbort | logAbort | abortRelease => exact Or.inl (by rw [historyOf_append]; rfl)

/-- **Reads are repeatable** in runs that keep the locks, whatever the other sessions' isolation levels are. -/
theorem repeatable_reads {st : Store} {s₀ s : State} {as : List Action} {tr : List Event}
    (h0 : Server.Initial st s₀) (h : Run step KeepsLocks s₀ as s tr) (i : SessionId)
    (hi : ((historyOf tr).current i).level = .repeatableRead) : Repeatable ((historyOf tr).current i).ops := by
  have hinv : TxnInv st tr s ∧ ∀ i, ((historyOf tr).current i).level = .repeatableRead →
      Repeatable ((historyOf tr).current i).ops := by
    refine Run.invariant (fun tr s => TxnInv st tr s ∧ ∀ i, ((historyOf tr).current i).level = .repeatableRead →
      Repeatable ((historyOf tr).current i).ops) ⟨txnInv_initial h0, ?_⟩ ?_ h
    · intro i _ before between after key reply reply' he
      simp [historyOf] at he
    · rintro tr s a s' evs ⟨ht, hrep⟩ hk hs
      have ht' := ht.step hk hs
      refine ⟨ht', fun j hj => ?_⟩
      rcases (step_core hs).current_eq ht.locks tr j with heq | ⟨hact, hu⟩
      · rw [heq] at hj ⊢
        exact hrep j hj
      · exact repeatable_of_runOps (ht'.reads.replay hact ((ht'.reads.level hact).symm.trans hj) hu)
  exact hinv.2 i hi

/-- A `REPEATABLE_READ` session reads a missing key twice while another session reads, too. -/
theorem repeatable_reads_twice : ∃ s tr, Run step KeepsLocks (Server.boot {} ∅)
    [.connect, .connect, .command 0 (.begin .repeatableRead), .thread 0, .command 1 (.begin .readCommitted), .thread 1,
      .command 0 (.get [97]), .thread 0, .command 1 (.get [97]), .thread 1, .command 0 (.get [97]), .thread 0] s tr ∧
    (historyOf tr).current 0 = ⟨1, .repeatableRead, [.get [97] .notFound, .get [97] .notFound]⟩ ∧
    Repeatable ((historyOf tr).current 0).ops := by
  have hrun := exists_run_of_exec step KeepsLocks (Server.boot {} ∅)
    [.connect, .connect, .command 0 (.begin .repeatableRead), .thread 0, .command 1 (.begin .readCommitted),
      .thread 1, .command 0 (.get [97]), .thread 0, .command 1 (.get [97]), .thread 1, .command 0 (.get [97]),
      .thread 0]
    (fun _ tr => decide ((historyOf tr).current 0 =
      ⟨1, .repeatableRead, [.get [97] .notFound, .get [97] .notFound]⟩)) (by decide +kernel)
  obtain ⟨s, tr, hr, hp⟩ := hrun
  have hp := of_decide_eq_true hp
  exact ⟨s, tr, hr, hp, repeatable_reads (.opened {}) hr 0 (by rw [hp])⟩

/-- A `READ_COMMITTED` writer that gets its own key gives up its write lock, so that its commit changes the key under
a `REPEATABLE_READ` reader. -/
theorem repeatable_reads_broken : ∃ as s tr, Run step (fun _ _ => True) (Server.boot {} ∅) as s tr ∧
    ((historyOf tr).current 0).level = .repeatableRead ∧ ¬ Repeatable ((historyOf tr).current 0).ops := by
  have hrun := exists_run_of_exec step (fun _ _ => True) (Server.boot {} ∅)
    [.connect, .connect, .command 0 (.begin .repeatableRead), .thread 0, .command 1 (.begin .readCommitted),
      .thread 1, .command 1 (.put [97] [49]), .command 1 (.get [97]), .thread 1, .thread 1, .command 0 (.get [97]),
      .thread 0, .command 1 .commit, .thread 1, .thread 1, .worker, .worker, .worker, .worker, .worker, .worker,
      .thread 1, .thread 1, .thread 1, .command 0 (.get [97]), .thread 0]
    (fun _ tr => decide ((historyOf tr).current 0 =
      ⟨1, .repeatableRead, [.get [97] .notFound, .get [97] (.value [49])]⟩)) (by decide +kernel)
  obtain ⟨s, tr, hr, hp⟩ := hrun
  have hp := of_decide_eq_true hp
  refine ⟨_, s, tr, hr, by rw [hp], fun hrep => ?_⟩
  rw [hp] at hrep
  exact absurd (hrep [] [] [] [97] .notFound (.value [49]) rfl (by simp)) (by simp)

/-! ## Serializability -/

/-- Every transaction is begun at `REPEATABLE_READ`. -/
def BeginsRepeatableRead (_ : State) : Action → Prop
  | .command _ (.begin level) => level = .repeatableRead
  | _ => True

instance (s : State) : (a : Action) → Decidable (BeginsRepeatableRead s a)
  | .command _ (.begin level) => inferInstanceAs (Decidable (level = .repeatableRead))
  | .command _ (.put ..) | .command _ (.get _) | .command _ (.delete _) | .command _ .commit | .command _ .abort
  | .command _ .checkpoint | .command _ .quit | .connect | .thread _ | .copyStore .. | .threadFault .. | .worker
  | .workerFault _ | .disconnect _ => .isTrue trivial

/-- Inside `commit`. -/
def Pc.inCommit : Pc → Bool
  | .logWrites _ | .enterWait _ | .checkFlushed _ | .aboutToBlock _ | .blocked _ | .applying _ _
  | .commitReset _ => true
  | _ => false

theorem lockedEvents_history (tr : List Event) (i : SessionId) (t : TxnId) (op : LockOp) (key : Key) :
    (historyOf (tr ++ lockedEvents i t op key)).committed = (historyOf tr).committed := by
  rw [historyOf_append]
  cases op <;> rfl

/-- A step commits nothing, or a transaction whose calls have a serial run. -/
theorem CoreStep.serial {c c' : Core} {l : Label} {evs tr : List Event} {st₀ : Store} (h : CoreStep c l evs c')
    (hl : LockInv c.locks c.parties)
    (hr : ReadInv (applyCommits st₀ (commitsOf tr)) (historyOf tr).current c.parties)
    (hrr : ∀ i, (c.parties i).active → (c.parties i).txn.isolationLevel = .repeatableRead)
    (hs : serialRun st₀ ((historyOf tr).committed.map Prod.snd) = some (applyCommits st₀ (commitsOf tr))) :
    serialRun st₀ ((historyOf (tr ++ evs)).committed.map Prod.snd) =
      some (applyCommits st₀ (commitsOf (tr ++ evs))) := by
  rw [commitsOf_append]
  cases h with
  | silent he => rw [historyOf_silent he, commitsOf_silent he, List.append_nil]; exact hs
  | granted | waitGranted => rw [lockedEvents_history, (lockedEvents_logsNothing ..).commits, List.append_nil]; exact hs
  | reset _ _ he => rw [historyOf_silent he, commitsOf_silent he, List.append_nil]; exact hs
  | @logCommit _ i p hp hph =>
    subst hp
    have hact := hl.active i (by rw [hph]; simp)
    have hreplay := hr.replay hact (hrr i hact) (by rw [hph]; rfl)
    rw [historyOf_append, applyCommits_append]
    simp only [List.foldl_cons, List.foldl_nil, History.add, List.map_append, List.map_cons, List.map_nil]
    rw [serialRun_append, hs]
    simp only [serialTxn, hreplay, Option.bind_some, Option.map_some]
    rfl
  | begin | logBegin | queued | waitFailed | read | release | startCommit | logWrite | apply | applied
  | startAbort | logAbort | abortRelease =>
    rw [historyOf_append]
    exact (List.append_nil (commitsOf tr)).symm ▸ hs

/-- Isolation levels are those the transactions were begun with. -/
theorem CoreStep.levels {c c' : Core} {l : Label} {evs : List Event} (h : CoreStep c l evs c')
    (hev : ∀ i t level, .began i t level ∈ evs → level = .repeatableRead)
    (hrr : ∀ i, (c.parties i).active → (c.parties i).txn.isolationLevel = .repeatableRead) :
    ∀ i, (c'.parties i).active → (c'.parties i).txn.isolationLevel = .repeatableRead := by
  let rr (p : Party) : Prop := p.active → p.txn.isolationLevel = .repeatableRead
  have hset : ∀ {c₁ : Core} {i : SessionId} {p' : Party}, c₁.parties = c.parties → rr p' →
      ∀ j, rr ((c₁.setParty i p').parties j) := fun hps hp => Core.forall_setParty rr hrr hps hp
  cases h with
  | silent _ => exact hrr
  | begin level _ _ => exact hset rfl fun _ => hev _ _ level (List.mem_singleton_self _)
  | @granted i p op key locks hp _ _ _ =>
    subst hp
    exact hset rfl fun h => by cases op <;> exact hrr i h
  | @waitGranted _ i p op key flags locks hp _ _ =>
    subst hp
    exact hset rfl fun h => by cases op <;> exact hrr i h
  | reset hp _ _ => exact hset rfl fun h => by cases h
  | logBegin hp | queued hp | waitFailed hp | read hp | release hp | startCommit hp | logWrite hp | logCommit hp
  | apply hp | applied hp | startAbort hp | logAbort hp | abortRelease hp =>
    subst hp
    exact hset rfl fun h => hrr _ h

theorem BeginsRepeatableRead.events {s s' : State} {a : Action} {evs : List Event} (hP : BeginsRepeatableRead s a)
    (hs : step s a = some (s', evs)) (i : SessionId) (t : TxnId) (level : IsolationLevel)
    (hm : .began i t level ∈ evs) : level = .repeatableRead := by
  rcases (step_core hs).begun with ⟨he, _⟩ | ⟨he, _, j, hl, hj⟩
  · have hmem : t ∈ begunOf evs := List.mem_filterMap.mpr ⟨_, hm, rfl⟩
    rw [he] at hmem
    cases hmem
  · cases a with
    | command k cmd =>
      cases cmd <;> cases hl
      rw [step_begin hs hj] at hm
      cases List.mem_singleton.mp hm
      exact hP
    | _ => cases hl

/-- What holds along a run of `REPEATABLE_READ` transactions. -/
structure SerialInv (st₀ : Store) (tr : List Event) (s : State) : Prop extends TxnInv st₀ tr s where
  ids : IdInv (begunOf tr) s.core
  levels : ∀ i, (s.core.parties i).active → (s.core.parties i).txn.isolationLevel = .repeatableRead
  order : CommitOrder (commitsOf tr) s.core.nextLsn
  serial : serialRun st₀ ((historyOf tr).committed.map Prod.snd) = some (applyCommits st₀ (commitsOf tr))

theorem SerialInv.step {st₀ : Store} {tr evs : List Event} {s s' : State} {a : Action} (h : SerialInv st₀ tr s)
    (hP : BeginsRepeatableRead s a) (hf : FreshIds s a) (hs : step s a = some (s', evs)) :
    SerialInv st₀ (tr ++ evs) s' := by
  have hw : KeepsWriteLocks s a := by
    unfold KeepsWriteLocks Core.KeepsWriteLocks
    split
    · intro hi hrc
      have hrr := h.levels _ hi
      rw [show (s.core.parties _).txn.isolationLevel = _ from hrc] at hrr
      cases hrr
    · trivial
  have hk : KeepsLocks s a := ⟨hf.newIds h.ids, hw⟩
  exact {
    toTxnInv := h.toTxnInv.step hk hs
    ids := (step_core hs).idInv (fun i hl hia => hf.next_ne hl hia) h.ids
    levels := (step_core hs).levels (hP.events hs) h.levels
    order := (step_core hs).commitOrder h.order
    serial := (step_core hs).serial h.locks h.reads h.levels h.serial }

theorem serialInv_of_run {st : Store} {s₀ s : State} {as : List Action} {tr : List Event}
    (h0 : Server.Initial st s₀) (h : Run step BeginsRepeatableRead s₀ as s tr)
    (hn : (begunOf tr).length < 2 ^ 32) : SerialInv st tr s := by
  refine Run.invariant (SerialInv st) ?_ (fun hi hP hs => hi.step hP.1 hP.2 hs) (freshIds_of_length h0 h hn).1
  have hlevels : ∀ i, (s₀.core.parties i).active → (s₀.core.parties i).txn.isolationLevel = .repeatableRead := by
    cases h0 <;> exact fun i hi => (by cases hi)
  exact {
    toTxnInv := txnInv_initial h0
    ids := idInv_initial h0
    levels := hlevels
    order := ⟨List.Pairwise.nil, by simp [commitsOf]⟩
    serial := rfl }

theorem StoreInv.store_eq {serial store : Store} {ps : SessionId → Party} (h : StoreInv serial store ps)
    (hp : ∀ i, (ps i).phase.isApplying = false) : store = serial := by
  refine ExtTreeMap.ext_getElem? fun {k} => h.settled k fun i lsn ws hi => ?_
  have := hp i
  rw [hi] at this
  cases this

/-- Outside `commit` no session has entries left to apply. -/
theorem StoreInv.store_of_noCommit {serial : Store} {s : State} (h : StoreInv serial s.core.store s.core.parties)
    (hc : ∀ i, (s.sessions i).pc.inCommit = false) : s.store = serial := by
  refine h.store_eq fun i => ?_
  have hi := hc i
  show ((s.sessions i).pc.phase (s.sessions i).txn).isApplying = false
  cases hpc : (s.sessions i).pc <;> rw [hpc] at hi <;> first | rfl | cases hi

/-- **Serializability**: the committed transactions of a run of `REPEATABLE_READ` transactions have a serial run in the
order of their commit LSNs in which every call is answered the same way, and whenever no session is inside `commit`,
the store is the store of that serial run. -/
theorem serializable {st : Store} {s₀ s : State} {as : List Action} {tr : List Event} (h0 : Server.Initial st s₀)
    (h : Run step BeginsRepeatableRead s₀ as s tr) (hn : (begunOf tr).length < 2 ^ 32) :
    ((historyOf tr).committed.map Prod.fst).Pairwise (· < ·) ∧
      ∃ st', serialRun st ((historyOf tr).committed.map Prod.snd) = some st' ∧
        ((∀ i, (s.sessions i).pc.inCommit = false) → s.store = st') := by
  have hinv := serialInv_of_run h0 h hn
  refine ⟨?_, _, hinv.serial, hinv.store.store_of_noCommit⟩
  rw [historyOf_committed, List.pairwise_map]
  exact hinv.order.sorted

/-- Two transactions that commit one after the other, the second of which reads what the first has written. -/
theorem serializable_put_get : ∃ as s tr, Run step BeginsRepeatableRead (Server.boot {} ∅) as s tr ∧
    (historyOf tr).committed = [(3, [.put [97] [49]]), (5, [.get [97] (.value [49])])] ∧
    ∃ st', serialRun ∅ [[.put [97] [49]], [.get [97] (.value [49])]] = some st' ∧
      ((∀ i, (s.sessions i).pc.inCommit = false) → s.store = st') := by
  have hrun := exists_run_of_exec step BeginsRepeatableRead (Server.boot {} ∅)
    [.connect, .connect, .command 0 (.begin .repeatableRead), .thread 0, .command 0 (.put [97] [49]),
      .command 0 .commit, .thread 0, .thread 0, .worker, .worker, .worker, .worker, .worker, .worker, .worker, .worker,
      .thread 0, .thread 0, .thread 0, .thread 0, .thread 0, .command 1 (.begin .repeatableRead), .thread 1,
      .command 1 (.get [97]), .thread 1, .command 1 .commit, .thread 1]
    (fun _ tr => decide ((begunOf tr).length = 2 ∧
      (historyOf tr).committed = [(3, [.put [97] [49]]), (5, [.get [97] (.value [49])])])) (by decide +kernel)
  obtain ⟨s, tr, hr, hp⟩ := hrun
  obtain ⟨hn, hc⟩ := of_decide_eq_true hp
  obtain ⟨_, st', hst, hstore⟩ := serializable (.opened {}) hr (by omega)
  rw [hc] at hst
  exact ⟨_, s, tr, hr, hc, st', hst, hstore⟩

end Kvdb
