import Kvdb.Types
import Mathlib.Data.Finset.Card

/-!
# The lock manager

Every function of `LockManager` runs under `lock_table_mutex_` and is one step, except `acquireLock`, which gives the
mutex up while it waits: `acquireLock` is the part up to the wait and `finishWait` the part after it. Between the two
the caller is known to the others only by its `LockWaiter` in a queue and by the two shared flags it waits on.

The flags of a waiter are shared pointers to booleans; here they are one cell of the list `flags`, and a waiter holds
the cell's address. No code sets `deadlocked`.
-/

namespace Kvdb

open Std

/-- `*granted` and `*deadlocked`. -/
structure WaitFlags where
  granted : Bool := false
  deadlocked : Bool := false
  deriving DecidableEq, Repr

structure LockWaiter where
  txnId : TxnId
  requestedMode : LockMode
  /-- The address of the two flags. -/
  flags : Nat
  deriving DecidableEq, Repr

structure LockEntry where
  currentMode : LockMode := .none
  holders : Finset TxnId := ∅
  waitQueue : List LockWaiter := []
  deriving DecidableEq

structure LockManager where
  lockTable : ExtTreeMap Key LockEntry := ∅
  flags : List WaitFlags := []

def isCompatible (mode1 mode2 : LockMode) : Bool :=
  if mode1 = .none ∨ mode2 = .none then true
  else if mode1 = .shared ∧ mode2 = .shared then true
  else false

/-- The mode of an entry after a grant: `NONE` takes the mode, `EXCLUSIVE` is kept or taken. -/
def LockMode.grant (current mode : LockMode) : LockMode :=
  if current = .none then mode else if mode = .exclusive then .exclusive else current

/-- The paths of `acquireLock` that return `true` without waiting: the entry after the grant. -/
def LockEntry.tryGrant (entry : LockEntry) (txnId : TxnId) (mode : LockMode) : Option LockEntry :=
  if txnId ∈ entry.holders then
    if entry.currentMode = .exclusive ∨ mode = .shared then some entry
    else if entry.holders.card = 1 then
      -- the only holder upgrades in place, unless others queue before it
      if entry.waitQueue = [] then some { entry with currentMode := .exclusive }
      else if (entry.waitQueue.head?.map (·.txnId)) = some txnId then
        some { entry with waitQueue := entry.waitQueue.tail, currentMode := .exclusive }
      else none
    else none
  else if isCompatible entry.currentMode mode ∧ entry.waitQueue = [] then
    some { entry with holders := insert txnId entry.holders, currentMode := entry.currentMode.grant mode }
  else none

/-- What `acquireLock` has come to when it returns or starts to wait. -/
inductive Acquire
  | granted
  | waiting (flags : Nat)
  deriving DecidableEq, Repr

/-- The grant loop of `processWaiters`: from the front of the queue until a waiter conflicts. -/
def grantWaiters (mode : LockMode) (holders : Finset TxnId) (flags : List WaitFlags) :
    List LockWaiter → LockEntry × List WaitFlags
  | [] => (⟨mode, holders, []⟩, flags)
  | waiter :: queue =>
    if isCompatible mode waiter.requestedMode then
      grantWaiters (mode.grant waiter.requestedMode) (insert waiter.txnId holders)
        (flags.modify waiter.flags fun f => { f with granted := true }) queue
    else (⟨mode, holders, waiter :: queue⟩, flags)

namespace LockManager

def acquireLock (lm : LockManager) (txnId : TxnId) (key : Key) (mode : LockMode) : LockManager × Acquire :=
  let entry := lm.lockTable[key]?.getD {}
  match entry.tryGrant txnId mode with
  | some entry' => ({ lm with lockTable := lm.lockTable.insert key entry' }, .granted)
  | none =>
    let waiter : LockWaiter := ⟨txnId, mode, lm.flags.length⟩
    ({ lockTable := lm.lockTable.insert key { entry with waitQueue := entry.waitQueue ++ [waiter] }
       flags := lm.flags ++ [{}] }, .waiting lm.flags.length)

/-- `q.erase(remove_if(q.begin(), q.end(), w.txn_id == txn_id))` on the queue of `key`. -/
def dropWaiter (lm : LockManager) (txnId : TxnId) (key : Key) : LockManager :=
  match lm.lockTable[key]? with
  | none => lm
  | some entry =>
    let entry := { entry with waitQueue := entry.waitQueue.filter (·.txnId ≠ txnId) }
    { lm with lockTable := lm.lockTable.insert key entry }

/-- `acquireLock` from the moment its wait ends, by a notification or by the timeout, and what it returns. -/
def finishWait (lm : LockManager) (txnId : TxnId) (key : Key) (flags : Nat) : LockManager × Bool :=
  let f := lm.flags.getD flags {}
  if f.deadlocked then (lm.dropWaiter txnId key, false)
  else if !f.granted then (lm.dropWaiter txnId key, false)
  else (lm, true)

def processWaiters (lm : LockManager) (key : Key) : LockManager :=
  match lm.lockTable[key]? with
  | none => lm
  | some entry =>
    let r := grantWaiters entry.currentMode entry.holders lm.flags entry.waitQueue
    { lockTable := lm.lockTable.insert key r.1, flags := r.2 }

/-- The body the two release functions share: drop the holder, and when none is left let the waiters in. -/
def dropHolder (lm : LockManager) (txnId : TxnId) (key : Key) : LockManager :=
  match lm.lockTable[key]? with
  | none => lm
  | some entry =>
    let holders := entry.holders.erase txnId
    if holders = ∅ then
      processWaiters { lm with lockTable := lm.lockTable.insert key ⟨.none, holders, entry.waitQueue⟩ } key
    else { lm with lockTable := lm.lockTable.insert key { entry with holders := holders } }

/-- `entry.holders.empty() && entry.wait_queue.empty()`. -/
def isUnused (lm : LockManager) (key : Key) : Bool :=
  match lm.lockTable[key]? with
  | none => false
  | some entry => entry.holders = ∅ ∧ entry.waitQueue = []

def releaseLock (lm : LockManager) (txnId : TxnId) (key : Key) : LockManager :=
  let lm := lm.dropHolder txnId key
  if lm.isUnused key then { lm with lockTable := lm.lockTable.erase key } else lm

/-- `keys_to_process`, in the order of the map. -/
def keysHeldBy (lm : LockManager) (txnId : TxnId) : List Key :=
  (lm.lockTable.toList.filter fun p => txnId ∈ p.2.holders).map Prod.fst

/-- One turn of the first loop of `releaseAllLocks`, with the keys to erase so far. -/
def releaseTurn (txnId : TxnId) (r : LockManager × List Key) (key : Key) : LockManager × List Key :=
  let lm := r.1.dropHolder txnId key
  (lm, if lm.isUnused key then r.2 ++ [key] else r.2)

def releaseAllLocks (lm : LockManager) (txnId : TxnId) : LockManager :=
  let r := (lm.keysHeldBy txnId).foldl (releaseTurn txnId) (lm, [])
  { r.1 with lockTable := r.2.foldl ExtTreeMap.erase r.1.lockTable }

def hasLock (lm : LockManager) (txnId : TxnId) (key : Key) : LockMode :=
  match lm.lockTable[key]? with
  | none => .none
  | some entry => if txnId ∈ entry.holders then entry.currentMode else .none

end LockManager

end Kvdb
