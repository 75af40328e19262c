import Kvdb.Server
import Mathlib.Data.Finset.Sort
import Mathlib.Data.List.DropRight

/-!
# The line protocol

How a line of a client becomes a call, and what is answered: `CommandParser::parse`, the branches of
`ConnectionHandler::handleCommand`, and the texts of all responses. Characters are bytes and classified as in the
C locale.

A response is empty only for `QUIT` and for a `GET` whose value is empty (`Call.response_eq_nil_iff`).
-/

namespace Kvdb

/-- The bytes of an ASCII text. -/
def ascii (text : String) : Bytes := text.toList.map Char.toUInt8

@[simp] theorem ascii_eq_nil_iff {text : String} : ascii text = [] ↔ text = "" := by simp [ascii]

/-! ## Lines -/

/-- `getNextCommandLine` when `inbuf_` has a newline: the line and the rest of `inbuf_`. -/
def takeLine (inbuf : Bytes) : Option (Bytes × Bytes) :=
  match inbuf.idxOf? 10 with
  | none => none
  | some pos =>
    let line := inbuf.take pos
    some (if line.getLast? = some 13 then line.dropLast else line, inbuf.drop (pos + 1))

/-! ## Parsing -/

def isSpace (b : UInt8) : Bool := b = 32 ∨ 9 ≤ b ∧ b ≤ 13

def toUpper (b : UInt8) : UInt8 := if 97 ≤ b ∧ b ≤ 122 then b - 32 else b

namespace CommandParser

structure Command where
  name : Bytes := []
  args : List Bytes := []
  deriving DecidableEq, Repr

def trim (str : Bytes) : Bytes := (str.dropWhile isSpace).rdropWhile isSpace

/-- What `iss >> token` reads until the end of the stream, `token` being the part of the next one already read. -/
def tokens (token : Bytes) : Bytes → List Bytes
  | [] => if token = [] then [] else [token]
  | b :: rest =>
    if isSpace b then if token = [] then tokens [] rest else token :: tokens [] rest
    else tokens (token ++ [b]) rest

def parse (line : Bytes) : Command :=
  let trimmed := trim line
  let trimmed := if trimmed.getLast? = some 59 then trimmed.dropLast else trimmed
  match tokens [] trimmed with
  | [] => {}
  | first :: args => { name := first.map toUpper, args := args }

end CommandParser

def parseIsolationLevel (str : Bytes) : IsolationLevel :=
  if str = ascii "READ_COMMITTED" then .readCommitted else .repeatableRead

/-! ## Dispatch -/

/-- The branches of `handleCommand`. -/
inductive Request
  | reply (response : Bytes)
  | call (cmd : Command)
  | stats
  | locks
  | crash
  deriving DecidableEq, Repr

def CommandParser.Command.request (cmd : CommandParser.Command) : Request :=
  if cmd.name = [] then .reply (ascii "ERROR: Empty command")
  else if cmd.name = ascii "BEGIN" then
    match cmd.args with
    | [] => .call (.begin .repeatableRead)
    | level :: _ => .call (.begin (parseIsolationLevel level))
  else if cmd.name = ascii "PUT" then
    match cmd.args with
    | key :: value :: _ => .call (.put key value)
    | _ => .reply (ascii "ERROR: PUT requires key and value")
  else if cmd.name = ascii "GET" then
    match cmd.args with
    | key :: _ => .call (.get key)
    | [] => .reply (ascii "ERROR: GET requires key")
  else if cmd.name = ascii "DELETE" then
    match cmd.args with
    | key :: _ => .call (.delete key)
    | [] => .reply (ascii "ERROR: DELETE requires key")
  else if cmd.name = ascii "COMMIT" then .call .commit
  else if cmd.name = ascii "ABORT" then .call .abort
  else if cmd.name = ascii "\\STATS" then .stats
  else if cmd.name = ascii "\\LOCKS" then .locks
  else if cmd.name = ascii "CRASH" then .crash
  else if cmd.name = ascii "QUIT" then .call .quit
  else if cmd.name = ascii "CHECKPOINT" then .call .checkpoint
  else .reply (ascii "ERROR: Unknown command: " ++ cmd.name)

/-! ## Responses -/

/-- The local variables of `handleCommand` during a call. -/
structure Call where
  cmd : Command
  /-- `committed_txn_id`. -/
  txnId : TxnId
  /-- The error text; empty when the call succeeds. -/
  result : Bytes := []
  value : Value := []
  ok : Bool := true
  deriving DecidableEq, Repr

/-- What an event of the call says about its outcome. -/
def Call.note (call : Call) : Event → Call
  | .failed _ error => { call with result := ascii error.message }
  | .done _ _ (.get _ (.value value)) => { call with value := value }
  | .done _ _ (.get _ .deletedInTxn) => { call with result := ascii "Key not found (deleted in this txn)" }
  | .done _ _ (.get _ .notFound) => { call with result := ascii "Key not found" }
  | _ => call

/-- What `handleCommand` returns after the call; `txnId` is `getCurrentTxnId()`. -/
def Call.response (call : Call) (txnId : TxnId) : Bytes :=
  let orError (response : Bytes) := if call.result = [] then response else ascii "ERROR: " ++ call.result
  match call.cmd with
  | .begin _ => orError (ascii ("txn " ++ toString txnId.toNat ++ " started."))
  | .put _ _ => orError (ascii "OK")
  | .get _ => orError call.value
  | .delete _ => orError (ascii "OK")
  | .commit => orError (ascii ("txn " ++ toString call.txnId.toNat ++ " committed."))
  | .abort => orError (ascii "OK")
  | .quit => []
  | .checkpoint =>
    if call.ok then ascii "CHECKPOINT OK" else ascii "ERROR: checkpoint refused (active transactions exist)"

/-- **The empty response** is the one to `QUIT`, or an empty value. -/
theorem Call.response_eq_nil_iff (call : Call) (txnId : TxnId) :
    call.response txnId = [] ↔ call.cmd = .quit ∨ ∃ key, call.cmd = .get key ∧ call.result = [] ∧ call.value = [] := by
  cases hc : call.cmd <;> simp only [Call.response, hc]
  case quit => simp
  all_goals split <;> simp_all

def lockModeToString : LockMode → String
  | .none => "NONE"
  | .shared => "SHARED"
  | .exclusive => "EXCLUSIVE"

/-- The lines `dumpLockTable` prints for an entry. -/
def LockEntry.dump (key : Key) (entry : LockEntry) : Bytes :=
  let holders := (entry.holders.image UInt32.toNat).sort (· ≤ ·)
  let waiters := entry.waitQueue.flatMap fun w =>
    ascii ("Txn" ++ toString w.txnId.toNat ++ "(" ++ lockModeToString w.requestedMode ++ ") ")
  ascii "Key: \"" ++ key ++ ascii "\"\n" ++ ascii ("  Mode: " ++ lockModeToString entry.currentMode ++ "\n") ++
    ascii "  Holders: " ++ holders.flatMap (fun t => ascii (toString t ++ " ")) ++ ascii "\n" ++
    if entry.waitQueue = [] then [] else ascii "  Waiters: " ++ waiters ++ ascii "\n"

def LockManager.dumpLockTable (lm : LockManager) : Bytes :=
  ascii "=== Lock Table ===\n" ++
    if lm.lockTable.isEmpty then ascii "No locks held.\n"
    else lm.lockTable.toList.flatMap fun entry => entry.2.dump entry.1

/-- The sessions of the source are numbered from 1. -/
def getStats (sid : SessionId) (txn : TransactionInfo) (totalCommits deadlockAborts : Nat) : Bytes :=
  let active :=
    if txn.state = .active then
      "active txn: " ++ toString txn.txnId.toNat ++ "\nlocks held: " ++ toString txn.locksHeld.size ++ "\n"
    else "active txn: none\nlocks held: 0\n"
  ascii ("session: " ++ toString (sid + 1) ++ "\n" ++ active ++ "total commits: " ++ toString totalCommits ++
    "\ndeadlock aborts: " ++ toString deadlockAborts)

def getGreeting (sid : SessionId) : Bytes := ascii ("KVDB ready (session " ++ toString (sid + 1) ++ ")")

end Kvdb
