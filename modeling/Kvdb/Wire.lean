import Kvdb.Refinement
import Kvdb.ChaosClient

/-!
# The server on the wire

What a client reads off its socket is what the atomic store has answered. `Exchange` is the protocol: what a command
line may lead to, and the response for it; a response about the server itself is about a state it is in while the line
is handled (`Handled`). Every connection is a greeting followed by such exchanges (`Transcript`), and the calls of all
connections together are a history of the atomic store (`wire_refines_atomic_store`).

`Serves` says where a session's thread is inside a call and what it has told so far. A step of the thread goes on or
ends the call with an `Outcome` (`handleCommand_continues`, `ThreadMove.continues`).
-/

namespace Kvdb

open Machine

/-! ## The protocol -/

/-- The session that an event is about. The log and its flushes belong to nobody. -/
def Event.teller : Event → Option SessionId
  | .began i _ _ | .done i _ _ | .failed i _ | .committed i _ _ _ | .acked i _ _ => some i
  | .logged _ | .waited _ _ | .flushed _ => none

/-- The events about session `i`. -/
def toldOf (i : SessionId) (evs : List Event) : List Event := evs.filter fun e => e.teller = some i

section Protocol

/- While a line is handled, `seen s input` says that the host takes the input when the server is in the state `s`. -/
variable (seen : State → Input → Prop) (i : SessionId)

/-- The errors a call may end with: as the session is when the line is taken, or after a wait for a lock. -/
inductive Command.Fails : Command → TxnError → Prop
  | begin {s : State} (level : IsolationLevel) : seen s (.nextLine i) → (s.sessions i).txn.state = .active →
      Fails (.begin level) (.alreadyInTransaction (s.sessions i).txn.txnId)
  | locked {s : State} (op : LockOp) (key : Key) : seen s (.nextLine i) → (s.sessions i).txn.state ≠ .active →
      Fails (op.command key) .notInTransaction
  | deadlock {s : State} (op : LockOp) (key : Key) (flags : Nat) : seen s (.server (.thread i)) →
      (s.sessions i).pc = .waitLock op key flags →
      (s.locks.finishWait (s.sessions i).txn.txnId key flags).2 = false → Fails (op.command key) .deadlock
  | commit {s : State} : seen s (.nextLine i) → (s.sessions i).txn.state ≠ .active → Fails .commit .notInTransaction
  | abort {s : State} : seen s (.nextLine i) → (s.sessions i).txn.state ≠ .active → Fails .abort .notInTransaction

/-- What a call of session `i` tells, and the response. -/
inductive Outcome : Command → List Event → Bytes → Prop
  | began (level : IsolationLevel) (t : TxnId) :
      Outcome (.begin level) [.began i t level] (ascii ("txn " ++ toString t.toNat ++ " started."))
  | put (key : Key) (value : Value) (t : TxnId) : Outcome (.put key value) [.done i t (.put key value)] (ascii "OK")
  | delete (key : Key) (t : TxnId) : Outcome (.delete key) [.done i t (.delete key)] (ascii "OK")
  | got (key : Key) (t : TxnId) (value : Value) : Outcome (.get key) [.done i t (.get key (.value value))] value
  | missing (key : Key) (t : TxnId) :
      Outcome (.get key) [.done i t (.get key .notFound)] (ascii "ERROR: " ++ ascii "Key not found")
  | deleted (key : Key) (t : TxnId) : Outcome (.get key) [.done i t (.get key .deletedInTxn)]
      (ascii "ERROR: " ++ ascii "Key not found (deleted in this txn)")
  | committed (lsn : Nat) (t : TxnId) (writes : List Write) : Outcome .commit
      [.committed i lsn t writes, .acked i lsn t] (ascii ("txn " ++ toString t.toNat ++ " committed."))
  | aborted {s : State} : seen s (.nextLine i) → (s.sessions i).txn.state = .active → Outcome .abort [] (ascii "OK")
  | failed {cmd : Command} {error : TxnError} : cmd.Fails seen i error →
      Outcome cmd [.failed i error] (ascii "ERROR: " ++ ascii error.message)
  /-- `checkpoint` looks for active transactions once. -/
  | checkpoint {s : State} : seen s (.server (.thread i)) → (s.sessions i).pc = .checkpoint .check →
      Outcome .checkpoint [] (if hasActiveTransactions s then
        ascii "ERROR: checkpoint refused (active transactions exist)" else ascii "CHECKPOINT OK")
  | quit : Outcome .quit [] []

/-- What a line tells after all that has been told to the session, and the response. -/
inductive Exchange (told : List Event) (line : Bytes) : List Event → Bytes → Prop
  | call {cmd : Command} {evs : List Event} {response : Bytes} : (CommandParser.parse line).request = .call cmd →
      Outcome seen i cmd evs response → Exchange told line evs response
  | reply {response : Bytes} : (CommandParser.parse line).request = .reply response → Exchange told line [] response
  | stats {s : State} : (CommandParser.parse line).request = .stats → seen s (.nextLine i) →
      Exchange told line [] (getStats i (s.sessions i).txn (commitCount told) (deadlockCount told))
  | locks {s : State} : (CommandParser.parse line).request = .locks → seen s (.nextLine i) →
      Exchange told line [] s.locks.dumpLockTable

end Protocol

/-! ## Transcripts -/

/-- What session `i` has to do with: its lines, its responses, and the events about it. -/
def Output.concerns (i : SessionId) : Output → Bool
  | .event e => e.teller = some i
  | .received j line => j = i ∧ line ≠ []
  | .sent j _ => j = i

def transcriptOf (i : SessionId) (out : List Output) : List Output := out.filter (Output.concerns i)

/-- A line without a response yet, and what has been told about it. -/
def unanswered (i : SessionId) : Option (Bytes × List Event) → List Output
  | none => []
  | some (line, evs) => .received i line :: evs.map .event

/-- The inputs that the host takes for the line after the transcript `t`, and the states of the server; `taken` says
which inputs it takes at all, after which output. -/
inductive Handled (taken : List Output → Host → Input → Prop) (i : SessionId) (t : List Output) (line : Bytes) :
    State → Input → Prop
  | line {out : List Output} {h : Host} {rest : Bytes} : taken out h (.nextLine i) → transcriptOf i out = t →
      takeLine (h.conns i).inbuf = some (line, rest) → Handled taken i t line h.server (.nextLine i)
  | call {out : List Output} {h : Host} {a : Action} {evs : List Event} : taken out h (.server a) →
      transcriptOf i out = t ++ unanswered i (some (line, evs)) → Handled taken i t line h.server (.server a)

/-- The greeting, and exchanges with a response. -/
inductive Transcript (taken : List Output → Host → Input → Prop) (i : SessionId) : List Event → List Output → Prop
  | greeting : Transcript taken i [] [.sent i (getGreeting i)]
  | exchange {told evs : List Event} {t : List Output} {line response : Bytes} : Transcript taken i told t →
      Exchange (Handled taken i t line) i told line evs response → response ≠ [] →
      Transcript taken i (told ++ evs) (t ++ (.received i line :: evs.map .event ++ [.sent i response]))

/-! ## Calls -/

/-- Why the thread is inside `abort`. -/
def AbortCause.Of (seen : State → Input → Prop) (i : SessionId) : AbortCause → Command → Prop
  | .command, cmd => cmd = .abort ∧ ∃ s, seen s (.nextLine i) ∧ (s.sessions i).txn.state = .active
  | .deadlock, cmd => cmd.Fails seen i .deadlock
  | .quit, cmd => cmd = .quit

/-- Where the thread is in a call of transaction `t`, and what it has told. -/
def Serves (seen : State → Input → Prop) (i : SessionId) (cmd : Command) (t : TxnId) (told : List Event)
    (σ : Session) : Prop :=
  match σ.pc with
  | .idle | .closed => False
  | .logBegin => ∃ level, cmd = .begin level ∧ told = [.began i σ.txn.txnId level]
  | .waitLock op key _ => cmd = op.command key ∧ told = []
  | .reading key => cmd = .get key ∧ told = []
  | .releasing key => cmd = .get key ∧ ∃ u reply, told = [.done i u (.get key reply)]
  | .logWrites _ => cmd = .commit ∧ t = σ.txn.txnId ∧ told = []
  | .enterWait lsn | .checkFlushed lsn | .aboutToBlock lsn | .blocked lsn | .applying lsn _ | .commitReset lsn =>
    cmd = .commit ∧ t = σ.txn.txnId ∧ ∃ writes, told = [.committed i lsn t writes]
  | .logAbort cause | .abortRelease cause | .abortReset cause => cause.Of seen i cmd ∧ told = []
  | .checkpoint pc => cmd = .checkpoint ∧ told = [] ∧ (pc ≠ .check → ∃ s, seen s (.server (.thread i)) ∧
      (s.sessions i).pc = .checkpoint .check ∧ hasActiveTransactions s = false)

/-- The call goes on, or it is over and its outcome is what `handleCommand` makes of what has been told and of what
`checkpoint` has returned. -/
def Continues (seen : State → Input → Prop) (i : SessionId) (cmd : Command) (t : TxnId) (told : List Event) (ok : Bool)
    (σ : Session) : Prop :=
  Serves seen i cmd t told σ ∨ (σ.pc = .idle ∨ σ.pc = .closed) ∧ Outcome seen i cmd told
    ({ told.foldl Call.note { cmd := cmd, txnId := t } with ok := ok }.response σ.txn.txnId)

section Responses

variable {call : Call} {txnId : TxnId}

theorem Call.response_failed (hresult : call.result ≠ []) (hquit : call.cmd ≠ .quit) (hcheck : call.cmd ≠ .checkpoint) :
    call.response txnId = ascii "ERROR: " ++ call.result := by
  unfold Call.response
  cases hc : call.cmd
  case quit => exact absurd hc hquit
  case checkpoint => exact absurd hc hcheck
  all_goals simp only [if_neg hresult]

theorem Call.response_get {key : Key} (hcmd : call.cmd = .get key) (hresult : call.result = []) :
    call.response txnId = call.value := by
  simp only [Call.response, hcmd, hresult, if_true]

theorem Call.response_ok (hcmd : (∃ key value, call.cmd = .put key value) ∨ (∃ key, call.cmd = .delete key) ∨
    call.cmd = .abort) (hresult : call.result = []) : call.response txnId = ascii "OK" := by
  rcases hcmd with ⟨_, _, hcmd⟩ | ⟨_, hcmd⟩ | hcmd <;> simp only [Call.response, hcmd, hresult, if_true]

end Responses

section Outcomes

variable {seen : State → Input → Prop} {i : SessionId} {cmd : Command} {t u txnId : TxnId} {ok : Bool}

theorem Command.Fails.ne {error : TxnError} (h : cmd.Fails seen i error) : cmd ≠ .quit ∧ cmd ≠ .checkpoint := by
  cases h with
  | locked op | deadlock op => cases op <;> exact ⟨nofun, nofun⟩
  | _ => exact ⟨(by simp), (by simp)⟩

/-- A call that has failed. -/
theorem outcome_failed {error : TxnError} (h : cmd.Fails seen i error) : Outcome seen i cmd [.failed i error]
    ({ [Event.failed i error].foldl Call.note { cmd := cmd, txnId := t } with ok := ok }.response txnId) := by
  rw [Call.response_failed (isText_message error).1 h.ne.1 h.ne.2]
  exact .failed h

/-- A read that has been answered. -/
theorem outcome_get (key : Key) (reply : GetReply) : Outcome seen i (.get key) [.done i u (.get key reply)]
    ({ [Event.done i u (.get key reply)].foldl Call.note { cmd := .get key, txnId := t } with ok := ok }.response
      txnId) := by
  cases reply with
  | value value =>
    rw [Call.response_get rfl rfl]
    exact .got key u value
  | notFound =>
    rw [Call.response_failed (mt ascii_eq_nil_iff.mp (by decide)) (fun h => by cases h) fun h => by cases h]
    exact .missing key u
  | deletedInTxn =>
    rw [Call.response_failed (mt ascii_eq_nil_iff.mp (by decide)) (fun h => by cases h) fun h => by cases h]
    exact .deleted key u

theorem toldOf_own {e : Event} (h : e.teller = some i) : toldOf i [e] = [e] := by simp [toldOf, h]

/-- `acquireLock` has returned `true`. -/
theorem continues_locked (op : LockOp) (key : Key) (txn : TransactionInfo) :
    Continues seen i (op.command key) t (toldOf i (lockedEvents i u op key)) ok ⟨txn, op.resume key⟩ := by
  cases op with
  | get => exact Or.inl ⟨rfl, rfl⟩
  | put value =>
    refine Or.inr ⟨Or.inl rfl, ?_⟩
    rw [lockedEvents, toldOf_own rfl, Call.response_ok (Or.inl ⟨key, value, rfl⟩) rfl]
    exact .put key value u
  | delete =>
    refine Or.inr ⟨Or.inl rfl, ?_⟩
    rw [lockedEvents, toldOf_own rfl, Call.response_ok (Or.inr (Or.inl ⟨key, rfl⟩)) rfl]
    exact .delete key u

end Outcomes

/-! ## Steps of a call -/

section Steps

variable {seen : State → Input → Prop} {s s' : State} {i : SessionId} {cmd : Command} {t : TxnId}
  {told evs : List Event} {ok : Bool}

theorem serves_setPc {pc : Pc} (h : Serves seen i cmd t told ⟨(s.sessions i).txn, pc⟩) :
    Continues seen i cmd t told ok ((s.setPc i pc).sessions i) := by
  rw [show (s.setPc i pc).sessions i = ⟨(s.sessions i).txn, pc⟩ from Function.update_self ..]
  exact Or.inl h

/-- A call that fails at once. -/
theorem continues_failed (hpc : (s.sessions i).pc = .idle) {error : TxnError} (h : cmd.Fails seen i error) :
    Continues seen i cmd t (toldOf i [.failed i error]) ok (s.sessions i) := by
  rw [toldOf_own rfl]
  exact Or.inr ⟨Or.inl hpc, outcome_failed h⟩

theorem requestLock_continues (hseen : seen s (.nextLine i)) (hpc : (s.sessions i).pc = .idle) (op : LockOp)
    (key : Key) : Continues seen i (op.command key) t (toldOf i (requestLock s i op key).2) ok
      ((requestLock s i op key).1.sessions i) := by
  unfold requestLock
  dsimp only
  split
  · exact continues_failed hpc (.locked op key hseen ‹_›)
  split
  · rw [lockAcquired_eq, sessions_setTxn]
    exact continues_locked op key _
  · exact serves_setPc ⟨rfl, rfl⟩

/-- The first step of a call. -/
theorem handleCommand_continues (hseen : seen s (.nextLine i)) (hpc : (s.sessions i).pc = .idle) (cmd : Command)
    (ok : Bool) : Continues seen i cmd (s.sessions i).txn.txnId (toldOf i (handleCommand s i cmd).2) ok
      ((handleCommand s i cmd).1.sessions i) := by
  cases cmd with
  | begin level =>
    dsimp only [handleCommand, beginTxn]
    split
    · exact continues_failed hpc (.begin level hseen ‹_›)
    · rw [sessions_setTxn, toldOf_own rfl]
      exact Or.inl ⟨level, rfl, rfl⟩
  | put key value => exact requestLock_continues hseen hpc (.put value) key
  | get key => exact requestLock_continues hseen hpc .get key
  | delete key => exact requestLock_continues hseen hpc .delete key
  | commit =>
    dsimp only [handleCommand]
    split
    · exact continues_failed hpc (.commit hseen ‹_›)
    · exact serves_setPc ⟨rfl, rfl, rfl⟩
  | abort =>
    dsimp only [handleCommand]
    split
    · exact continues_failed hpc (.abort hseen ‹_›)
    · exact serves_setPc ⟨⟨rfl, s, hseen, not_not.mp ‹_›⟩, rfl⟩
  | checkpoint => exact serves_setPc ⟨rfl, rfl, (absurd rfl ·)⟩
  | quit =>
    dsimp only [handleCommand]
    split
    · exact serves_setPc ⟨rfl, rfl⟩
    · exact Or.inr ⟨Or.inr (pc_setPc ..), .quit⟩

/-- A step of a checkpoint that has not been refused. -/
theorem CheckpointEffect.continues (h : CheckpointEffect s i s') {pc : CheckpointPc}
    (hpc : (s.sessions i).pc = .checkpoint pc) (hcheck : pc ≠ .check)
    (hserves : Serves seen i cmd t told (s.sessions i)) : Continues seen i cmd t told true (s'.sessions i) := by
  have hcall := hserves
  rw [Serves, hpc] at hcall
  obtain ⟨rfl, rfl, hpassed⟩ := hcall
  cases h with
  | next disk pc => exact serves_setPc ⟨rfl, rfl, fun _ => hpassed hcheck⟩
  | throw => exact Or.inl hserves
  | done disk =>
    obtain ⟨s₁, hseen, hpc₁, hnone⟩ := hpassed hcheck
    have hout : Outcome seen i .checkpoint [] _ := .checkpoint hseen hpc₁
    rw [hnone] at hout
    exact Or.inr ⟨Or.inl (pc_setPc ..), hout⟩

/-- The checkpoint is refused, or it begins. -/
theorem check_continues (hseen : seen s (.server (.thread i))) (hpc : (s.sessions i).pc = .checkpoint .check)
    (h : checkpointStep s i .check = some s') (hserves : Serves seen i cmd t told (s.sessions i))
    (hok : ok = false ↔ (s'.sessions i).pc = .idle) : Continues seen i cmd t told ok (s'.sessions i) := by
  rw [Serves, hpc] at hserves
  obtain ⟨rfl, rfl, -⟩ := hserves
  cases h
  cases hactive : hasActiveTransactions s with
  | false => exact serves_setPc ⟨rfl, rfl, fun _ => ⟨s, hseen, hpc, hactive⟩⟩
  | true =>
    have hout : Outcome seen i .checkpoint [] _ := .checkpoint hseen hpc
    rw [hactive] at hout hok
    rw [hok.mpr (pc_setPc ..)]
    exact Or.inr ⟨Or.inl (pc_setPc ..), hout⟩

/-- **A step of a thread** inside a call. -/
theorem ThreadMove.continues (hseen : seen s (.server (.thread i))) (h : ThreadMove s i (s.sessions i).pc s' evs)
    (hserves : Serves seen i cmd t told (s.sessions i))
    (hok : ok = false ↔ (s.sessions i).pc = .checkpoint .check ∧ (s'.sessions i).pc = .idle) :
    Continues seen i cmd t (told ++ toldOf i evs) ok (s'.sessions i) := by
  have hnil : ∀ {e : Event}, e.teller = none → toldOf i [e] = [] := fun he => by simp [toldOf, he]
  have hcall := hserves
  unfold Serves at hcall
  generalize hpc : (s.sessions i).pc = pc at h hcall hok
  cases h with
  | logBegin =>
    obtain ⟨level, rfl, rfl⟩ := hcall
    refine Or.inr ⟨Or.inl (pc_setPc ..), ?_⟩
    rw [hnil rfl, txn_setPc]
    exact .began level _
  | waitGranted op key flags locks _ =>
    obtain ⟨rfl, rfl⟩ := hcall
    rw [sessions_setTxn]
    exact continues_locked op key _
  | waitFailed op key flags locks hfin =>
    obtain ⟨rfl, rfl⟩ := hcall
    exact serves_setPc ⟨.deadlock op key flags hseen hpc (by rw [hfin]), rfl⟩
  | read key =>
    obtain ⟨rfl, rfl⟩ := hcall
    rw [toldOf_own rfl]
    split
    · exact serves_setPc ⟨rfl, _, _, rfl⟩
    · exact Or.inr ⟨Or.inl (pc_setPc ..), outcome_get key _⟩
  | release key =>
    obtain ⟨rfl, u, reply, rfl⟩ := hcall
    rw [sessions_setTxn]
    exact Or.inr ⟨Or.inl rfl, outcome_get key reply⟩
  | logWrite w ws =>
    obtain ⟨rfl, rfl, rfl⟩ := hcall
    rw [hnil rfl]
    exact serves_setPc ⟨rfl, rfl, rfl⟩
  | logCommit =>
    obtain ⟨rfl, rfl, rfl⟩ := hcall
    exact serves_setPc ⟨rfl, rfl, (s.sessions i).txn.pendingBuffer.toList, by simp [toldOf, Event.teller]⟩
  | enterWait lsn _ | notFlushed lsn _ | block lsn | wakeUp lsn | apply lsn w ws =>
    rw [show toldOf i [] = [] from rfl, List.append_nil]
    exact serves_setPc hcall
  | flushed lsn _ =>
    rw [hnil rfl, List.append_nil]
    exact serves_setPc hcall
  | applied lsn =>
    rw [show toldOf i [] = [] from rfl, List.append_nil, sessions_setTxn]
    exact Or.inl hcall
  | commitReset lsn =>
    obtain ⟨rfl, rfl, writes, rfl⟩ := hcall
    rw [sessions_setTxn, toldOf_own rfl]
    exact Or.inr ⟨Or.inl rfl, .committed lsn _ writes⟩
  | logAbort cause =>
    rw [hnil rfl, List.append_nil, sessions_setTxn]
    exact Or.inl hcall
  | abortRelease cause =>
    rw [show toldOf i [] = [] from rfl, List.append_nil]
    exact serves_setPc hcall
  | abortReset cause =>
    obtain ⟨hcause, rfl⟩ := hcall
    rw [sessions_setTxn]
    cases cause with
    | command =>
      obtain ⟨rfl, s₁, hseen₁, hact⟩ := hcause
      exact Or.inr ⟨Or.inl rfl, .aborted hseen₁ hact⟩
    | deadlock =>
      refine Or.inr ⟨Or.inl rfl, ?_⟩
      rw [if_pos rfl, toldOf_own rfl]
      exact outcome_failed hcause
    | quit =>
      obtain rfl : cmd = .quit := hcause
      exact Or.inr ⟨Or.inr rfl, .quit⟩
  | checkpoint pc hc =>
    rw [show toldOf i [] = [] from rfl, List.append_nil]
    by_cases hcheck : pc = .check
    · subst hcheck
      exact check_continues hseen hpc hc hserves (by simpa using hok)
    · rw [eq_true_of_ne_false fun hfalse => hcheck (Pc.checkpoint.inj (hok.mp hfalse).1)]
      exact (checkpointStep_effect hc).continues hpc hcheck hserves

/-- A step of the session inside a call. -/
theorem step_continues {a : Action} (hs : step s a = some (s', evs)) (hinner : a.inner = true) (ha : a.session = some i)
    (hseen : seen s (.server a)) (hserves : Serves seen i cmd t told (s.sessions i))
    (hok : ok = false ↔ (s.sessions i).pc = .checkpoint .check ∧ (s'.sessions i).pc = .idle) :
    Continues seen i cmd t (told ++ toldOf i evs) ok (s'.sessions i) := by
  have hpassed : ∀ {pc : CheckpointPc}, (s.sessions i).pc = .checkpoint pc → pc ≠ .check → ok = true := by
    intro pc hpc hcheck
    refine eq_true_of_ne_false fun hfalse => hcheck ?_
    exact Pc.checkpoint.inj (hpc.symm.trans (hok.mp hfalse).1)
  cases (step_move hs).2 with
  | thread j hj hmove =>
    subst hj
    cases ha
    exact hmove.continues hseen hserves hok
  | copyStore j entries lsn file hj hpc _ =>
    subst hj
    cases ha
    rw [show toldOf i [] = [] from rfl, List.append_nil, hpassed hpc (by simp)]
    exact (CheckpointEffect.next s.disk _).continues hpc (by simp) hserves
  | threadFault j n pc hj hpc hf =>
    subst hj
    cases ha
    have hcheck : pc ≠ .check := by
      rintro rfl
      cases hf
    rw [show toldOf i [] = [] from rfl, List.append_nil, hpassed hpc hcheck]
    exact (checkpointFault_effect hf).continues hpc hcheck hserves
  | connect hj | command _ _ hj | disconnect _ hj => rw [hj] at hinner; cases hinner
  | worker fault hj => rw [hj] at ha; cases fault <;> cases ha

/-- An event of a step is about the session that takes it, if it is about a session at all. -/
theorem step_teller {a : Action} (h : step s a = some (s', evs)) {e : Event} (he : e ∈ evs) :
    e.teller = none ∨ e.teller = a.session := by
  have hlocked : ∀ {j u op key}, e ∈ lockedEvents j u op key → e.teller = some j := by
    intro j u op key he
    cases op <;> simp [lockedEvents] at he <;> rw [he] <;> rfl
  cases (step_move h).2 with
  | connect | copyStore | threadFault | disconnect => cases he
  | command j cmd ha _ _ hmove =>
    subst ha
    cases hmove with
    | granted => exact Or.inr (hlocked he)
    | alreadyInTransaction | notInTransaction | begin => rw [List.mem_singleton.mp he]; exact Or.inr rfl
    | _ => cases he
  | thread j ha hmove =>
    subst ha
    generalize (s.sessions j).pc = pc at hmove
    cases hmove with
    | waitGranted => exact Or.inr (hlocked he)
    | logBegin | logWrite | flushed | logAbort => rw [List.mem_singleton.mp he]; exact Or.inl rfl
    | read | commitReset => rw [List.mem_singleton.mp he]; exact Or.inr rfl
    | logCommit =>
      rcases List.mem_pair.mp he with rfl | rfl
      · exact Or.inl rfl
      · exact Or.inr rfl
    | abortReset cause =>
      split at he
      · rw [List.mem_singleton.mp he]; exact Or.inr rfl
      · cases he
    | _ => cases he
  | worker fault ha hw =>
    refine Or.inl ?_
    unfold workerStep at hw
    split at hw
    case h_3 => cases hw; rw [List.mem_singleton.mp he]; rfl
    case h_5 => split at hw <;> cases hw <;> cases he
    all_goals cases hw; cases he

theorem toldOf_other {a : Action} (h : step s a = some (s', evs)) (ha : a.session ≠ some i) : toldOf i evs = [] := by
  refine List.filter_eq_nil_iff.mpr fun e he => ?_
  rcases step_teller h he with hnone | hsome
  · simp [hnone]
  · simpa [hsome] using ha

/-- What the session does not tell does not count. -/
theorem countP_told {p : Event → Bool} (hp : ∀ e, e.teller = none → p e = false) {a : Action}
    (h : step s a = some (s', evs)) (ha : a.session = some i) : (toldOf i evs).countP p = evs.countP p := by
  rw [toldOf, List.countP_filter]
  refine List.countP_congr fun e he => ?_
  rcases step_teller h he with hnone | hsome
  · simp [hp e hnone]
  · simp [hsome, ha]

theorem commitCount_told {a : Action} (h : step s a = some (s', evs)) (ha : a.session = some i) :
    commitCount (toldOf i evs) = commitCount evs :=
  countP_told (fun e he => by cases e <;> first | rfl | cases he) h ha

theorem deadlockCount_told {a : Action} (h : step s a = some (s', evs)) (ha : a.session = some i) :
    deadlockCount (toldOf i evs) = deadlockCount evs :=
  countP_told (fun e he => by cases e <;> first | rfl | cases he) h ha

theorem foldl_note_told {a : Action} (h : step s a = some (s', evs)) (ha : a.session = some i) (call : Call) :
    evs.foldl Call.note call = (toldOf i evs).foldl Call.note call := by
  have htold : ∀ e ∈ evs, e.teller = none ∨ e.teller = some i := fun e he => ha ▸ step_teller h he
  clear h
  induction evs generalizing call with
  | nil => rfl
  | cons e evs ih =>
    have hrest := fun call => ih call fun e he => htold e (List.mem_cons_of_mem _ he)
    rcases htold e List.mem_cons_self with hnone | hsome
    · have hnote : call.note e = call := by cases e <;> first | rfl | cases hnone
      rw [List.foldl_cons, hnote, hrest, toldOf, toldOf, List.filter_cons_of_neg (by simp [hnone])]
    · rw [List.foldl_cons, hrest, toldOf, toldOf, List.filter_cons_of_pos (by simp [hsome]), List.foldl_cons]

end Steps

/-! ## Connections -/

def pendingEvents : Option (Bytes × List Event) → List Event
  | none => []
  | some (_, evs) => evs

section Connections

variable (taken : List Output → Host → Input → Prop) (h : Host) (i : SessionId)

/-- What the handler does about the line after the transcript `t`. -/
def Host.AtWork (t : List Output) (pending : Option (Bytes × List Event)) : Prop :=
  match (h.conns i).handler with
  | .reading => pending = none
  | .calling call => ∃ line evs, pending = some (line, evs) ∧ (CommandParser.parse line).request = .call call.cmd ∧
      call = evs.foldl Call.note { cmd := call.cmd, txnId := call.txnId } ∧
      Serves (Handled taken i t line) i call.cmd call.txnId evs (h.server.sessions i)
  | .closing | .returned => True

/-- The connection of session `i`, with the transcript so far. -/
def Host.Talks (talk : List Output) : Prop :=
  ∃ told t pending, Transcript taken i told t ∧ talk = t ++ unanswered i pending ∧
    (h.conns i).totalCommits = commitCount (told ++ pendingEvents pending) ∧
    (h.conns i).deadlockAborts = deadlockCount (told ++ pendingEvents pending) ∧
    (h.crashed = false → h.AtWork taken i t pending)

end Connections

section Transcripts

variable {taken : List Output → Host → Input → Prop} {i j : SessionId} {h h' : Host} {s s' : State} {evs : List Event}
  {out out' : List Output}

theorem transcriptOf_append (i : SessionId) (out out' : List Output) :
    transcriptOf i (out ++ out') = transcriptOf i out ++ transcriptOf i out' := List.filter_append ..

theorem transcriptOf_events (i : SessionId) (evs : List Event) :
    transcriptOf i (evs.map .event) = (toldOf i evs).map .event := by
  rw [transcriptOf, List.filter_map, toldOf]
  rfl

/-- A response completes the exchange; without one the handler closes the connection. -/
theorem Host.Talks.respond {told : List Event} {t : List Output} {line response : Bytes} {handler : Handler}
    (hr : Responds i response handler out) (hhandler : (h.conns i).handler = handler) (ht : Transcript taken i told t)
    (hcommits : (h.conns i).totalCommits = commitCount (told ++ evs))
    (hdeadlocks : (h.conns i).deadlockAborts = deadlockCount (told ++ evs))
    (hx : Exchange (Handled taken i t line) i told line evs response) :
    h.Talks taken i (t ++ unanswered i (some (line, evs)) ++ transcriptOf i out) := by
  cases hr with
  | sent hne =>
    refine ⟨told ++ evs, _, none, ht.exchange hx hne, ?_, ?_, ?_, fun _ => by rw [Host.AtWork, hhandler]⟩
    · simp [unanswered, transcriptOf, Output.concerns]
    · simpa [pendingEvents] using hcommits
    · simpa [pendingEvents] using hdeadlocks
  | silent =>
    refine ⟨told, t, some (line, evs), ht, ?_, hcommits, hdeadlocks, fun _ => ?_⟩
    · simp [transcriptOf]
    · rw [Host.AtWork, hhandler]
      trivial

theorem Call.foldl_note_txnId (evs : List Event) (call : Call) : (evs.foldl Call.note call).txnId = call.txnId :=
  Call.foldl_note_same (fun call e => by unfold Call.note; split <;> rfl) evs call

theorem Call.foldl_note_ok (evs : List Event) (call : Call) : (evs.foldl Call.note call).ok = call.ok :=
  Call.foldl_note_same (fun call e => by unfold Call.note; split <;> rfl) evs call

/-- A step of a call. -/
theorem Host.Talks.called {call : Call} {handler : Handler} (hturn : CallTurn h i call s evs handler out)
    {told told₀ : List Event} {t : List Output} {line : Bytes} {a : Action} (ht : Transcript taken i told t)
    (hcommits : (h.conns i).totalCommits = commitCount (told ++ told₀))
    (hdeadlocks : (h.conns i).deadlockAborts = deadlockCount (told ++ told₀))
    (hreq : (CommandParser.parse line).request = .call call.cmd)
    (hcall : call = told₀.foldl Call.note { cmd := call.cmd, txnId := call.txnId })
    (hs : step h.server a = some (s, evs)) (ha : a.session = some i)
    (hcont : ∀ ok, (ok = false ↔ (h.server.sessions i).pc = .checkpoint .check ∧ (s.sessions i).pc = .idle) →
      Continues (Handled taken i t line) i call.cmd call.txnId (told₀ ++ toldOf i evs) ok (s.sessions i)) :
    (h.called i s evs handler).Talks taken i
      (t ++ unanswered i (some (line, told₀)) ++ transcriptOf i (evs.map .event ++ out)) := by
  -- the call and the counters after the step
  have hnote : evs.foldl Call.note call =
      (told₀ ++ toldOf i evs).foldl Call.note { cmd := call.cmd, txnId := call.txnId } := by
    rw [foldl_note_told hs ha, List.foldl_append, ← hcall]
  have hok : (evs.foldl Call.note call).ok = true := by rw [hnote, Call.foldl_note_ok]
  have hcommits' : ((h.called i s evs handler).conns i).totalCommits =
      commitCount (told ++ (told₀ ++ toldOf i evs)) := by
    rw [Host.called, setConn_self, ← List.append_assoc, commitCount_append, commitCount_told hs ha, hcommits]
  have hdeadlocks' : ((h.called i s evs handler).conns i).deadlockAborts =
      deadlockCount (told ++ (told₀ ++ toldOf i evs)) := by
    rw [Host.called, setConn_self, ← List.append_assoc, deadlockCount_append, deadlockCount_told hs ha, hdeadlocks]
  have hrest : unanswered i (some (line, told₀)) ++ (toldOf i evs).map .event =
      unanswered i (some (line, told₀ ++ toldOf i evs)) := by simp [unanswered]
  rw [transcriptOf_append, transcriptOf_events, ← List.append_assoc, List.append_assoc t, hrest]
  cases hturn with
  | ended hpc hr =>
    refine Host.Talks.respond hr (called_self ..) ht hcommits' hdeadlocks' (.call hreq ?_)
    have hserves : ¬ Serves (Handled taken i t line) i call.cmd call.txnId (told₀ ++ toldOf i evs) (s.sessions i) := by
      intro hserves
      rcases hpc with hpc | hpc <;> rw [Serves, hpc] at hserves <;> exact hserves
    unfold Host.noted
    split
    · rename_i hrefused
      rw [hnote]
      exact ((hcont false (iff_of_true rfl hrefused)).resolve_left hserves).2
    · rename_i hnot
      have hout := ((hcont true (iff_of_false (by simp) hnot)).resolve_left hserves).2
      rw [← hnote, ← hok] at hout
      exact hout
  | inside hidle hclosed =>
    refine ⟨told, t, some (line, told₀ ++ toldOf i evs), ht, by simp [transcriptOf], hcommits', hdeadlocks',
      fun _ => ?_⟩
    have hserves := (hcont true (iff_of_false (by simp) fun h => hidle h.2)).resolve_right
      fun h => h.1.elim hidle hclosed
    rw [Host.AtWork, called_self]
    dsimp only
    rw [Call.foldl_note_cmd, Call.foldl_note_txnId]
    exact ⟨line, _, rfl, hreq, hnote, hserves⟩

theorem transcriptOf_eq_nil (htalk : talkOf i out = []) (htold : toldOf i (eventsOf out) = []) :
    transcriptOf i out = [] := by
  refine List.filter_eq_nil_iff.mpr fun o ho hc => ?_
  cases o with
  | event e => exact List.filter_eq_nil_iff.mp htold e (List.mem_filterMap.mpr ⟨_, ho, rfl⟩) hc
  | received | sent => exact List.filter_eq_nil_iff.mp htalk _ ho hc

theorem Serves.notified {seen : State → Input → Prop} {cmd : Command} {t : TxnId} {told : List Event} {σ : Session}
    (h : Serves seen i cmd t told σ) : Serves seen i cmd t told σ.notified := by
  unfold Session.notified
  split
  · rename_i lsn hpc
    rw [Serves, hpc] at h
    exact h
  · exact h

end Transcripts

/-- The invariant of session `i`: nothing before it is connected, its transcript afterwards. -/
structure WireInv (taken : List Output → Host → Input → Prop) (i : SessionId) (h : Host) (out : List Output) :
    Prop where
  before : h.server.sessionCount ≤ i → transcriptOf i out = [] ∧ (h.conns i).handler = .reading ∧
    (h.conns i).totalCommits = 0 ∧ (h.conns i).deadlockAborts = 0
  after : i < h.server.sessionCount → h.Talks taken i (transcriptOf i out)

namespace WireInv

variable {taken : List Output → Host → Input → Prop} {i j : SessionId} {h h' : Host} {out out' : List Output}

/-- A step that session `i` has no part in. -/
theorem other (hinv : WireInv taken i h out) (hcr : h.crashed = false)
    (hcount : h'.server.sessionCount ≤ i ↔ h.server.sessionCount ≤ i) (htalk : transcriptOf i out' = [])
    {inbuf : Bytes} (hconn : h'.conns i = { h.conns i with inbuf := inbuf })
    (hsession : h'.server.sessions i = h.server.sessions i ∨
      h'.server.sessions i = (h.server.sessions i).notified) : WireInv taken i h' (out ++ out') := by
  refine ⟨fun hi => ?_, fun hi => ?_⟩ <;> rw [transcriptOf_append, htalk, List.append_nil]
  · rw [hconn]
    exact hinv.before (hcount.mp hi)
  · obtain ⟨told, t, pending, ht, htr, hc, hd, hwork⟩ :=
      hinv.after (Nat.lt_of_not_le (mt hcount.mpr (Nat.not_le.mpr hi)))
    refine ⟨told, t, pending, ht, htr, by rw [hconn, hc], by rw [hconn, hd], fun _ => ?_⟩
    have hwork := hwork hcr
    unfold Host.AtWork at hwork ⊢
    rw [hconn]
    dsimp only
    cases hh : (h.conns i).handler <;> rw [hh] at hwork
    case calling call =>
      obtain ⟨line, evs, hpending, hreq, hcall, hserves⟩ := hwork
      refine ⟨line, evs, hpending, hreq, hcall, ?_⟩
      rcases hsession with hsession | hsession <;> rw [hsession]
      · exact hserves
      · exact hserves.notified
    all_goals exact hwork

/-- The greeting. -/
theorem greeted (hinv : WireInv taken i h out) (hi : h.server.sessionCount = i) :
    WireInv taken i { h with server := { h.server with sessionCount := i + 1 } }
      (out ++ [.sent i (getGreeting i)]) := by
  obtain ⟨hnil, hread, hc, hd⟩ := hinv.before (Nat.le_of_eq hi)
  refine ⟨fun hle => absurd hle (Nat.not_succ_le_self i), fun _ => ?_⟩
  refine ⟨[], _, none, .greeting, ?_, hc, hd, fun _ => by rw [Host.AtWork, hread]⟩
  rw [transcriptOf_append, hnil]
  simp [transcriptOf, Output.concerns, unanswered]

theorem connected (hinv : WireInv taken i h out) (hread : (h.conns i).handler ≠ .reading) :
    i < h.server.sessionCount :=
  Nat.lt_of_not_le fun hle => hread (hinv.before hle).2.1

/-- The handler leaves its loop or returns. -/
theorem leaves (hinv : WireInv taken i h out) (hi : i < h.server.sessionCount)
    (hcount : h'.server.sessionCount = h.server.sessionCount) {handler : Handler}
    (hconn : h'.conns i = { h.conns i with handler := handler }) (hleaves : handler = .closing ∨ handler = .returned) :
    WireInv taken i h' (out ++ []) := by
  refine ⟨fun hle => absurd hi (Nat.not_lt.mpr (hcount ▸ hle)), fun _ => ?_⟩
  rw [List.append_nil]
  obtain ⟨told, t, pending, ht, htr, hc, hd, -⟩ := hinv.after hi
  refine ⟨told, t, pending, ht, htr, by rw [hconn, hc], by rw [hconn, hd], fun _ => ?_⟩
  rw [Host.AtWork, hconn]
  rcases hleaves with rfl | rfl <;> trivial

/-- The next line. -/
theorem nextLine (hinv : WireInv taken i h out) (htaken : taken out h (.nextLine i)) (hcr : h.crashed = false)
    (hi : i < h.server.sessionCount) (hread : (h.conns i).handler = .reading) {line rest : Bytes}
    (htake : takeLine (h.conns i).inbuf = some (line, rest))
    (hs : LineStep (h.setConn i { h.conns i with inbuf := rest }) i line h' out') :
    WireInv taken i h' (out ++ .received i line :: out') := by
  by_cases hline : line = []
  · cases hs with
    | skip =>
      refine hinv.other hcr Iff.rfl ?_ (setConn_self ..) (Or.inl rfl)
      simp [transcriptOf, Output.concerns, hline]
    | answer hne | crash hne | call hne => exact absurd hline hne
  refine ⟨fun hle => absurd hi (Nat.not_lt.mpr (hs.sessionCount ▸ hle)), fun _ => ?_⟩
  obtain ⟨told, t, pending, ht, htr, hc, hd, hwork⟩ := hinv.after hi
  have hwork := hwork hcr
  rw [Host.AtWork, hread] at hwork
  subst hwork
  have hseen : Handled taken i t line h.server (.nextLine i) := .line htaken (htr.trans (List.append_nil t)) htake
  -- the transcript with the line
  have htalk : transcriptOf i (out ++ .received i line :: out') =
      t ++ unanswered i (some (line, [])) ++ transcriptOf i out' := by
    rw [transcriptOf_append, htr]
    simp [transcriptOf, Output.concerns, unanswered, hline]
  have hconn : (h.setConn i { h.conns i with inbuf := rest }).conns i = { h.conns i with inbuf := rest } :=
    setConn_self ..
  rw [htalk]
  cases hs with
  | skip hnil => exact absurd hnil hline
  | answer _ hreplies hr =>
    rw [setConn_setHandler]
    refine Host.Talks.respond hr (by rw [setConn_self]) ht (by rw [setConn_self]; exact hc)
      (by rw [setConn_self]; exact hd) ?_
    cases hreplies with
    | reply hreq => exact .reply hreq
    | stats hreq =>
      rw [hconn, show (h.conns i).totalCommits = _ from hc, show (h.conns i).deadlockAborts = _ from hd]
      simp only [pendingEvents, List.append_nil]
      exact .stats hreq hseen
    | locks hreq => exact .locks hreq hseen
  | crash =>
    refine ⟨told, t, some (line, []), ht, by simp [transcriptOf], ?_, ?_, fun hcr => by cases hcr⟩
    · exact (congrArg Connection.totalCommits hconn).trans hc
    · exact (congrArg Connection.deadlockAborts hconn).trans hd
  | @call cmd s evs _ _ _ hreq hstep hturn =>
    refine Host.Talks.called hturn ht (by rw [hconn]; exact hc) (by rw [hconn]; exact hd) hreq rfl hstep rfl
      fun ok _ => ?_
    obtain ⟨⟨-, hpc⟩, hcmd⟩ := Option.ite_none_right_eq_some.mp (Option.ite_none_right_eq_some.mp hstep).2
    have hcmd : handleCommand h.server i cmd = (s, evs) := Option.some.inj hcmd
    have hcont := handleCommand_continues hseen hpc cmd ok
    rw [hcmd] at hcont
    exact hcont

/-- The call goes on. -/
theorem call (hinv : WireInv taken i h out) {a : Action} (htaken : taken out h (.server a)) (hcr : h.crashed = false)
    {call : Call} {s : State} {evs : List Event} {handler : Handler} (hinner : a.inner = true)
    (ha : a.session = some i) (hcall : (h.conns i).handler = .calling call)
    (hs : Kvdb.step h.server a = some (s, evs)) (hturn : CallTurn h i call s evs handler out') :
    WireInv taken i (h.called i s evs handler) (out ++ (evs.map .event ++ out')) := by
  have hi : i < h.server.sessionCount := hinv.connected (by rw [hcall]; simp)
  have hcount : s.sessionCount = h.server.sessionCount := step_sessionCount hs (by rintro rfl; cases hinner)
  refine ⟨fun hle => absurd (hcount ▸ hle) (Nat.not_le.mpr hi), fun _ => ?_⟩
  obtain ⟨told, t, pending, ht, htr, hc, hd, hwork⟩ := hinv.after hi
  have hwork := hwork hcr
  rw [Host.AtWork, hcall] at hwork
  obtain ⟨line, told₀, rfl, hreq, hnote, hserves⟩ := hwork
  rw [transcriptOf_append, htr]
  exact Host.Talks.called hturn ht hc hd hreq hnote hs ha fun ok hok =>
    step_continues hs hinner ha (.call htaken htr) hserves hok

/-- **Step lemma.** -/
theorem step (hinv : WireInv taken i h out) {input : Input} (htaken : taken out h input)
    (hs : hostStep h input = some (h', out')) : WireInv taken i h' (out ++ out') := by
  have hcr := hostStep_crashed hs
  cases hostStep_conn hs i with
  | other hcount htalk hconn hserver =>
    obtain ⟨inbuf, hconn⟩ := hconn
    rcases hserver with ⟨hserver, hevents⟩ | ⟨a, ha, hstep⟩
    · refine hinv.other hcr hcount (transcriptOf_eq_nil htalk ?_) hconn (Or.inl (by rw [hserver]))
      rw [hevents]
      rfl
    · exact hinv.other hcr hcount (transcriptOf_eq_nil htalk (toldOf_other hstep ha)) hconn
        (step_sessions_of_ne hstep ha)
  | greeted hi => exact hinv.greeted hi
  | leaves handler hcount hconn hleaves =>
    rcases hleaves with ⟨hi, -, hhandler⟩ | ⟨hclosing, hhandler⟩
    · exact hinv.leaves hi hcount hconn (Or.inl hhandler)
    · exact hinv.leaves (hinv.connected (by rw [hclosing]; simp)) hcount hconn (Or.inr hhandler)
  | line line rest hi hread htake hline => exact hinv.nextLine htaken hcr hi hread htake hline
  | call a call s evs hinner ha hcall hr hturn => exact hinv.call htaken hcr hinner ha hcall hr hturn

end WireInv

/-! ## Runs -/

/-- The next line is not a `GET` of a key that its `READ_COMMITTED` transaction has written. -/
def Host.KeepsWriteLocks (h : Host) : Input → Prop
  | .nextLine i =>
    match takeLine (h.conns i).inbuf with
    | some (line, _) =>
      match (CommandParser.parse line).request with
      | .call cmd => Kvdb.KeepsWriteLocks h.server (.command i cmd)
      | _ => True
    | none => True
  | _ => True

instance (h : Host) : (input : Input) → Decidable (h.KeepsWriteLocks input)
  | .nextLine i => by
    unfold Host.KeepsWriteLocks
    dsimp only
    split
    · split <;> infer_instance
    · infer_instance
  | .accept | .receive _ _ | .endOfStream _ | .close _ | .server _ => .isTrue trivial

/-- The server takes such steps. -/
theorem Host.KeepsWriteLocks.server {h h' : Host} {input : Input} {out : List Output} (hP : h.KeepsWriteLocks input)
    (hs : hostStep h input = some (h', out)) : h'.server = h.server ∧ eventsOf out = [] ∨
      ∃ a, Kvdb.KeepsWriteLocks h.server a ∧ step h.server a = some (h'.server, eventsOf out) := by
  have hinner : ∀ {a : Action}, a.inner = true → Kvdb.KeepsWriteLocks h.server a := by
    intro a ha
    cases a <;> trivial
  cases hostStep_move hs with
  | accept s evs hr => exact Or.inr ⟨.connect, trivial, by rw [eventsOf_event_append evs rfl]; exact hr⟩
  | receive | endOfStream | quit => exact Or.inl ⟨rfl, rfl⟩
  | left i s evs _ _ hr => exact Or.inr ⟨.disconnect i, trivial, by rw [eventsOf_event]; exact hr⟩
  | worker a s evs ha _ hr => exact Or.inr ⟨a, hinner ha, by rw [eventsOf_event]; exact hr⟩
  | call i a call s evs ha _ _ hr hturn => exact Or.inr ⟨a, hinner ha, by rw [hturn.spec.1]; exact hr⟩
  | nextLine i line rest _ hread htake hline =>
    cases hline with
    | skip | crash => exact Or.inl ⟨rfl, rfl⟩
    | answer _ _ hr => exact Or.inl ⟨rfl, hr.spec.1⟩
    | @call cmd _ _ _ _ _ hreq hr hturn =>
      simp only [Host.KeepsWriteLocks, htake, hreq] at hP
      refine Or.inr ⟨.command i cmd, hP, ?_⟩
      rw [show eventsOf (.received i line :: _) = _ from hturn.spec.1]
      exact hr

/-- **What clients read is what the atomic store answers.** The conversation of every connection is the greeting and
then exchanges of the protocol, apart from a last line that has no response yet; when the handler waits for a line,
every line has been answered. The calls that the responses report, of all connections in the order in which they
happened, are a history of the atomic store. What `\STATS`, `\LOCKS`, `CHECKPOINT` and the errors report is what the
server is like when the host takes the input for it, in this run and for this line. -/
theorem wire_refines_atomic_store {st : Store} {s₀ : State} {h : Host} {ins : List Input} {out : List Output}
    (h0 : Server.Initial st s₀) (hr : Run hostStep Host.KeepsWriteLocks { server := s₀ } ins h out)
    (hn : (begunOf (eventsOf out)).length < 2 ^ 32) :
    AtomicStore.Accepts replyOf (atomicStore st) (observed (eventsOf out)) ∧
      ∀ i < h.server.sessionCount, ∃ told t pending, Transcript (Takes hostStep { server := s₀ } ins) i told t ∧
        transcriptOf i out = t ++ unanswered i pending ∧
        (h.crashed = false → (h.conns i).handler = .reading → pending = none) := by
  constructor
  · obtain ⟨as, hrun⟩ : ∃ as, Run step KeepsWriteLocks s₀ as h.server (eventsOf out) :=
      Run.project Host.server Output.toEvent (fun hP hs => hP.server hs) hr
    exact (refineInv_of_run h0 (keepsLocks_of_length h0 hrun hn)).accepted
  · intro i hi
    have hcount : s₀.sessionCount = 0 := by cases h0 <;> rfl
    have hstart : WireInv (Takes hostStep { server := s₀ } ins) i { server := s₀ } [] :=
      ⟨fun _ => ⟨rfl, rfl, rfl, rfl⟩, fun hlt => absurd hlt (by rw [hcount]; exact Nat.not_lt_zero i)⟩
    -- along the beginnings of the run, with what the whole run takes
    have hinv : ins <+: ins → WireInv (Takes hostStep { server := s₀ } ins) i h out := by
      refine hr.invariant_actions (fun done out h => done <+: ins → WireInv (Takes hostStep _ ins) i h out)
        (fun _ => hstart) fun hrun hinv _ hs hdone => ?_
      exact (hinv ((List.prefix_append ..).trans hdone)).step ((hrun.takes _).mono hdone) hs
    obtain ⟨told, t, pending, ht, htr, -, -, hwork⟩ := (hinv List.prefix_rfl).after hi
    refine ⟨told, t, pending, ht, htr, fun hcr hread => ?_⟩
    have hwork := hwork hcr
    rwa [Host.AtWork, hread] at hwork

/-- One client commits a value, and the next one reads it; its checkpoint is refused. -/
theorem wire_refines_atomic_store_two_clients : ∃ ins h out,
    Run hostStep Host.KeepsWriteLocks { server := Server.boot {} ∅ } ins h out ∧
    sentOf 0 out = [ascii "KVDB ready (session 1)", ascii "txn 1 started.", ascii "OK", ascii "txn 1 committed."] ∧
    sentOf 1 out = [ascii "KVDB ready (session 2)", ascii "txn 2 started.", ascii "1",
      ascii "ERROR: checkpoint refused (active transactions exist)"] ∧
    observed (eventsOf out) = [.began 1 true, .called 1 (.put (ascii "a") (ascii "1")), .committed 1, .began 2 true,
      .called 2 (.get (ascii "a") (.value (ascii "1")))] ∧
    AtomicStore.Accepts replyOf (atomicStore ∅) (observed (eventsOf out)) ∧
    ∃ told t, Transcript (Takes hostStep { server := Server.boot {} ∅ } ins) 1 told t ∧ transcriptOf 1 out = t := by
  have hrun := exists_run_of_exec hostStep Host.KeepsWriteLocks { server := Server.boot {} ∅ }
    [.accept, .accept, .receive 0 (ascii "BEGIN\nPUT a 1\nCOMMIT\n"), .nextLine 0, .server (.thread 0), .nextLine 0,
      .nextLine 0, .server (.thread 0), .server (.thread 0), .server .worker, .server .worker, .server .worker,
      .server .worker, .server .worker, .server .worker, .server .worker, .server (.thread 0), .server (.thread 0),
      .server (.thread 0), .server (.thread 0), .server (.thread 0), .receive 1 (ascii "BEGIN\nGET a\nCHECKPOINT\n"),
      .nextLine 1, .server (.thread 1), .nextLine 1, .server (.thread 1), .nextLine 1, .server (.thread 1)]
    (fun h out => decide (((begunOf (eventsOf out)).length < 2 ^ 32 ∧ 1 < h.server.sessionCount ∧ h.crashed = false ∧
      (h.conns 1).handler = .reading) ∧
      sentOf 0 out = [ascii "KVDB ready (session 1)", ascii "txn 1 started.", ascii "OK", ascii "txn 1 committed."] ∧
      sentOf 1 out = [ascii "KVDB ready (session 2)", ascii "txn 2 started.", ascii "1",
      ascii "ERROR: checkpoint refused (active transactions exist)"] ∧
      observed (eventsOf out) = [.began 1 true, .called 1 (.put (ascii "a") (ascii "1")), .committed 1, .began 2 true,
        .called 2 (.get (ascii "a") (.value (ascii "1")))])) (by decide +kernel)
  obtain ⟨h, out, hr, hp⟩ := hrun
  obtain ⟨⟨hn, hi, hcr, hread⟩, h0, h1, hobs⟩ := of_decide_eq_true hp
  obtain ⟨haccepts, htalks⟩ := wire_refines_atomic_store (.opened {}) hr hn
  obtain ⟨told, t, pending, ht, htr, hpending⟩ := htalks 1 hi
  obtain rfl := hpending hcr hread
  exact ⟨_, h, out, hr, h0, h1, hobs, haccepts, told, t, ht, htr.trans (List.append_nil t)⟩

end Kvdb
