import Kvdb.Locking
import Kvdb.Protocol

/-!
# Connections

The server together with the handlers of its connections. `ConnectionHandler::run` reads bytes, takes lines out of
`inbuf_`, handles one command after the other and returns when the stream ends, when `recv` fails or when a response is
empty. A `Host` adds `inbuf_` and the place in `run` to the state of the server, and `hostStep` drives the steps of the
server by the bytes that clients send; forgetting the connections, a run of the host is a run of the server
(`server_run`).

`QUIT` aborts the transaction of the session before the loop ends. The other ways out do not: the locks of a transaction
that is active when the stream ends are held for the rest of the server's life (`transaction_left_behind`). A
connection that ends after `QUIT` or outside a transaction leaves nothing behind (`connection_leaves_nothing`).
-/

namespace Kvdb

open Machine

/-! ## The handlers -/

/-- Where `run` is. -/
inductive Handler
  /-- In `getNextCommandLine`. -/
  | reading
  /-- In `handleCommand`, inside a call. -/
  | calling (call : Call)
  /-- Behind the loop; `closeConnection` comes next. -/
  | closing
  | returned
  deriving DecidableEq, Repr

/-- A `ConnectionHandler`, and the two counters of its `TransactionManager`. -/
structure Connection where
  inbuf : Bytes := []
  handler : Handler := .reading
  totalCommits : Nat := 0
  deadlockAborts : Nat := 0
  deriving DecidableEq, Repr

def Connection.count (c : Connection) : Event → Connection
  | .acked _ _ _ => { c with totalCommits := c.totalCommits + 1 }
  | .failed _ .deadlock => { c with deadlockAborts := c.deadlockAborts + 1 }
  | _ => c

structure Host where
  server : State
  conns : SessionId → Connection := fun _ => {}
  /-- `CRASH` ends the process. -/
  crashed : Bool := false

/-- What the network or a thread does next. -/
inductive Input
  | accept
  /-- `recv` returns these bytes. -/
  | receive (sid : SessionId) (bytes : Bytes)
  /-- `recv` returns 0 or fails. -/
  | endOfStream (sid : SessionId)
  /-- The next line of `inbuf_` is taken, and handled up to its response or the first step of its call. -/
  | nextLine (sid : SessionId)
  /-- `closeConnection`; `run` returns. -/
  | close (sid : SessionId)
  /-- A session's thread goes on inside a call, or the flush worker does. -/
  | server (a : Action)
  deriving DecidableEq, Repr

inductive Output
  | event (e : Event)
  /-- `getNextCommandLine` returns the line. -/
  | received (sid : SessionId) (line : Bytes)
  /-- `writeLine`. -/
  | sent (sid : SessionId) (response : Bytes)
  deriving DecidableEq, Repr

def Output.toEvent : Output → Option Event
  | .event e => some e
  | .received _ _ | .sent _ _ => none

/-- The events of the server. -/
def eventsOf (out : List Output) : List Event := out.filterMap Output.toEvent

namespace Host

def setConn (h : Host) (sid : SessionId) (c : Connection) : Host :=
  { h with conns := Function.update h.conns sid c }

def setHandler (h : Host) (sid : SessionId) (handler : Handler) : Host :=
  h.setConn sid { h.conns sid with handler := handler }

/-- The end of a turn of the loop in `run`. -/
def respond (h : Host) (sid : SessionId) (response : Bytes) : Host × List Output :=
  if response = [] then (h.setHandler sid .closing, []) else (h.setHandler sid .reading, [.sent sid response])

/-- The call has come to the state `s` of the server, with these events; it is over when the session's thread is not
inside a call of the server any more. -/
def callStep (h : Host) (sid : SessionId) (call : Call) (s : State) (evs : List Event) : Host × List Output :=
  let pc := (s.sessions sid).pc
  let call := evs.foldl Call.note call
  -- `handleCheckpoint` has returned `false`
  let call := if (h.server.sessions sid).pc = .checkpoint .check ∧ pc = .idle then { call with ok := false } else call
  let h := { h with server := s }.setConn sid (evs.foldl Connection.count (h.conns sid))
  let r :=
    if pc = .idle ∨ pc = .closed then h.respond sid (call.response (s.sessions sid).txn.txnId)
    else (h.setHandler sid (.calling call), [])
  (r.1, evs.map .event ++ r.2)

/-- A turn of the loop in `run`: nothing for an empty line, else `handleCommand`. -/
def handleLine (h : Host) (sid : SessionId) (line : Bytes) : Option (Host × List Output) :=
  let txn := (h.server.sessions sid).txn
  let c := h.conns sid
  if line = [] then some (h, [])
  else
    match (CommandParser.parse line).request with
    | .reply response => some (h.respond sid response)
    | .stats => some (h.respond sid (getStats sid txn c.totalCommits c.deadlockAborts))
    | .locks => some (h.respond sid h.server.locks.dumpLockTable)
    | .crash => some ({ h with crashed := true }, [])
    | .call cmd =>
      (step h.server (.command sid cmd)).map fun r => h.callStep sid { cmd := cmd, txnId := txn.txnId } r.1 r.2

end Host

/-- Steps that a thread takes inside a call, and those of the flush worker. -/
def Action.inner : Action → Bool
  | .connect | .command _ _ | .disconnect _ => false
  | _ => true

def hostStep (h : Host) (input : Input) : Option (Host × List Output) :=
  if h.crashed ∨ ¬ h.server.alive then none
  else
    match input with
    | .accept =>
      let sid := h.server.sessionCount
      (step h.server .connect).map fun r =>
        ({ h with server := r.1 }, r.2.map .event ++ [.sent sid (getGreeting sid)])
    | .receive sid bytes =>
      let c := h.conns sid
      -- `recv` is called only when `inbuf_` has no newline, for at most 1024 bytes
      if sid < h.server.sessionCount ∧ c.handler = .reading ∧ 10 ∉ c.inbuf ∧ bytes ≠ [] ∧ bytes.length ≤ 1024 then
        some (h.setConn sid { c with inbuf := c.inbuf ++ bytes }, [])
      else none
    | .endOfStream sid =>
      let c := h.conns sid
      if sid < h.server.sessionCount ∧ c.handler = .reading ∧ 10 ∉ c.inbuf then some (h.setHandler sid .closing, [])
      else none
    | .nextLine sid =>
      let c := h.conns sid
      if sid < h.server.sessionCount ∧ c.handler = .reading then
        match takeLine c.inbuf with
        | none => none
        | some (line, rest) =>
          ((h.setConn sid { c with inbuf := rest }).handleLine sid line).map fun r => (r.1, .received sid line :: r.2)
      else none
    | .close sid =>
      if (h.conns sid).handler = .closing then
        if (h.server.sessions sid).pc = .closed then some (h.setHandler sid .returned, [])
        else
          (step h.server (.disconnect sid)).map fun r =>
            ({ h with server := r.1 }.setHandler sid .returned, r.2.map .event)
      else none
    | .server a =>
      if a.inner then
        match a.session with
        | none => (step h.server a).map fun r => ({ h with server := r.1 }, r.2.map .event)
        | some sid =>
          match (h.conns sid).handler with
          | .calling call => (step h.server a).map fun r => h.callStep sid call r.1 r.2
          | _ => none
      else none

/-! ## What a step of the host does to the server -/

theorem eventsOf_event (evs : List Event) : eventsOf (evs.map .event) = evs := by
  rw [eventsOf, List.filterMap_map]
  exact List.filterMap_some

theorem eventsOf_event_append (evs : List Event) {out : List Output} (h : eventsOf out = []) :
    eventsOf (evs.map .event ++ out) = evs := by
  rw [eventsOf, List.filterMap_append]
  exact (congrArg₂ _ (eventsOf_event evs) h).trans (List.append_nil evs)

/-- What a step of the host is to the server: nothing, a step of a session that has not returned, or the end of a
connection. -/
inductive HostStep (h : Host) (input : Input) (h' : Host) (out : List Output) : Prop
  | quiet : h'.server = h.server → eventsOf out = [] →
      (∀ i, (h'.conns i).handler = .returned → (h.conns i).handler = .returned) → HostStep h input h' out
  | server (a : Action) : step h.server a = some (h'.server, eventsOf out) →
      (∀ i, a ≠ .disconnect i) → (∀ i, a.session = some i → (h.conns i).handler ≠ .returned) →
      (∀ i, (h'.conns i).handler = .returned → (h.conns i).handler = .returned) → HostStep h input h' out
  | quit (i : SessionId) : input = .close i → (h.server.sessions i).pc = .closed → h'.server = h.server →
      eventsOf out = [] → (∀ j, j ≠ i → h'.conns j = h.conns j) → HostStep h input h' out
  | left (i : SessionId) : input = .close i → (h.server.sessions i).pc ≠ .closed →
      step h.server (.disconnect i) = some (h'.server, eventsOf out) → (∀ j, j ≠ i → h'.conns j = h.conns j) →
      HostStep h input h' out

section Steps

variable {h h' : Host} {i : SessionId} {out : List Output}

theorem setConn_self (h : Host) (i : SessionId) (c : Connection) : (h.setConn i c).conns i = c :=
  Function.update_self ..

theorem setConn_of_ne {j : SessionId} (hj : j ≠ i) (h : Host) (c : Connection) :
    (h.setConn i c).conns j = h.conns j := Function.update_of_ne hj ..

/-- No handler returns when one is set to a place inside `run`. -/
theorem setConn_returned {c : Connection} (hc : c.handler ≠ .returned) {j : SessionId}
    (hj : ((h.setConn i c).conns j).handler = .returned) : (h.conns j).handler = .returned := by
  by_cases hji : j = i
  · subst hji
    rw [setConn_self] at hj
    exact absurd hj hc
  · rwa [setConn_of_ne hji] at hj

/-- The commits that have been acknowledged. -/
def commitCount (evs : List Event) : Nat := evs.countP fun | .acked .. => true | _ => false

/-- The calls that ended with the deadlock error. -/
def deadlockCount (evs : List Event) : Nat := evs.countP fun | .failed _ .deadlock => true | _ => false

theorem commitCount_append (evs evs' : List Event) : commitCount (evs ++ evs') = commitCount evs + commitCount evs' :=
  List.countP_append

theorem deadlockCount_append (evs evs' : List Event) :
    deadlockCount (evs ++ evs') = deadlockCount evs + deadlockCount evs' := List.countP_append

theorem foldl_count (evs : List Event) (c : Connection) : evs.foldl Connection.count c =
    { c with
      totalCommits := c.totalCommits + commitCount evs
      deadlockAborts := c.deadlockAborts + deadlockCount evs } := by
  induction evs generalizing c with
  | nil => rfl
  | cons e evs ih =>
    have hone : c.count e = { c with
        totalCommits := c.totalCommits + commitCount [e]
        deadlockAborts := c.deadlockAborts + deadlockCount [e] } := by
      cases e with
      | failed j error => cases error <;> rfl
      | _ => rfl
    have hcommits : commitCount (e :: evs) = commitCount [e] + commitCount evs := commitCount_append [e] evs
    have hdeadlocks : deadlockCount (e :: evs) = deadlockCount [e] + deadlockCount evs := deadlockCount_append [e] evs
    rw [List.foldl_cons, ih, hone, hcommits, hdeadlocks, Nat.add_assoc, Nat.add_assoc]

/-- Where `run` goes with a response, and what it writes. -/
inductive Responds (i : SessionId) : Bytes → Handler → List Output → Prop
  | sent {response : Bytes} : response ≠ [] → Responds i response .reading [.sent i response]
  | silent : Responds i [] .closing []

theorem respond_spec (h : Host) (i : SessionId) (response : Bytes) : ∃ handler out,
    Responds i response handler out ∧ h.respond i response = (h.setHandler i handler, out) := by
  unfold Host.respond
  by_cases hr : response = []
  · subst hr
    exact ⟨_, _, .silent, if_pos rfl⟩
  · exact ⟨_, _, .sent hr, if_neg hr⟩

/-- The call after a step. -/
def Host.noted (h : Host) (i : SessionId) (call : Call) (s : State) (evs : List Event) : Call :=
  if (h.server.sessions i).pc = .checkpoint .check ∧ (s.sessions i).pc = .idle then
    { evs.foldl Call.note call with ok := false }
  else evs.foldl Call.note call

theorem noted_eq (h : Host) (i : SessionId) (call : Call) (s : State) (evs : List Event) :
    ∃ ok, h.noted i call s evs = { evs.foldl Call.note call with ok := ok } := by
  unfold Host.noted
  split
  · exact ⟨_, rfl⟩
  · exact ⟨_, rfl⟩

/-- Where the handler is after a step of a call, and what it writes. -/
inductive CallTurn (h : Host) (i : SessionId) (call : Call) (s : State) (evs : List Event) :
    Handler → List Output → Prop
  | ended {handler : Handler} {out : List Output} : (s.sessions i).pc = .idle ∨ (s.sessions i).pc = .closed →
      Responds i ((h.noted i call s evs).response (s.sessions i).txn.txnId) handler out →
      CallTurn h i call s evs handler out
  | inside : (s.sessions i).pc ≠ .idle → (s.sessions i).pc ≠ .closed →
      CallTurn h i call s evs (.calling (evs.foldl Call.note call)) []

/-- The host after a step of a call. -/
def Host.called (h : Host) (i : SessionId) (s : State) (evs : List Event) (handler : Handler) : Host :=
  { h with server := s }.setConn i { h.conns i with
    handler := handler
    totalCommits := (h.conns i).totalCommits + commitCount evs
    deadlockAborts := (h.conns i).deadlockAborts + deadlockCount evs }

theorem called_self (h : Host) (i : SessionId) (s : State) (evs : List Event) (handler : Handler) :
    ((h.called i s evs handler).conns i).handler = handler := by rw [Host.called, setConn_self]

theorem called_of_ne {j : SessionId} (hj : j ≠ i) (h : Host) (s : State) (evs : List Event) (handler : Handler) :
    (h.called i s evs handler).conns j = h.conns j := setConn_of_ne hj ..

theorem setConn_setHandler (h : Host) (i : SessionId) (c : Connection) (handler : Handler) :
    (h.setConn i c).setHandler i handler = h.setConn i { c with handler := handler } := by
  rw [Host.setHandler, setConn_self]
  simp [Host.setConn, Function.update_idem]

theorem callStep_spec (h : Host) (i : SessionId) (call : Call) (s : State) (evs : List Event) : ∃ handler out,
    CallTurn h i call s evs handler out ∧
      h.callStep i call s evs = (h.called i s evs handler, evs.map .event ++ out) := by
  have hset : ∀ handler, ({ h with server := s }.setConn i (evs.foldl Connection.count (h.conns i))).setHandler i
      handler = h.called i s evs handler := fun handler => by rw [setConn_setHandler, foldl_count]; rfl
  dsimp only [Host.callStep]
  by_cases hpc : (s.sessions i).pc = .idle ∨ (s.sessions i).pc = .closed
  · obtain ⟨handler, out, hresponds, hr⟩ := respond_spec
      ({ h with server := s }.setConn i (evs.foldl Connection.count (h.conns i))) i
      ((h.noted i call s evs).response (s.sessions i).txn.txnId)
    refine ⟨handler, out, .ended hpc hresponds, ?_⟩
    rw [Host.noted] at hr
    rw [if_pos hpc, hr, hset]
  · rw [not_or] at hpc
    refine ⟨_, _, .inside hpc.1 hpc.2, ?_⟩
    rw [if_neg (not_or.mpr hpc), if_neg fun hc => hpc.1 hc.2, hset]

/-- The response to a line that is not a call. -/
inductive Host.Replies (h : Host) (i : SessionId) (line : Bytes) : Bytes → Prop
  | reply {response : Bytes} : (CommandParser.parse line).request = .reply response → Replies h i line response
  | stats : (CommandParser.parse line).request = .stats → Replies h i line
      (getStats i (h.server.sessions i).txn (h.conns i).totalCommits (h.conns i).deadlockAborts)
  | locks : (CommandParser.parse line).request = .locks → Replies h i line h.server.locks.dumpLockTable

/-- The branches of `handleLine`. -/
inductive LineStep (h : Host) (i : SessionId) (line : Bytes) : Host → List Output → Prop
  | skip : line = [] → LineStep h i line h []
  | answer {response : Bytes} {handler : Handler} {out : List Output} : line ≠ [] → h.Replies i line response →
      Responds i response handler out → LineStep h i line (h.setHandler i handler) out
  | crash : line ≠ [] → (CommandParser.parse line).request = .crash →
      LineStep h i line { h with crashed := true } []
  | call {cmd : Command} {s : State} {evs : List Event} {handler : Handler} {out : List Output} : line ≠ [] →
      (CommandParser.parse line).request = .call cmd → step h.server (.command i cmd) = some (s, evs) →
      CallTurn h i { cmd := cmd, txnId := (h.server.sessions i).txn.txnId } s evs handler out →
      LineStep h i line (h.called i s evs handler) (evs.map .event ++ out)

theorem handleLine_cases {line : Bytes} (hs : h.handleLine i line = some (h', out)) : LineStep h i line h' out := by
  have hrespond : ∀ {response}, line ≠ [] → h.Replies i line response → some (h.respond i response) = some (h', out) →
      LineStep h i line h' out := by
    intro response hline hreplies hr
    obtain ⟨handler, out', hresponds, he⟩ := respond_spec h i response
    cases he.symm.trans (Option.some.inj hr)
    exact .answer hline hreplies hresponds
  dsimp only [Host.handleLine] at hs
  split at hs
  · cases hs
    exact .skip ‹_›
  · rename_i hline
    cases hreq : (CommandParser.parse line).request <;> rw [hreq] at hs
    case reply response => exact hrespond hline (.reply hreq) hs
    case stats => exact hrespond hline (.stats hreq) hs
    case locks => exact hrespond hline (.locks hreq) hs
    case crash =>
      cases hs
      exact .crash hline hreq
    case call cmd =>
      obtain ⟨r, hr, hc⟩ := Option.map_eq_some_iff.mp hs
      obtain ⟨handler, out', hturn, he⟩ :=
        callStep_spec h i { cmd := cmd, txnId := (h.server.sessions i).txn.txnId } r.1 r.2
      cases he.symm.trans hc
      exact .call hline hreq hr hturn

theorem Responds.spec {response : Bytes} {handler : Handler} (h : Responds i response handler out) :
    eventsOf out = [] ∧ handler ≠ .returned := by
  cases h <;> exact ⟨rfl, by simp⟩

theorem CallTurn.spec {call : Call} {s : State} {evs : List Event} {handler : Handler}
    (ht : CallTurn h i call s evs handler out) : eventsOf (evs.map .event ++ out) = evs ∧ handler ≠ .returned := by
  cases ht with
  | ended _ hr => exact ⟨eventsOf_event_append evs hr.spec.1, hr.spec.2⟩
  | inside => exact ⟨eventsOf_event_append evs rfl, by simp⟩

/-- What a line is to the server, and that no handler returns. -/
theorem LineStep.spec {line : Bytes} (hl : LineStep h i line h' out) : (h'.server = h.server ∧ eventsOf out = [] ∨
      ∃ cmd, step h.server (.command i cmd) = some (h'.server, eventsOf out)) ∧
    ∀ j, (h'.conns j).handler = .returned → (h.conns j).handler = .returned := by
  cases hl with
  | skip => exact ⟨Or.inl ⟨rfl, rfl⟩, fun _ => id⟩
  | answer _ _ hr => exact ⟨Or.inl ⟨rfl, hr.spec.1⟩, fun _ hj => setConn_returned hr.spec.2 hj⟩
  | crash => exact ⟨Or.inl ⟨rfl, rfl⟩, fun _ => id⟩
  | @call cmd _ _ _ _ _ _ hstep hturn =>
    refine ⟨Or.inr ⟨cmd, ?_⟩, fun _ hj => setConn_returned hturn.spec.2 hj⟩
    rw [hturn.spec.1]
    exact hstep

/-- The branches of `hostStep`. -/
inductive HostMove (h : Host) : Input → Host → List Output → Prop
  | accept (s : State) (evs : List Event) : step h.server .connect = some (s, evs) →
      HostMove h .accept { h with server := s }
        (evs.map .event ++ [.sent h.server.sessionCount (getGreeting h.server.sessionCount)])
  | receive (i : SessionId) (bytes : Bytes) : i < h.server.sessionCount → (h.conns i).handler = .reading →
      HostMove h (.receive i bytes) (h.setConn i { h.conns i with inbuf := (h.conns i).inbuf ++ bytes }) []
  | endOfStream (i : SessionId) : i < h.server.sessionCount → (h.conns i).handler = .reading →
      HostMove h (.endOfStream i) (h.setHandler i .closing) []
  | nextLine (i : SessionId) (line rest : Bytes) {h' : Host} {out : List Output} : i < h.server.sessionCount →
      (h.conns i).handler = .reading → takeLine (h.conns i).inbuf = some (line, rest) →
      LineStep (h.setConn i { h.conns i with inbuf := rest }) i line h' out →
      HostMove h (.nextLine i) h' (.received i line :: out)
  | quit (i : SessionId) : (h.conns i).handler = .closing → (h.server.sessions i).pc = .closed →
      HostMove h (.close i) (h.setHandler i .returned) []
  | left (i : SessionId) (s : State) (evs : List Event) : (h.conns i).handler = .closing →
      (h.server.sessions i).pc ≠ .closed → step h.server (.disconnect i) = some (s, evs) →
      HostMove h (.close i) ({ h with server := s }.setHandler i .returned) (evs.map .event)
  | worker (a : Action) (s : State) (evs : List Event) : a.inner → a.session = none →
      step h.server a = some (s, evs) → HostMove h (.server a) { h with server := s } (evs.map .event)
  | call (i : SessionId) (a : Action) (call : Call) (s : State) (evs : List Event) {handler : Handler}
      {out : List Output} : a.inner → a.session = some i → (h.conns i).handler = .calling call →
      step h.server a = some (s, evs) → CallTurn h i call s evs handler out →
      HostMove h (.server a) (h.called i s evs handler) (evs.map .event ++ out)

theorem hostStep_crashed {input : Input} (hs : hostStep h input = some (h', out)) : h.crashed = false := by
  unfold hostStep at hs
  split at hs
  · cases hs
  · rename_i hc
    exact eq_false_of_ne_true fun hcr => hc (Or.inl hcr)

theorem hostStep_move {input : Input} (hs : hostStep h input = some (h', out)) : HostMove h input h' out := by
  unfold hostStep at hs
  split at hs
  · cases hs
  cases input with
  | accept =>
    obtain ⟨r, hr, hc⟩ := Option.map_eq_some_iff.mp hs
    cases hc
    exact .accept _ _ hr
  | receive i bytes =>
    obtain ⟨hc, he⟩ := Option.ite_none_right_eq_some.mp hs
    cases he
    exact .receive i bytes hc.1 hc.2.1
  | endOfStream i =>
    obtain ⟨hc, he⟩ := Option.ite_none_right_eq_some.mp hs
    cases he
    exact .endOfStream i hc.1 hc.2.1
  | nextLine i =>
    obtain ⟨hc, hs⟩ := Option.ite_none_right_eq_some.mp hs
    split at hs
    · cases hs
    · rename_i line rest htake
      obtain ⟨r, hr, he⟩ := Option.map_eq_some_iff.mp hs
      cases he
      exact .nextLine i line rest hc.1 hc.2 htake (handleLine_cases hr)
  | close i =>
    obtain ⟨hc, hs⟩ := Option.ite_none_right_eq_some.mp hs
    split at hs
    · rename_i hpc
      cases hs
      exact .quit i hc hpc
    · rename_i hpc
      obtain ⟨r, hr, he⟩ := Option.map_eq_some_iff.mp hs
      cases he
      exact .left i _ _ hc hpc hr
  | server a =>
    obtain ⟨hinner, hs⟩ := Option.ite_none_right_eq_some.mp hs
    split at hs
    · rename_i hsess
      obtain ⟨r, hr, he⟩ := Option.map_eq_some_iff.mp hs
      cases he
      exact .worker a _ _ hinner hsess hr
    · rename_i i hsess
      split at hs
      · rename_i call hcall
        obtain ⟨r, hr, he⟩ := Option.map_eq_some_iff.mp hs
        obtain ⟨handler, out', hturn, hc⟩ := callStep_spec h i call r.1 r.2
        cases hc.symm.trans he
        exact .call i a call _ _ hinner hsess hcall hr hturn
      · cases hs

/-- **A step of the host is at most one step of the server.** -/
theorem hostStep_cases {input : Input} (hs : hostStep h input = some (h', out)) : HostStep h input h' out := by
  have hinner : ∀ {a : Action}, a.inner = true → ∀ i, a ≠ .disconnect i := by
    rintro a ha i rfl
    cases ha
  cases hostStep_move hs with
  | accept s evs hr =>
    refine .server .connect ?_ (by simp) (by simp [Action.session]) fun _ => id
    rw [eventsOf_event_append evs rfl]
    exact hr
  | receive i bytes _ hread => exact .quiet rfl rfl fun j hj => setConn_returned (by simp [hread]) hj
  | endOfStream i _ _ => exact .quiet rfl rfl fun j hj => setConn_returned (by simp) hj
  | nextLine i line rest _ hread _ hline =>
    have hset : ∀ {j}, ((h.setConn i { h.conns i with inbuf := rest }).conns j).handler = .returned →
        (h.conns j).handler = .returned := fun hj => setConn_returned (by simp [hread]) hj
    obtain ⟨⟨h1, h2⟩ | ⟨cmd, hstep⟩, h3⟩ := hline.spec
    · exact .quiet h1 h2 fun j hj => hset (h3 j hj)
    · refine .server (.command i cmd) hstep (by simp) ?_ fun j hj => hset (h3 j hj)
      rintro j hj
      cases hj
      rw [hread]
      simp
  | quit i _ hpc => exact .quit i rfl hpc rfl rfl fun j hj => setConn_of_ne hj ..
  | left i s evs _ hpc hr =>
    refine .left i rfl hpc ?_ fun j hj => setConn_of_ne hj ..
    rw [eventsOf_event]
    exact hr
  | worker a s evs ha hsess hr =>
    refine .server a ?_ (hinner ha) (by simp [hsess]) fun _ => id
    rw [eventsOf_event]
    exact hr
  | call i a call s evs ha hsess hcall hr hturn =>
    refine .server a (by rw [hturn.spec.1]; exact hr) (hinner ha) ?_ fun _ hj => setConn_returned hturn.spec.2 hj
    intro j hj
    obtain rfl := Option.some.inj (hsess.symm.trans hj)
    simp [hcall]

end Steps

/-- **Forgetting the connections**, a run of the host is a run of the server. -/
theorem server_run {P : Host → Input → Prop} {h₀ h : Host} {ins : List Input} {out : List Output}
    (hr : Run hostStep P h₀ ins h out) :
    ∃ as, Run step (fun _ _ => True) h₀.server as h.server (eventsOf out) := by
  refine Run.project Host.server Output.toEvent (fun _ hs => ?_) hr
  cases hostStep_cases hs with
  | quiet hserver hev _ => exact Or.inl ⟨hserver, hev⟩
  | server a hstep _ _ _ => exact Or.inr ⟨a, trivial, hstep⟩
  | quit i _ _ hserver hev _ => exact Or.inl ⟨hserver, hev⟩
  | left i _ _ hstep _ => exact Or.inr ⟨_, trivial, hstep⟩

/-! ## Ends of connections -/

section Closed

variable {s s' : State} {i : SessionId} {evs : List Event}

/-- A command closes the session only when it is `QUIT`, outside a transaction. -/
theorem CommandMove.closed {cmd : Command} (hpc : (s.sessions i).pc = .idle) (h : CommandMove s i cmd s' evs)
    (hc : (s'.sessions i).pc = .closed) : (s'.sessions i).txn.state ≠ .active := by
  cases h with
  | quit _ hactive =>
    rw [txn_setPc]
    exact hactive
  | granted op => cases op <;> simp [LockOp.resume] at hc
  | _ => simp [hpc] at hc

theorem CheckpointEffect.closed {pc : CheckpointPc} (hpc : (s.sessions i).pc = .checkpoint pc)
    (h : CheckpointEffect s i s') : (s'.sessions i).pc ≠ .closed := by
  cases h <;> simp [hpc]

/-- A thread closes its session only after it has aborted the transaction. -/
theorem ThreadMove.closed (h : ThreadMove s i (s.sessions i).pc s' evs) (hc : (s'.sessions i).pc = .closed) :
    (s'.sessions i).txn.state ≠ .active := by
  generalize hpc : (s.sessions i).pc = pc at h
  cases h with
  | abortReset cause => simp
  | waitGranted op => cases op <;> simp [LockOp.resume] at hc
  | read => rw [pc_setPc] at hc; split at hc <;> cases hc
  | checkpoint _ hstep => exact absurd hc ((checkpointStep_effect hstep).closed hpc)
  | _ => simp at hc

/-- A session that a step closes has no transaction, unless its client has gone away. -/
theorem step_closed {a : Action} (h : step s a = some (s', evs)) (hs : a.session = some i) (hd : a ≠ .disconnect i)
    (hc : (s'.sessions i).pc = .closed) : (s'.sessions i).txn.state ≠ .active := by
  cases (step_move h).2 with
  | connect ha => rw [ha] at hs; cases hs
  | worker fault ha _ => rw [ha] at hs; cases fault <;> cases hs
  | disconnect j ha => subst ha; cases hs; exact absurd rfl hd
  | command j cmd ha _ hpc hmove => subst ha; cases hs; exact hmove.closed hpc hc
  | thread j ha hmove => subst ha; cases hs; exact hmove.closed hc
  | copyStore j entries lsn file ha => subst ha; cases hs; simp at hc
  | threadFault j n pc ha hpc hf => subst ha; cases hs; exact absurd hc ((checkpointFault_effect hf).closed hpc)

/-- Steps of others neither open nor close a session. -/
theorem step_closed_of_ne {a : Action} (h : step s a = some (s', evs)) (hs : a.session ≠ some i) :
    ((s'.sessions i).pc = .closed ↔ (s.sessions i).pc = .closed) ∧ (s'.sessions i).txn = (s.sessions i).txn := by
  rcases step_sessions_of_ne h hs with he | he <;> rw [he]
  · exact ⟨Iff.rfl, rfl⟩
  · cases hpc : (s.sessions i).pc <;> simp [Session.notified, hpc]

end Closed

/-- The step does not close a connection inside a transaction, unless after `QUIT`. -/
def EndsOutside (h : Host) : Input → Prop
  | .close i => (h.server.sessions i).pc = .closed ∨ (h.server.sessions i).txn.state ≠ .active
  | _ => True

instance (h : Host) (input : Input) : Decidable (EndsOutside h input) := by
  unfold EndsOutside
  split <;> infer_instance

/-- A connection whose handler has returned is closed, and closed sessions have no transaction. -/
structure ClosedInv (h : Host) : Prop where
  returned : ∀ i, (h.conns i).handler = .returned → (h.server.sessions i).pc = .closed
  idle : ∀ i, (h.server.sessions i).pc = .closed → (h.server.sessions i).txn.state ≠ .active

theorem ClosedInv.step {h h' : Host} {input : Input} {out : List Output} (hinv : ClosedInv h)
    (hs : hostStep h input = some (h', out)) (hP : EndsOutside h input) : ClosedInv h' := by
  cases hostStep_cases hs with
  | quiet hserver _ hret =>
    exact ⟨fun i hi => by rw [hserver]; exact hinv.returned i (hret i hi), by rw [hserver]; exact hinv.idle⟩
  | server a hstep hd hsess hret =>
    refine ⟨fun i hi => ?_, fun i hi => ?_⟩
    · have hne : a.session ≠ some i := fun ha => hsess i ha (hret i hi)
      exact (step_closed_of_ne hstep hne).1.mpr (hinv.returned i (hret i hi))
    · by_cases ha : a.session = some i
      · exact step_closed hstep ha (hd i) hi
      · obtain ⟨hiff, htxn⟩ := step_closed_of_ne hstep ha
        rw [htxn]
        exact hinv.idle i (hiff.mp hi)
  | quit i _ hpc hserver _ hother =>
    refine ⟨fun j hj => ?_, by rw [hserver]; exact hinv.idle⟩
    rw [hserver]
    by_cases hji : j = i
    · subst hji; exact hpc
    · rw [hother j hji] at hj; exact hinv.returned j hj
  | left i hin hpc hstep hother =>
    subst hin
    have hact : (h.server.sessions i).txn.state ≠ .active := hP.resolve_left hpc
    have hself : h'.server.sessions i = { h.server.sessions i with pc := .closed } := by
      have halive := (step_cases hstep).1
      simp only [Kvdb.step, halive, if_true] at hstep
      split at hstep
      · have hs' := congrArg Prod.fst (Option.some.inj hstep)
        dsimp only at hs'
        rw [← hs']
        exact Function.update_self ..
      · cases hstep
    have hne : ∀ {j}, j ≠ i → Action.session (.disconnect i) ≠ some j := fun hj h => hj (Option.some.inj h).symm
    refine ⟨fun j hj => ?_, fun j hj => ?_⟩
    · by_cases hji : j = i
      · subst hji; rw [hself]
      · rw [hother j hji] at hj
        exact (step_closed_of_ne hstep (hne hji)).1.mpr (hinv.returned j hj)
    · by_cases hji : j = i
      · subst hji; rw [hself]; exact hact
      · obtain ⟨hiff, htxn⟩ := step_closed_of_ne hstep (hne hji)
        rw [htxn]
        exact hinv.idle j (hiff.mp hj)

/-- Nothing of a session is left: it has no transaction, none of those it has begun is in the lock table, and only
other sessions keep locks or a checkpoint from being granted. -/
structure LeavesNothing (s : State) (tr : List Event) (i : SessionId) : Prop where
  idle : (s.sessions i).txn.state ≠ .active
  unlisted : ∀ t level, Event.began i t level ∈ tr → ∀ (key : Key) entry, s.locks.lockTable[key]? = some entry →
    t ∉ entry.holders ∧ ∀ w ∈ entry.waitQueue, w.txnId ≠ t
  blockers : ∀ (key : Key) entry, s.locks.lockTable[key]? = some entry →
    ∀ t, (t ∈ entry.holders ∨ ∃ w ∈ entry.waitQueue, w.txnId = t) →
      ∃ j, j ≠ i ∧ (s.sessions j).txn.state = .active ∧ (s.sessions j).txn.txnId = t
  refusers : hasActiveTransactions s = true → ∃ j, j ≠ i ∧ (s.sessions j).txn.state = .active

/-- **A connection that ends after `QUIT` or outside a transaction leaves nothing behind.** -/
theorem connection_leaves_nothing {st : Store} {s₀ : State} {h : Host} {ins : List Input} {out : List Output}
    (h0 : Server.Initial st s₀) (hr : Run hostStep EndsOutside { server := s₀ } ins h out)
    (hn : (begunOf (eventsOf out)).length < 2 ^ 32) {i : SessionId} (hi : (h.conns i).handler = .returned) :
    LeavesNothing h.server (eventsOf out) i := by
  have hclosed : ClosedInv h := by
    refine Run.invariant (fun _ h => ClosedInv h) ⟨by simp, ?_⟩ (fun hinv hP hs => hinv.step hs hP) hr
    cases h0 <;> exact fun i hi => by cases hi
  have hidle := hclosed.idle i (hclosed.returned i hi)
  obtain ⟨as, hrun⟩ := server_run hr
  obtain ⟨hhold, hown, hnodup⟩ := holdInv_of_length h0 hrun hn
  have hother : ∀ {j}, (h.server.sessions j).txn.state = .active → j ≠ i := by rintro j hj rfl; exact hidle hj
  have hblock : ∀ (key : Key) entry, h.server.locks.lockTable[key]? = some entry →
      ∀ t, (t ∈ entry.holders ∨ ∃ w ∈ entry.waitQueue, w.txnId = t) →
        ∃ j, j ≠ i ∧ (h.server.sessions j).txn.state = .active ∧ (h.server.sessions j).txn.txnId = t := by
    intro key entry he t ht
    obtain ⟨j, hj, hid⟩ := hhold.listed he ht
    exact ⟨j, hother hj, hj, hid⟩
  refine ⟨hidle, fun t level hb key entry he => ?_, hblock, fun hact => ?_⟩
  · -- whoever is listed was begun by another session, and no id is handed out twice
    have hno : ¬ (t ∈ entry.holders ∨ ∃ w ∈ entry.waitQueue, w.txnId = t) := by
      intro ht
      obtain ⟨j, hji, hj, rfl⟩ := hblock key entry he t ht
      obtain ⟨lj, hbj⟩ := hown j hj
      exact hji (owner_unique hnodup hbj hb)
    exact ⟨fun ht => hno (Or.inl ht), fun w hw ht => hno (Or.inr ⟨w, hw, ht⟩)⟩
  · obtain ⟨j, _, hj⟩ := List.any_eq_true.mp hact
    exact ⟨j, hother (of_decide_eq_true hj), of_decide_eq_true hj⟩

/-- A client that puts a key and quits. -/
theorem connection_leaves_nothing_quit : ∃ ins h out,
    Run hostStep EndsOutside { server := Server.boot {} ∅ } ins h out ∧
    Event.began 0 1 .repeatableRead ∈ eventsOf out ∧ LeavesNothing h.server (eventsOf out) 0 := by
  have hrun := exists_run_of_exec hostStep EndsOutside { server := Server.boot {} ∅ }
    [.accept, .receive 0 (ascii "begin;\r\nPUT a 1\nQU"), .nextLine 0, .server (.thread 0), .nextLine 0,
      .receive 0 (ascii "IT\n"), .nextLine 0, .server (.thread 0), .server (.thread 0), .server (.thread 0), .close 0]
    (fun h out => decide ((h.conns 0).handler = .returned ∧ Event.began 0 1 .repeatableRead ∈ eventsOf out ∧
      (begunOf (eventsOf out)).length < 2 ^ 32)) (by decide +kernel)
  obtain ⟨h, out, hr, hp⟩ := hrun
  obtain ⟨hret, hb, hn⟩ := of_decide_eq_true hp
  exact ⟨_, h, out, hr, hb, connection_leaves_nothing (.opened {}) hr hn hret⟩

/-- A client that puts a key and closes its socket in the middle of a line: `run` returns, the transaction stays
active with its lock, and checkpoints are refused. -/
theorem transaction_left_behind : ∃ ins h out,
    Run hostStep (fun _ _ => True) { server := Server.boot {} ∅ } ins h out ∧
      (begunOf (eventsOf out)).length < 2 ^ 32 ∧ (h.conns 0).handler = .returned ∧
      1 ∈ h.server.locks.holders (ascii "a") ∧ hasActiveTransactions h.server = true ∧
      ¬ LeavesNothing h.server (eventsOf out) 0 := by
  have hrun := exists_run_of_exec hostStep (fun _ _ => True) { server := Server.boot {} ∅ }
    [.accept, .receive 0 (ascii "BEGIN\nPUT a 1\nCOM"), .nextLine 0, .server (.thread 0), .nextLine 0,
      .endOfStream 0, .close 0]
    (fun h out => decide ((h.conns 0).handler = .returned ∧ (begunOf (eventsOf out)).length < 2 ^ 32 ∧
      1 ∈ h.server.locks.holders (ascii "a") ∧ hasActiveTransactions h.server = true ∧
      (h.server.sessions 0).txn.state = .active)) (by decide +kernel)
  obtain ⟨h, out, hr, hp⟩ := hrun
  obtain ⟨hret, hn, hlock, hrefuse, hact⟩ := of_decide_eq_true hp
  exact ⟨_, h, out, hr, hn, hret, hlock, hrefuse, fun hl => hl.idle hact⟩

end Kvdb
