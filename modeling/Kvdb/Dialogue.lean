import Kvdb.Responses

/-!
# One response line per command

`run` writes the response to a command and a newline. A client that reads lines takes the `n`-th line after the greeting
for the response to its `n`-th command.

- Between the greeting and the end of a session its commands and responses alternate (`dialogue`, `TalkInv`): no command
  but `QUIT` and `CRASH` is left without a response.
- The responses to `\STATS` and `\LOCKS` have several lines, all others have one (`Answers`).

So the client is right if and only if it has sent neither of the two (`one_line_per_command_iff`).
-/

namespace Kvdb

open Machine

/-! ## Dialogues -/

/-- The commands and responses of a session; empty lines are skipped. -/
def Output.talk (i : SessionId) : Output → Bool
  | .event _ => false
  | .received j line => j = i ∧ line ≠ []
  | .sent j _ => j = i

def talkOf (i : SessionId) (out : List Output) : List Output := out.filter (Output.talk i)

def Output.command : Output → Option Bytes
  | .received _ line => some line
  | _ => none

def Output.response : Output → Option Bytes
  | .sent _ response => some response
  | _ => none

/-- The commands of a session. -/
def commandsOf (i : SessionId) (out : List Output) : List Bytes := (talkOf i out).filterMap Output.command

/-- The greeting of a session and the responses to it. -/
def sentOf (i : SessionId) (out : List Output) : List Bytes := (talkOf i out).filterMap Output.response

/-- A greeting, then commands each with one response, and at the end perhaps a command without one. -/
def dialogue (i : SessionId) (exchanges : List (Bytes × Bytes)) (pending : Option Bytes) : List Output :=
  .sent i (getGreeting i) :: (exchanges.flatMap fun e => [.received i e.1, .sent i e.2]) ++
    pending.toList.map (.received i)

theorem talkOf_append (i : SessionId) (out out' : List Output) :
    talkOf i (out ++ out') = talkOf i out ++ talkOf i out' := List.filter_append ..

theorem talkOf_event (i : SessionId) (evs : List Event) : talkOf i (evs.map .event) = [] := by
  simp [talkOf, Output.talk]

theorem talkOf_event_append (i : SessionId) (evs : List Event) (out : List Output) :
    talkOf i (evs.map .event ++ out) = talkOf i out := by rw [talkOf_append, talkOf_event, List.nil_append]

theorem commandsOf_append (i : SessionId) (out out' : List Output) :
    commandsOf i (out ++ out') = commandsOf i out ++ commandsOf i out' := by
  rw [commandsOf, talkOf_append, List.filterMap_append]
  rfl

theorem filterMap_exchanges (i : SessionId) (exchanges : List (Bytes × Bytes)) :
    (exchanges.flatMap fun e => [Output.received i e.1, .sent i e.2]).filterMap Output.command =
        exchanges.map Prod.fst ∧
      (exchanges.flatMap fun e => [Output.received i e.1, .sent i e.2]).filterMap Output.response =
        exchanges.map Prod.snd := by
  induction exchanges with
  | nil => exact ⟨rfl, rfl⟩
  | cons e exchanges ih =>
    rw [List.flatMap_cons, List.filterMap_append, List.filterMap_append, ih.1, ih.2]
    exact ⟨rfl, rfl⟩

theorem commandsOf_dialogue {i : SessionId} {out : List Output} {exchanges : List (Bytes × Bytes)}
    {pending : Option Bytes} (h : talkOf i out = dialogue i exchanges pending) :
    commandsOf i out = exchanges.map Prod.fst ++ pending.toList := by
  rw [commandsOf, h, dialogue, List.cons_append, List.filterMap_cons_none rfl, List.filterMap_append,
    (filterMap_exchanges i exchanges).1]
  cases pending <;> rfl

theorem sentOf_dialogue {i : SessionId} {out : List Output} {exchanges : List (Bytes × Bytes)}
    {pending : Option Bytes} (h : talkOf i out = dialogue i exchanges pending) :
    sentOf i out = getGreeting i :: exchanges.map Prod.snd := by
  have hgreeting : Output.response (.sent i (getGreeting i)) = some (getGreeting i) := rfl
  have hpending : (pending.toList.map (Output.received i)).filterMap Output.response = [] := by cases pending <;> rfl
  rw [sentOf, h, dialogue, List.cons_append, List.filterMap_cons_some hgreeting, List.filterMap_append,
    (filterMap_exchanges i exchanges).2, hpending, List.append_nil]

theorem dialogue_answer (i : SessionId) (exchanges : List (Bytes × Bytes)) (line response : Bytes) :
    dialogue i exchanges (some line) ++ [.sent i response] = dialogue i (exchanges ++ [(line, response)]) none := by
  simp [dialogue]

theorem dialogue_command (i : SessionId) (exchanges : List (Bytes × Bytes)) (line : Bytes) :
    dialogue i exchanges none ++ [.received i line] = dialogue i exchanges (some line) := by
  simp [dialogue]

/-! ## The host -/

/-- The commands that end the session or the server. -/
def EndsSession (line : Bytes) : Prop :=
  (CommandParser.parse line).request = .crash ∨ (CommandParser.parse line).request = .call .quit

/-- The commands whose responses have several lines, `\STATS` and `\LOCKS`. -/
def MultiLine (line : Bytes) : Prop :=
  (CommandParser.parse line).request = .stats ∨ (CommandParser.parse line).request = .locks

instance (line : Bytes) : Decidable (EndsSession line) := inferInstanceAs (Decidable (_ ∨ _))

instance (line : Bytes) : Decidable (MultiLine line) := inferInstanceAs (Decidable (_ ∨ _))

/-- The response is a line, unless the command is one of the two. -/
def Answers (line response : Bytes) : Prop := (MultiLine line ∧ 10 ∈ response) ∨ (¬ MultiLine line ∧ IsLine response)

/-- A step on a command, as its session sees it: the response, or nothing while its call goes on. -/
def Host.Proceeds (h : Host) (i : SessionId) (line : Bytes) (out : List Output) : Prop :=
  (∃ response, Answers line response ∧ talkOf i out = [.sent i response] ∧ (h.conns i).handler = .reading) ∨
    ∃ call, call.OnTrack (h.server.sessions i).pc ∧ ¬ MultiLine line ∧ talkOf i out = [] ∧
      (h.conns i).handler = .calling call

section Host

variable {h h' : Host} {i j : SessionId} {line : Bytes} {out : List Output}

theorem Responds.talkOf_of_ne {response : Bytes} {handler : Handler} (hj : j ≠ i)
    (hr : Responds i response handler out) : talkOf j out = [] := by
  cases hr with
  | sent => simp [talkOf, Output.talk, Ne.symm hj]
  | silent => rfl

theorem CallTurn.talkOf_of_ne {call : Call} {s : State} {evs : List Event} {handler : Handler} (hj : j ≠ i)
    (ht : CallTurn h i call s evs handler out) : talkOf j (evs.map .event ++ out) = [] := by
  rw [talkOf_event_append]
  cases ht with
  | ended _ hr => exact hr.talkOf_of_ne hj
  | inside => rfl

theorem noted_onTrack {call : Call} {s : State} {evs : List Event} {pc : Pc}
    (hcall : (evs.foldl Call.note call).OnTrack pc) : (h.noted i call s evs).OnTrack pc := by
  obtain ⟨ok, hnoted⟩ := noted_eq h i call s evs
  rw [hnoted]
  exact ⟨⟨hcall.1.notQuit, hcall.1.result, hcall.1.value⟩, hcall.2⟩

/-- A step of a call. -/
theorem CallTurn.proceeds {call : Call} {s : State} {evs : List Event} {handler : Handler}
    (ht : CallTurn h i call s evs handler out) (hmulti : ¬ MultiLine line)
    (hcall : (evs.foldl Call.note call).OnTrack (s.sessions i).pc) :
    (h.called i s evs handler).Proceeds i line (evs.map .event ++ out) := by
  unfold Host.Proceeds
  rw [talkOf_event_append, called_self]
  cases ht with
  | ended hpc hr =>
    have htext := (noted_onTrack (h := h) (s := s) (i := i) hcall).response hpc (s.sessions i).txn.txnId
    generalize (h.noted i call s evs).response (s.sessions i).txn.txnId = response at hr htext
    cases hr with
    | sent => exact Or.inl ⟨response, Or.inr ⟨hmulti, htext.2⟩, by simp [talkOf, Output.talk], rfl⟩
    | silent => exact absurd rfl htext.1
  | inside => exact Or.inr ⟨_, hcall, hmulti, rfl, rfl⟩

/-- The responses that need no call. -/
theorem Host.Replies.answers {response : Bytes} (hr : h.Replies i line response) :
    response ≠ [] ∧ Answers line response := by
  cases hr with
  | reply hreq =>
    have htext := request_isText line
    rw [hreq] at htext
    exact ⟨htext.1, Or.inr ⟨by simp [MultiLine, hreq], htext.2⟩⟩
  | stats hreq =>
    have hmem := newline_mem_getStats i (h.server.sessions i).txn (h.conns i).totalCommits (h.conns i).deadlockAborts
    exact ⟨List.ne_nil_of_mem hmem, Or.inl ⟨Or.inl hreq, hmem⟩⟩
  | locks hreq =>
    have hmem := newline_mem_dumpLockTable h.server.locks
    exact ⟨List.ne_nil_of_mem hmem, Or.inl ⟨Or.inr hreq, hmem⟩⟩

theorem Host.Replies.not_call {response : Bytes} (hr : h.Replies i line response) :
    (∀ cmd, (CommandParser.parse line).request ≠ .call cmd) ∧ (CommandParser.parse line).request ≠ .crash := by
  cases hr with
  | reply hreq | stats hreq | locks hreq => simp [hreq]

/-- The command of a line keeps the values texts. -/
theorem LineStep.values (hs : LineStep h i line h' out) (hinv : ValuesInv IsText h.server.core) :
    ValuesInv IsText h'.server.core := by
  cases hs with
  | skip | answer | crash => exact hinv
  | call _ hreq hstep _ =>
    refine step_values hinv hstep fun j k v hj => ?_
    cases hj
    have htext := request_isText line
    rw [hreq] at htext
    exact htext

theorem LineStep.sessionCount (hs : LineStep h i line h' out) : h'.server.sessionCount = h.server.sessionCount := by
  cases hs with
  | skip | answer | crash => rfl
  | call _ _ hstep _ => exact step_sessionCount hstep (by simp)

/-- **A command** is answered, or its call begins. -/
theorem LineStep.proceeds (hs : LineStep h i line h' out) (hinv : ValuesInv IsText h.server.core) (hline : line ≠ [])
    (hends : ¬ EndsSession line) : h'.Proceeds i line out := by
  cases hs with
  | skip hnil => exact absurd hnil hline
  | @answer response _ _ _ hreplies hr =>
    obtain ⟨hne, hans⟩ := hreplies.answers
    cases hr with
    | sent => exact Or.inl ⟨response, hans, by simp [talkOf, Output.talk], by simp [Host.setHandler, setConn_self]⟩
    | silent => exact absurd rfl hne
  | crash _ hreq => exact absurd (Or.inl hreq) hends
  | @call cmd _ _ _ _ _ hreq hstep hturn =>
    have hquit : cmd ≠ .quit := fun hq => hends (Or.inr (hq ▸ hreq))
    have hlines : Call.Lines { cmd := cmd, txnId := (h.server.sessions i).txn.txnId } := ⟨hquit, isLine_nil, isLine_nil⟩
    refine hturn.proceeds (by simp [MultiLine, hreq]) (step_onTrack hinv hstep rfl hlines ?_)
    rintro ⟨key, hk⟩ -
    exact Or.inr ⟨key, by rw [← hk]⟩

/-- What the command is to the other sessions. -/
theorem LineStep.of_ne (hj : j ≠ i) (hs : LineStep h i line h' out) : h'.conns j = h.conns j ∧ talkOf j out = [] := by
  cases hs with
  | skip | crash => exact ⟨rfl, rfl⟩
  | answer _ _ hr => exact ⟨setConn_of_ne hj .., hr.talkOf_of_ne hj⟩
  | call _ _ _ hturn => exact ⟨called_of_ne hj .., hturn.talkOf_of_ne hj⟩

/-- The values stay texts. -/
theorem hostStep_values {input : Input} (hs : hostStep h input = some (h', out))
    (hinv : ValuesInv IsText h.server.core) : ValuesInv IsText h'.server.core := by
  have hinner : ∀ {a : Action} {s : State} {evs : List Event}, a.inner = true → Kvdb.step h.server a = some (s, evs) →
      ValuesInv IsText s.core := fun ha hr => step_values hinv hr (by rintro j k v rfl; cases ha)
  cases hostStep_move hs with
  | accept s evs hr => exact step_values hinv hr (by simp)
  | receive | endOfStream | quit => exact hinv
  | nextLine j line rest _ _ _ hline => exact hline.values hinv
  | left j s evs _ _ hr => exact step_values hinv hr (by simp)
  | worker a s evs ha _ hr | call j a call s evs ha _ _ hr => exact hinner ha hr

/-- A step of the host as the session `i` sees it. -/
inductive ConnStep (i : SessionId) (h : Host) : Input → Host → List Output → Prop
  /-- A step of another session or of the flush worker, or more bytes for `inbuf_`. -/
  | other {input : Input} {h' : Host} {out : List Output} :
      (h'.server.sessionCount ≤ i ↔ h.server.sessionCount ≤ i) → talkOf i out = [] →
      (∃ inbuf, h'.conns i = { h.conns i with inbuf := inbuf }) →
      (h'.server = h.server ∧ eventsOf out = [] ∨
        ∃ a, a.session ≠ some i ∧ step h.server a = some (h'.server, eventsOf out)) → ConnStep i h input h' out
  | greeted : h.server.sessionCount = i →
      ConnStep i h .accept { h with server := { h.server with sessionCount := i + 1 } } [.sent i (getGreeting i)]
  /-- The stream has ended, or the connection is closed. -/
  | leaves {input : Input} {h' : Host} (handler : Handler) :
      h'.server.sessionCount = h.server.sessionCount → h'.conns i = { h.conns i with handler := handler } →
      i < h.server.sessionCount ∧ (h.conns i).handler = .reading ∧ handler = .closing ∨
        (h.conns i).handler = .closing ∧ handler = .returned → ConnStep i h input h' []
  | line {h' : Host} {out : List Output} (line rest : Bytes) : i < h.server.sessionCount →
      (h.conns i).handler = .reading → takeLine (h.conns i).inbuf = some (line, rest) →
      LineStep (h.setConn i { h.conns i with inbuf := rest }) i line h' out →
      ConnStep i h (.nextLine i) h' (.received i line :: out)
  | call {handler : Handler} {out : List Output} (a : Action) (call : Call) (s : State) (evs : List Event) :
      a.inner = true → a.session = some i → (h.conns i).handler = .calling call → step h.server a = some (s, evs) →
      CallTurn h i call s evs handler out →
      ConnStep i h (.server a) (h.called i s evs handler) (evs.map .event ++ out)

theorem step_connect {s s' : State} {evs : List Event} (hs : step s .connect = some (s', evs)) :
    s' = { s with sessionCount := s.sessionCount + 1 } ∧ evs = [] := by
  simp only [step, Option.ite_none_right_eq_some, Option.some.injEq, Prod.mk.injEq] at hs
  exact ⟨hs.2.1.symm, hs.2.2.symm⟩

theorem step_disconnect {s s' : State} {evs : List Event} (hs : step s (.disconnect i) = some (s', evs)) :
    evs = [] := by
  simp only [step, Option.ite_none_right_eq_some, Option.some.injEq, Prod.mk.injEq] at hs
  exact hs.2.2.2.symm

theorem hostStep_conn {input : Input} (hs : hostStep h input = some (h', out)) (i : SessionId) :
    ConnStep i h input h' out := by
  have hother : ∀ {j : SessionId} {c : Connection}, i ≠ j →
      ∃ inbuf, (h.setConn j c).conns i = { h.conns i with inbuf := inbuf } :=
    fun hij => ⟨(h.conns i).inbuf, setConn_of_ne hij ..⟩
  cases hostStep_move hs with
  | accept s evs hr =>
    obtain ⟨rfl, rfl⟩ := step_connect hr
    by_cases hi : h.server.sessionCount = i
    · subst hi
      exact .greeted rfl
    · refine .other ?_ ?_ ⟨_, rfl⟩ (Or.inr ⟨.connect, by simp [Action.session], hr⟩)
      · show h.server.sessionCount + 1 ≤ i ↔ h.server.sessionCount ≤ i
        omega
      · simp [talkOf, Output.talk, hi]
  | receive j bytes _ _ =>
    refine .other Iff.rfl rfl ?_ (Or.inl ⟨rfl, rfl⟩)
    by_cases hij : i = j
    · subst hij
      exact ⟨_, setConn_self ..⟩
    · exact hother hij
  | endOfStream j hj hread =>
    by_cases hij : i = j
    · subst hij
      exact .leaves .closing rfl (setConn_self ..) (Or.inl ⟨hj, hread, rfl⟩)
    · exact .other Iff.rfl rfl (hother hij) (Or.inl ⟨rfl, rfl⟩)
  | nextLine j line rest hj hread htake hline =>
    by_cases hij : i = j
    · subst hij
      exact .line line rest hj hread htake hline
    · obtain ⟨hconn, htalk⟩ := hline.of_ne hij
      refine .other (by rw [hline.sessionCount]; rfl) ?_ ⟨_, hconn.trans (setConn_of_ne hij ..)⟩ ?_
      · exact (List.filter_cons_of_neg (by simp [Output.talk, Ne.symm hij])).trans htalk
      · obtain hidle | ⟨cmd, hstep⟩ := hline.spec.1
        · exact Or.inl hidle
        · exact Or.inr ⟨.command j cmd, by simpa [Action.session] using Ne.symm hij, hstep⟩
  | quit j hclosing _ =>
    by_cases hij : i = j
    · subst hij
      exact .leaves .returned rfl (setConn_self ..) (Or.inr ⟨hclosing, rfl⟩)
    · exact .other Iff.rfl rfl (hother hij) (Or.inl ⟨rfl, rfl⟩)
  | left j s evs hclosing _ hr =>
    have hcount : s.sessionCount = h.server.sessionCount := step_sessionCount hr (by simp)
    obtain rfl := step_disconnect hr
    by_cases hij : i = j
    · subst hij
      exact .leaves .returned hcount (setConn_self ..) (Or.inr ⟨hclosing, rfl⟩)
    · exact .other (by rw [← hcount]; rfl) rfl ⟨_, setConn_of_ne hij ..⟩
        (Or.inr ⟨.disconnect j, by simpa [Action.session] using Ne.symm hij, hr⟩)
  | worker a s evs ha hsess hr =>
    have hcount : s.sessionCount = h.server.sessionCount := step_sessionCount hr (by rintro rfl; cases ha)
    refine .other (by rw [← hcount]) (talkOf_event ..) ⟨_, rfl⟩ (Or.inr ⟨a, by simp [hsess], ?_⟩)
    rw [eventsOf_event]
    exact hr
  | call j a call s evs ha hsess hcall hr hturn =>
    by_cases hij : i = j
    · subst hij
      exact .call a call s evs ha hsess hcall hr hturn
    · have hcount : s.sessionCount = h.server.sessionCount := step_sessionCount hr (by rintro rfl; cases ha)
      refine .other (by rw [← hcount]; rfl) (hturn.talkOf_of_ne hij) ⟨_, called_of_ne hij ..⟩
        (Or.inr ⟨a, by simpa [hsess] using Ne.symm hij, ?_⟩)
      rw [hturn.spec.1]
      exact hr

end Host

/-- The handler is inside a call if and only if the last command has no response yet. -/
def Host.Handles (h : Host) (i : SessionId) (pending : Option Bytes) : Prop :=
  match (h.conns i).handler with
  | .calling call => call.OnTrack (h.server.sessions i).pc ∧ ∃ line, pending = some line ∧ ¬ MultiLine line
  | _ => pending = none

/-- The commands and responses of the session `i` alternate. -/
structure TalkInv (i : SessionId) (h : Host) (out : List Output) : Prop where
  values : ValuesInv IsText h.server.core
  before : h.server.sessionCount ≤ i → talkOf i out = [] ∧ (h.conns i).handler = .reading
  after : i < h.server.sessionCount → ∃ exchanges pending, talkOf i out = dialogue i exchanges pending ∧
    (∀ e ∈ exchanges, Answers e.1 e.2) ∧ h.Handles i pending

section TalkInv

variable {h h' : Host} {i j : SessionId} {line : Bytes} {out out' : List Output} {pending : Option Bytes}

theorem handles_calling {call : Call} (hc : (h.conns i).handler = .calling call) : h.Handles i pending ↔
    call.OnTrack (h.server.sessions i).pc ∧ ∃ line, pending = some line ∧ ¬ MultiLine line := by
  rw [Host.Handles, hc]

theorem handles_of_ne (hc : ∀ call, (h.conns i).handler ≠ .calling call) : h.Handles i pending ↔ pending = none := by
  unfold Host.Handles
  split
  · exact absurd ‹_› (hc _)
  · rfl

/-- A step of another session. -/
theorem Host.Handles.of_step {a : Action} {evs : List Event} (hh : h.Handles i pending)
    (hconn : (h'.conns i).handler = (h.conns i).handler) (hs : step h.server a = some (h'.server, evs))
    (ha : a.session ≠ some i) : h'.Handles i pending := by
  cases hc : (h.conns i).handler with
  | calling call =>
    obtain ⟨hcall, hp⟩ := (handles_calling hc).mp hh
    exact (handles_calling (hconn.trans hc)).mpr ⟨step_onTrack_of_ne hs ha hcall, hp⟩
  | reading | closing | returned =>
    refine (handles_of_ne fun call => ?_).mpr ((handles_of_ne fun call => ?_).mp hh)
    · rw [hconn, hc]; simp
    · rw [hc]; simp

theorem Host.Handles.of_server (hh : h.Handles i pending) (hconn : (h'.conns i).handler = (h.conns i).handler)
    (hs : h'.server = h.server) : h'.Handles i pending := by
  unfold Host.Handles at hh ⊢
  rw [hconn, hs]
  exact hh

/-- The pending command is answered, or stays pending. -/
theorem Host.Proceeds.after {exchanges : List (Bytes × Bytes)} (hs : h.Proceeds i line out)
    (hans : ∀ e ∈ exchanges, Answers e.1 e.2) : ∃ exchanges' pending,
      dialogue i exchanges (some line) ++ talkOf i out = dialogue i exchanges' pending ∧
      (∀ e ∈ exchanges', Answers e.1 e.2) ∧ h.Handles i pending := by
  rcases hs with ⟨response, hresponse, htalk, hread⟩ | ⟨call, hcall, hmulti, htalk, hcalling⟩ <;> rw [htalk]
  · refine ⟨exchanges ++ [(line, response)], none, dialogue_answer .., fun e he => ?_, ?_⟩
    · rcases List.mem_append.mp he with he | he
      · exact hans e he
      · obtain rfl := List.mem_singleton.mp he
        exact hresponse
    · exact (handles_of_ne fun call => by rw [hread]; simp).mpr rfl
  · exact ⟨exchanges, some line, List.append_nil _, hans, (handles_calling hcalling).mpr ⟨hcall, line, rfl, hmulti⟩⟩

namespace TalkInv

/-- Nothing is said to the session or by it, and its handler stays where it is, or outside a call. -/
theorem quiet (hinv : TalkInv i h out) (hval : ValuesInv IsText h'.server.core)
    (hcount : h'.server.sessionCount ≤ i ↔ h.server.sessionCount ≤ i) (htalk : talkOf i out' = [])
    (hbefore : h.server.sessionCount ≤ i → (h'.conns i).handler = (h.conns i).handler)
    (hafter : ∀ pending, h.Handles i pending → h'.Handles i pending) : TalkInv i h' (out ++ out') := by
  refine ⟨hval, fun hi => ?_, fun hi => ?_⟩ <;> rw [talkOf_append, htalk, List.append_nil]
  · obtain ⟨ht, hread⟩ := hinv.before (hcount.mp hi)
    exact ⟨ht, (hbefore (hcount.mp hi)).trans hread⟩
  · have hi' : i < h.server.sessionCount := Nat.lt_of_not_le fun hle => Nat.not_le.mpr hi (hcount.mpr hle)
    obtain ⟨exchanges, pending, ht, hans, hp⟩ := hinv.after hi'
    exact ⟨exchanges, pending, ht, hans, hafter pending hp⟩

/-- The handler is outside a call before and after the step. -/
theorem idle (hinv : TalkInv i h out) (hval : ValuesInv IsText h'.server.core)
    (hcount : h'.server.sessionCount = h.server.sessionCount) (htalk : talkOf i out' = [])
    (hc : ∀ call, (h.conns i).handler ≠ .calling call)
    (hread : h.server.sessionCount ≤ i → (h.conns i).handler ≠ .reading)
    (hc' : ∀ call, (h'.conns i).handler ≠ .calling call) : TalkInv i h' (out ++ out') := by
  refine hinv.quiet hval (by rw [hcount]) htalk (fun hi => absurd (hinv.before hi).2 (hread hi)) fun pending hp => ?_
  exact (handles_of_ne hc').mpr ((handles_of_ne hc).mp hp)

/-- The greeting. -/
theorem greeted (hinv : TalkInv i h out) (hi : h.server.sessionCount = i)
    (hval : ValuesInv IsText { h.server with sessionCount := i + 1 }.core) :
    TalkInv i { h with server := { h.server with sessionCount := i + 1 } } (out ++ [.sent i (getGreeting i)]) := by
  obtain ⟨ht, hread⟩ := hinv.before (Nat.le_of_eq hi)
  refine ⟨hval, fun hle => absurd hle (Nat.not_succ_le_self i), fun _ => ⟨[], none, ?_, by simp, ?_⟩⟩
  · rw [talkOf_append, ht]
    simp [talkOf, Output.talk, dialogue]
  · exact (handles_of_ne fun call => by rw [hread]; simp).mpr rfl

/-- The session's next line. -/
theorem nextLine (hinv : TalkInv i h out) (hval : ValuesInv IsText h'.server.core) (hi : i < h.server.sessionCount)
    (hread : (h.conns i).handler = .reading) {rest : Bytes}
    (hs : LineStep (h.setConn i { h.conns i with inbuf := rest }) i line h' out')
    (hends : line ≠ [] → ¬ EndsSession line) : TalkInv i h' (out ++ .received i line :: out') := by
  have hout : talkOf i (out ++ .received i line :: out') =
      talkOf i out ++ (talkOf i [.received i line] ++ talkOf i out') := by
    rw [← talkOf_append, ← talkOf_append]
    rfl
  refine ⟨hval, fun hle => absurd (hs.sessionCount ▸ hle) (Nat.not_le.mpr hi), fun _ => ?_⟩
  obtain ⟨exchanges, pending, ht, hans, hp⟩ := hinv.after hi
  obtain rfl := (handles_of_ne fun call => by rw [hread]; simp).mp hp
  by_cases hline : line = []
  · cases hs with
    | skip =>
      refine ⟨exchanges, none, ?_, hans, hp.of_server (by rw [setConn_self]) rfl⟩
      rw [hout, ht, hline]
      simp [talkOf, Output.talk]
    | answer hne | crash hne | call hne => exact absurd hline hne
  · have hcmd : talkOf i [.received i line] = [.received i line] := by simp [talkOf, Output.talk, hline]
    rw [hout, hcmd, ht, ← List.append_assoc, dialogue_command]
    exact (hs.proceeds hinv.values hline (hends hline)).after hans

/-- The session's call goes on. -/
theorem call (hinv : TalkInv i h out) {call : Call} (hcall : (h.conns i).handler = .calling call) {a : Action}
    {s : State} {evs : List Event} {handler : Handler} (hs : Kvdb.step h.server a = some (s, evs))
    (ha : a.session = some i) (ht : CallTurn h i call s evs handler out') (hval : ValuesInv IsText s.core) :
    TalkInv i (h.called i s evs handler) (out ++ (evs.map .event ++ out')) := by
  have hi : i < h.server.sessionCount := by
    by_contra hle
    have hread := (hinv.before (Nat.not_lt.mp hle)).2
    rw [hcall] at hread
    cases hread
  obtain ⟨exchanges, pending, htalk, hans, hp⟩ := hinv.after hi
  obtain ⟨htrack, line, rfl, hmulti⟩ := (handles_calling hcall).mp hp
  have htrack' := step_onTrack hinv.values hs ha htrack.1 fun hget hopen => Or.inl (htrack.2 hget hopen)
  have hcount : s.sessionCount = h.server.sessionCount := step_sessionCount hs (by rintro rfl; cases ha)
  refine ⟨hval, fun hle => absurd (hcount ▸ hle) (Nat.not_le.mpr hi), fun _ => ?_⟩
  rw [talkOf_append, htalk]
  exact (ht.proceeds hmulti htrack').after hans

/-- **Commands and responses alternate**, step by step. -/
theorem step (hinv : TalkInv i h out) {input : Input} (hs : hostStep h input = some (h', out'))
    (hends : ∀ line ∈ commandsOf i out', ¬ EndsSession line) : TalkInv i h' (out ++ out') := by
  have hval := hostStep_values hs hinv.values
  cases hostStep_conn hs i with
  | other hcount htalk hconn hserver =>
    obtain ⟨inbuf, hconn⟩ := hconn
    have hhandler : (h'.conns i).handler = (h.conns i).handler := by rw [hconn]
    refine hinv.quiet hval hcount htalk (fun _ => hhandler) fun pending hp => ?_
    rcases hserver with ⟨hserver, -⟩ | ⟨a, ha, hstep⟩
    · exact hp.of_server hhandler hserver
    · exact hp.of_step hhandler hstep ha
  | greeted hi => exact hinv.greeted hi hval
  | leaves handler hcount hconn hleaves =>
    refine hinv.idle hval hcount rfl ?_ ?_ ?_ <;> rcases hleaves with ⟨hi, hread, rfl⟩ | ⟨hclosing, rfl⟩ <;>
      simp [*, Nat.not_le.mpr]
  | line line rest hi hread _ hline =>
    refine hinv.nextLine hval hi hread hline fun hne => hends line ?_
    simp [commandsOf, talkOf, Output.talk, hne, Output.command]
  | call a call s evs ha hsess hcall hr hturn => exact hinv.call hcall hr hsess hturn hval

end TalkInv

end TalkInv

/-- The commands and responses of a session alternate in every run in which it sends neither `QUIT` nor `CRASH`. -/
theorem talkInv_of_run {st : Store} {s₀ : State} {h : Host} {ins : List Input} {out : List Output}
    (h0 : Server.Initial st s₀) (hst : ∀ (k : Key) v, st[k]? = some v → IsText v)
    (hr : Run hostStep (fun _ _ => True) { server := s₀ } ins h out) {i : SessionId}
    (hcmds : ∀ line ∈ commandsOf i out, ¬ EndsSession line) : TalkInv i h out := by
  refine Run.invariant (fun out h => (∀ line ∈ commandsOf i out, ¬ EndsSession line) → TalkInv i h out) ?_ ?_ hr hcmds
  · intro _
    have hparty : Party.Values IsText {} := .empty rfl trivial
    cases h0 <;> exact ⟨⟨hst, fun _ => hparty⟩, fun _ => ⟨rfl, rfl⟩, fun hi => absurd hi (Nat.not_lt_zero i)⟩
  · intro out h input h' out' ih _ hs hcmds
    simp only [commandsOf_append, List.mem_append] at hcmds
    exact (ih fun line hl => hcmds line (Or.inl hl)).step hs fun line hl => hcmds line (Or.inr hl)

/-- **One response line per command.** The server runs from a store of texts, and the session has sent neither `QUIT`
nor `CRASH`. Then each of its commands has been answered by one response before the next one was taken, except the last
one while its call is running; and the lines a client reads are the greeting and these responses, one for each command,
if and only if it has sent neither `\STATS` nor `\LOCKS`. -/
theorem one_line_per_command_iff {st : Store} {s₀ : State} {h : Host} {ins : List Input} {out : List Output}
    (h0 : Server.Initial st s₀) (hst : ∀ (k : Key) v, st[k]? = some v → IsText v)
    (hr : Run hostStep (fun _ _ => True) { server := s₀ } ins h out) {i : SessionId} (hi : i < h.server.sessionCount)
    (hcmds : ∀ line ∈ commandsOf i out, ¬ EndsSession line) :
    ∃ exchanges pending, talkOf i out = dialogue i exchanges pending ∧
      (pending ≠ none ↔ ∃ call, (h.conns i).handler = .calling call) ∧
      (clientLines (wire (sentOf i out)) = getGreeting i :: exchanges.map Prod.snd ↔
        ∀ line ∈ commandsOf i out, ¬ MultiLine line) := by
  obtain ⟨exchanges, pending, ht, hans, hp⟩ := (talkInv_of_run h0 hst hr hcmds).after hi
  have hpending : (pending ≠ none ↔ ∃ call, (h.conns i).handler = .calling call) ∧
      ∀ line ∈ pending.toList, ¬ MultiLine line := by
    by_cases hcall : ∃ call, (h.conns i).handler = .calling call
    · obtain ⟨call, hc⟩ := hcall
      obtain ⟨-, line, rfl, hmulti⟩ := (handles_calling hc).mp hp
      exact ⟨by simp [hc], by simpa using hmulti⟩
    · obtain rfl := (handles_of_ne fun call hc => hcall ⟨call, hc⟩).mp hp
      exact ⟨by simp [hcall], by simp⟩
  refine ⟨exchanges, pending, ht, hpending.1, ?_⟩
  rw [sentOf_dialogue ht, commandsOf_dialogue ht]
  constructor
  · intro hlines line hline hmulti
    rcases List.mem_append.mp hline with hline | hline
    · -- the response has a newline in it, and no line that a client reads has one
      obtain ⟨e, he, rfl⟩ := List.mem_map.mp hline
      rcases hans e he with ⟨-, hmem⟩ | ⟨hno, -⟩
      · have hread : e.2 ∈ clientLines (wire (getGreeting i :: exchanges.map Prod.snd)) := by
          rw [hlines]
          exact List.mem_cons_of_mem _ (List.mem_map_of_mem he)
        exact newline_notMem_readLines (by simp) hread hmem
      · exact hno hmulti
    · exact hpending.2 line hline hmulti
  · intro hno
    refine clientLines_wire fun r hr => ?_
    rcases List.mem_cons.mp hr with rfl | hr
    · exact (isText_greeting i).2
    · obtain ⟨e, he, rfl⟩ := List.mem_map.mp hr
      rcases hans e he with ⟨hmulti, -⟩ | ⟨-, hline⟩
      · exact absurd hmulti (hno e.1 (List.mem_append_left _ (List.mem_map_of_mem he)))
      · exact hline

/-- A client that reads what it has put, with an error before it. -/
theorem one_line_per_command_get : ∃ ins h out,
    Run hostStep (fun _ _ => True) { server := Server.boot {} ∅ } ins h out ∧
    commandsOf 0 out = [ascii "PUT a", ascii "BEGIN", ascii "PUT a 1", ascii "get a;"] ∧
    ∃ exchanges pending, talkOf 0 out = dialogue 0 exchanges pending ∧
      clientLines (wire (sentOf 0 out)) = getGreeting 0 :: exchanges.map Prod.snd := by
  have hrun := exists_run_of_exec hostStep (fun _ _ => True) { server := Server.boot {} ∅ }
    [.accept, .receive 0 (ascii "PUT a\nBEGIN\r\n\nPUT a 1\nget a;\n"), .nextLine 0, .nextLine 0, .server (.thread 0),
      .nextLine 0, .nextLine 0, .nextLine 0, .server (.thread 0)]
    (fun h out => decide (0 < h.server.sessionCount ∧
      commandsOf 0 out = [ascii "PUT a", ascii "BEGIN", ascii "PUT a 1", ascii "get a;"] ∧
      (∀ line ∈ commandsOf 0 out, ¬ EndsSession line) ∧ ∀ line ∈ commandsOf 0 out, ¬ MultiLine line))
    (by decide +kernel)
  obtain ⟨h, out, hr, hp⟩ := hrun
  obtain ⟨hi, hcmds, hends, hmulti⟩ := of_decide_eq_true hp
  obtain ⟨exchanges, pending, ht, -, hlines⟩ := one_line_per_command_iff (.opened {}) (by simp) hr hi hends
  exact ⟨_, h, out, hr, hcmds, exchanges, pending, ht, hlines.mpr hmulti⟩

/-- A client sends `\STATS` and then `COMMIT` outside a transaction: the second line it reads after the greeting is not
the response to `COMMIT`, but the second line of the statistics. -/
theorem stats_shift_responses : ∃ ins h out,
    Run hostStep (fun _ _ => True) { server := Server.boot {} ∅ } ins h out ∧
    (h.conns 0).handler = .reading ∧ commandsOf 0 out = [ascii "\\STATS", ascii "COMMIT"] ∧
    (∀ line ∈ commandsOf 0 out, ¬ EndsSession line) ∧ (sentOf 0 out)[2]? = some (ascii "ERROR: Not in transaction") ∧
    (clientLines (wire (sentOf 0 out)))[2]? = some (ascii "active txn: none") ∧
    (clientLines (wire (sentOf 0 out))).length = 7 := by
  have hrun := exists_run_of_exec hostStep (fun _ _ => True) { server := Server.boot {} ∅ }
    [.accept, .receive 0 (ascii "\\STATS\nCOMMIT\n"), .nextLine 0, .nextLine 0]
    (fun h out => decide ((h.conns 0).handler = .reading ∧ commandsOf 0 out = [ascii "\\STATS", ascii "COMMIT"] ∧
      (∀ line ∈ commandsOf 0 out, ¬ EndsSession line) ∧ (sentOf 0 out)[2]? = some (ascii "ERROR: Not in transaction") ∧
      (clientLines (wire (sentOf 0 out)))[2]? = some (ascii "active txn: none") ∧
      (clientLines (wire (sentOf 0 out))).length = 7)) (by decide +kernel)
  obtain ⟨h, out, hr, hp⟩ := hrun
  exact ⟨_, h, out, hr, of_decide_eq_true hp⟩

end Kvdb
