import Kvdb.Dialogue

/-!
# The empty response

`run` takes an empty response for the end of the session. `GET` answers with a value, so this is right only if no value
is empty, and no other response either.

- Every value that is put is a token, so no value in the store or in a buffer is empty (`hostStep_values`).
- A session that has sent `QUIT` says nothing any more (`QuitInv`); before that, its commands and responses alternate
  (`TalkInv`).

So a command without a response is `QUIT`, unless it is still being handled or has ended the server
(`empty_response_iff_quit`).
-/

namespace Kvdb

open Machine CommandParser

/-- **`QUIT`** is a command of its own. -/
theorem request_eq_quit_iff (cmd : CommandParser.Command) : cmd.request = .call .quit ↔ cmd.name = ascii "QUIT" := by
  have hnames : ascii "QUIT" ≠ [] ∧ ascii "QUIT" ≠ ascii "BEGIN" ∧ ascii "QUIT" ≠ ascii "PUT" ∧
      ascii "QUIT" ≠ ascii "GET" ∧ ascii "QUIT" ≠ ascii "DELETE" ∧ ascii "QUIT" ≠ ascii "COMMIT" ∧
      ascii "QUIT" ≠ ascii "ABORT" ∧ ascii "QUIT" ≠ ascii "\\STATS" ∧ ascii "QUIT" ≠ ascii "\\LOCKS" ∧
      ascii "QUIT" ≠ ascii "CRASH" := by decide +kernel
  obtain ⟨h₁, h₂, h₃, h₄, h₅, h₆, h₇, h₈, h₉, h₁₀⟩ := hnames
  constructor
  · intro hreq
    by_contra hquit
    have hne : Request.call .quit ≠ cmd.request := by
      rw [Command.request, if_neg hquit]
      refine iteInduction (fun _ => ?_) fun _ => iteInduction (fun _ => ?begin) fun _ => iteInduction (fun _ => ?put)
        fun _ => iteInduction (fun _ => ?get) fun _ => iteInduction (fun _ => ?delete) fun _ => iteInduction
        (fun _ => ?_) fun _ => iteInduction (fun _ => ?_) fun _ => iteInduction (fun _ => ?_) fun _ => iteInduction
        (fun _ => ?_) fun _ => iteInduction (fun _ => ?_) fun _ => iteInduction (fun _ => ?_) fun _ => ?_
      case begin => cases cmd.args <;> exact fun h => by cases h
      case put => rcases cmd.args with _ | ⟨_, _ | _⟩ <;> exact fun h => by cases h
      case get => cases cmd.args <;> exact fun h => by cases h
      case delete => cases cmd.args <;> exact fun h => by cases h
      all_goals exact fun h => by cases h
    exact hne hreq.symm
  · intro hname
    rw [Command.request, hname, if_neg h₁, if_neg h₂, if_neg h₃, if_neg h₄, if_neg h₅, if_neg h₆, if_neg h₇, if_neg h₈,
      if_neg h₉, if_neg h₁₀, if_pos rfl]

/-! ## Values and responses -/

section Steps

variable {h h' : Host} {input : Input} {i : SessionId} {line : Bytes} {out out' : List Output}

theorem Responds.sent_ne_nil {response r : Bytes} {handler : Handler} {j : SessionId}
    (hr : Responds i response handler out) (hmem : .sent j r ∈ out) : r ≠ [] := by
  cases hr with
  | sent hne =>
    obtain ⟨-, rfl⟩ : j = i ∧ r = response := by simpa using hmem
    exact hne
  | silent => cases hmem

theorem CallTurn.sent_ne_nil {call : Call} {s : State} {evs : List Event} {handler : Handler} {r : Bytes}
    {j : SessionId} (ht : CallTurn h i call s evs handler out) (hmem : .sent j r ∈ evs.map .event ++ out) :
    r ≠ [] := by
  have hmem := (List.mem_append.mp hmem).resolve_left (by simp)
  cases ht with
  | ended _ hr => exact hr.sent_ne_nil hmem
  | inside => cases hmem

/-- An empty response is not sent. -/
theorem sent_ne_nil (hs : hostStep h input = some (h', out)) {j : SessionId} {r : Bytes} (hmem : .sent j r ∈ out) :
    r ≠ [] := by
  cases hostStep_move hs with
  | accept s evs _ =>
    rcases List.mem_append.mp hmem with hmem | hmem
    · simp at hmem
    · obtain ⟨-, rfl⟩ : j = h.server.sessionCount ∧ r = getGreeting h.server.sessionCount := by simpa using hmem
      exact (isText_greeting _).1
  | receive | endOfStream | quit => cases hmem
  | nextLine i line rest _ _ _ hline =>
    have hmem := (List.mem_cons.mp hmem).resolve_left (by simp)
    cases hline with
    | skip | crash => cases hmem
    | answer _ _ hr => exact hr.sent_ne_nil hmem
    | call _ _ _ hturn => exact hturn.sent_ne_nil hmem
  | left | worker => simp at hmem
  | call i a call s evs _ _ _ _ hturn => exact hturn.sent_ne_nil hmem

end Steps

/-! ## Sessions that end -/

/-- The handler is in the call of `QUIT` or behind it. -/
def Handler.Quitting : Handler → Prop
  | .calling call => call.cmd = .quit
  | .closing | .returned => True
  | .reading => False

/-- The session has sent `QUIT` or `CRASH`: there is no response to it. -/
structure QuitInv (i : SessionId) (h : Host) (out : List Output) : Prop where
  connected : i < h.server.sessionCount
  said : ∃ exchanges line, talkOf i out = dialogue i exchanges (some line) ∧
    (∀ e ∈ exchanges, ¬ EndsSession e.1) ∧
    ((parse line).request = .call .quit ∧ (h.conns i).handler.Quitting ∨
      (parse line).request = .crash ∧ (h.conns i).handler = .reading ∧ h.crashed = true)

section QuitInv

variable {h h' : Host} {input : Input} {i : SessionId} {line : Bytes} {out out' : List Output}

theorem CallTurn.quit {call : Call} {s : State} {evs : List Event} {handler : Handler} (hquit : call.cmd = .quit)
    (ht : CallTurn h i call s evs handler out) : handler.Quitting ∧ talkOf i (evs.map .event ++ out) = [] := by
  rw [talkOf_event_append]
  cases ht with
  | ended _ hr =>
    obtain ⟨ok, hnoted⟩ := noted_eq h i call s evs
    have hcmd : (h.noted i call s evs).cmd = .quit := by rw [hnoted, ← hquit, ← Call.foldl_note_cmd evs call]
    rw [((h.noted i call s evs).response_eq_nil_iff _).mpr (Or.inl hcmd)] at hr
    cases hr with
    | sent hne => exact absurd rfl hne
    | silent => exact ⟨trivial, rfl⟩
  | inside => exact ⟨(Call.foldl_note_cmd evs call).trans hquit, rfl⟩

/-- Nothing is said any more. -/
theorem QuitInv.step (hinv : QuitInv i h out) (hs : hostStep h input = some (h', out')) :
    QuitInv i h' (out ++ out') := by
  obtain ⟨hconnected, exchanges, line, htalk, hends, hquit⟩ := hinv
  obtain ⟨hreq, hquitting⟩ := hquit.resolve_right fun h => by
    have hcrashed := hostStep_crashed hs
    rw [h.2.2] at hcrashed
    cases hcrashed
  have hsame : i < h'.server.sessionCount → talkOf i out' = [] → (h'.conns i).handler.Quitting →
      QuitInv i h' (out ++ out') := by
    intro hcount hout hquitting'
    refine ⟨hcount, exchanges, line, ?_, hends, Or.inl ⟨hreq, hquitting'⟩⟩
    rw [talkOf_append, htalk, hout, List.append_nil]
  cases hostStep_conn hs i with
  | other hcount hout hconn _ =>
    obtain ⟨inbuf, hconn⟩ := hconn
    refine hsame (Nat.not_le.mp fun hle => Nat.not_le.mpr hconnected (hcount.mp hle)) hout ?_
    rw [hconn]
    exact hquitting
  | greeted hi => exact absurd hconnected (hi ▸ Nat.lt_irrefl _)
  | leaves handler hcount hconn hleaves =>
    refine hsame (hcount ▸ hconnected) rfl ?_
    rw [hconn]
    rcases hleaves with ⟨-, -, rfl⟩ | ⟨-, rfl⟩ <;> trivial
  | line line rest _ hread _ _ =>
    rw [hread] at hquitting
    exact hquitting.elim
  | call a call s evs ha hsess hcall hr hturn =>
    rw [hcall] at hquitting
    have hcount : s.sessionCount = h.server.sessionCount := step_sessionCount hr (by rintro rfl; cases ha)
    obtain ⟨hquitting', hout⟩ := hturn.quit hquitting
    refine hsame (hcount ▸ hconnected) hout ?_
    rw [called_self]
    exact hquitting'

/-- The line `QUIT` or `CRASH`. -/
theorem QuitInv.of_line (hinv : TalkInv i h out) (hcmds : ∀ line ∈ commandsOf i out, ¬ EndsSession line)
    (hi : i < h.server.sessionCount) (hread : (h.conns i).handler = .reading) {rest : Bytes}
    (hs : LineStep (h.setConn i { h.conns i with inbuf := rest }) i line h' out') (hline : line ≠ [])
    (hends : EndsSession line) : QuitInv i h' (out ++ .received i line :: out') := by
  obtain ⟨exchanges, pending, htalk, -, hhandles⟩ := hinv.after hi
  obtain rfl := (handles_of_ne fun call => by rw [hread]; simp).mp hhandles
  rw [commandsOf_dialogue htalk] at hcmds
  have hexchanges : ∀ e ∈ exchanges, ¬ EndsSession e.1 := fun e he =>
    hcmds e.1 (List.mem_append_left _ (List.mem_map_of_mem he))
  have hcmd : talkOf i (.received i line :: out') = .received i line :: talkOf i out' :=
    List.filter_cons_of_pos (by simp [Output.talk, hline])
  have hout : talkOf i out' = [] → talkOf i (out ++ .received i line :: out') = dialogue i exchanges (some line) := by
    intro hnil
    rw [talkOf_append, htalk, hcmd, hnil, dialogue_command]
  refine ⟨hs.sessionCount ▸ hi, exchanges, line, ?_⟩
  cases hs with
  | skip hnil => exact absurd hnil hline
  | answer _ hreplies => exact hends.elim (absurd · hreplies.not_call.2) (absurd · (hreplies.not_call.1 _))
  | crash _ hreq =>
    refine ⟨hout rfl, hexchanges, Or.inr ⟨hreq, ?_, rfl⟩⟩
    exact (congrArg Connection.handler (setConn_self ..)).trans hread
  | call _ hreq _ hturn =>
    have hquit : (parse line).request = .call .quit := hends.resolve_left (by simp [hreq])
    obtain ⟨hquitting, htalk'⟩ := hturn.quit (Request.call.inj (hreq.symm.trans hquit))
    refine ⟨hout htalk', hexchanges, Or.inl ⟨hquit, ?_⟩⟩
    rw [called_self]
    exact hquitting

theorem Responds.commandsOf {response : Bytes} {handler : Handler} {j : SessionId}
    (hr : Responds j response handler out) (i : SessionId) : commandsOf i out = [] := by
  cases hr with
  | sent =>
    rw [Kvdb.commandsOf, talkOf, List.filter_singleton]
    cases Output.talk i (.sent j response) <;> rfl
  | silent => rfl

theorem CallTurn.commandsOf {call : Call} {s : State} {evs : List Event} {handler : Handler} {j : SessionId}
    (ht : CallTurn h j call s evs handler out) (i : SessionId) : commandsOf i (evs.map .event ++ out) = [] := by
  rw [Kvdb.commandsOf, talkOf_event_append]
  cases ht with
  | ended _ hr => exact hr.commandsOf i
  | inside => rfl

/-- A line is taken in before it is handled. -/
theorem LineStep.commandsOf {j : SessionId} (hs : LineStep h j line h' out) (i : SessionId) :
    commandsOf i out = [] := by
  cases hs with
  | skip | crash => rfl
  | answer _ _ hr => exact hr.commandsOf i
  | call _ _ _ hturn => exact hturn.commandsOf i

/-- The session talks, or it has ended the talk. -/
def TalksOrQuits (i : SessionId) (h : Host) (out : List Output) : Prop :=
  (TalkInv i h out ∧ ∀ line ∈ commandsOf i out, ¬ EndsSession line) ∨ QuitInv i h out

theorem TalksOrQuits.step (hinv : TalksOrQuits i h out) (hs : hostStep h input = some (h', out')) :
    TalksOrQuits i h' (out ++ out') := by
  rcases hinv with ⟨hinv, hcmds⟩ | hinv
  · have htalks : (∀ line ∈ commandsOf i out', ¬ EndsSession line) → TalksOrQuits i h' (out ++ out') := by
      intro hnew
      refine Or.inl ⟨hinv.step hs hnew, fun line hline => ?_⟩
      rw [commandsOf_append] at hline
      exact (List.mem_append.mp hline).elim (hcmds line) (hnew line)
    have hquiet : commandsOf i out' = [] → TalksOrQuits i h' (out ++ out') := by
      intro hnil
      exact htalks fun line hline => by rw [hnil] at hline; cases hline
    cases hostStep_conn hs i with
    | other _ hout =>
      refine hquiet ?_
      rw [commandsOf, hout]
      rfl
    | leaves | greeted => exact hquiet (by simp [commandsOf, talkOf, Output.talk, Output.command])
    | call a call s evs _ _ _ _ hturn => exact hquiet (hturn.commandsOf i)
    | @line _ out' line rest hi hread _ hline =>
      have hnew : commandsOf i (.received i line :: out') = if line = [] then [] else [line] := by
        rw [commandsOf, talkOf, List.filter_cons]
        have hnil : (List.filter (Output.talk i) out').filterMap Output.command = [] := hline.commandsOf i
        by_cases hempty : line = []
        · simpa [Output.talk, hempty] using hnil
        · simpa [Output.talk, hempty, Output.command] using hnil
      by_cases hends : line ≠ [] ∧ EndsSession line
      · exact Or.inr (QuitInv.of_line hinv hcmds hi hread hline hends.1 hends.2)
      · refine htalks fun line' hmem => ?_
        rw [hnew] at hmem
        split at hmem
        · cases hmem
        · rw [List.mem_singleton.mp hmem]
          exact fun h => hends ⟨‹_›, h⟩
  · exact Or.inr (hinv.step hs)

end QuitInv

/-! ## Runs -/

/-- A command of the session that has no response: it is being handled, it has ended the server, or `handleCommand` has
returned the empty response and `run` leaves its loop. -/
def Host.Unanswered (h : Host) (i : SessionId) (line : Bytes) : Prop :=
  match (h.conns i).handler with
  | .calling call => call.cmd = .quit ↔ (parse line).name = ascii "QUIT"
  | .reading => (parse line).request = .crash ∧ h.crashed = true
  | .closing | .returned => (parse line).name = ascii "QUIT"

theorem TalksOrQuits.unanswered {i : SessionId} {h : Host} {out : List Output} (hinv : TalksOrQuits i h out)
    (hi : i < h.server.sessionCount) : ∃ exchanges pending, talkOf i out = dialogue i exchanges pending ∧
      (∀ e ∈ exchanges, (parse e.1).name ≠ ascii "QUIT") ∧ ∀ line, pending = some line → h.Unanswered i line := by
  have hname : ∀ {line}, ¬ EndsSession line → (parse line).name ≠ ascii "QUIT" := fun hends hquit =>
    hends (Or.inr ((request_eq_quit_iff _).mpr hquit))
  rcases hinv with ⟨hinv, hcmds⟩ | ⟨-, exchanges, line, htalk, hends, hquit⟩
  · obtain ⟨exchanges, pending, htalk, -, hhandles⟩ := hinv.after hi
    rw [commandsOf_dialogue htalk] at hcmds
    refine ⟨exchanges, pending, htalk, fun e he => ?_, fun line hline => ?_⟩
    · exact hname (hcmds e.1 (List.mem_append_left _ (List.mem_map_of_mem he)))
    · subst hline
      have hends := hcmds line (List.mem_append_right _ (List.mem_singleton_self _))
      unfold Host.Handles at hhandles
      unfold Host.Unanswered
      split at hhandles
      · rename_i call hcall
        rw [hcall]
        exact iff_of_false hhandles.1.1.notQuit (hname hends)
      · cases hhandles
  · refine ⟨exchanges, some line, htalk, fun e he => hname (hends e he), fun line' hline => ?_⟩
    obtain rfl := Option.some.inj hline
    unfold Host.Unanswered
    rcases hquit with ⟨hreq, hquitting⟩ | ⟨hreq, hread, hcrashed⟩
    · have hquit := (request_eq_quit_iff _).mp hreq
      cases hc : (h.conns i).handler <;> rw [hc] at hquitting
      case reading => exact hquitting.elim
      case calling => exact iff_of_true hquitting hquit
      all_goals exact hquit
    · rw [hread]
      exact ⟨hreq, hcrashed⟩

/-- **The empty response means `QUIT`.** In every run from an empty store no value in the store is empty, and no value
in a pending buffer. The commands of a session and the responses to them alternate; the responses are not empty and none
of these commands is `QUIT`; and a last command without a response is `QUIT` if it has been handled. -/
theorem empty_response_iff_quit {s₀ : State} {h : Host} {ins : List Input} {out : List Output}
    (h0 : Server.Initial ∅ s₀) (hr : Run hostStep (fun _ _ => True) { server := s₀ } ins h out) :
    (∀ (k : Key) v, h.server.store[k]? = some v → v ≠ []) ∧
    (∀ i (k : Key) v, (h.server.sessions i).txn.pendingBuffer[k]? = some (v, false) → v ≠ []) ∧
    ∀ i < h.server.sessionCount, ∃ exchanges pending, talkOf i out = dialogue i exchanges pending ∧
      (∀ e ∈ exchanges, e.2 ≠ [] ∧ (parse e.1).name ≠ ascii "QUIT") ∧
      ∀ line, pending = some line → h.Unanswered i line := by
  have hst : ∀ (k : Key) v, (∅ : Store)[k]? = some v → IsText v := fun k v hk => by simp at hk
  have hinv : ValuesInv IsText h.server.core ∧ (∀ j r, .sent j r ∈ out → r ≠ []) ∧ ∀ i, TalksOrQuits i h out := by
    refine Run.invariant (fun out h => ValuesInv IsText h.server.core ∧ (∀ j r, .sent j r ∈ out → r ≠ []) ∧
      ∀ i, TalksOrQuits i h out) ?_ ?_ hr
    · have htalk : ∀ i, TalkInv i { server := s₀ } [] := fun i =>
        talkInv_of_run h0 hst .nil (by simp [commandsOf, talkOf])
      exact ⟨(htalk 0).values, by simp, fun i => Or.inl ⟨htalk i, by simp [commandsOf, talkOf]⟩⟩
    · intro out h input h' out' hinv _ hs
      refine ⟨hostStep_values hs hinv.1, fun j r hmem => ?_, fun i => (hinv.2.2 i).step hs⟩
      exact (List.mem_append.mp hmem).elim (hinv.2.1 j r) (sent_ne_nil hs)
  obtain ⟨hvalues, hsent, htalks⟩ := hinv
  refine ⟨fun k v hk => (hvalues.store k v hk).1, fun i k v hk => ((hvalues.parties i).buffer k v hk).1, fun i hi => ?_⟩
  obtain ⟨exchanges, pending, htalk, hnames, hpending⟩ := (htalks i).unanswered hi
  refine ⟨exchanges, pending, htalk, fun e he => ⟨?_, hnames e he⟩, hpending⟩
  have hmem : e.2 ∈ sentOf i out := by
    rw [sentOf_dialogue htalk]
    exact List.mem_cons_of_mem _ (List.mem_map_of_mem he)
  obtain ⟨o, ho, hresponse⟩ := List.mem_filterMap.mp hmem
  cases o with
  | sent j r =>
    obtain rfl := Option.some.inj hresponse
    exact hsent j _ (List.mem_of_mem_filter ho)
  | event | received => cases hresponse

/-- A client reads what it has put, and quits. -/
theorem empty_response_iff_quit_get : ∃ ins h out,
    Run hostStep (fun _ _ => True) { server := Server.boot {} ∅ } ins h out ∧ (h.conns 0).handler = .closing ∧
    commandsOf 0 out = [ascii "BEGIN", ascii "PUT a 1", ascii "GET a", ascii "quit;"] ∧
    ∃ exchanges pending, talkOf 0 out = dialogue 0 exchanges pending ∧
      (∀ e ∈ exchanges, e.2 ≠ [] ∧ (parse e.1).name ≠ ascii "QUIT") ∧
      ∀ line, pending = some line → h.Unanswered 0 line := by
  have hrun := exists_run_of_exec hostStep (fun _ _ => True) { server := Server.boot {} ∅ }
    [.accept, .receive 0 (ascii "BEGIN\nPUT a 1\nGET a\nquit;\n"), .nextLine 0, .server (.thread 0), .nextLine 0,
      .nextLine 0, .server (.thread 0), .nextLine 0, .server (.thread 0), .server (.thread 0), .server (.thread 0)]
    (fun h out => decide (0 < h.server.sessionCount ∧ (h.conns 0).handler = .closing ∧
      commandsOf 0 out = [ascii "BEGIN", ascii "PUT a 1", ascii "GET a", ascii "quit;"]))
    (by decide +kernel)
  obtain ⟨h, out, hr, hp⟩ := hrun
  obtain ⟨hi, hclosing, hcmds⟩ := of_decide_eq_true hp
  exact ⟨_, h, out, hr, hclosing, hcmds, (empty_response_iff_quit (.opened {}) hr).2.2 0 hi⟩

end Kvdb
