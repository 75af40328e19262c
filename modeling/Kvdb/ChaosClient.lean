import Kvdb.Dialogue
import Kvdb.Framing
import Kvdb.Parser

/-!
# The client of the chaos suite

`put` and `get` send a line made of the key and the value as they are. The server reads them back unless the value ends
in `;`, which the parser takes for the terminator of the command (`parse_putLine_iff`); with `GET` the same is true of
the key (`parse_getLine_iff`).

For other keys and values, a `GET` later in the transaction answers what has been put. `Place` says where the session is
between the two, and `OwnWriteInv` is kept by every step of the host (`get_answers_put`).
-/

namespace Kvdb

open Machine CommandParser

/-! ## Lines -/

namespace ChaosClient

/-- What `put` passes to `request`. -/
def putLine (key value : Bytes) : Bytes := ascii "PUT " ++ key ++ ascii " " ++ value

/-- What `get` passes to `request`. -/
def getLine (key : Bytes) : Bytes := ascii "GET " ++ key

/-- The bytes of a line. -/
def sendLine (msg : Bytes) : Bytes := msg ++ ascii "\n"

end ChaosClient

open ChaosClient

/-- A command with its arguments, separated by blanks. -/
def words (name : Bytes) (args : List Bytes) : Bytes := spread name (args.map fun arg => ([32], arg))

section Lines

variable {name key value : Bytes} {args : List Bytes}

theorem separated_words (h : ∀ arg ∈ args, IsToken arg) : Separated (args.map fun arg => ([32], arg)) := by
  intro p hp
  obtain ⟨arg, harg, rfl⟩ := List.mem_map.mp hp
  have hblank : Blank [32] ∧ [32] ≠ ([] : Bytes) := by decide
  exact ⟨hblank, h arg harg⟩

/-- The words of a line, followed by blanks and, perhaps, a terminator. -/
theorem parse_words (hname : IsToken name) (hargs : ∀ arg ∈ args, IsToken arg) {trail : Bytes} (htrail : Blank trail)
    (terminated : Bool) (hlast : terminated = false → (args.getLastD name).getLast? ≠ some 59) :
    parse (words name args ++ trail ++ terminator terminated) = { name := name.map toUpper, args := args } := by
  have hsnd : (args.map fun arg => (([32] : Bytes), arg)).map Prod.snd = args := by simp [Function.comp_def]
  have hblank : Blank [] := by decide
  have h := parse_layout terminated hblank hname (separated_words hargs) htrail hblank
    (by rw [lastToken, hsnd]; exact hlast)
  rw [hsnd] at h
  rw [← h, layout, List.nil_append, List.append_nil]
  rfl

theorem putLine_eq (key value : Bytes) : putLine key value = words (ascii "PUT") [key, value] := by
  have hput : ascii "PUT " = ascii "PUT" ++ [32] := by decide
  have hblank : ascii " " = [32] := by decide
  simp only [putLine, hput, hblank, words, List.map_cons, List.map_nil, spread, List.append_assoc]

theorem getLine_eq (key : Bytes) : getLine key = words (ascii "GET") [key] := by
  have hget : ascii "GET " = ascii "GET" ++ [32] := by decide
  simp only [getLine, hget, words, List.map_cons, List.map_nil, spread]

theorem words_concat (name : Bytes) (args : List Bytes) (last : Bytes) :
    words name (args ++ [last]) = words name args ++ [32] ++ last := by
  induction args generalizing name with
  | nil => rfl
  | cons arg args ih =>
    have hcons : ∀ rest, words name (arg :: rest) = name ++ [32] ++ words arg rest := fun _ => rfl
    rw [List.cons_append, hcons, hcons, ih]
    simp only [List.append_assoc]

/-- A line of words is read back unless the last of them ends in `;`. -/
theorem parse_words_iff {last : Bytes} (hname : IsToken name) (hargs : ∀ arg ∈ args, IsToken arg)
    (hlast : IsToken last) :
    parse (words name (args ++ [last])) = { name := name.map toUpper, args := args ++ [last] } ↔
      last.getLast? ≠ some 59 := by
  have hall : ∀ {text}, IsToken text → ∀ arg ∈ args ++ [text], IsToken arg := by
    intro text htext arg harg
    rcases List.mem_append.mp harg with harg | harg
    · exact hargs arg harg
    · rwa [List.mem_singleton.mp harg]
  constructor
  · intro hparse hsemi
    obtain ⟨text, rfl⟩ := List.getLast?_eq_some_iff.mp hsemi
    -- what is left of the last word is an argument, or nothing
    by_cases htext : text = []
    · subst htext
      have h := parse_words hname hargs (by decide : Blank [32]) true (by simp)
      rw [words_concat, List.nil_append] at hparse
      rw [show terminator true = [59] from rfl, hparse] at h
      exact absurd (congrArg (fun c => c.args.length) h) (by simp)
    · have htoken : IsToken text := ⟨htext, fun b hb => hlast.2 b (List.mem_append_left _ hb)⟩
      have h := parse_words hname (hall htoken) (by decide : Blank []) true (by simp)
      rw [words_concat, ← List.append_assoc] at hparse
      rw [show terminator true = [59] from rfl, words_concat, List.append_nil, hparse] at h
      exact absurd (congrArg (fun c => c.args.flatten.length) h) (by simp)
  · intro hsemi
    have h := parse_words hname (hall hlast) (by decide : Blank []) false (by simpa using hsemi)
    rwa [List.append_nil, show terminator false = [] from rfl, List.append_nil] at h

/-- **What the server makes of a `PUT`**: a `;` at the end of the value is lost. -/
theorem parse_putLine_iff (hkey : IsToken key) (hvalue : IsToken value) :
    parse (putLine key value) = { name := ascii "PUT", args := [key, value] } ↔ value.getLast? ≠ some 59 := by
  have hname : IsToken (ascii "PUT") ∧ (ascii "PUT").map toUpper = ascii "PUT" := by decide
  have h := parse_words_iff hname.1 (fun arg (harg : arg ∈ [key]) => List.mem_singleton.mp harg ▸ hkey) hvalue
  rw [hname.2] at h
  rw [putLine_eq]
  exact h

theorem parse_getLine_iff (hkey : IsToken key) :
    parse (getLine key) = { name := ascii "GET", args := [key] } ↔ key.getLast? ≠ some 59 := by
  have hname : IsToken (ascii "GET") ∧ (ascii "GET").map toUpper = ascii "GET" := by decide
  have h := parse_words_iff hname.1 (fun arg (harg : arg ∈ []) => by cases harg) hkey
  rw [hname.2] at h
  rw [getLine_eq]
  exact h

theorem request_putLine (hkey : IsToken key) (hvalue : IsToken value) (hsemi : value.getLast? ≠ some 59) :
    (parse (putLine key value)).request = .call (.put key value) := by
  have hname : ascii "PUT" ≠ [] ∧ ascii "PUT" ≠ ascii "BEGIN" := by decide
  rw [(parse_putLine_iff hkey hvalue).mpr hsemi, Command.request, if_neg hname.1, if_neg hname.2, if_pos rfl]

theorem request_getLine (hkey : IsToken key) (hsemi : key.getLast? ≠ some 59) :
    (parse (getLine key)).request = .call (.get key) := by
  have hname : ascii "GET" ≠ [] ∧ ascii "GET" ≠ ascii "BEGIN" ∧ ascii "GET" ≠ ascii "PUT" := by decide
  rw [(parse_getLine_iff hkey).mpr hsemi, Command.request, if_neg hname.1, if_neg hname.2.1, if_neg hname.2.2,
    if_pos rfl]

/-- A line arrives as it was sent, wherever it is cut. -/
theorem newline_notMem_putLine (hkey : IsToken key) (hvalue : IsToken value) : 10 ∉ putLine key value := by
  have hput : 10 ∉ ascii "PUT " ∧ 10 ∉ ascii " " := by decide
  have hnewline : isSpace 10 ≠ false := by decide
  simp only [putLine, List.mem_append, not_or]
  exact ⟨⟨⟨hput.1, fun h => hnewline (hkey.2 10 h)⟩, hput.2⟩, fun h => hnewline (hvalue.2 10 h)⟩

theorem getLast?_putLine (hvalue : IsToken value) : (putLine key value).getLast? ≠ some 13 := by
  have hreturn : isSpace 13 ≠ false := by decide
  intro h
  rw [putLine, List.getLast?_append_of_ne_nil _ hvalue.1] at h
  exact hreturn (hvalue.2 13 (List.mem_of_getLast? h))

theorem commandLines_sendLine {line : Bytes} (hline : 10 ∉ line) (hlast : line.getLast? ≠ some 13) {chunks : List Bytes}
    (hsent : chunks.flatten = sendLine line) (hchunks : ∀ c ∈ chunks, 1 ≤ c.length ∧ c.length ≤ 1024) :
    commandLines 1 [] chunks = [some line] := by
  have hnewline : ascii "\n" = 10 :: [] := by decide
  have hframe : commandLines 1 [] chunks = _ :=
    commandLines_eq (fun c hc => List.length_pos_iff.mp (hchunks c hc).1) 1
  rw [hframe, List.nil_append, hsent, sendLine, hnewline, streamLines_cons hline, dropCR, if_neg hlast]
  rfl

end Lines

/-! ## From a `PUT` to a `GET` -/

/-- The command leaves the transaction and its write of the value alone. -/
def Request.Keeps (key : Key) (value : Value) : Request → Prop
  | .call (.put k v) => k = key → v = value
  | .call (.delete k) => k ≠ key
  | .call .commit | .call .abort | .call .quit | .crash => False
  | _ => True

/-- Every `GET` of the key has been answered by the value. -/
def AnsweredBy (i : SessionId) (key : Key) (value : Value) (talk : List Output) : Prop :=
  ∀ before response after, talk = before ++ .received i (getLine key) :: .sent i response :: after → response = value

/-- What the handler knows of its call while the thread is inside it. -/
def InCall (key : Key) (value : Value) (call : Call) : Pc → Prop
  | .waitLock op k _ => call.cmd = op.command k ∧ call.result = []
  | .reading k => call.cmd = .get k ∧ call.result = []
  | .releasing k => call.cmd = .get k ∧ (k = key → call.result = [] ∧ call.value = value)
  | .checkpoint .check => call.cmd = .checkpoint
  | _ => False

/-- The thread aborts after a lock that it did not get. -/
def Pc.deadlocked : Pc → Bool
  | .logAbort .deadlock | .abortRelease .deadlock | .abortReset .deadlock => true
  | _ => false

/-- The session is in a transaction, and the value is pending at the key. -/
structure Pends (key : Key) (value : Value) (txn : TransactionInfo) : Prop where
  active : txn.state = .active
  pending : txn.pendingBuffer[key]? = some (value, false)

/-- Where a session is that puts the value first. -/
inductive Place (i : SessionId) (key : Key) (value : Value) (handler : Handler) (σ : Session)
    (talk : List Output) : Prop
  | before : talk = [] → handler = .reading → σ.pc = .idle → σ.txn.state = .active → Place i key value handler σ talk
  | between : talk.filterMap Output.command ≠ [] → handler = .reading → σ.pc = .idle → Pends key value σ.txn →
      Place i key value handler σ talk
  | calling (line : Bytes) (call : Call) : talk.getLast? = some (.received i line) → handler = .calling call →
      (parse line).request = .call call.cmd → (Request.call call.cmd).Keeps key value → σ.txn.state = .active →
      Pends key value σ.txn ∨ call.cmd = .put key value → InCall key value call σ.pc → Place i key value handler σ talk
  | aborting (call : Call) : handler = .calling call → σ.pc.deadlocked = true → Place i key value handler σ talk
  | ended : handler = .closing ∨ handler = .returned → Place i key value handler σ talk

structure OwnWriteInv (i : SessionId) (key : Key) (value : Value) (h : Host) (out : List Output) : Prop where
  connected : i < h.server.sessionCount
  answered : AnsweredBy i key value (talkOf i out)
  place : Place i key value (h.conns i).handler (h.server.sessions i) (talkOf i out)

section AnsweredBy

variable {i : SessionId} {key : Key} {value : Value} {talk : List Output}

theorem AnsweredBy.nil : AnsweredBy i key value [] := fun before response after heq => by simp at heq

theorem AnsweredBy.concat (h : AnsweredBy i key value talk) {o : Output}
    (ho : ∀ response, o = .sent i response → talk.getLast? = some (.received i (getLine key)) → response = value) :
    AnsweredBy i key value (talk ++ [o]) := by
  intro before response after heq
  rcases List.eq_nil_or_concat after with rfl | ⟨after, last, rfl⟩
  · have heq : talk ++ [o] = (before ++ [.received i (getLine key)]) ++ [.sent i response] := by simpa using heq
    obtain ⟨rfl, hlast⟩ := List.append_inj' heq rfl
    exact ho response (List.singleton_inj.mp hlast) List.getLast?_concat
  · have heq : talk ++ [o] = (before ++ .received i (getLine key) :: .sent i response :: after) ++ [last] := by
      simpa using heq
    exact h before response after (List.append_inj' heq rfl).1

end AnsweredBy

/-! ## The steps of the session -/

section Steps

variable {i : SessionId} {key : Key} {value : Value} {h h' : Host} {σ : Session} {talk : List Output}
  {out out' : List Output} {line : Bytes} {call : Call} {s : State} {evs : List Event}

/-- The value is pending after a call that keeps it, or puts it. -/
theorem Pends.locked {txn : TransactionInfo} {op : LockOp} {k : Key} (hact : txn.state = .active)
    (hkeeps : (Request.call (op.command k)).Keeps key value)
    (h : Pends key value txn ∨ op.command k = .put key value) : Pends key value (txn.withLock op k) := by
  cases op with
  | get => exact ⟨hact, (h.resolve_right (by simp [LockOp.command])).pending⟩
  | put v =>
    refine ⟨hact, ?_⟩
    rw [TransactionInfo.withLock, FinMap.find_insert]
    by_cases hk : k = key
    · rw [if_pos hk, hkeeps hk]
    · rw [if_neg hk]
      exact (h.resolve_right (by simp [LockOp.command, hk])).pending
  | delete =>
    refine ⟨hact, ?_⟩
    rw [TransactionInfo.withLock, FinMap.find_insert, if_neg hkeeps]
    exact (h.resolve_right (by simp [LockOp.command])).pending

/-- Where the call is after a step: at its end, inside, or on the way to the error. -/
inductive Goes (key : Key) (value : Value) (line : Bytes) (call : Call) (σ : Session) : Prop
  | ended : σ.pc = .idle → Pends key value σ.txn →
      (line = getLine key → ∀ ok txnId, { call with ok := ok }.response txnId = value) → Goes key value line call σ
  | inside : σ.txn.state = .active → Pends key value σ.txn ∨ call.cmd = .put key value → InCall key value call σ.pc →
      Goes key value line call σ
  | aborting : σ.pc.deadlocked = true → Goes key value line call σ

/-- A step of a call. -/
theorem OwnWriteInv.called {handler : Handler} (hturn : CallTurn h i call s evs handler out')
    (hcount : i < s.sessionCount) (hans : AnsweredBy i key value talk)
    (hlast : talk.getLast? = some (.received i line)) (hreq : (parse line).request = .call call.cmd)
    (hkeeps : (Request.call call.cmd).Keeps key value)
    (hgoes : Goes key value line (evs.foldl Call.note call) (s.sessions i))
    (hout : talkOf i out = talk ++ talkOf i out') :
    OwnWriteInv i key value (h.called i s evs handler) out := by
  suffices hinv : AnsweredBy i key value (talkOf i out) ∧ Place i key value handler (s.sessions i) (talkOf i out) by
    refine ⟨hcount, hinv.1, ?_⟩
    rw [called_self]
    exact hinv.2
  cases hturn with
  | ended hpc hr =>
    obtain ⟨ok, hnoted⟩ := noted_eq h i call s evs
    rw [hnoted] at hr
    cases hgoes with
    | ended hidle hpends hresponse =>
      have hvalue := fun hline => hresponse hline ok (s.sessions i).txn.txnId
      generalize Call.response _ (s.sessions i).txn.txnId = response at hr hvalue
      cases hr with
      | sent =>
        rw [hout, show talkOf i [.sent i response] = [.sent i response] by simp [talkOf, Output.talk]]
        refine ⟨hans.concat fun r hr hline => ?_, .between ?_ rfl hidle hpends⟩
        · cases hr
          obtain rfl : line = getLine key := by simpa using hlast.symm.trans hline
          exact hvalue rfl
        · obtain ⟨talk, rfl⟩ := List.getLast?_eq_some_iff.mp hlast
          simp [List.filterMap_append, Output.command]
      | silent => exact ⟨by rw [hout]; simpa [talkOf] using hans, .ended (Or.inl rfl)⟩
    | inside _ _ hincall => rcases hpc with hpc | hpc <;> rw [hpc] at hincall <;> exact hincall.elim
    | aborting hdead => rcases hpc with hpc | hpc <;> rw [hpc] at hdead <;> cases hdead
  | inside hidle _ =>
    rw [show talkOf i out = talk from hout.trans (List.append_nil _)]
    refine ⟨hans, ?_⟩
    cases hgoes with
    | ended hpc => exact absurd hpc hidle
    | inside hact hpends hincall =>
      rw [← Call.foldl_note_cmd evs call] at hreq hkeeps
      exact .calling line _ hlast rfl hreq hkeeps hact hpends hincall
    | aborting hdead => exact .aborting _ rfl hdead

/-- A `put`, `delete_key` or `get` has its lock. -/
theorem goes_locked {txn : TransactionInfo} {t : TxnId} {op : LockOp} {k : Key} (hact : txn.state = .active)
    (hcmd : call.cmd = op.command k) (hresult : call.result = []) (hreq : (parse line).request = .call call.cmd)
    (hget : (parse (getLine key)).request = .call (.get key)) (hkeeps : (Request.call call.cmd).Keeps key value)
    (hpends : Pends key value txn ∨ call.cmd = .put key value) :
    Goes key value line ((lockedEvents i t op k).foldl Call.note call) ⟨txn.withLock op k, op.resume k⟩ := by
  rw [hcmd] at hkeeps hpends
  have hlocked := Pends.locked hact hkeeps hpends
  cases op with
  | get => exact .inside hact (Or.inl hlocked) ⟨hcmd, hresult⟩
  | put v | delete =>
    refine .ended rfl hlocked ?_
    rintro rfl
    rw [hget, hcmd] at hreq
    cases hreq

theorem CommandMove.goes {s' : State} {cmd : Command} {t : TxnId} (hmove : CommandMove s i cmd s' evs)
    (hpc : (s.sessions i).pc = .idle) (hact : (s.sessions i).txn.state = .active)
    (hreq : (parse line).request = .call cmd) (hget : (parse (getLine key)).request = .call (.get key))
    (hkeeps : (Request.call cmd).Keeps key value)
    (hpends : Pends key value (s.sessions i).txn ∨ cmd = .put key value) :
    Goes key value line (evs.foldl Call.note { cmd := cmd, txnId := t }) (s'.sessions i) := by
  have hline : (∀ k, cmd ≠ .get k) → line ≠ getLine key := by
    rintro hne rfl
    rw [hget] at hreq
    exact hne key (Request.call.inj hreq).symm
  cases hmove with
  | alreadyInTransaction level hcmd _ =>
    subst hcmd
    exact .ended hpc (hpends.resolve_right (by simp)) fun h => absurd h (hline (by simp))
  | notInTransaction _ hn | begin _ _ hn => exact absurd hact hn
  | granted op k locks hcmd _ hacq =>
    rw [sessions_setTxn]
    exact goes_locked hact hcmd rfl hreq hget hkeeps hpends
  | queued op k locks flags hcmd _ hacq =>
    refine .inside ?_ ?_ ?_
    · rw [txn_setPc]; exact hact
    · rw [txn_setPc]; exact hpends
    · rw [pc_setPc]; exact ⟨hcmd, rfl⟩
  | checkpoint hcmd =>
    refine .inside ?_ ?_ ?_
    · rw [txn_setPc]; exact hact
    · rw [txn_setPc]; exact hpends
    · rw [pc_setPc]; exact hcmd
  | commit hcmd _ | abort hcmd _ | quitActive hcmd _ | quit hcmd _ =>
    subst hcmd
    exact hkeeps.elim

/-- A `get` is over: the value of the key is its response. -/
theorem goes_read {k : Key} (hpc : σ.pc = .idle) (hpends : Pends key value σ.txn) (hcmd : call.cmd = .get k)
    (hvalue : k = key → call.result = [] ∧ call.value = value) (hreq : (parse line).request = .call call.cmd)
    (hget : (parse (getLine key)).request = .call (.get key)) : Goes key value line call σ := by
  refine .ended hpc hpends ?_
  rintro rfl ok t
  rw [hget, hcmd] at hreq
  cases hreq
  obtain ⟨hresult, hval⟩ := hvalue rfl
  simp only [Call.response, hcmd, hresult, hval, if_true]

theorem ThreadMove.goes {s' : State} (hmove : ThreadMove s i (s.sessions i).pc s' evs) (hcount : i < s.sessionCount)
    (hact : (s.sessions i).txn.state = .active) (hincall : InCall key value call (s.sessions i).pc)
    (hreq : (parse line).request = .call call.cmd) (hget : (parse (getLine key)).request = .call (.get key))
    (hkeeps : (Request.call call.cmd).Keeps key value)
    (hpends : Pends key value (s.sessions i).txn ∨ call.cmd = .put key value) :
    Goes key value line (evs.foldl Call.note call) (s'.sessions i) := by
  generalize hpc : (s.sessions i).pc = pc at hmove hincall
  cases hmove with
  | waitGranted op k flags locks _ =>
    rw [sessions_setTxn]
    exact goes_locked hact hincall.1 hincall.2 hreq hget hkeeps hpends
  | waitFailed op k flags locks _ => exact .aborting (by rw [pc_setPc]; rfl)
  | read k =>
    obtain ⟨hcmd, hresult⟩ := hincall
    have hpends : Pends key value (s.sessions i).txn := hpends.resolve_right (by simp [hcmd])
    have hvalue : k = key → (call.note (.done i (s.sessions i).txn.txnId
        (.get k (readKey (s.sessions i).txn.pendingBuffer s.store k)))).result = [] ∧
        (call.note (.done i (s.sessions i).txn.txnId
          (.get k (readKey (s.sessions i).txn.pendingBuffer s.store k)))).value = value := by
      rintro rfl
      rw [readKey, hpends.pending]
      exact ⟨hresult, rfl⟩
    by_cases hlevel : (s.sessions i).txn.isolationLevel = .readCommitted
    · refine .inside ?_ ?_ ?_ <;> simp only [txn_setPc, pc_setPc, if_pos hlevel]
      · exact hact
      · exact Or.inl hpends
      · exact ⟨(call.note_cmd _).trans hcmd, hvalue⟩
    · refine goes_read ?_ ?_ ((call.note_cmd _).trans hcmd) hvalue ((call.note_cmd _).symm ▸ hreq) hget
      · rw [pc_setPc, if_neg hlevel]
      · rw [txn_setPc]
        exact hpends
  | release k =>
    obtain ⟨hcmd, hvalue⟩ := hincall
    have hpends : Pends key value (s.sessions i).txn := hpends.resolve_right (by simp [hcmd])
    rw [sessions_setTxn]
    exact goes_read rfl ⟨hpends.active, hpends.pending⟩ hcmd hvalue hreq hget
  | checkpoint cp hstep =>
    -- the checkpoint is refused, as the session itself is active
    cases cp <;> first | exact hincall.elim | skip
    have hcmd : call.cmd = .checkpoint := hincall
    have hactive : hasActiveTransactions s = true :=
      List.any_eq_true.mpr ⟨i, List.mem_range.mpr hcount, decide_eq_true hact⟩
    simp only [checkpointStep, hactive, if_true, Option.some.injEq] at hstep
    subst hstep
    refine .ended (pc_setPc ..) ?_ ?_
    · rw [txn_setPc]
      exact hpends.resolve_right (by simp [hcmd])
    · rintro rfl
      rw [hget, hcmd] at hreq
      cases hreq
  | _ => exact hincall.elim

end Steps

/-! ## Runs -/

section Runs

variable {i j : SessionId} {key : Key} {value : Value} {h h' : Host} {σ : Session} {talk : List Output}
  {out out' : List Output}

/-- A session that is not blocked in `waitForCommit` does not notice a notification. -/
theorem Place.notified {handler : Handler} (hp : Place i key value handler σ talk) :
    Place i key value handler σ.notified talk := by
  by_cases hblocked : ∃ lsn, σ.pc = .blocked lsn
  · obtain ⟨lsn, hlsn⟩ := hblocked
    cases hp with
    | ended hh => exact .ended hh
    | before _ _ hpc | between _ _ hpc => rw [hlsn] at hpc; cases hpc
    | calling _ _ _ _ _ _ _ _ hincall => rw [hlsn] at hincall; exact hincall.elim
    | aborting _ _ hpc => rw [hlsn] at hpc; cases hpc
  · have hsame : σ.notified = σ := by
      unfold Session.notified
      split
      · exact absurd ⟨_, ‹_›⟩ hblocked
      · rfl
    rw [hsame]
    exact hp

/-- A step that the session does not take part in. -/
theorem OwnWriteInv.other (hinv : OwnWriteInv i key value h out)
    (hcount : i < h'.server.sessionCount) (htalk : talkOf i out' = [])
    (hhandler : (h'.conns i).handler = (h.conns i).handler)
    (hsession : h'.server.sessions i = h.server.sessions i ∨
      h'.server.sessions i = (h.server.sessions i).notified) : OwnWriteInv i key value h' (out ++ out') := by
  refine ⟨hcount, ?_, ?_⟩ <;> rw [talkOf_append, htalk, List.append_nil]
  · exact hinv.answered
  · rw [hhandler]
    rcases hsession with hσ | hσ <;> rw [hσ]
    · exact hinv.place
    · exact hinv.place.notified

/-- The connection ends. -/
theorem OwnWriteInv.ended (hinv : OwnWriteInv i key value h out)
    (hcount : i < h'.server.sessionCount) (htalk : talkOf i out' = [])
    (hhandler : (h'.conns i).handler = .closing ∨ (h'.conns i).handler = .returned) :
    OwnWriteInv i key value h' (out ++ out') := by
  refine ⟨hcount, ?_, .ended hhandler⟩
  rw [talkOf_append, htalk, List.append_nil]
  exact hinv.answered

/-- The commands of the session so far: the `PUT`, and then commands that keep its write. -/
def PutsFirst (i : SessionId) (key : Key) (value : Value) (out : List Output) : Prop :=
  commandsOf i out = [] ∨
    ∃ lines, commandsOf i out = putLine key value :: lines ∧ ∀ line ∈ lines, (parse line).request.Keeps key value

theorem PutsFirst.of_append (h : PutsFirst i key value (out ++ out')) : PutsFirst i key value out := by
  rw [PutsFirst, commandsOf_append] at h
  rcases h with h | ⟨lines, h, hkeeps⟩
  · exact Or.inl (List.append_eq_nil_iff.mp h).1
  · rcases hc : commandsOf i out with _ | ⟨line, rest⟩
    · exact Or.inl hc
    · rw [hc, List.cons_append, List.cons.injEq] at h
      obtain ⟨rfl, rfl⟩ := h
      exact Or.inr ⟨rest, hc, fun line hline => hkeeps line (List.mem_append_left _ hline)⟩

theorem talkOf_received {line : Bytes} (hline : line ≠ []) (out out' : List Output) :
    talkOf i (out ++ .received i line :: out') = talkOf i out ++ [.received i line] ++ talkOf i out' := by
  have hcmd : talkOf i [.received i line] = [.received i line] := by simp [talkOf, Output.talk, hline]
  rw [← hcmd, ← talkOf_append, ← talkOf_append, List.append_assoc]
  rfl

/-- The next line is the `PUT`, or keeps its write. -/
theorem PutsFirst.next {line : Bytes} (hscript : PutsFirst i key value (out ++ .received i line :: out'))
    (hline : line ≠ []) : commandsOf i out = [] ∧ line = putLine key value ∨
      commandsOf i out ≠ [] ∧ (parse line).request.Keeps key value := by
  have hcmds : commandsOf i (out ++ .received i line :: out') = commandsOf i out ++ line :: commandsOf i out' := by
    rw [commandsOf, talkOf_received hline, List.filterMap_append, List.filterMap_append, List.append_assoc]
    rfl
  rw [PutsFirst, hcmds] at hscript
  rcases hscript with hnil | ⟨lines, hlines, hkeeps⟩
  · exact absurd hnil (by simp)
  · cases hc : commandsOf i out with
    | nil =>
      rw [hc, List.nil_append, List.cons.injEq] at hlines
      exact Or.inl ⟨rfl, hlines.1⟩
    | cons first rest =>
      rw [hc, List.cons_append, List.cons.injEq] at hlines
      exact Or.inr ⟨by simp, hkeeps line (hlines.2 ▸ List.mem_append_right _ List.mem_cons_self)⟩

/-- A session that reads is in its transaction, and has put the value or will do so now. -/
theorem OwnWriteInv.reading (hinv : OwnWriteInv i key value h out) (hread : (h.conns i).handler = .reading)
    {line : Bytes} (hscript : PutsFirst i key value (out ++ .received i line :: out')) (hline : line ≠ [])
    (hput : (parse (putLine key value)).request = .call (.put key value)) :
    (h.server.sessions i).pc = .idle ∧ (h.server.sessions i).txn.state = .active ∧
      (parse line).request.Keeps key value ∧
      (Pends key value (h.server.sessions i).txn ∨ (parse line).request = .call (.put key value)) := by
  cases hinv.place with
  | before htalk _ hpc hact =>
    have hnone : commandsOf i out = [] := by rw [commandsOf, htalk]; rfl
    obtain ⟨-, rfl⟩ := (hscript.next hline).resolve_right fun h => h.1 hnone
    rw [hput]
    exact ⟨hpc, hact, fun _ => rfl, Or.inr rfl⟩
  | between hcmds _ hpc hpends =>
    obtain ⟨-, hkeeps⟩ := (hscript.next hline).resolve_left fun h => hcmds h.1
    exact ⟨hpc, hpends.active, hkeeps, Or.inl hpends⟩
  | calling _ _ _ hcalling | aborting _ hcalling => rw [hread] at hcalling; cases hcalling
  | ended hended => rw [hread] at hended; rcases hended with h | h <;> cases h

theorem OwnWriteInv.nextLine (hinv : OwnWriteInv i key value h out) (hread : (h.conns i).handler = .reading)
    {line rest : Bytes} (hs : LineStep (h.setConn i { h.conns i with inbuf := rest }) i line h' out')
    (hscript : PutsFirst i key value (out ++ .received i line :: out'))
    (hput : (parse (putLine key value)).request = .call (.put key value))
    (hget : (parse (getLine key)).request = .call (.get key)) :
    OwnWriteInv i key value h' (out ++ .received i line :: out') := by
  have hans : AnsweredBy i key value (talkOf i out ++ [.received i line]) :=
    hinv.answered.concat fun response h => by cases h
  cases hs with
  | skip hline =>
    refine hinv.other hinv.connected ?_ (by rw [setConn_self]) (Or.inl rfl)
    simp [talkOf, Output.talk, hline]
  | @answer response _ out' hline hreplies hr =>
    obtain ⟨hpc, hact, hkeeps, hpends⟩ := hinv.reading hread hscript hline hput
    have hcall := hreplies.not_call.1
    have hout := talkOf_received hline out out' (i := i)
    cases hr with
    | sent =>
      rw [show talkOf i [.sent i response] = [.sent i response] by simp [talkOf, Output.talk]] at hout
      refine ⟨hinv.connected, ?_, ?_⟩ <;> rw [hout]
      · refine hans.concat fun r _ hlast => ?_
        rw [List.getLast?_concat] at hlast
        obtain rfl : line = getLine key := by simpa using hlast
        exact absurd hget (hcall _)
      · rw [Host.setHandler, setConn_self]
        refine .between ?_ rfl hpc (hpends.resolve_right (hcall _))
        simp [List.filterMap_append, Output.command]
    | silent => exact absurd rfl hreplies.answers.1
  | crash hline hreq =>
    obtain ⟨-, -, hkeeps, -⟩ := hinv.reading hread hscript hline hput
    rw [hreq] at hkeeps
    exact hkeeps.elim
  | @call cmd s evs _ out' hline hreq hstep hturn =>
    obtain ⟨hpc, hact, hkeeps, hpends⟩ := hinv.reading hread hscript hline hput
    rw [hreq] at hkeeps hpends
    have hmove : CommandMove h.server i cmd s evs := by
      cases (step_move hstep).2 with
      | command j cmd' ha _ _ hmove => cases ha; exact hmove
      | connect ha | copyStore _ _ _ _ ha | threadFault _ _ _ ha | disconnect _ ha | thread _ ha => cases ha
      | worker fault ha => cases fault <;> cases ha
    have hgoes := hmove.goes hpc hact hreq hget hkeeps (hpends.imp_right Request.call.inj)
      (t := (h.server.sessions i).txn.txnId)
    have hcount : s.sessionCount = h.server.sessionCount := step_sessionCount hstep (by simp)
    refine OwnWriteInv.called hturn (hcount ▸ hinv.connected) hans List.getLast?_concat hreq hkeeps hgoes ?_
    rw [talkOf_received hline, talkOf_event_append]

/-- The session's call goes on. -/
theorem OwnWriteInv.thread (hinv : OwnWriteInv i key value h out) {call : Call}
    (hcalling : (h.conns i).handler = .calling call) {a : Action} (ha : a.inner = true) (hsess : a.session = some i)
    {s : State} {evs : List Event} {handler : Handler} (hs : Kvdb.step h.server a = some (s, evs))
    (hturn : CallTurn h i call s evs handler out') (hget : (parse (getLine key)).request = .call (.get key)) :
    .failed i .deadlock ∈ evs ∨
      OwnWriteInv i key value (h.called i s evs handler) (out ++ (evs.map .event ++ out')) := by
  have htalk : talkOf i (out ++ (evs.map .event ++ out')) = talkOf i out ++ talkOf i out' := by
    rw [talkOf_append, talkOf_event_append]
  have hcount : s.sessionCount = h.server.sessionCount := step_sessionCount hs (by rintro rfl; cases ha)
  have hconnected : i < s.sessionCount := hcount.symm ▸ hinv.connected
  have hmove : ThreadMove h.server i (h.server.sessions i).pc s evs ∨
      ∃ cp, (h.server.sessions i).pc = .checkpoint cp ∧ cp ≠ .check := by
    cases (step_move hs).2 with
    | thread j hj hmove => subst hj; cases hsess; exact Or.inl hmove
    | copyStore j entries lsn file hj hpc => subst hj; cases hsess; exact Or.inr ⟨_, hpc, by simp⟩
    | threadFault j n cp hj hpc hf =>
      subst hj
      cases hsess
      refine Or.inr ⟨cp, hpc, ?_⟩
      rintro rfl
      cases hf
    | connect hj | command _ _ hj | disconnect _ hj => subst hj; cases ha
    | worker fault hj => subst hj; cases fault <;> cases hsess
  cases hinv.place with
  | before _ hread | between _ hread => rw [hcalling] at hread; cases hread
  | ended hended => rw [hcalling] at hended; rcases hended with h | h <;> cases h
  | calling line call' hlast hcalling' hreq hkeeps hact hpends hincall =>
    obtain rfl : call = call' := by simpa using hcalling.symm.trans hcalling'
    rcases hmove with hmove | ⟨cp, hpc, hcp⟩
    · have hgoes := hmove.goes hinv.connected hact hincall hreq hget hkeeps hpends
      exact Or.inr (OwnWriteInv.called hturn hconnected hinv.answered hlast hreq hkeeps hgoes htalk)
    · rw [hpc] at hincall
      cases cp <;> first | exact hincall.elim | exact absurd rfl hcp
  | aborting call' _ hpc =>
    rcases hmove with hmove | ⟨cp, hcp, -⟩
    · generalize hpc' : (h.server.sessions i).pc = pc at hmove hpc
      -- the next step of the abort, or its end
      have hgoes : .failed i .deadlock ∈ evs ∨ (s.sessions i).pc.deadlocked = true := by
        cases hmove with
        | logAbort cause =>
          cases cause <;> cases hpc
          rw [sessions_setTxn]
          exact Or.inr rfl
        | abortRelease cause =>
          cases cause <;> cases hpc
          rw [pc_setPc]
          exact Or.inr rfl
        | abortReset cause =>
          cases cause <;> cases hpc
          exact Or.inl List.mem_cons_self
        | _ => cases hpc
      refine hgoes.imp_right fun hdead => ?_
      cases hturn with
      | ended hpc => rcases hpc with hpc | hpc <;> rw [hpc] at hdead <;> cases hdead
      | inside =>
        refine ⟨hconnected, ?_, ?_⟩ <;> rw [htalk, show talkOf i [] = [] from rfl, List.append_nil]
        · exact hinv.answered
        · rw [called_self]
          exact .aborting _ rfl hdead
    · rw [hcp] at hpc
      cases hpc

/-- **Step lemma.** -/
theorem OwnWriteInv.step (hinv : OwnWriteInv i key value h out) {input : Input}
    (hs : hostStep h input = some (h', out')) (hscript : PutsFirst i key value (out ++ out'))
    (hput : (parse (putLine key value)).request = .call (.put key value))
    (hget : (parse (getLine key)).request = .call (.get key)) :
    .failed i .deadlock ∈ eventsOf out' ∨ OwnWriteInv i key value h' (out ++ out') := by
  cases hostStep_conn hs i with
  | other hcount htalk hconn hserver =>
    obtain ⟨inbuf, hconn⟩ := hconn
    have hcount : i < h'.server.sessionCount := Nat.not_le.mp fun hle => Nat.not_le.mpr hinv.connected (hcount.mp hle)
    refine Or.inr (hinv.other hcount htalk (by rw [hconn]) ?_)
    rcases hserver with ⟨hserver, -⟩ | ⟨a, ha, hstep⟩
    · exact Or.inl (by rw [hserver])
    · exact step_sessions_of_ne hstep ha
  | greeted hi => exact absurd hinv.connected (hi ▸ Nat.lt_irrefl _)
  | leaves handler hcount hconn hleaves =>
    refine Or.inr (hinv.ended (hcount ▸ hinv.connected) rfl ?_)
    rw [hconn]
    exact hleaves.elim (fun h => Or.inl h.2.2) fun h => Or.inr h.2
  | line line rest _ hread _ hline => exact Or.inr (hinv.nextLine hread hline hscript hput hget)
  | call a call s evs ha hsess hcall hr hturn =>
    rw [hturn.spec.1]
    exact hinv.thread hcall ha hsess hr hturn hget

end Runs

/-- **A `GET` answers what has been put.** From a state in which the session is in a transaction and reads its next
line: if its first command is the `PUT` and the others leave its write alone, every `GET` of the key is answered by the
value, unless the transaction is aborted. -/
theorem get_answers_put {i : SessionId} {key value : Bytes} (hkey : IsToken key) (hkeysemi : key.getLast? ≠ some 59)
    (hvalue : IsToken value) (hsemi : value.getLast? ≠ some 59) {P : Host → Input → Prop} {h₀ h : Host}
    {ins : List Input} {out : List Output} (hcount : i < h₀.server.sessionCount)
    (hread : (h₀.conns i).handler = .reading) (hpc : (h₀.server.sessions i).pc = .idle)
    (hact : (h₀.server.sessions i).txn.state = .active) (hr : Run hostStep P h₀ ins h out)
    (hscript : PutsFirst i key value out) (hfailed : .failed i .deadlock ∉ eventsOf out) :
    AnsweredBy i key value (talkOf i out) := by
  have hput := request_putLine hkey hvalue hsemi
  have hget := request_getLine hkey hkeysemi
  have hinv : OwnWriteInv i key value h out := by
    induction hr with
    | nil => exact ⟨hcount, AnsweredBy.nil, .before rfl hread hpc hact⟩
    | snoc _ _ hs ih =>
      rw [eventsOf, List.filterMap_append, List.mem_append, not_or] at hfailed
      exact ((ih hscript.of_append hfailed.1).step hs hscript hput hget).resolve_left hfailed.2
  exact hinv.answered

/-- **What is put is read.** The line of a `put` is framed as it was sent, in whatever pieces it arrives. It is parsed
as `PUT` with the key and the value exactly if the value does not end in `;`. If neither the key nor the value does,
every `GET` of the key later in the transaction answers the value. -/
theorem put_then_get {key value : Bytes} (hkey : IsToken key) (hvalue : IsToken value) :
    (∀ chunks : List Bytes, chunks.flatten = sendLine (putLine key value) →
      (∀ c ∈ chunks, 1 ≤ c.length ∧ c.length ≤ 1024) → commandLines 1 [] chunks = [some (putLine key value)]) ∧
    (parse (putLine key value) = { name := ascii "PUT", args := [key, value] } ↔ value.getLast? ≠ some 59) ∧
    (value.getLast? ≠ some 59 → key.getLast? ≠ some 59 →
      ∀ (i : SessionId) (P : Host → Input → Prop) (h₀ h : Host) (ins : List Input) (out : List Output),
        i < h₀.server.sessionCount → (h₀.conns i).handler = .reading → (h₀.server.sessions i).pc = .idle →
        (h₀.server.sessions i).txn.state = .active → Run hostStep P h₀ ins h out → PutsFirst i key value out →
        .failed i .deadlock ∉ eventsOf out → AnsweredBy i key value (talkOf i out)) := by
  refine ⟨fun chunks hsent hchunks => ?_, parse_putLine_iff hkey hvalue, fun hsemi hkeysemi => ?_⟩
  · exact commandLines_sendLine (newline_notMem_putLine hkey hvalue) (getLast?_putLine hvalue) hsent hchunks
  · intro i P h₀ h ins out hcount hread hpc hact hr hscript hfailed
    exact get_answers_put hkey hkeysemi hvalue hsemi hcount hread hpc hact hr hscript hfailed

/-- `PUT a 1` and `GET a` in a transaction. -/
theorem put_then_get_one : ∃ h₀ ins h out, Run hostStep (fun _ _ => True) h₀ ins h out ∧
    commandsOf 0 out = [putLine (ascii "a") (ascii "1"), getLine (ascii "a")] ∧ sentOf 0 out = [ascii "OK", ascii "1"] ∧
    AnsweredBy 0 (ascii "a") (ascii "1") (talkOf 0 out) := by
  let lines : List Bytes := [putLine (ascii "a") (ascii "1"), getLine (ascii "a")]
  let ins : List Input := [.receive 0 (lines.flatMap sendLine), .nextLine 0, .nextLine 0, .server (.thread 0)]
  obtain ⟨h₀, _, -, hbegun⟩ := exists_run_of_exec hostStep (fun _ _ => True) { server := Server.boot {} ∅ }
    [.accept, .receive 0 (ascii "BEGIN\n"), .nextLine 0, .server (.thread 0)]
    (fun h₀ _ => decide (0 < h₀.server.sessionCount ∧ (h₀.conns 0).handler = .reading ∧
        (h₀.server.sessions 0).pc = .idle ∧ (h₀.server.sessions 0).txn.state = .active) &&
      (exec hostStep (fun _ _ => True) h₀ ins).any fun r => decide (commandsOf 0 r.2 = lines ∧
        sentOf 0 r.2 = [ascii "OK", ascii "1"] ∧ .failed 0 .deadlock ∉ eventsOf r.2))
    (by decide +kernel)
  rw [Bool.and_eq_true, decide_eq_true_eq] at hbegun
  obtain ⟨⟨hcount, hread, hpc, hact⟩, hexec⟩ := hbegun
  obtain ⟨h, out, hr, hp⟩ := exists_run_of_exec hostStep (fun _ _ => True) h₀ ins
    (fun _ out => decide (commandsOf 0 out = lines ∧ sentOf 0 out = [ascii "OK", ascii "1"] ∧
      .failed 0 .deadlock ∉ eventsOf out)) hexec
  obtain ⟨hlines, hsent, hfailed⟩ := of_decide_eq_true hp
  have htokens : IsToken (ascii "a") ∧ IsToken (ascii "1") := by decide +kernel
  have hsemi : (ascii "1").getLast? ≠ some 59 ∧ (ascii "a").getLast? ≠ some 59 := by decide +kernel
  have hanswered := (put_then_get htokens.1 htokens.2).2.2 hsemi.1 hsemi.2 0 (fun _ _ => True) h₀ h ins out hcount hread
    hpc hact hr (Or.inr ⟨_, hlines, fun line hline => by
      rw [List.mem_singleton.mp hline, request_getLine htokens.1 hsemi.2]; trivial⟩) hfailed
  exact ⟨h₀, ins, h, out, hr, hlines, hsent, hanswered⟩

/-- The value `1;` is put, the server answers `OK`, and the `GET` answers `1`. -/
theorem put_loses_semicolon : IsToken (ascii "a") ∧ IsToken (ascii "1;") ∧
    ∃ ins h out, Run hostStep (fun _ _ => True) { server := Server.boot {} ∅ } ins h out ∧
      commandsOf 0 out = [ascii "BEGIN", putLine (ascii "a") (ascii "1;"), getLine (ascii "a")] ∧
      (parse (putLine (ascii "a") (ascii "1;"))).args = [ascii "a", ascii "1"] ∧
      sentOf 0 out = [getGreeting 0, ascii "txn 1 started.", ascii "OK", ascii "1"] := by
  refine ⟨by decide +kernel, by decide +kernel, ?_⟩
  have hrun := exists_run_of_exec hostStep (fun _ _ => True) { server := Server.boot {} ∅ }
    [.accept, .receive 0 (ascii "BEGIN\n"), .nextLine 0, .server (.thread 0),
      .receive 0 (sendLine (putLine (ascii "a") (ascii "1;"))), .nextLine 0,
      .receive 0 (sendLine (getLine (ascii "a"))), .nextLine 0, .server (.thread 0)]
    (fun h out => decide (commandsOf 0 out = [ascii "BEGIN", putLine (ascii "a") (ascii "1;"), getLine (ascii "a")] ∧
      (parse (putLine (ascii "a") (ascii "1;"))).args = [ascii "a", ascii "1"] ∧
      sentOf 0 out = [getGreeting 0, ascii "txn 1 started.", ascii "OK", ascii "1"]))
    (by decide +kernel)
  obtain ⟨h, out, hr, hp⟩ := hrun
  exact ⟨_, h, out, hr, of_decide_eq_true hp⟩

end Kvdb
