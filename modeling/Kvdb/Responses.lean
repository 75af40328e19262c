import Kvdb.Connection
import Kvdb.DirtyReads

/-!
# The texts of responses

What a client reads is cut into lines, so it matters which responses are lines, and which are empty.

- `readLines`: `Client::readLine` of the chaos suite. A text without newlines and carriage returns is read as one line
  (`clientLines_wire`).
- Values, and the names of unknown commands, are tokens of a line, so they are lines and not empty (`request_isText`).
  What holds of every value that is put holds of every value in the store and the pending buffers (`CoreStep.values`).
- A `get` ends with an error or with a value (`step_reads`), so that the response to a call other than `QUIT` is not
  empty, and it is a line (`Call.OnTrack.response`).
-/

namespace Kvdb

open Std

/-! ## Lines -/

/-- Neither a newline nor a carriage return is in the text. -/
def IsLine (text : Bytes) : Prop := 10 ∉ text ∧ 13 ∉ text

instance (text : Bytes) : Decidable (IsLine text) := inferInstanceAs (Decidable (_ ∧ _))

theorem isLine_nil : IsLine [] := by decide

theorem IsLine.append {a b : Bytes} (ha : IsLine a) (hb : IsLine b) : IsLine (a ++ b) :=
  ⟨fun h => (List.mem_append.mp h).elim ha.1 hb.1, fun h => (List.mem_append.mp h).elim ha.2 hb.2⟩

/-- `Client::readLine`, called again and again until the stream ends; `out` is what it has read of the next line. -/
def readLines (out : Bytes) : Bytes → List Bytes
  | [] => []
  | c :: rest =>
    if c = 10 then out :: readLines [] rest
    else if c ≠ 13 then readLines (out ++ [c]) rest
    else readLines out rest

/-- The lines a client reads. -/
def clientLines (bytes : Bytes) : List Bytes := readLines [] bytes

theorem readLines_append {r : Bytes} (h : IsLine r) (out rest : Bytes) :
    readLines out (r ++ 10 :: rest) = (out ++ r) :: readLines [] rest := by
  induction r generalizing out with
  | nil => simp [readLines]
  | cons c r ih =>
    obtain ⟨h10, h13⟩ := h
    rw [List.mem_cons, not_or] at h10 h13
    rw [List.cons_append, readLines, if_neg (Ne.symm h10.1), if_pos (Ne.symm h13.1), ih ⟨h10.2, h13.2⟩,
      List.append_assoc, List.singleton_append]

/-- No line the client reads has a newline in it. -/
theorem newline_notMem_readLines {line : Bytes} : ∀ {bytes out : Bytes}, 10 ∉ out → line ∈ readLines out bytes →
    10 ∉ line
  | [], _, _, h => by cases h
  | c :: bytes, out, hout, h => by
    rw [readLines] at h
    split at h
    · rcases List.mem_cons.mp h with rfl | h
      · exact hout
      · exact newline_notMem_readLines (by simp) h
    · split at h
      · refine newline_notMem_readLines (fun hmem => ?_) h
        rcases List.mem_append.mp hmem with hmem | hmem
        · exact hout hmem
        · exact ‹¬ c = 10› (List.mem_singleton.mp hmem).symm
      · exact newline_notMem_readLines hout h

/-- What `writeLine` sends for the responses. -/
def wire (responses : List Bytes) : Bytes := responses.flatMap (· ++ [10])

/-- **The client reads the responses**, one as one line, if each of them is a line. -/
theorem clientLines_wire : ∀ {responses : List Bytes}, (∀ r ∈ responses, IsLine r) →
    clientLines (wire responses) = responses
  | [], _ => rfl
  | r :: responses, h => by
    have hr := readLines_append (h r List.mem_cons_self) [] (wire responses)
    have ih := clientLines_wire fun r hr => h r (List.mem_cons_of_mem _ hr)
    rw [clientLines, wire, List.flatMap_cons, List.append_assoc, List.singleton_append, ← wire, hr, ← clientLines, ih,
      List.nil_append]

/-! ## Texts -/

theorem ascii_append (a b : String) : ascii (a ++ b) = ascii a ++ ascii b := by
  simp [ascii, String.toList_append]

theorem isLine_ascii_nat (n : Nat) : IsLine (ascii (toString n)) := by
  have hdigit : ∀ c ∈ (toString n).toList, 48 ≤ c.toUInt8.toNat := by
    intro c hc
    rw [Nat.toString_eq_repr, Nat.toList_repr] at hc
    have hd := Nat.isDigit_of_mem_toDigits (by decide) (by decide) hc
    simp only [Char.isDigit, ge_iff_le, Bool.and_eq_true, decide_eq_true_eq, UInt32.le_iff_toNat_le] at hd
    have h48 : '0'.val.toNat = 48 := rfl
    have h57 : '9'.val.toNat = 57 := rfl
    show 48 ≤ c.val.toNat % 256
    omega
  constructor <;> intro hmem <;> obtain ⟨c, hc, hb⟩ := List.mem_map.mp hmem <;> have hle := hdigit c hc <;>
    rw [hb] at hle <;> exact absurd hle (by decide)

/-- A line that is not empty, as every value is. -/
def IsText (text : Bytes) : Prop := text ≠ [] ∧ IsLine text

instance (text : Bytes) : Decidable (IsText text) := inferInstanceAs (Decidable (_ ∧ _))

theorem IsText.append {a b : Bytes} (ha : IsText a) (hb : IsLine b) : IsText (a ++ b) :=
  ⟨List.append_ne_nil_of_left_ne_nil ha.1 b, ha.2.append hb⟩

/-- A text, a number and more text. -/
theorem isText_ascii {pre post : String} (n : Nat) (hpre : IsText (ascii pre)) (hpost : IsLine (ascii post)) :
    IsText (ascii (pre ++ toString n ++ post)) := by
  rw [ascii_append, ascii_append]
  exact (hpre.append (isLine_ascii_nat n)).append hpost

theorem isText_message : ∀ e : TxnError, IsText (ascii e.message)
  | .alreadyInTransaction _ => isText_ascii _ (by decide +kernel) (by decide +kernel)
  | .notInTransaction => by decide +kernel
  | .deadlock => by decide +kernel

theorem isText_greeting (i : SessionId) : IsText (getGreeting i) :=
  isText_ascii _ (by decide +kernel) (by decide +kernel)

/-! ## Tokens -/

namespace CommandParser

theorem mem_tokens {t : Bytes} : ∀ {rest token : Bytes}, (∀ b ∈ token, isSpace b = false) → t ∈ tokens token rest →
    t ≠ [] ∧ ∀ b ∈ t, isSpace b = false
  | [], token, htok, h => by
    rw [tokens] at h
    split at h
    · cases h
    · obtain rfl := List.mem_singleton.mp h
      exact ⟨‹_›, htok⟩
  | b :: rest, token, htok, h => by
    rw [tokens] at h
    split at h
    · split at h
      · exact mem_tokens (by simp) h
      · rcases List.mem_cons.mp h with rfl | h
        · exact ⟨‹_›, htok⟩
        · exact mem_tokens (by simp) h
    · refine mem_tokens (fun c hc => ?_) h
      rcases List.mem_append.mp hc with hc | hc
      · exact htok c hc
      · obtain rfl := List.mem_singleton.mp hc
        simpa using ‹¬ isSpace c = true›

theorem isText_of_mem_tokens {t rest : Bytes} (h : t ∈ tokens [] rest) : IsText t := by
  obtain ⟨hne, hspace⟩ := mem_tokens (by simp) h
  exact ⟨hne, fun h10 => absurd (hspace 10 h10) (by decide), fun h13 => absurd (hspace 13 h13) (by decide)⟩

theorem toUpper_eq {b : UInt8} (h : toUpper b = 10 ∨ toUpper b = 13) : b = 10 ∨ b = 13 := by
  unfold toUpper at h
  split at h
  · -- a letter becomes a letter
    rename_i hb
    have h97 : 97 ≤ b.toNat := hb.1
    have h122 : b.toNat ≤ 122 := hb.2
    have hsub : (b - 32).toNat = b.toNat - 32 := UInt8.toNat_sub_of_le _ _ (Nat.le_trans (by decide) h97)
    rcases h with h | h <;> rw [h] at hsub <;> exact absurd hsub (by simp; omega)
  · exact h

/-- The name and the arguments of a parsed line are tokens. -/
theorem parse_isLine (line : Bytes) : IsLine (parse line).name ∧ ∀ arg ∈ (parse line).args, IsText arg := by
  dsimp only [parse]
  split
  · exact ⟨by decide, by simp⟩
  · rename_i first args htok
    have hfirst : IsText first := isText_of_mem_tokens (htok ▸ List.mem_cons_self)
    refine ⟨⟨fun h => ?_, fun h => ?_⟩, fun arg harg => isText_of_mem_tokens (htok ▸ List.mem_cons_of_mem _ harg)⟩ <;>
      obtain ⟨b, hb, hu⟩ := List.mem_map.mp h
    · rcases toUpper_eq (.inl hu) with rfl | rfl
      · exact hfirst.2.1 hb
      · exact hfirst.2.2 hb
    · rcases toUpper_eq (.inr hu) with rfl | rfl
      · exact hfirst.2.1 hb
      · exact hfirst.2.2 hb

end CommandParser

/-- What is answered at once is a text, and so is what is put. -/
def Request.IsText : Request → Prop
  | .reply response => Kvdb.IsText response
  | .call (.put _ value) => Kvdb.IsText value
  | _ => True

/-- **The requests of a line.** -/
theorem request_isText (line : Bytes) : (CommandParser.parse line).request.IsText := by
  obtain ⟨hname, hargs⟩ := CommandParser.parse_isLine line
  generalize CommandParser.parse line = cmd at hname hargs
  unfold CommandParser.Command.request
  refine iteInduction (fun _ => ?empty) fun _ => iteInduction (fun _ => ?begin) fun _ => iteInduction (fun _ => ?put)
    fun _ => iteInduction (fun _ => ?get) fun _ => iteInduction (fun _ => ?delete) fun _ => iteInduction
    (fun _ => trivial) fun _ => iteInduction (fun _ => trivial) fun _ => iteInduction (fun _ => trivial) fun _ =>
    iteInduction (fun _ => trivial) fun _ => iteInduction (fun _ => trivial) fun _ => iteInduction (fun _ => trivial)
    fun _ => iteInduction (fun _ => trivial) fun _ => ?unknown
  case empty => exact (by decide +kernel : Kvdb.IsText (ascii "ERROR: Empty command"))
  case begin => cases cmd.args <;> exact trivial
  case put =>
    have htext : Kvdb.IsText (ascii "ERROR: PUT requires key and value") := by decide +kernel
    match hcmd : cmd.args with
    | [] => exact htext
    | [_] => exact htext
    | _ :: value :: _ => exact hargs value (by simp [hcmd])
  case get =>
    cases cmd.args with
    | nil => exact (by decide +kernel : Kvdb.IsText (ascii "ERROR: GET requires key"))
    | cons => trivial
  case delete =>
    cases cmd.args with
    | nil => exact (by decide +kernel : Kvdb.IsText (ascii "ERROR: DELETE requires key"))
    | cons => trivial
  case unknown =>
    have htext : Kvdb.IsText (ascii "ERROR: Unknown command: ") := by decide +kernel
    exact htext.append hname

theorem newline_mem_getStats (i : SessionId) (txn : TransactionInfo) (commits aborts : Nat) :
    10 ∈ getStats i txn commits aborts := by
  have htext : 10 ∈ ascii "\n" := by decide +kernel
  simp only [getStats, ascii_append, List.mem_append, htext, or_true, true_or]

theorem newline_mem_dumpLockTable (lm : LockManager) : 10 ∈ lm.dumpLockTable := by
  have htext : 10 ∈ ascii "=== Lock Table ===\n" := by decide +kernel
  exact List.mem_append_left _ htext

/-! ## The values of the server -/

section Values

variable (Q : Value → Prop)

/-- The values a session is about to log, to apply or to buffer satisfy `Q`. -/
def Phase.Values : Phase → Prop
  | .waiting (.put value) _ _ => Q value
  | .logging writes | .applying _ writes => ∀ k v, (k, v, false) ∈ writes → Q v
  | _ => True

/-- All values of a session do. -/
structure Party.Values (p : Party) : Prop where
  buffer : ∀ (k : Key) v, p.txn.pendingBuffer[k]? = some (v, false) → Q v
  phase : p.phase.Values Q

/-- All values of the server do. -/
structure ValuesInv (c : Core) : Prop where
  store : ∀ (k : Key) v, c.store[k]? = some v → Q v
  parties : ∀ i, (c.parties i).Values Q

variable {Q}

theorem Party.Values.toList {p : Party} (h : p.Values Q) (k : Key) (v : Value)
    (hmem : (k, v, false) ∈ p.txn.pendingBuffer.toList) : Q v :=
  h.buffer k v (ExtTreeMap.mem_toList_iff_getElem?_eq_some.mp hmem)

theorem Party.Values.locked {p : Party} (h : p.Values Q) {op : LockOp} (hop : ∀ v, op = .put v → Q v) (key : Key) :
    (Party.locked p.txn op key).Values Q := by
  cases op with
  | get => exact ⟨h.buffer, trivial⟩
  | put value =>
    refine ⟨fun k v hk => ?_, trivial⟩
    simp only [Party.locked, TransactionInfo.withLock, FinMap.find_insert] at hk
    split at hk
    · cases hk
      exact hop _ rfl
    · exact h.buffer k v hk
  | delete =>
    refine ⟨fun k v hk => ?_, trivial⟩
    simp only [Party.locked, TransactionInfo.withLock, FinMap.find_insert] at hk
    split at hk
    · cases hk
    · exact h.buffer k v hk

theorem Party.Values.empty {txn : TransactionInfo} {phase : Phase} (htxn : txn.pendingBuffer = ∅)
    (hphase : phase.Values Q) : Party.Values Q ⟨txn, phase⟩ :=
  ⟨fun k v hk => by simp [htxn] at hk, hphase⟩

/-- **What every value that is put satisfies, every value satisfies.** -/
theorem CoreStep.values {c c' : Core} {l : Label} {evs : List Event} (h : CoreStep c l evs c') (hinv : ValuesInv Q c)
    (hput : ∀ i v key, l = .request i (.put v) key → Q v) : ValuesInv Q c' := by
  -- a step that leaves the store alone
  have hparty : ∀ {c₁ : Core} {i : SessionId} {p' : Party}, c₁.store = c.store → c₁.parties = c.parties →
      p'.Values Q → ValuesInv Q (c₁.setParty i p') := fun hst hps hp =>
    ⟨fun k v hk => hinv.store k v (hst ▸ hk), Core.forall_setParty (Party.Values Q) hinv.parties hps hp⟩
  cases h with
  | silent _ => exact hinv
  | begin level _ _ => exact hparty rfl rfl (.empty rfl trivial)
  | @granted i p op key locks hp hph hact hacq =>
    subst hp
    exact hparty rfl rfl ((hinv.parties i).locked (fun v hv => hput i v key (hv ▸ rfl)) key)
  | @waitGranted _ i p op key flags locks hp hph hfin =>
    subst hp
    refine hparty rfl rfl ((hinv.parties i).locked (fun v hv => ?_) key)
    have hval := (hinv.parties i).phase
    rw [hph, hv] at hval
    exact hval
  | @queued i p op key locks flags hp hph hact hacq =>
    subst hp
    refine hparty rfl rfl ⟨(hinv.parties i).buffer, ?_⟩
    cases op with
    | put value => exact hput i value key rfl
    | get | delete => trivial
  | @read _ i p key hp hph =>
    subst hp
    refine hparty rfl rfl ⟨(hinv.parties i).buffer, ?_⟩
    dsimp only
    split <;> trivial
  | @startCommit i p hp hph hact =>
    subst hp
    exact hparty rfl rfl ⟨(hinv.parties i).buffer, (hinv.parties i).toList⟩
  | @logWrite _ i p w ws hp hph =>
    subst hp
    have hval := (hinv.parties i).phase
    rw [hph] at hval
    exact hparty rfl rfl ⟨(hinv.parties i).buffer, fun k v hk => hval k v (List.mem_cons_of_mem _ hk)⟩
  | @logCommit _ i p hp hph =>
    subst hp
    exact hparty rfl rfl ⟨(hinv.parties i).buffer, (hinv.parties i).toList⟩
  | @apply _ i p lsn w ws hp hph =>
    subst hp
    have hval := (hinv.parties i).phase
    rw [hph] at hval
    refine ⟨fun k v hk => ?_, Core.forall_setParty (Party.Values Q) hinv.parties rfl
      ⟨(hinv.parties i).buffer, fun k v hk => hval k v (List.mem_cons_of_mem _ hk)⟩⟩
    obtain ⟨key, value, deleted⟩ := w
    have hk : (applyWrite c.store (key, value, deleted))[k]? = some v := hk
    rw [get_applyWrite] at hk
    split at hk
    · cases deleted with
      | false =>
        obtain rfl := Option.some.inj hk
        exact hval key _ List.mem_cons_self
      | true => cases hk
    · exact hinv.store k v hk
  | applied | logAbort | reset => exact hparty rfl rfl (.empty rfl trivial)
  | @logBegin _ i _ hp | @waitFailed _ i _ _ _ _ _ hp | @release _ i _ _ hp | @startAbort _ i _ hp
  | @abortRelease _ i _ hp =>
    subst hp
    exact hparty rfl rfl ⟨(hinv.parties i).buffer, trivial⟩

/-- A `get` finds such a value. -/
theorem readKey_values {b : PendingBuffer} {st : Store} (hb : ∀ (k : Key) v, b[k]? = some (v, false) → Q v)
    (hst : ∀ (k : Key) v, st[k]? = some v → Q v) {k : Key} {v : Value} (h : readKey b st k = .value v) : Q v := by
  unfold readKey at h
  split at h
  · rename_i value deleted hk
    cases deleted with
    | false =>
      cases h
      exact hb k v hk
    | true => cases h
  · split at h
    · rename_i value hk
      cases h
      exact hst k v hk
    · cases h

end Values

/-! ## Calls -/

/-- The thread is in a `get` that has no answer yet. -/
def Pc.reads : Pc → Bool
  | .waitLock .get _ _ | .reading _ => true
  | .logAbort .deadlock | .abortRelease .deadlock | .abortReset .deadlock => true
  | _ => false

/-- The event is the answer to a `get`, or an error. -/
def Event.answers : Event → Bool
  | .failed _ _ | .done _ _ (.get _ _) => true
  | _ => false

/-- A value in the event is a text. -/
def Event.IsText : Event → Prop
  | .done _ _ (.get _ (.value value)) => Kvdb.IsText value
  | _ => True

section Calls

variable {s s' : State} {a : Action} {i : SessionId} {evs : List Event}

/-- The request of a `get`. -/
theorem CommandMove.reads {cmd : Command} (h : CommandMove s i cmd s' evs) {key : Key} (hcmd : cmd = .get key) :
    (s'.sessions i).pc.reads = true ∨ ∃ e ∈ evs, e.answers = true := by
  subst hcmd
  cases h with
  | notInTransaction => exact Or.inr ⟨_, List.mem_cons_self, rfl⟩
  | granted op _ _ hop =>
    cases op <;> cases hop
    rw [sessions_setTxn]
    exact Or.inl rfl
  | queued op _ _ _ hop =>
    cases op <;> cases hop
    rw [pc_setPc]
    exact Or.inl rfl
  | alreadyInTransaction _ hop | begin _ hop | commit hop | abort hop | checkpoint hop | quitActive hop | quit hop =>
    cases hop

theorem ThreadMove.reads {pc : Pc} (h : ThreadMove s i pc s' evs) (hpc : pc.reads = true) :
    (s'.sessions i).pc.reads = true ∨ ∃ e ∈ evs, e.answers = true := by
  cases h with
  | waitGranted op =>
    cases op <;> cases hpc
    rw [sessions_setTxn]
    exact Or.inl rfl
  | waitFailed op =>
    cases op <;> cases hpc
    rw [pc_setPc]
    exact Or.inl rfl
  | read key => exact Or.inr ⟨_, List.mem_cons_self, rfl⟩
  | logAbort cause =>
    cases cause <;> cases hpc
    rw [sessions_setTxn]
    exact Or.inl rfl
  | abortRelease cause =>
    cases cause <;> cases hpc
    rw [pc_setPc]
    exact Or.inl rfl
  | abortReset cause =>
    cases cause <;> cases hpc
    exact Or.inr ⟨_, List.mem_cons_self, rfl⟩
  | _ => cases hpc

/-- **A `get` does not end without an answer.** -/
theorem step_reads (h : step s a = some (s', evs)) (ha : a.session = some i)
    (hpc : (s.sessions i).pc.reads = true ∨ ∃ key, a = .command i (.get key)) :
    (s'.sessions i).pc.reads = true ∨ ∃ e ∈ evs, e.answers = true := by
  cases (step_move h).2 with
  | connect hc => rw [hc] at ha; cases ha
  | worker fault hc _ => rw [hc] at ha; cases fault <;> cases ha
  | command j cmd hc _ hidle hmove =>
    subst hc
    cases ha
    rcases hpc with hpc | ⟨key, hcmd⟩
    · rw [hidle] at hpc
      cases hpc
    · cases hcmd
      exact hmove.reads rfl
  | thread j hc hmove =>
    subst hc
    cases ha
    exact hmove.reads (hpc.resolve_right (by simp))
  | copyStore j _ _ _ hc hp | threadFault j _ _ hc hp | disconnect j hc _ hp =>
    subst hc
    cases ha
    have hpc := hpc.resolve_right (by simp)
    rw [hp] at hpc
    cases hpc

theorem step_isText (hinv : ValuesInv IsText s.core) (h : step s a = some (s', evs)) : ∀ e ∈ evs, e.IsText := by
  intro e he
  unfold Event.IsText
  split
  · rename_i j t k value
    have hreply := (step_core h).getReply he
    exact readKey_values (hinv.parties j).buffer hinv.store hreply.symm
  · trivial

end Calls

namespace Call

variable {call : Call} {e : Event}

/-- The texts of a call other than `QUIT` are lines. -/
structure Lines (call : Call) : Prop where
  notQuit : call.cmd ≠ .quit
  result : IsLine call.result
  value : IsLine call.value

/-- An event that answers sets the error or the value; the others say nothing about the outcome. -/
theorem note_cases (call : Call) (he : e.IsText) : (call.note e = call ∧ e.answers = false) ∨
    ∃ text, IsText text ∧ (call.note e = { call with result := text } ∨ call.note e = { call with value := text }) := by
  cases e with
  | failed j error => exact Or.inr ⟨_, isText_message error, Or.inl rfl⟩
  | done j t op =>
    cases op with
    | get k reply =>
      right
      cases reply with
      | value value => exact ⟨value, he, Or.inr rfl⟩
      | deletedInTxn => exact ⟨ascii "Key not found (deleted in this txn)", by decide +kernel, Or.inl rfl⟩
      | notFound => exact ⟨ascii "Key not found", by decide +kernel, Or.inl rfl⟩
    | put | delete => exact Or.inl ⟨rfl, rfl⟩
  | began | logged | committed | waited | acked | flushed => exact Or.inl ⟨rfl, rfl⟩

theorem Lines.note (h : call.Lines) (he : e.IsText) : (call.note e).Lines := by
  rcases call.note_cases he with ⟨hn, -⟩ | ⟨text, htext, hn | hn⟩ <;> rw [hn]
  · exact h
  · exact ⟨h.notQuit, htext.2, h.value⟩
  · exact ⟨h.notQuit, h.result, htext.2⟩

/-- There is neither an error nor a value yet. -/
def Open (call : Call) : Prop := call.result = [] ∧ call.value = []

theorem open_of_note (he : e.IsText) (h : (call.note e).Open) : call.Open ∧ e.answers = false := by
  rcases call.note_cases he with ⟨hn, hans⟩ | ⟨text, htext, hn | hn⟩ <;> rw [hn] at h
  · exact ⟨h, hans⟩
  · exact absurd h.1 htext.1
  · exact absurd h.2 htext.1

theorem note_cmd (call : Call) (e : Event) : (call.note e).cmd = call.cmd := by
  unfold note
  split <;> rfl

/-- What no event changes. -/
theorem foldl_note_same {β : Type} {f : Call → β} (hf : ∀ (call : Call) e, f (call.note e) = f call) :
    ∀ (evs : List Event) (call : Call), f (evs.foldl note call) = f call
  | [], _ => rfl
  | e :: evs, call => (foldl_note_same hf evs (call.note e)).trans (hf call e)

theorem foldl_note_cmd (evs : List Event) (call : Call) : (evs.foldl note call).cmd = call.cmd :=
  foldl_note_same note_cmd evs call

theorem foldl_note : ∀ {evs : List Event} {call : Call}, (∀ e ∈ evs, e.IsText) → call.Lines →
    (evs.foldl note call).Lines ∧ ((evs.foldl note call).Open → call.Open ∧ ∀ e ∈ evs, e.answers = false)
  | [], _, _, h => ⟨h, fun ho => ⟨ho, by simp⟩⟩
  | e :: evs, call, hevs, h => by
    have he := hevs e List.mem_cons_self
    obtain ⟨hlines, hopen⟩ := foldl_note (fun e he => hevs e (List.mem_cons_of_mem _ he)) (h.note he)
    refine ⟨hlines, fun ho => ?_⟩
    obtain ⟨ho, hans⟩ := hopen ho
    obtain ⟨ho, hans'⟩ := open_of_note he ho
    exact ⟨ho, List.forall_mem_cons.mpr ⟨hans', hans⟩⟩

/-- A `get` without an outcome goes on. -/
def OnTrack (call : Call) (pc : Pc) : Prop :=
  call.Lines ∧ ((∃ key, call.cmd = .get key) → call.Open → pc.reads = true)

/-- **The response to a call that is over** is a line, and not empty. -/
theorem OnTrack.response {pc : Pc} (h : call.OnTrack pc) (hpc : pc = .idle ∨ pc = .closed) (t : TxnId) :
    IsText (call.response t) := by
  obtain ⟨hlines, hget⟩ := h
  refine ⟨fun hnil => ?_, ?_⟩
  · rcases (call.response_eq_nil_iff t).mp hnil with hq | ⟨key, hk, ho⟩
    · exact hlines.notQuit hq
    · have hreads := hget ⟨key, hk⟩ ho
      rcases hpc with rfl | rfl <;> cases hreads
  · have herr : IsLine (ascii "ERROR: " ++ call.result) :=
      (by decide +kernel : IsLine (ascii "ERROR: ")).append hlines.result
    have hok : IsLine (ascii "OK") := by decide +kernel
    cases hc : call.cmd <;> simp only [Call.response, hc]
    case quit => exact absurd hc hlines.notQuit
    case checkpoint => split <;> decide +kernel
    case begin level =>
      refine iteInduction (fun _ => ?_) fun _ => herr
      exact (isText_ascii _ (by decide +kernel) (by decide +kernel)).2
    case commit =>
      refine iteInduction (fun _ => ?_) fun _ => herr
      exact (isText_ascii _ (by decide +kernel) (by decide +kernel)).2
    case get key => exact iteInduction (fun _ => hlines.value) fun _ => herr
    all_goals exact iteInduction (fun _ => hok) fun _ => herr

end Call

section Steps

variable {s s' : State} {a : Action} {i : SessionId} {evs : List Event}

theorem step_sessionCount (h : step s a = some (s', evs)) (ha : a ≠ .connect) : s'.sessionCount = s.sessionCount := by
  cases hsess : a.session with
  | some i => exact (step_own h hsess).2.1
  | none =>
    cases (step_move h).2 with
    | connect hc => exact absurd hc ha
    | worker fault _ hw => exact (workerStep_sessions hw).1
    | command i _ hc | thread i hc | copyStore i _ _ _ hc | threadFault i _ _ hc | disconnect i hc =>
      rw [hc] at hsess
      cases hsess

theorem step_values (hinv : ValuesInv IsText s.core) (h : step s a = some (s', evs))
    (hput : ∀ j k v, a = .command j (.put k v) → IsText v) : ValuesInv IsText s'.core := by
  refine (step_core h).values hinv fun j v key hl => hput j key v ?_
  cases a with
  | command j' cmd => cases cmd <;> cases hl; rfl
  | connect | thread | copyStore | threadFault | worker | workerFault | disconnect => cases hl

/-- The calls of other sessions are not touched. -/
theorem step_onTrack_of_ne {call : Call} (h : step s a = some (s', evs)) (ha : a.session ≠ some i)
    (hcall : call.OnTrack (s.sessions i).pc) : call.OnTrack (s'.sessions i).pc := by
  refine ⟨hcall.1, fun hget hopen => ?_⟩
  have hreads := hcall.2 hget hopen
  rcases step_sessions_of_ne h ha with he | he <;> rw [he]
  · exact hreads
  · cases hpc : (s.sessions i).pc <;> rw [hpc] at hreads <;> simp only [Session.notified, hpc] <;> exact hreads

/-- A call goes on with a step of its session. -/
theorem step_onTrack {call : Call} (hinv : ValuesInv IsText s.core) (h : step s a = some (s', evs))
    (ha : a.session = some i) (hlines : call.Lines) (hget : (∃ key, call.cmd = .get key) → call.Open →
      (s.sessions i).pc.reads = true ∨ ∃ key, a = .command i (.get key)) :
    (evs.foldl Call.note call).OnTrack (s'.sessions i).pc := by
  obtain ⟨hlines', hopen⟩ := Call.foldl_note (step_isText hinv h) hlines
  refine ⟨hlines', fun hg ho => ?_⟩
  rw [Call.foldl_note_cmd] at hg
  obtain ⟨ho, hans⟩ := hopen ho
  rcases step_reads h ha (hget hg ho) with hreads | ⟨e, he, hea⟩
  · exact hreads
  · rw [hans e he] at hea
    cases hea

end Steps

end Kvdb
