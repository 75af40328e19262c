import Kvdb.ChaosClient

/-!
# A chaos client and the server

The class `Client` of the chaos suite as a thread of its own, next to the server: `request` sends a line, in as many
pieces as `send` takes, and then reads one line, byte by byte. Two streams of bytes are between the two.

`run` begins with a greeting, and nobody reads it when the connection is made. The first `request` therefore returns the
greeting, and every other one the response to the request before it (`answers_late`): what `commit` returns has been
written before the server has looked at `COMMIT`.
-/

namespace Kvdb

open Machine CommandParser

/-! ## Calls -/

namespace ChaosClient

/-- The calls of the class that lead to a `request`. -/
inductive ApiCall
  | begin (isolation : Bytes)
  | commit
  | abort
  | put (key value : Bytes)
  | del (key : Bytes)
  | get (key : Bytes)
  | sendCommand (command : Bytes)
  deriving DecidableEq, Repr

/-- What the call passes to `request`. -/
def ApiCall.command : ApiCall → Bytes
  | .begin isolation => if isolation = [] then ascii "BEGIN" else ascii "BEGIN " ++ isolation
  | .commit => ascii "COMMIT"
  | .abort => ascii "ABORT"
  | .put key value => putLine key value
  | .del key => ascii "DELETE " ++ key
  | .get key => getLine key
  | .sendCommand command => command

end ChaosClient

open ChaosClient

/-- Requests that are answered by one line and leave the connection open. -/
def Request.Ordinary : Request → Prop
  | .call .quit | .stats | .locks | .crash => False
  | _ => True

instance : DecidablePred Request.Ordinary
  | .call .quit | .stats | .locks | .crash => .isFalse id
  | .call (.begin _) | .call (.put _ _) | .call (.get _) | .call (.delete _) | .call .commit | .call .abort
  | .call .checkpoint | .reply _ => .isTrue trivial

/-- A command that the server takes for one line and answers by one line. -/
structure PlainCommand (command : Bytes) : Prop where
  ne_nil : command ≠ []
  isLine : IsLine command
  ordinary : (parse command).request.Ordinary

instance (command : Bytes) : Decidable (PlainCommand command) :=
  decidable_of_iff (command ≠ [] ∧ IsLine command ∧ (parse command).request.Ordinary)
    ⟨fun ⟨hne, hline, hord⟩ => ⟨hne, hline, hord⟩, fun h => ⟨h.ne_nil, h.isLine, h.ordinary⟩⟩

/-- An argument that the server reads back. -/
def IsWord (text : Bytes) : Prop := IsToken text ∧ text.getLast? ≠ some 59

instance (text : Bytes) : Decidable (IsWord text) := inferInstanceAs (Decidable (_ ∧ _))

def ChaosClient.ApiCall.Plain : ApiCall → Prop
  | .begin isolation => isolation = [] ∨ IsWord isolation
  | .commit | .abort => True
  | .put key value => IsToken key ∧ IsWord value
  | .del key | .get key => IsWord key
  | .sendCommand command => PlainCommand command

instance : DecidablePred ApiCall.Plain
  | .begin _ => inferInstanceAs (Decidable (_ ∨ _))
  | .commit | .abort => .isTrue trivial
  | .put _ _ => inferInstanceAs (Decidable (_ ∧ _))
  | .del key | .get key => inferInstanceAs (Decidable (IsWord key))
  | .sendCommand command => inferInstanceAs (Decidable (PlainCommand command))

section Commands

variable {command name : Bytes} {args : List Bytes}

theorem PlainCommand.not_endsSession (h : PlainCommand command) : ¬ EndsSession command := by
  have hord := h.ordinary
  rintro (heq | heq) <;> rw [heq] at hord <;> exact hord

theorem PlainCommand.not_multiLine (h : PlainCommand command) : ¬ MultiLine command := by
  have hord := h.ordinary
  rintro (heq | heq) <;> rw [heq] at hord <;> exact hord

/-- The commands of the API. -/
theorem ordinary_of_name {cmd : CommandParser.Command} (h : cmd.name ∈ [ascii "BEGIN", ascii "PUT", ascii "GET",
    ascii "DELETE", ascii "COMMIT", ascii "ABORT"]) : cmd.request.Ordinary := by
  unfold Command.request
  refine iteInduction (fun _ => trivial) fun _ => iteInduction (fun _ => ?begin) fun hbegin =>
    iteInduction (fun _ => ?put) fun hput => iteInduction (fun _ => ?get) fun hget =>
    iteInduction (fun _ => ?delete) fun hdelete => iteInduction (fun _ => trivial) fun hcommit =>
    iteInduction (fun _ => trivial) fun habort => absurd h ?other
  case begin | put | get | delete => split <;> trivial
  case other => simp only [List.mem_cons, List.not_mem_nil, hbegin, hput, hget, hdelete, hcommit, habort, or_self,
    not_false_eq_true]

theorem isLine_of_isToken {text : Bytes} (h : IsToken text) : IsLine text := by
  have hspaces : isSpace 10 ≠ false ∧ isSpace 13 ≠ false := by decide
  exact ⟨fun hmem => hspaces.1 (h.2 10 hmem), fun hmem => hspaces.2 (h.2 13 hmem)⟩

theorem isLine_words (hname : IsToken name) (hargs : ∀ arg ∈ args, IsToken arg) : IsLine (words name args) := by
  induction args generalizing name with
  | nil => exact isLine_of_isToken hname
  | cons arg args ih =>
    have hblank : IsLine [32] := by decide
    exact ((isLine_of_isToken hname).append hblank).append
      (ih (hargs arg List.mem_cons_self) fun a ha => hargs a (List.mem_cons_of_mem _ ha))

theorem plain_words (hname : IsToken name) (hargs : ∀ arg ∈ args, IsToken arg)
    (hlast : (args.getLastD name).getLast? ≠ some 59) (hcmd : name.map toUpper ∈ [ascii "BEGIN", ascii "PUT",
      ascii "GET", ascii "DELETE", ascii "COMMIT", ascii "ABORT"]) : PlainCommand (words name args) := by
  have hparse := parse_words hname hargs (by decide : Blank []) false fun _ => hlast
  rw [List.append_nil, show terminator false = [] from rfl, List.append_nil] at hparse
  exact ⟨spread_ne_nil hname.1 _, isLine_words hname hargs, by rw [hparse]; exact ordinary_of_name hcmd⟩

end Commands

theorem ChaosClient.ApiCall.Plain.command {call : ApiCall} (h : call.Plain) : PlainCommand call.command := by
  cases call with
  | begin isolation =>
    rcases h with rfl | hword
    · decide
    · have hname : ascii "BEGIN " = ascii "BEGIN" ++ [32] := by decide
      rw [ApiCall.command, if_neg hword.1.1, hname]
      show PlainCommand (words (ascii "BEGIN") [isolation])
      exact plain_words (by decide) (by simpa using hword.1) hword.2 (by decide +kernel)
  | commit | abort => decide
  | put key value =>
    rw [ApiCall.command, putLine_eq]
    exact plain_words (by decide) (by simpa using ⟨h.1, h.2.1⟩) h.2.2 (by decide +kernel)
  | del key =>
    have hname : ascii "DELETE " = ascii "DELETE" ++ [32] := by decide
    rw [ApiCall.command, hname]
    show PlainCommand (words (ascii "DELETE") [key])
    exact plain_words (by decide) (by simpa using h.1) h.2 (by decide +kernel)
  | get key =>
    rw [ApiCall.command, getLine_eq]
    exact plain_words (by decide) (by simpa using h.1) h.2 (by decide +kernel)
  | sendCommand command => exact h

/-! ## The client -/

/-- Where the client is in `request`. -/
inductive ClientPc
  | idle
  /-- In the loop of `sendLine`; the bytes that are left. -/
  | sending (data : Bytes)
  /-- In the loop of `readLine`. -/
  | reading (out : Bytes)
  deriving DecidableEq, Repr

def ClientPc.unsent : ClientPc → Bytes
  | .sending data => data
  | _ => []

def ClientPc.read : ClientPc → Bytes
  | .reading out => out
  | _ => []

structure ClientState where
  pc : ClientPc := .idle
  /-- What has been passed to `request`. -/
  commands : List Bytes := []
  /-- The texts that calls of `request` have returned with `true`. -/
  answers : List Bytes := []
  /-- The texts that calls of `request` have left with `false`. -/
  failed : List Bytes := []
  /-- A call of `send` or `recv` has failed; so will the others. -/
  broken : Bool := false
  deriving DecidableEq, Repr

namespace ClientState

def request (c : ClientState) (command : Bytes) : Option ClientState :=
  if c.pc = .idle then some { c with pc := .sending (sendLine command), commands := c.commands ++ [command] } else none

/-- `send` takes the first `n` bytes. -/
def send (c : ClientState) (n : Nat) : Option (ClientState × Bytes) :=
  match c.pc with
  | .sending data =>
    if c.broken = false ∧ 0 < n ∧ n ≤ data.length then
      some ({ c with pc := if n = data.length then .reading [] else .sending (data.drop n) }, data.take n)
    else none
  | _ => none

/-- `recv` returns the byte. -/
def recv (c : ClientState) (b : UInt8) : Option ClientState :=
  match c.pc with
  | .reading out =>
    if c.broken then none
    else if b = 10 then some { c with pc := .idle, answers := c.answers ++ [out] }
    else if b ≠ 13 then some { c with pc := .reading (out ++ [b]) }
    else some c
  | _ => none

/-- `send` or `recv` returns 0 or fails. -/
def fails (c : ClientState) : Option ClientState :=
  match c.pc with
  | .idle => none
  | pc => some { c with pc := .idle, failed := c.failed ++ [pc.read], broken := true }

end ClientState

/-! ## The two together -/

structure Loop where
  host : Host
  client : ClientState := {}
  /-- Sent by the client and not yet received by the server. -/
  upstream : Bytes := []
  /-- Written by the server and not yet read by the client. -/
  downstream : Bytes := []

inductive LoopInput
  | request (call : ApiCall)
  | send (n : Nat)
  | recv
  | fails
  | host (input : Input)
  deriving DecidableEq, Repr

/-- The client is at the other end of connection `i`; the other connections receive what they like. -/
def loopStep (i : SessionId) (l : Loop) : LoopInput → Option (Loop × List Output)
  | .request call => (l.client.request call.command).map fun c => ({ l with client := c }, [])
  | .send n => (l.client.send n).map fun r => ({ l with client := r.1, upstream := l.upstream ++ r.2 }, [])
  | .recv =>
    match l.downstream with
    | [] => none
    | b :: rest => (l.client.recv b).map fun c => ({ l with client := c, downstream := rest }, [])
  | .fails => l.client.fails.map fun c => ({ l with client := c }, [])
  | .host input =>
    if bytesOf i [input] <+: l.upstream then
      (hostStep l.host input).map fun r =>
        ({ l with host := r.1, upstream := l.upstream.drop (bytesOf i [input]).length,
                  downstream := l.downstream ++ wire (sentOf i r.2) }, r.2)
    else none

def PlainRequest (_ : Loop) : LoopInput → Prop
  | .request call => call.Plain
  | _ => True

instance : ∀ l input, Decidable (PlainRequest l input)
  | _, .request call => inferInstanceAs (Decidable call.Plain)
  | _, .send _ | _, .recv | _, .fails | _, .host _ => .isTrue trivial

/-! ## Streams -/

/-- What `readLine` has read of the line it is in. -/
def openLine (out : Bytes) : Bytes → Bytes
  | [] => out
  | c :: rest => if c = 10 then openLine [] rest else if c ≠ 13 then openLine (out ++ [c]) rest else openLine out rest

theorem readLines_of_append (out a b : Bytes) :
    readLines out (a ++ b) = readLines out a ++ readLines (openLine out a) b := by
  induction a generalizing out with
  | nil => rfl
  | cons c a ih =>
    rw [List.cons_append, readLines, readLines, openLine]
    split
    · rw [ih, List.cons_append]
    · split <;> exact ih _

theorem openLine_append (out a b : Bytes) : openLine out (a ++ b) = openLine (openLine out a) b := by
  induction a generalizing out with
  | nil => rfl
  | cons c a ih =>
    rw [List.cons_append, openLine, openLine]
    split
    · exact ih _
    · split <;> exact ih _

theorem clientLines_mono {a b : Bytes} (h : a <+: b) : clientLines a <+: clientLines b := by
  obtain ⟨rest, rfl⟩ := h
  rw [clientLines, clientLines, readLines_of_append]
  exact List.prefix_append ..

/-- The server reads back the commands that have arrived as a whole. -/
theorem streamLines_sendLines : ∀ {commands : List Bytes} {bytes : Bytes}, (∀ command ∈ commands, IsLine command) →
    bytes <+: commands.flatMap sendLine → streamLines bytes <+: commands
  | [], bytes, _, h => by
    rw [List.prefix_nil.mp h, streamLines_of_notMem (by simp)]
  | command :: commands, bytes, hlines, h => by
    have hsend : sendLine command = command ++ [10] := congrArg (command ++ ·) (by decide)
    rw [List.flatMap_cons, hsend] at h
    by_cases hwhole : command ++ [10] <+: bytes
    · obtain ⟨rest, rfl⟩ := hwhole
      obtain ⟨hnewline, hreturn⟩ := hlines command List.mem_cons_self
      have hlast : command.getLast? ≠ some 13 := fun hl => hreturn (List.mem_of_getLast? hl)
      rw [List.append_assoc, List.singleton_append, streamLines_cons hnewline, dropCR, if_neg hlast,
        List.prefix_cons_inj]
      exact streamLines_sendLines (fun c hc => hlines c (List.mem_cons_of_mem _ hc))
        ((List.prefix_append_right_inj _).mp h)
    · have hopen : bytes <+: command := by
        rcases List.prefix_or_prefix_of_prefix h (List.prefix_append (command ++ [10]) _) with hle | hle
        · rcases List.prefix_concat_iff.mp hle with rfl | hle
          · exact absurd List.prefix_rfl hwhole
          · exact hle
        · exact absurd hle hwhole
      rw [streamLines_of_notMem fun hmem => (hlines command List.mem_cons_self).1 (hopen.subset hmem)]
      exact List.nil_prefix

/-- Without empty lines, every line is a command. -/
theorem commandsOf_eq_linesOf {i : SessionId} {out : List Output} (h : ∀ line ∈ linesOf i out, line ≠ []) :
    commandsOf i out = linesOf i out := by
  induction out with
  | nil => rfl
  | cons o out ih =>
    cases o with
    | event e => exact ih h
    | sent j response =>
      have hlines : linesOf i (.sent j response :: out) = linesOf i out := rfl
      rw [hlines, ← ih h, commandsOf, talkOf, List.filter_cons]
      split <;> rfl
    | received j line =>
      by_cases hj : j = i
      · subst hj
        rw [linesOf_received] at h ⊢
        have htalk : Output.talk j (.received j line) = true := decide_eq_true ⟨rfl, h line List.mem_cons_self⟩
        rw [← ih fun line hl => h line (List.mem_cons_of_mem _ hl), commandsOf, talkOf, List.filter_cons_of_pos htalk]
        rfl
      · rw [linesOf_received_of_ne (Ne.symm hj)] at h ⊢
        have htalk : ¬ Output.talk i (.received j line) = true := fun ht => hj (of_decide_eq_true ht).1
        rw [← ih h, commandsOf, talkOf, List.filter_cons_of_neg htalk]
        rfl

theorem sentOf_append (i : SessionId) (out out' : List Output) :
    sentOf i (out ++ out') = sentOf i out ++ sentOf i out' := by
  rw [sentOf, talkOf_append, List.filterMap_append]
  rfl

theorem wire_append (a b : List Bytes) : wire (a ++ b) = wire a ++ wire b := List.flatMap_append

/-! ## The invariant -/

/-- The server has been run by the bytes that the client has sent, and the client's answers are the lines of the bytes
that it has read. -/
structure LoopInv (s₀ : State) (i : SessionId) (out : List Output) (l : Loop) : Prop where
  plain : ∀ command ∈ l.client.commands, PlainCommand command
  up : ∃ ins unsent, Run hostStep (fun _ _ => True) { server := s₀ } ins l.host out ∧
    bytesOf i ins ++ l.upstream ++ unsent = l.client.commands.flatMap sendLine ∧
    (l.client.broken = false → unsent = l.client.pc.unsent)
  down : ∃ bytes, bytes ++ l.downstream = wire (sentOf i out) ∧ clientLines bytes = l.client.answers ∧
    (l.client.broken = false → openLine [] bytes = l.client.pc.read)

/-- A turn of the loop in `readLine`. -/
theorem ClientState.recv_spec {c c' : ClientState} {b : UInt8} (hs : c.recv b = some c') :
    c.broken = false ∧ c'.commands = c.commands ∧ c'.answers = c.answers ++ readLines c.pc.read [b] ∧
      c.pc.unsent = [] ∧ c'.pc.unsent = [] ∧ c'.pc.read = openLine c.pc.read [b] := by
  unfold ClientState.recv at hs
  split at hs
  case h_2 => cases hs
  rename_i text hpc
  obtain ⟨hb, hs⟩ := Option.ite_none_left_eq_some.mp hs
  refine ⟨by simpa using hb, ?_⟩
  rw [hpc, ClientPc.read, readLines, openLine]
  by_cases hnewline : b = 10
  · rw [if_pos hnewline] at hs ⊢
    cases hs
    exact ⟨rfl, rfl, rfl, rfl, by rw [if_pos hnewline]; rfl⟩
  rw [if_neg hnewline] at hs ⊢
  by_cases hreturn : b = 13
  · rw [if_neg (not_not.mpr hreturn)] at hs ⊢
    cases hs
    refine ⟨rfl, (List.append_nil _).symm, rfl, by rw [hpc]; rfl, ?_⟩
    rw [hpc, if_neg hnewline, if_neg (not_not.mpr hreturn)]
    rfl
  · rw [if_pos hreturn] at hs ⊢
    cases hs
    exact ⟨rfl, (List.append_nil _).symm, rfl, rfl, by rw [if_neg hnewline, if_pos hreturn]; rfl⟩

section Steps

variable {s₀ : State} {i : SessionId} {out : List Output} {l : Loop} {c : ClientState}

namespace LoopInv

theorem request (hinv : LoopInv s₀ i out l) {command : Bytes} (hplain : PlainCommand command)
    (hs : l.client.request command = some c) : LoopInv s₀ i out { l with client := c } := by
  obtain ⟨hidle, rfl⟩ := Option.ite_some_none_eq_some.mp hs
  obtain ⟨ins, unsent, hrun, hbytes, hunsent⟩ := hinv.up
  obtain ⟨bytes, hread, hlines, hopen⟩ := hinv.down
  refine ⟨fun d hd => ?_, ⟨ins, unsent ++ sendLine command, hrun, ?_, fun hb => ?_⟩,
    bytes, hread, hlines, fun hb => ?_⟩
  · rcases List.mem_append.mp hd with hd | hd
    · exact hinv.plain d hd
    · rw [List.mem_singleton.mp hd]
      exact hplain
  · rw [← List.append_assoc, hbytes, List.flatMap_append, List.flatMap_singleton]
  · rw [hunsent hb, hidle]
    rfl
  · rw [hopen hb, hidle]
    rfl

theorem send (hinv : LoopInv s₀ i out l) {n : Nat} {data : Bytes} (hs : l.client.send n = some (c, data)) :
    LoopInv s₀ i out { l with client := c, upstream := l.upstream ++ data } := by
  unfold ClientState.send at hs
  split at hs
  case h_2 => cases hs
  rename_i left hpc
  obtain ⟨⟨hb, hpos, hn⟩, heq⟩ := Option.ite_none_right_eq_some.mp hs
  cases heq
  obtain ⟨ins, unsent, hrun, hbytes, hunsent⟩ := hinv.up
  obtain ⟨bytes, hread, hlines, hopen⟩ := hinv.down
  refine ⟨hinv.plain, ⟨ins, left.drop n, hrun, ?_, fun _ => ?_⟩, bytes, hread, hlines, fun _ => ?_⟩
  · rw [← hbytes, hunsent hb, hpc, ← List.append_assoc, List.append_assoc _ (left.take n), List.take_append_drop]
    rfl
  · dsimp only
    split
    · exact List.drop_of_length_le (by omega)
    · rfl
  · rw [hopen hb, hpc]
    dsimp only
    split <;> rfl

theorem recv (hinv : LoopInv s₀ i out l) {b : UInt8} {rest : Bytes} (hd : l.downstream = b :: rest)
    (hs : l.client.recv b = some c) : LoopInv s₀ i out { l with client := c, downstream := rest } := by
  obtain ⟨hb, hcommands, hanswers, hpc, hunsent', hopen'⟩ := ClientState.recv_spec hs
  obtain ⟨ins, unsent, hrun, hbytes, hunsent⟩ := hinv.up
  obtain ⟨bytes, hread, hlines, hopen⟩ := hinv.down
  refine ⟨by rw [hcommands]; exact hinv.plain, ⟨ins, unsent, hrun, by rw [hcommands]; exact hbytes, fun _ => ?_⟩,
    bytes ++ [b], ?_, ?_, fun _ => ?_⟩
  · rw [hunsent hb, hpc, hunsent']
  · rw [← hread, hd, List.append_assoc]
    rfl
  · rw [clientLines, readLines_of_append, hopen hb, ← clientLines, hlines, hanswers]
  · rw [openLine_append, hopen hb, hopen']

theorem fails (hinv : LoopInv s₀ i out l) (hs : l.client.fails = some c) :
    LoopInv s₀ i out { l with client := c } := by
  unfold ClientState.fails at hs
  split at hs
  case h_1 => cases hs
  cases hs
  obtain ⟨ins, unsent, hrun, hbytes, -⟩ := hinv.up
  obtain ⟨bytes, hread, hlines, -⟩ := hinv.down
  exact ⟨hinv.plain, ⟨ins, unsent, hrun, hbytes, fun hb => by cases hb⟩, bytes, hread, hlines, fun hb => by cases hb⟩

theorem host (hinv : LoopInv s₀ i out l) {input : Input} {h : Host} {out' : List Output}
    (hbytes : bytesOf i [input] <+: l.upstream) (hs : hostStep l.host input = some (h, out')) :
    LoopInv s₀ i (out ++ out') { l with
      host := h, upstream := l.upstream.drop (bytesOf i [input]).length,
      downstream := l.downstream ++ wire (sentOf i out') } := by
  obtain ⟨ins, unsent, hrun, hsent, hunsent⟩ := hinv.up
  obtain ⟨bytes, hread, hlines, hopen⟩ := hinv.down
  obtain ⟨upstream, heq⟩ := hbytes
  refine ⟨hinv.plain, ⟨ins ++ [input], unsent, .snoc hrun trivial hs, ?_, hunsent⟩, bytes, ?_, hlines, hopen⟩
  · rw [← hsent, ← heq, bytesOf_append]
    simp
  · rw [sentOf_append, wire_append, ← hread, List.append_assoc]

theorem step (hinv : LoopInv s₀ i out l) {input : LoopInput} {l' : Loop} {out' : List Output}
    (hP : PlainRequest l input) (hs : loopStep i l input = some (l', out')) : LoopInv s₀ i (out ++ out') l' := by
  cases input with
  | request call =>
    obtain ⟨c, hc, heq⟩ := Option.map_eq_some_iff.mp hs
    cases heq
    rw [List.append_nil]
    exact hinv.request (ApiCall.Plain.command hP) hc
  | send n =>
    obtain ⟨⟨c, data⟩, hc, heq⟩ := Option.map_eq_some_iff.mp hs
    cases heq
    rw [List.append_nil]
    exact hinv.send hc
  | recv =>
    dsimp only [loopStep] at hs
    split at hs
    · cases hs
    · rename_i b rest hd
      obtain ⟨c, hc, heq⟩ := Option.map_eq_some_iff.mp hs
      cases heq
      rw [List.append_nil]
      exact hinv.recv hd hc
  | fails =>
    obtain ⟨c, hc, heq⟩ := Option.map_eq_some_iff.mp hs
    cases heq
    rw [List.append_nil]
    exact hinv.fails hc
  | host input =>
    obtain ⟨hbytes, hs⟩ := Option.ite_none_right_eq_some.mp hs
    obtain ⟨⟨h, out'⟩, hh, heq⟩ := Option.map_eq_some_iff.mp hs
    cases heq
    exact hinv.host hbytes hh

end LoopInv

end Steps

/-! ## Answers -/

theorem loopInv_of_run {s₀ : State} {i : SessionId} {l : Loop} {ins : List LoopInput} {out : List Output}
    (hr : Run (loopStep i) PlainRequest { host := { server := s₀ } } ins l out) : LoopInv s₀ i out l := by
  refine Run.invariant (LoopInv s₀ i) ⟨fun c hc => (by cases hc), ⟨[], [], .nil, rfl, fun _ => rfl⟩, [], rfl, rfl,
    fun _ => rfl⟩ (fun hinv hP hs => hinv.step hP hs) hr

/-- The server has taken a beginning of the commands. -/
theorem LoopInv.commands {s₀ : State} {i : SessionId} {out : List Output} {l : Loop} (hinv : LoopInv s₀ i out l) :
    commandsOf i out <+: l.client.commands := by
  obtain ⟨ins, unsent, hrun, hsent, -⟩ := hinv.up
  have hbytes : bytesOf i ins <+: l.client.commands.flatMap sendLine :=
    ⟨l.upstream ++ unsent, by rw [← List.append_assoc, hsent]⟩
  have hlines : linesOf i out <+: l.client.commands := by
    have hread := streamLines_sendLines (fun c hc => (hinv.plain c hc).isLine) hbytes
    rw [host_lines rfl hrun] at hread
    exact (List.prefix_append ..).trans hread
  rw [commandsOf_eq_linesOf fun line hl => (hinv.plain line (hlines.subset hl)).ne_nil]
  exact hlines

/-- **Every answer is one request late.** The server has taken a beginning of the client's commands and answered them
one by one, but the first call of `request` returns the greeting, and the next ones return the responses to the commands
before theirs. -/
theorem answers_late {st : Store} {s₀ : State} {i : SessionId} {l : Loop} {ins : List LoopInput} {out : List Output}
    (h0 : Server.Initial st s₀) (hst : ∀ (k : Key) v, st[k]? = some v → IsText v)
    (hr : Run (loopStep i) PlainRequest { host := { server := s₀ } } ins l out)
    (hi : i < l.host.server.sessionCount) : ∃ exchanges pending, talkOf i out = dialogue i exchanges pending ∧
      exchanges.map Prod.fst ++ pending.toList <+: l.client.commands ∧
      l.client.answers <+: getGreeting i :: exchanges.map Prod.snd := by
  have hinv := loopInv_of_run hr
  have hcommands := hinv.commands
  have hplain : ∀ line ∈ commandsOf i out, PlainCommand line := fun line hl => hinv.plain line (hcommands.subset hl)
  obtain ⟨hostIns, -, hrun, -, -⟩ := hinv.up
  obtain ⟨exchanges, pending, htalk, hans, -⟩ :=
    (talkInv_of_run h0 hst hrun fun line hl => (hplain line hl).not_endsSession).after hi
  rw [commandsOf_dialogue htalk] at hcommands hplain
  refine ⟨exchanges, pending, htalk, hcommands, ?_⟩
  have hresponses : ∀ r ∈ getGreeting i :: exchanges.map Prod.snd, IsLine r := by
    intro r hr
    rcases List.mem_cons.mp hr with rfl | hr
    · exact (isText_greeting i).2
    · obtain ⟨e, he, rfl⟩ := List.mem_map.mp hr
      have hone := (hplain e.1 (List.mem_append_left _ (List.mem_map_of_mem he))).not_multiLine
      rcases hans e he with ⟨hmulti, -⟩ | ⟨-, hline⟩
      · exact absurd hmulti hone
      · exact hline
  obtain ⟨bytes, hread, hlines, -⟩ := hinv.down
  rw [← hlines, ← clientLines_wire hresponses, ← sentOf_dialogue htalk, ← hread]
  exact clientLines_mono (List.prefix_append ..)

/-- A client that begins a transaction, puts a key and commits: when its `commit` returns `OK`, which is the response to
`PUT`, the transaction is still open. -/
theorem answers_late_commit : ∃ ins l out, Run (loopStep 0) PlainRequest { host := { server := Server.boot {} ∅ } } ins
      l out ∧ l.client.commands = [ascii "BEGIN", ascii "PUT a 1", ascii "COMMIT"] ∧
    l.client.answers = [getGreeting 0, ascii "txn 1 started.", ascii "OK"] ∧
    (l.host.server.sessions 0).txn.state = .active ∧
    ∃ exchanges pending, talkOf 0 out = dialogue 0 exchanges pending ∧
      exchanges.map Prod.fst ++ pending.toList <+: l.client.commands ∧
      l.client.answers <+: getGreeting 0 :: exchanges.map Prod.snd := by
  have hrun := exists_run_of_exec (loopStep 0) PlainRequest { host := { server := Server.boot {} ∅ } }
    [[.host .accept, .request (.begin []), .send 6], List.replicate 23 .recv,
      [.host (.receive 0 (ascii "BEGIN\n")), .host (.nextLine 0), .host (.server (.thread 0)),
        .request (.put (ascii "a") (ascii "1")), .send 3, .send 5], List.replicate 15 .recv,
      [.host (.receive 0 (ascii "PUT a 1\n")), .host (.nextLine 0), .request .commit, .send 7],
      List.replicate 3 .recv].flatten
    (fun l _ => decide (l.client.commands = [ascii "BEGIN", ascii "PUT a 1", ascii "COMMIT"] ∧
      l.client.answers = [getGreeting 0, ascii "txn 1 started.", ascii "OK"] ∧
      (l.host.server.sessions 0).txn.state = .active ∧ 0 < l.host.server.sessionCount)) (by decide +kernel)
  obtain ⟨l, out, hr, hp⟩ := hrun
  obtain ⟨hcommands, hanswers, hactive, hcount⟩ := of_decide_eq_true hp
  exact ⟨_, l, out, hr, hcommands, hanswers, hactive,
    answers_late (.opened {}) (fun k v h => by simp at h) hr hcount⟩

end Kvdb
