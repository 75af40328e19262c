import Kvdb.Connection

/-!
# Command lines

`getNextCommandLine` takes a line out of `inbuf_` when there is one, and else appends what `recv` returns. Where the
stream is cut into chunks makes no difference: successive calls return the lines of the stream (`streamLines`), and
`false` from then on (`framing_independent`). The handlers of the host do the same, whatever they do between two lines
(`host_lines`).
-/

namespace Kvdb

open Machine

/-! ## The lines of a stream -/

/-- Without one carriage return at the end. -/
def dropCR (line : Bytes) : Bytes := if line.getLast? = some 13 then line.dropLast else line

/-- The parts of the stream that a newline ends; what comes after the last newline is none of them. -/
def streamLines (stream : Bytes) : List Bytes := (stream.splitOn 10).dropLast.map dropCR

theorem streamLines_of_notMem {stream : Bytes} (h : 10 ∉ stream) : streamLines stream = [] := by
  rw [streamLines, List.splitOn_eq_singleton h]
  rfl

theorem streamLines_cons {line : Bytes} (h : 10 ∉ line) (rest : Bytes) :
    streamLines (line ++ 10 :: rest) = dropCR line :: streamLines rest := by
  rw [streamLines, List.splitOn_append_cons_self_of_not_mem h,
    List.dropLast_cons_of_ne_nil (List.splitOn_ne_nil 10 rest)]
  rfl

theorem takeLine_of_notMem {inbuf : Bytes} (h : 10 ∉ inbuf) : takeLine inbuf = none := by
  rw [takeLine, List.idxOf?_eq_none_iff.mpr h]

theorem takeLine_cons {line : Bytes} (h : 10 ∉ line) (rest : Bytes) :
    takeLine (line ++ 10 :: rest) = some (dropCR line, rest) := by
  have hpos : (line ++ 10 :: rest).idxOf? 10 = some line.length := by
    refine List.idxOf?_eq_some_iff.mpr ⟨by simp, by simp, fun j hj hten => h ?_⟩
    rw [List.getElem_append_left hj] at hten
    exact hten ▸ List.getElem_mem hj
  simp only [takeLine, hpos, List.take_left, dropCR, Option.some.injEq, Prod.mk.injEq, true_and]
  simp

/-- The line that is taken out of `inbuf_` is its first one. -/
theorem takeLine_eq_some {inbuf line rest : Bytes} (h : takeLine inbuf = some (line, rest)) :
    ∃ raw, 10 ∉ raw ∧ inbuf = raw ++ 10 :: rest ∧ line = dropCR raw := by
  by_cases hmem : 10 ∈ inbuf
  · obtain ⟨raw, rest', rfl, hraw⟩ := List.eq_append_cons_of_mem hmem
    rw [takeLine_cons hraw] at h
    cases h
    exact ⟨raw, hraw, rfl, rfl⟩
  · rw [takeLine_of_notMem hmem] at h
    cases h

/-! ## Calls of `getNextCommandLine` -/

/-- A call, with `inbuf_` and what the calls of `recv` will return: `false` at the end of the stream, or a line; and
what is left for the next call. -/
def getNextCommandLine (inbuf : Bytes) (chunks : List Bytes) : Option Bytes × Bytes × List Bytes :=
  match takeLine inbuf with
  | some (line, rest) => (some line, rest, chunks)
  | none =>
    match chunks with
    | [] => (none, inbuf, [])
    | chunk :: chunks =>
      -- `recv` returns 0
      if chunk = [] then (none, inbuf, chunks) else getNextCommandLine (inbuf ++ chunk) chunks

/-- What `n` calls return, one after the other. -/
def commandLines : Nat → Bytes → List Bytes → List (Option Bytes)
  | 0, _, _ => []
  | n + 1, inbuf, chunks =>
    let r := getNextCommandLine inbuf chunks
    r.1 :: commandLines n r.2.1 r.2.2

section Calls

variable {inbuf : Bytes} {chunks : List Bytes}

/-- `recv` is called when `inbuf_` has no newline. -/
theorem getNextCommandLine_recv {chunk : Bytes} (h : 10 ∉ inbuf) (hchunk : chunk ≠ []) :
    getNextCommandLine inbuf (chunk :: chunks) = getNextCommandLine (inbuf ++ chunk) chunks := by
  rw [getNextCommandLine, takeLine_of_notMem h]
  exact if_neg hchunk

theorem getNextCommandLine_of_notMem (hchunks : ∀ c ∈ chunks, c ≠ []) (h : 10 ∉ inbuf ++ chunks.flatten) :
    getNextCommandLine inbuf chunks = (none, inbuf ++ chunks.flatten, []) := by
  induction chunks generalizing inbuf with
  | nil =>
    rw [List.flatten_nil, List.append_nil] at h ⊢
    rw [getNextCommandLine, takeLine_of_notMem h]
  | cons chunk chunks ih =>
    rw [List.flatten_cons, ← List.append_assoc] at h ⊢
    have hinbuf : 10 ∉ inbuf := fun hmem => h (by simp [hmem])
    rw [getNextCommandLine_recv hinbuf (hchunks chunk List.mem_cons_self)]
    exact ih (fun c hc => hchunks c (List.mem_cons_of_mem _ hc)) h

/-- A call returns the first line of the stream and leaves the rest, wherever the stream is cut. -/
theorem getNextCommandLine_of_mem (hchunks : ∀ c ∈ chunks, c ≠ []) (h : 10 ∈ inbuf ++ chunks.flatten) :
    ∃ line inbuf' chunks', 10 ∉ line ∧ inbuf ++ chunks.flatten = line ++ 10 :: (inbuf' ++ chunks'.flatten) ∧
      (∀ c ∈ chunks', c ≠ []) ∧ getNextCommandLine inbuf chunks = (some (dropCR line), inbuf', chunks') := by
  induction chunks generalizing inbuf with
  | nil =>
    rw [List.flatten_nil, List.append_nil] at h ⊢
    obtain ⟨line, rest, rfl, hline⟩ := List.eq_append_cons_of_mem h
    refine ⟨line, rest, [], hline, by simp, by simp, ?_⟩
    rw [getNextCommandLine, takeLine_cons hline]
  | cons chunk chunks ih =>
    by_cases hmem : 10 ∈ inbuf
    · -- the line is complete before `recv` is called
      obtain ⟨line, rest, rfl, hline⟩ := List.eq_append_cons_of_mem hmem
      refine ⟨line, rest, chunk :: chunks, hline, by simp, hchunks, ?_⟩
      rw [getNextCommandLine, takeLine_cons hline]
    · rw [getNextCommandLine_recv hmem (hchunks chunk List.mem_cons_self), List.flatten_cons, ← List.append_assoc]
      rw [List.flatten_cons, ← List.append_assoc] at h
      exact ih (fun c hc => hchunks c (List.mem_cons_of_mem _ hc)) h

/-- A longer padding makes no difference. -/
theorem take_append_replicate {lines : List (Option Bytes)} {n : Nat} :
    (lines ++ List.replicate (n + 1) none).take n = (lines ++ List.replicate n none).take n := by
  rw [List.replicate_succ', ← List.append_assoc]
  exact List.take_append_of_le_length (by simp)

/-- The calls return the lines of the stream, then `false`. -/
theorem commandLines_eq (hchunks : ∀ c ∈ chunks, c ≠ []) (n : Nat) :
    commandLines n inbuf chunks =
      ((streamLines (inbuf ++ chunks.flatten)).map some ++ List.replicate n none).take n := by
  induction n generalizing inbuf chunks with
  | zero => rw [List.take_zero, commandLines]
  | succ n ih =>
    rw [commandLines]
    by_cases hmem : 10 ∈ inbuf ++ chunks.flatten
    · obtain ⟨line, inbuf', chunks', hline, hstream, hchunks', hcall⟩ := getNextCommandLine_of_mem hchunks hmem
      rw [hcall, hstream, streamLines_cons hline, List.map_cons, List.cons_append, List.take_succ_cons,
        take_append_replicate, ← ih hchunks']
    · rw [getNextCommandLine_of_notMem hchunks hmem, streamLines_of_notMem hmem, ih (by simp), List.flatten_nil,
        List.append_nil, streamLines_of_notMem hmem]
      simp [List.replicate_succ]

end Calls

/-- **Framing does not depend on segmentation**: however a stream is cut into chunks, `n` calls return its first `n`
lines, and `false` when there are no more. -/
theorem framing_independent {stream : Bytes} {chunks : List Bytes} (hstream : chunks.flatten = stream)
    (hchunks : ∀ c ∈ chunks, 1 ≤ c.length ∧ c.length ≤ 1024) (n : Nat) :
    commandLines n [] chunks = ((streamLines stream).map some ++ List.replicate n none).take n := by
  have h : commandLines n [] chunks = _ :=
    commandLines_eq (fun c hc => List.length_pos_iff.mp (hchunks c hc).1) n
  rw [List.nil_append, hstream] at h
  exact h

/-- Two lines and a beginning, cut between a carriage return and its newline. -/
theorem framing_independent_cut :
    commandLines 3 [] [[97, 13], [10, 98, 10, 99]] = [some [97], some [98], none] := by
  have hlines : streamLines [97, 13, 10, 98, 10, 99] = [[97], [98]] := by decide
  rw [framing_independent (show List.flatten _ = [97, 13, 10, 98, 10, 99] from rfl) (by decide) 3, hlines]
  rfl

/-! ## The handlers of the host -/

/-- What `recv` has returned to the session. -/
def bytesOf (i : SessionId) (ins : List Input) : Bytes :=
  ins.flatMap fun input => match input with
    | .receive j bytes => if j = i then bytes else []
    | _ => []

/-- What `getNextCommandLine` has returned to the session. -/
def linesOf (i : SessionId) (out : List Output) : List Bytes :=
  out.filterMap fun o => match o with
    | .received j line => if j = i then some line else none
    | _ => none

theorem bytesOf_append (i : SessionId) (ins ins' : List Input) :
    bytesOf i (ins ++ ins') = bytesOf i ins ++ bytesOf i ins' := List.flatMap_append

theorem linesOf_append (i : SessionId) (out out' : List Output) :
    linesOf i (out ++ out') = linesOf i out ++ linesOf i out' := List.filterMap_append

theorem linesOf_event (i : SessionId) (evs : List Event) : linesOf i (evs.map .event) = [] := by
  rw [linesOf, List.filterMap_map]
  exact List.filterMap_eq_nil_iff.mpr fun e _ => rfl

theorem linesOf_received (i : SessionId) (line : Bytes) (out : List Output) :
    linesOf i (.received i line :: out) = line :: linesOf i out := List.filterMap_cons_some (if_pos rfl)

theorem linesOf_received_of_ne {i j : SessionId} (hij : i ≠ j) (line : Bytes) (out : List Output) :
    linesOf i (.received j line :: out) = linesOf i out := List.filterMap_cons_none (if_neg (Ne.symm hij))

section Host

variable {h h' : Host} {i j : SessionId} {line : Bytes} {out : List Output}

theorem inbuf_setConn {c : Connection} (hc : c.inbuf = (h.conns i).inbuf) (j : SessionId) :
    ((h.setConn i c).conns j).inbuf = (h.conns j).inbuf := by
  by_cases hji : j = i
  · subst hji
    rw [setConn_self, hc]
  · rw [setConn_of_ne hji]

theorem inbuf_setHandler (h : Host) (i : SessionId) (handler : Handler) (j : SessionId) :
    ((h.setHandler i handler).conns j).inbuf = (h.conns j).inbuf :=
  inbuf_setConn (c := { h.conns i with handler := handler }) rfl j

theorem Responds.linesOf {response : Bytes} {handler : Handler} (h : Responds i response handler out)
    (j : SessionId) : linesOf j out = [] := by
  cases h <;> rfl

theorem CallTurn.linesOf {call : Call} {s : State} {evs : List Event} {handler : Handler}
    (ht : CallTurn h i call s evs handler out) (j : SessionId) : linesOf j (evs.map .event ++ out) = [] := by
  rw [linesOf_append, linesOf_event, List.nil_append]
  cases ht with
  | ended _ hr => exact hr.linesOf j
  | inside => rfl

theorem LineStep.inbuf (hl : LineStep h i line h' out) (j : SessionId) :
    (h'.conns j).inbuf = (h.conns j).inbuf ∧ linesOf j out = [] := by
  cases hl with
  | skip | crash => exact ⟨rfl, rfl⟩
  | answer _ _ hr => exact ⟨inbuf_setHandler .., hr.linesOf j⟩
  | call _ _ _ hturn => exact ⟨inbuf_setConn (by rfl) j, hturn.linesOf j⟩

end Host

/-- The session has been handed the lines of what it has received, but for those still in `inbuf_`. -/
def LinesInv (i : SessionId) (ins : List Input) (h : Host) (out : List Output) : Prop :=
  ∃ taken, bytesOf i ins = taken ++ (h.conns i).inbuf ∧
    ∀ rest, streamLines (taken ++ rest) = linesOf i out ++ streamLines rest

section LinesInv

variable {i : SessionId} {ins : List Input} {h h' : Host} {out out' : List Output} {input : Input}

/-- A step that takes no byte of the session and no line. -/
theorem LinesInv.quiet (hinv : LinesInv i ins h out) (hbytes : bytesOf i [input] = [])
    (hin : (h'.conns i).inbuf = (h.conns i).inbuf) (hlines : linesOf i out' = []) :
    LinesInv i (ins ++ [input]) h' (out ++ out') := by
  obtain ⟨taken, hb, hl⟩ := hinv
  refine ⟨taken, ?_, fun rest => ?_⟩
  · rw [bytesOf_append, hbytes, List.append_nil, hin, hb]
  · rw [linesOf_append, hlines, List.append_nil, hl]

theorem LinesInv.step (hinv : LinesInv i ins h out) (hs : hostStep h input = some (h', out')) :
    LinesInv i (ins ++ [input]) h' (out ++ out') := by
  cases hostStep_move hs with
  | accept s evs hr =>
    refine hinv.quiet rfl rfl ?_
    rw [linesOf_append, linesOf_event]
    rfl
  | receive j bytes _ _ =>
    by_cases hij : i = j
    · subst hij
      obtain ⟨taken, hb, hl⟩ := hinv
      refine ⟨taken, ?_, fun rest => by rw [List.append_nil, hl]⟩
      rw [bytesOf_append, hb, setConn_self, List.append_assoc]
      simp [bytesOf]
    · refine hinv.quiet ?_ (by rw [setConn_of_ne hij]) rfl
      simp [bytesOf, Ne.symm hij]
  | endOfStream j _ _ => exact hinv.quiet rfl (inbuf_setHandler ..) rfl
  | nextLine j line rest _ _ htake hline =>
    obtain ⟨hin, hnone⟩ := hline.inbuf i
    by_cases hij : i = j
    · subst hij
      obtain ⟨taken, hb, hl⟩ := hinv
      obtain ⟨raw, hraw, hinbuf, rfl⟩ := takeLine_eq_some htake
      rw [setConn_self] at hin
      refine ⟨taken ++ raw ++ [10], ?_, fun rest' => ?_⟩
      · rw [bytesOf_append, hb, hin, hinbuf]
        simp [bytesOf]
      · rw [List.append_assoc, List.append_assoc, List.singleton_append, hl, streamLines_cons hraw, linesOf_append,
          linesOf_received, hnone, List.append_assoc, List.singleton_append]
    · rw [setConn_of_ne hij] at hin
      exact hinv.quiet rfl hin ((linesOf_received_of_ne hij ..).trans hnone)
  | quit j _ _ => exact hinv.quiet rfl (inbuf_setHandler ..) rfl
  | left j s evs _ _ _ => exact hinv.quiet rfl (inbuf_setHandler ..) (linesOf_event i evs)
  | worker a s evs _ _ _ => exact hinv.quiet rfl rfl (linesOf_event i evs)
  | call j a call s evs _ _ _ _ hturn => exact hinv.quiet rfl (inbuf_setConn (by rfl) i) (hturn.linesOf i)

end LinesInv

/-- **The lines a session is handed** in a run of the host are those of the bytes it has received. -/
theorem host_lines {P : Host → Input → Prop} {h₀ h : Host} {ins : List Input} {out : List Output} {i : SessionId}
    (h0 : (h₀.conns i).inbuf = []) (hr : Run hostStep P h₀ ins h out) :
    streamLines (bytesOf i ins) = linesOf i out ++ streamLines (h.conns i).inbuf := by
  have hinv : LinesInv i ins h out :=
    hr.invariant_actions (fun ins out h => LinesInv i ins h out) ⟨[], by rw [h0]; rfl, fun rest => rfl⟩
      fun _ hinv _ hs => hinv.step hs
  obtain ⟨taken, hb, hl⟩ := hinv
  rw [hb, hl]

end Kvdb
