import Kvdb.Dialogue
import Kvdb.Framing

/-!
# The client of `src/client`

It calls `recv` once per command and takes what it gets for the response. It keeps no buffer, so that a response that is
cut leaves its rest to the next call. The client returns the responses if and only if every call of `recv` gets exactly
one of them (`responses_whole_iff`).
-/

namespace Kvdb

open Machine

namespace Client

/-- `readLine`, with what `recv` returns: nothing when it fails, no bytes when the connection is closed, and else at
most 4095 bytes. A response ends at its first `NUL`; one newline and one carriage return are dropped. -/
def readLine : Option Bytes → Bytes
  | none => ascii "ERROR: Failed to receive"
  | some buffer =>
    let response := buffer.takeWhile (· ≠ 0)
    dropCR (if response.getLast? = some 10 then response.dropLast else response)

/-- `sendCommand`: whether the socket is open, whether the command could be sent, and what `recv` returns. -/
def sendCommand (isOpen sent : Bool) (received : Option Bytes) : Bytes :=
  if !isOpen then ascii "ERROR: Not connected"
  else if !sent then ascii "ERROR: Failed to send"
  else readLine received

/-- What successive calls return. The server answers each of them with a response; `recv` gets the first `n` of the
bytes that have been written and not been read yet. -/
def sendCommands (unread : Bytes) : List (Bytes × Nat) → List Bytes
  | [] => []
  | (response, n) :: calls =>
    let unread := unread ++ response ++ [10]
    sendCommand true true (some (unread.take n)) :: sendCommands (unread.drop n) calls

/-- `recv` gets some of the bytes that are there, and at most 4095. -/
def Delivers (unread : Bytes) : List (Bytes × Nat) → Prop
  | [] => True
  | (response, n) :: calls =>
    let unread := unread ++ response ++ [10]
    (1 ≤ n ∧ n ≤ 4095 ∧ n ≤ unread.length) ∧ Delivers (unread.drop n) calls

instance decidableDelivers : (unread : Bytes) → (calls : List (Bytes × Nat)) → Decidable (Delivers unread calls)
  | _, [] => .isTrue trivial
  | unread, (response, n) :: calls =>
    @instDecidableAnd _ _ inferInstance (decidableDelivers ((unread ++ response ++ [10]).drop n) calls)

/-- Every call of `recv` gets one response with its newline; the last one need not get the newline. -/
def Whole : List (Bytes × Nat) → Prop
  | [] => True
  | [(response, n)] => n = response.length + 1 ∨ n = response.length
  | (response, n) :: calls => n = response.length + 1 ∧ Whole calls

/-- A line that the server may write: not empty, and without newlines and `NUL`s. -/
structure IsResponse (response : Bytes) : Prop where
  ne_nil : response ≠ []
  newline : 10 ∉ response
  nul : 0 ∉ response

theorem isResponse_iff {response : Bytes} : IsResponse response ↔ response ≠ [] ∧ 10 ∉ response ∧ 0 ∉ response :=
  ⟨fun h => ⟨h.ne_nil, h.newline, h.nul⟩, fun h => ⟨h.1, h.2.1, h.2.2⟩⟩

instance (response : Bytes) : Decidable (IsResponse response) := decidable_of_iff _ isResponse_iff.symm

section Responses

variable {response unread rest : Bytes} {n : Nat} {calls : List (Bytes × Nat)}

/-- Without `NUL`s only the end of the buffer matters. -/
theorem readLine_of_notMem {buffer : Bytes} (h : 0 ∉ buffer) :
    readLine (some buffer) = dropCR (if buffer.getLast? = some 10 then buffer.dropLast else buffer) := by
  have hall : buffer.takeWhile (· ≠ 0) = buffer := by
    refine List.takeWhile_eq_self_iff.mpr fun b hb => ?_
    simp only [ne_eq, decide_not, Bool.not_eq_eq_eq_not, Bool.not_true, decide_eq_false_iff_not]
    rintro rfl
    exact h hb
  rw [readLine, hall]

theorem getLast?_ne_of_notMem {text : Bytes} {b : UInt8} (h : b ∉ text) : text.getLast? ≠ some b :=
  fun hlast => h (List.mem_of_getLast? hlast)

/-- A whole line is read as its response, up to a carriage return at its end. -/
theorem readLine_line (h : IsResponse response) : readLine (some (response ++ [10])) = dropCR response := by
  rw [readLine_of_notMem (by simp [h.nul])]
  simp

theorem readLine_part (h10 : 10 ∉ rest) (h0 : 0 ∉ rest) : readLine (some rest) = dropCR rest := by
  rw [readLine_of_notMem h0, if_neg (getLast?_ne_of_notMem h10)]

theorem length_dropCR_le (line : Bytes) : (dropCR line).length ≤ line.length := by
  unfold dropCR
  split
  · simp
  · exact Nat.le_refl _

theorem dropCR_eq_self_iff {line : Bytes} : dropCR line = line ↔ line.getLast? ≠ some 13 := by
  unfold dropCR
  split
  · rename_i h
    refine ⟨fun heq => ?_, fun hne => absurd h hne⟩
    have hlen := congrArg List.length heq
    have hpos : 0 < line.length := List.length_pos_iff.mpr (by rintro rfl; cases h)
    rw [List.length_dropLast] at hlen
    omega
  · exact ⟨fun _ => ‹_›, fun _ => rfl⟩

theorem newline_mem_dropCR {line : Bytes} (h : 10 ∈ line) : 10 ∈ dropCR line := by
  unfold dropCR
  split
  · rename_i hlast
    obtain ⟨text, rfl⟩ := List.getLast?_eq_some_iff.mp hlast
    rw [List.dropLast_concat]
    simpa using h
  · exact h

/-- The newline that an earlier call has left is read as the beginning of the response. -/
theorem readLine_left (h : IsResponse response) (hn : 1 ≤ n) : readLine (some ((10 :: rest).take n)) ≠ response := by
  obtain ⟨n, rfl⟩ : ∃ m, n = m + 1 := ⟨n - 1, by omega⟩
  have htake : ((10 :: rest.take n).takeWhile (· ≠ 0)) = 10 :: (rest.take n).takeWhile (· ≠ 0) := by
    rw [List.takeWhile_cons_of_pos (by decide)]
  rw [List.take_succ_cons, readLine, htake]
  cases (rest.take n).takeWhile (· ≠ 0) with
  | nil => exact Ne.symm h.ne_nil
  | cons b text =>
    intro heq
    refine h.newline (heq ▸ newline_mem_dropCR ?_)
    split
    · rw [List.dropLast_cons_of_ne_nil (by simp)]
      exact List.mem_cons_self
    · exact List.mem_cons_self

/-- What a call returns when nothing is left from the calls before. -/
theorem readLine_take_iff (h : IsResponse response) (hle : n ≤ response.length + 1) :
    readLine (some ((response ++ [10]).take n)) = response ↔
      (n = response.length + 1 ∨ n = response.length) ∧ response.getLast? ≠ some 13 := by
  rcases Nat.lt_or_ge response.length n with hlt | hge
  · have hall : (response ++ [10]).take n = response ++ [10] := List.take_of_length_le (by simp; omega)
    rw [hall, readLine_line h, dropCR_eq_self_iff]
    exact ⟨fun hlast => ⟨Or.inl (by omega), hlast⟩, fun hlast => hlast.2⟩
  · have hpart : (response ++ [10]).take n = response.take n := List.take_append_of_le_length hge
    rw [hpart, readLine_part (fun hm => h.newline (List.mem_of_mem_take hm)) fun hm => h.nul (List.mem_of_mem_take hm)]
    constructor
    · intro heq
      have hlen := length_dropCR_le (response.take n)
      rw [heq, List.length_take] at hlen
      have hn : n = response.length := by omega
      rw [hn, List.take_length, dropCR_eq_self_iff] at heq
      exact ⟨Or.inr hn, heq⟩
    · rintro ⟨hn | hn, hlast⟩
      · omega
      · rw [hn, List.take_length, dropCR_eq_self_iff]
        exact hlast

theorem whole_cons (h : Whole calls) : Whole ((response, response.length + 1) :: calls) := by
  cases calls with
  | nil => exact Or.inl rfl
  | cons c calls => exact ⟨rfl, h⟩

/-- **The client returns the responses** if and only if every call of `recv` gets one of them as a whole, and none of
them ends in a carriage return. -/
theorem responses_whole_iff (hresponses : ∀ c ∈ calls, IsResponse c.1) (hdelivers : Delivers [] calls) :
    sendCommands [] calls = calls.map Prod.fst ↔ Whole calls ∧ ∀ c ∈ calls, c.1.getLast? ≠ some 13 := by
  induction calls with
  | nil => simp [sendCommands, Whole]
  | cons c calls ih =>
    obtain ⟨response, n⟩ := c
    have hr : IsResponse response := hresponses _ List.mem_cons_self
    obtain ⟨⟨-, -, hle⟩, hrest⟩ := hdelivers
    rw [List.nil_append] at hle hrest
    rw [List.length_append, List.length_singleton] at hle
    have hhead := readLine_take_iff hr hle
    have ih := ih fun c hc => hresponses c (List.mem_cons_of_mem _ hc)
    rw [List.forall_mem_cons, sendCommands, List.map_cons, List.cons.injEq, List.nil_append]
    constructor
    · rintro ⟨hfirst, hothers⟩
      obtain ⟨hn | hn, hlast⟩ := hhead.mp hfirst <;> subst hn
      · rw [List.drop_of_length_le (by simp)] at hrest hothers
        obtain ⟨hwhole, hlasts⟩ := (ih hrest).mp hothers
        exact ⟨whole_cons hwhole, hlast, hlasts⟩
      · cases calls with
        | nil => exact ⟨Or.inr rfl, hlast, by simp⟩
        | cons c' calls =>
          -- the newline is left to the next call
          obtain ⟨response', n'⟩ := c'
          rw [List.drop_left] at hrest hothers
          exact absurd (List.cons.inj hothers).1
            (readLine_left (hresponses _ (List.mem_cons_of_mem _ List.mem_cons_self)) hrest.1.1)
    · rintro ⟨hwhole, hlast, hlasts⟩
      cases calls with
      | nil => exact ⟨hhead.mpr ⟨hwhole, hlast⟩, rfl⟩
      | cons c' calls =>
        obtain ⟨rfl, hwhole⟩ := hwhole
        rw [List.drop_of_length_le (by simp)] at hrest ⊢
        exact ⟨hhead.mpr ⟨Or.inl rfl, hlast⟩, (ih hrest).mpr ⟨hwhole, hlasts⟩⟩

end Responses

/-- The greeting and two responses that arrive one by one. -/
theorem responses_whole_ok : sendCommands [] [(getGreeting 0, 23), (ascii "txn 1 started.", 15), (ascii "OK", 3)] =
    [getGreeting 0, ascii "txn 1 started.", ascii "OK"] := by
  have hiff := responses_whole_iff
    (show ∀ c ∈ [(getGreeting 0, 23), (ascii "txn 1 started.", 15), (ascii "OK", 3)], IsResponse c.1 by decide +kernel)
    (by decide +kernel)
  exact hiff.mpr ⟨⟨by decide +kernel, by decide +kernel, Or.inl (by decide +kernel)⟩, by decide +kernel⟩

/-- A client begins a transaction and aborts it. The first `recv` after the greeting gets three bytes of the response,
the next one all the rest: the first command is answered by `txn`, the second one by the rest of the first response and
its own. -/
theorem response_cut : ∃ ins h out, Run hostStep (fun _ _ => True) { server := Server.boot {} ∅ } ins h out ∧
    commandsOf 0 out = [ascii "BEGIN", ascii "ABORT"] ∧
    sentOf 0 out = [getGreeting 0, ascii "txn 1 started.", ascii "OK"] ∧
    (∀ response ∈ sentOf 0 out, IsResponse response) ∧ Delivers [] ((sentOf 0 out).zip [23, 3, 15]) ∧
    sendCommands [] ((sentOf 0 out).zip [23, 3, 15]) = [getGreeting 0, ascii "txn", ascii " 1 started.\nOK"] := by
  have hrun := exists_run_of_exec hostStep (fun _ _ => True) { server := Server.boot {} ∅ }
    [.accept, .receive 0 (ascii "BEGIN\n"), .nextLine 0, .server (.thread 0), .receive 0 (ascii "ABORT\n"), .nextLine 0,
      .server (.thread 0), .server (.thread 0), .server (.thread 0)]
    (fun h out => decide (commandsOf 0 out = [ascii "BEGIN", ascii "ABORT"] ∧
      sentOf 0 out = [getGreeting 0, ascii "txn 1 started.", ascii "OK"] ∧
      (∀ response ∈ sentOf 0 out, IsResponse response) ∧ Delivers [] ((sentOf 0 out).zip [23, 3, 15]) ∧
      sendCommands [] ((sentOf 0 out).zip [23, 3, 15]) = [getGreeting 0, ascii "txn", ascii " 1 started.\nOK"]))
    (by decide +kernel)
  obtain ⟨h, out, hr, hp⟩ := hrun
  exact ⟨_, h, out, hr, of_decide_eq_true hp⟩

end Client

end Kvdb
