import Kvdb.Checkpoint
import Kvdb.RecordFormat

/-!
# What truncation leaves of the log

`truncateWAL` has its own idea of the record format. A `PUT` record is one of its segments (`readSegment_put`). After
any other record it reads on and takes the next two bytes for the length of a string, so that the segment is too long
(`readSegment_other`), or the loop ends (`readSegment_overruns`). Logs of `PUT` records are truncated as they should; of
the logs with increasing LSNs, no others are for every checkpoint LSN (`truncation_exact`).
-/

namespace Kvdb

/-! ## One segment -/

/-- The LSN is a 64-bit number, and the strings fit their length fields. -/
structure WALRecord.Fits (r : WALRecord) : Prop where
  lsn : r.lsn < 2 ^ 64
  key : r.key.length < 2 ^ 16
  value : r.value.length < 2 ^ 16

instance (r : WALRecord) : Decidable r.Fits :=
  decidable_of_iff (r.lsn < 2 ^ 64 ∧ r.key.length < 2 ^ 16 ∧ r.value.length < 2 ^ 16)
    ⟨fun ⟨hlsn, hkey, hvalue⟩ => ⟨hlsn, hkey, hvalue⟩, fun h => ⟨h.lsn, h.key, h.value⟩⟩

/-- Where a segment ends whose header has this type, in the words of the reader of recovery. -/
def segmentEnd (type : UInt8) (f : IStream) : IStream :=
  if type = RecordType.put.toByte ∨ type = RecordType.delete.toByte then (readStr (readStr f).2).2 else (readStr f).2

/-- The LSN of a record is read as it was written; then the segment goes on to its end. -/
theorem readSegment_eq {r : WALRecord} (h : r.lsn < 2 ^ 64) (rest : Bytes) :
    readSegment ⟨r.raw ++ rest, true⟩ =
      let f := segmentEnd r.type.toByte ⟨r.scanned.payload ++ rest, true⟩
      if f.good then some (r.lsn, f) else none := by
  have hlsn : leVal (leBytes 8 r.lsn) = r.lsn := leVal_leBytes_of_lt (by omega)
  have hbytes : r.raw ++ rest = leBytes 4 (crc32 r.scanned.body).toNat ++ (leBytes 8 r.lsn ++
      (leBytes 4 r.txnId.toNat ++ ([r.type.toByte] ++ (r.scanned.payload ++ rest)))) := by
    rw [WALRecord.raw_eq, ScannedRecord.bytes]
    conv_lhs => enter [1, 2]; rw [ScannedRecord.body_eq]
    simp [WALRecord.scanned]
  rw [hbytes]
  dsimp only [readSegment]
  simp only [IStream.read_append (length_leBytes 4 _), IStream.read_append (length_leBytes 8 _),
    IStream.read_append (show [r.type.toByte].length = 1 from rfl), List.headD_cons, hlsn]
  generalize (⟨r.scanned.payload ++ rest, true⟩ : IStream) = f
  simp only [IStream.ite_read, segmentEnd, readStr]
  -- a check behind every read and one check behind the last read say the same
  cases hlen : (f.read 2).2.good with
  | false => simp [IStream.read_bad hlen, hlen]
  | true =>
    cases hkey : ((f.read 2).2.read (leVal (f.read 2).1)).2.good with
    | false => simp [IStream.read_bad hkey, hkey]
    | true =>
      by_cases htype : r.type.toByte = RecordType.put.toByte ∨ r.type.toByte = RecordType.delete.toByte
      · simp only [if_pos htype]
        cases hval : (((f.read 2).2.read (leVal (f.read 2).1)).2.read 2).2.good with
        | false => simp [IStream.read_bad hval, hval]
        | true =>
          simp only [Bool.not_true, Bool.false_eq_true, if_false, Bool.not_eq_true']
          split <;> simp_all
      · simp [htype, leVal, hkey, IStream.read_zero]

/-- A `PUT` record is one segment. -/
theorem readSegment_put {r : WALRecord} (hr : r.Fits) (h : r.type = .put) (rest : Bytes) :
    readSegment ⟨r.raw ++ rest, true⟩ = some (r.lsn, ⟨rest, true⟩) := by
  have hend : segmentEnd r.type.toByte ⟨r.scanned.payload ++ rest, true⟩ = ⟨rest, true⟩ := by
    simp only [segmentEnd, ScannedRecord.payload, WALRecord.scanned, h, true_or, if_true, List.append_assoc,
      readStr_append hr.key, readStr_append hr.value]
  rw [readSegment_eq hr.lsn, hend]
  rfl

/-- The segment of any other record goes on behind it: what follows is read as a string. -/
theorem readSegment_other_eq {r : WALRecord} (hr : r.Fits) (h : r.type ≠ .put) (rest : Bytes) :
    readSegment ⟨r.raw ++ rest, true⟩ =
      if (readStr ⟨rest, true⟩).2.good then some (r.lsn, (readStr ⟨rest, true⟩).2) else none := by
  have hend : segmentEnd r.type.toByte ⟨r.scanned.payload ++ rest, true⟩ = (readStr ⟨rest, true⟩).2 := by
    obtain ⟨lsn, txnId, type, key, value⟩ := r
    cases type with
    | put => exact absurd rfl h
    | delete =>
      have hpayload : (WALRecord.scanned ⟨lsn, txnId, .delete, key, value⟩).payload ++ rest =
          leBytes 2 key.length ++ (key ++ rest) := List.append_assoc ..
      rw [hpayload]
      dsimp only [segmentEnd]
      rw [if_pos (Or.inr rfl), readStr_append hr.key]
    | begin | commit | abort => rfl
  rw [readSegment_eq hr.lsn, hend]

/-- It takes at least two bytes of what follows. -/
theorem readSegment_other {r : WALRecord} (hr : r.Fits) (h : r.type ≠ .put) {rest : Bytes} {lsn : Nat} {f : IStream}
    (hseg : readSegment ⟨r.raw ++ rest, true⟩ = some (lsn, f)) : lsn = r.lsn ∧ f.rest.length < rest.length := by
  rw [readSegment_other_eq hr h] at hseg
  split at hseg
  · rename_i hgood
    cases hseg
    obtain ⟨-, -, hrest⟩ := readStr_good hgood
    refine ⟨rfl, ?_⟩
    have hlen := congrArg List.length hrest
    simp only [List.length_append, length_leBytes] at hlen
    omega
  · cases hseg

/-- The first two bytes, taken for the length of a string, ask for more bytes than there are. -/
def Overruns (rest : Bytes) : Prop := rest.length < 2 + leVal (rest.take 2)

instance (rest : Bytes) : Decidable (Overruns rest) := inferInstanceAs (Decidable (_ < _))

theorem Overruns.readStr {rest : Bytes} (h : Overruns rest) : (readStr ⟨rest, true⟩).2.good = false := by
  by_contra hbad
  have hgood : (Kvdb.readStr ⟨rest, true⟩).2.good = true := by simpa using hbad
  obtain ⟨-, hlt, hrest⟩ := readStr_good hgood
  generalize (Kvdb.readStr ⟨rest, true⟩).1 = str, (Kvdb.readStr ⟨rest, true⟩).2.rest = rest' at hlt hrest
  obtain rfl : rest = leBytes 2 str.length ++ (str ++ rest') := hrest
  rw [Overruns, List.take_left' (length_leBytes ..), leVal_leBytes_of_lt (by omega)] at h
  simp only [List.length_append, length_leBytes] at h
  omega

/-- A record that is not a `PUT` record ends the loop if such bytes follow. -/
theorem readSegment_overruns {r : WALRecord} (hr : r.Fits) (h : r.type ≠ .put) {rest : Bytes} (hover : Overruns rest) :
    readSegment ⟨r.raw ++ rest, true⟩ = none := by
  rw [readSegment_other_eq hr h, hover.readStr]
  rfl

/-! ## The loop -/

/-- A segment takes some bytes from the front of what is left. -/
theorem length_readSegment {f f' : IStream} {lsn : Nat} (h : readSegment f = some (lsn, f')) :
    f'.rest.length < f.rest.length := by
  have hlsn := (f.read 4).2.length_read 8
  have htxn := ((f.read 4).2.read 8).2.length_read 4
  have htype := (((f.read 4).2.read 8).2.read 4).2.length_read 1
  dsimp only [readSegment] at h
  simp only [IStream.ite_read, Option.ite_none_left_eq_some] at h
  obtain ⟨hcrc, -, -, -, -, -, h⟩ := h
  have hgood : (f.read 4).2.good = true := by simpa using hcrc
  have hcrc := IStream.length_read_good hgood
  generalize (((f.read 4).2.read 8).2.read 4).2.read 1 = type at h htype
  have hlen := type.2.length_read 2
  have hkey := (type.2.read 2).2.length_read (leVal (type.2.read 2).1)
  generalize (type.2.read 2).2.read (leVal (type.2.read 2).1) = key at h hkey
  by_cases ht : type.1.headD 0 = RecordType.put.toByte ∨ type.1.headD 0 = RecordType.delete.toByte
  · rw [if_pos ht] at h
    cases h
    have hvlen := key.2.length_read 2
    have hvalue := (key.2.read 2).2.length_read (leVal (key.2.read 2).1)
    omega
  · simp only [if_neg ht, show leVal [] = 0 from rfl, IStream.read_zero] at h
    cases h
    omega

/-- What is left is not longer than what was there. -/
theorem length_truncateLoop (ckpt n : Nat) (f : IStream) : (truncateLoop ckpt n f).length ≤ f.rest.length := by
  induction n generalizing f with
  | zero => exact Nat.zero_le _
  | succ n ih =>
    rw [truncateLoop]
    cases h : readSegment f with
    | none => exact Nat.zero_le _
    | some p =>
      obtain ⟨lsn, f'⟩ := p
      have hle := length_readSegment h
      have hrest := ih f'
      dsimp only
      rw [List.length_append]
      split
      · rw [List.length_take]
        omega
      · rw [List.length_nil]
        omega

/-- One turn of the loop at a `PUT` record. -/
theorem truncateLoop_put {r : WALRecord} (hr : r.Fits) (h : r.type = .put) (ckpt n : Nat) (rest : Bytes) :
    truncateLoop ckpt (n + 1) ⟨r.raw ++ rest, true⟩ =
      (if ckpt < r.lsn then r.raw else []) ++ truncateLoop ckpt n ⟨rest, true⟩ := by
  have htake : (r.raw ++ rest).take ((r.raw ++ rest).length - rest.length) = r.raw := by
    rw [List.length_append, Nat.add_sub_cancel, List.take_left]
  rw [truncateLoop, readSegment_put hr h]
  dsimp only
  rw [htake]

/-- **`PUT` records are kept or dropped one by one.** -/
theorem truncateLoop_puts {puts : List WALRecord} (hfit : ∀ r ∈ puts, r.Fits) (hput : ∀ r ∈ puts, r.type = .put)
    (ckpt n : Nat) (rest : Bytes) :
    truncateLoop ckpt (puts.length + n) ⟨serialize puts ++ rest, true⟩ =
      serialize (puts.filter (ckpt < ·.lsn)) ++ truncateLoop ckpt n ⟨rest, true⟩ := by
  induction puts with
  | nil => rw [List.length_nil, Nat.zero_add]; rfl
  | cons r puts ih =>
    have ih := ih (fun r' h => hfit r' (List.mem_cons_of_mem _ h)) fun r' h => hput r' (List.mem_cons_of_mem _ h)
    have hfuel : (r :: puts).length + n = puts.length + n + 1 := by rw [List.length_cons]; omega
    have hbytes : serialize (r :: puts) ++ rest = r.raw ++ (serialize puts ++ rest) := List.append_assoc ..
    rw [hfuel, hbytes, truncateLoop_put (hfit r List.mem_cons_self) (hput r List.mem_cons_self), ih]
    by_cases hlt : ckpt < r.lsn
    · rw [if_pos hlt, List.filter_cons_of_pos (by simpa using hlt)]
      exact (List.append_assoc ..).symm
    · rw [if_neg hlt, List.filter_cons_of_neg (by simpa using hlt), List.nil_append]

theorem truncateLoop_nil (ckpt n : Nat) : truncateLoop ckpt n ⟨[], true⟩ = [] := by cases n <;> rfl

/-! ## Whole logs -/

/-- The truncated log is made of the records above the checkpoint's LSN. -/
def TruncatesExactly (log : List WALRecord) (ckpt : Nat) : Prop :=
  truncateWAL ckpt (serialize log) = serialize (log.filter (ckpt < ·.lsn))

theorem truncatesExactly_of_puts {log : List WALRecord} (hfit : ∀ r ∈ log, r.Fits) (hput : ∀ r ∈ log, r.type = .put)
    (ckpt : Nat) : TruncatesExactly log ckpt := by
  have hle := length_le_serialize log
  have hloop := truncateLoop_puts hfit hput ckpt ((serialize log).length - log.length) []
  rw [truncateLoop_nil, List.append_nil, List.append_nil, Nat.add_sub_cancel' hle] at hloop
  exact hloop

theorem filter_lsn_eq_nil {log : List WALRecord} {ckpt : Nat} (h : ∀ r ∈ log, r.lsn ≤ ckpt) :
    log.filter (ckpt < ·.lsn) = [] := List.filter_eq_nil_iff.mpr fun r hr => by simpa using h r hr

/-- Records up to the checkpoint's LSN at the front of a log are passed over if they are `PUT` records. -/
theorem truncateWAL_passes {puts : List WALRecord} {ckpt : Nat} (hfit : ∀ r' ∈ puts, r'.Fits)
    (hput : ∀ r' ∈ puts, r'.type = .put) (hle : ∀ r' ∈ puts, r'.lsn ≤ ckpt) (r : WALRecord) (after : List WALRecord) :
    ∃ n, truncateWAL ckpt (serialize (puts ++ r :: after)) =
      truncateLoop ckpt (n + 1) ⟨r.raw ++ serialize after, true⟩ := by
  have hlen := length_le_serialize puts
  have hpos := List.length_pos_of_ne_nil (raw_ne_nil r)
  have happ : (serialize (puts ++ r :: after)).length =
      (serialize puts).length + (r.raw.length + (serialize after).length) := by
    rw [serialize_append, List.length_append]
    exact congrArg _ List.length_append
  obtain ⟨n, hn⟩ : ∃ n, (serialize (puts ++ r :: after)).length = puts.length + (n + 1) :=
    ⟨(serialize (puts ++ r :: after)).length - puts.length - 1, by omega⟩
  refine ⟨n, ?_⟩
  rw [truncateWAL, hn, serialize_append, truncateLoop_puts hfit hput, filter_lsn_eq_nil hle]
  rfl

section NotPut

variable {puts : List WALRecord} {r : WALRecord}

/-- Nothing is left of a log in which the loop ends at the first record that is not a `PUT` record. What is behind it is
not looked at. -/
theorem truncateWAL_overruns {ckpt : Nat} {after : List WALRecord} (hfit : ∀ r' ∈ puts, r'.Fits)
    (hput : ∀ r' ∈ puts, r'.type = .put) (hle : ∀ r' ∈ puts, r'.lsn ≤ ckpt) (hfitr : r.Fits) (hr : r.type ≠ .put)
    (hover : Overruns (serialize after)) : truncateWAL ckpt (serialize (puts ++ r :: after)) = [] := by
  obtain ⟨n, hn⟩ := truncateWAL_passes hfit hput hle r after
  rw [hn, truncateLoop, readSegment_overruns hfitr hr hover]

-- behind the `BEGIN` record of a short transaction
example : Overruns (serialize [⟨2, 1, .put, [97], [49]⟩, ⟨3, 1, .commit, [], []⟩]) := by decide +kernel

/-- A last record that is not a `PUT` record is dropped although the checkpoint is before it. -/
theorem not_truncatesExactly_last (hfit : ∀ r' ∈ puts, r'.Fits) (hfitr : r.Fits) (hput : ∀ r' ∈ puts, r'.type = .put)
    (hr : r.type ≠ .put) (hlt : ∀ r' ∈ puts, r'.lsn < r.lsn) (hpos : 0 < r.lsn) :
    ¬ TruncatesExactly (puts ++ [r]) (r.lsn - 1) := by
  intro hex
  have hle : ∀ r' ∈ puts, r'.lsn ≤ r.lsn - 1 := fun r' hr' => Nat.le_sub_one_of_lt (hlt r' hr')
  have hkeep : (puts ++ [r]).filter (r.lsn - 1 < ·.lsn) = [r] := by
    rw [List.filter_append, filter_lsn_eq_nil hle, List.nil_append, List.filter_cons_of_pos (by simp; omega),
      List.filter_nil]
  rw [TruncatesExactly, truncateWAL_overruns hfit hput hle hfitr hr (by decide), hkeep] at hex
  exact raw_ne_nil r (by simpa [serialize] using hex.symm)

/-- A record that is not a `PUT` record is dropped together with bytes of the next one. -/
theorem not_truncatesExactly_cons (hfit : ∀ r' ∈ puts, r'.Fits) (hfitr : r.Fits) (hput : ∀ r' ∈ puts, r'.type = .put)
    (hr : r.type ≠ .put) (hlt : ∀ r' ∈ puts, r'.lsn < r.lsn) {x : WALRecord} {xs : List WALRecord}
    (hgt : ∀ r' ∈ x :: xs, r.lsn < r'.lsn) : ¬ TruncatesExactly (puts ++ r :: x :: xs) r.lsn := by
  intro hex
  have hle : ∀ r' ∈ puts, r'.lsn ≤ r.lsn := fun r' hr' => Nat.le_of_lt (hlt r' hr')
  have hkeep : (puts ++ r :: x :: xs).filter (r.lsn < ·.lsn) = x :: xs := by
    rw [List.filter_append, filter_lsn_eq_nil hle, List.nil_append, List.filter_cons_of_neg (by simp),
      List.filter_eq_self.mpr fun r' hr' => by simpa using hgt r' hr']
  obtain ⟨n, hn⟩ := truncateWAL_passes hfit hput hle r (x :: xs)
  have hlen := length_le_serialize (x :: xs)
  rw [TruncatesExactly, hn, hkeep, truncateLoop] at hex
  cases hseg : readSegment ⟨r.raw ++ serialize (x :: xs), true⟩ with
  | none =>
    rw [hseg] at hex
    rw [← hex] at hlen
    simp at hlen
  | some p =>
    obtain ⟨lsn, f⟩ := p
    obtain ⟨rfl, hshort⟩ := readSegment_other hfitr hr hseg
    have hloop := length_truncateLoop r.lsn n f
    rw [hseg] at hex
    dsimp only at hex
    rw [if_neg (Nat.lt_irrefl _), List.nil_append] at hex
    rw [hex] at hloop
    omega

/-- Truncation does not keep what it should when there is a record that is not a `PUT` record. -/
theorem not_truncatesExactly {after : List WALRecord} (hfit : ∀ r' ∈ puts ++ r :: after, r'.Fits)
    (hput : ∀ r' ∈ puts, r'.type = .put) (hr : r.type ≠ .put)
    (hsorted : (puts ++ r :: after).Pairwise fun a b => a.lsn < b.lsn) (hpos : 0 < r.lsn) :
    ∃ ckpt, ¬ TruncatesExactly (puts ++ r :: after) ckpt := by
  obtain ⟨-, hafter, hbefore⟩ := List.pairwise_append.mp hsorted
  have hlt : ∀ r' ∈ puts, r'.lsn < r.lsn := fun r' hr' => hbefore r' hr' r List.mem_cons_self
  have hfitr : r.Fits := hfit r (List.mem_append_right _ List.mem_cons_self)
  have hfitp : ∀ r' ∈ puts, r'.Fits := fun r' hr' => hfit r' (List.mem_append_left _ hr')
  cases after with
  | nil => exact ⟨_, not_truncatesExactly_last hfitp hfitr hput hr hlt hpos⟩
  | cons x xs => exact ⟨_, not_truncatesExactly_cons hfitp hfitr hput hr hlt (List.pairwise_cons.mp hafter).1⟩

end NotPut

/-- **Truncation keeps exactly the tail** of a log of `PUT` records. Of the logs with increasing LSNs, it does so for
every checkpoint LSN for no others. -/
theorem truncation_exact {log : List WALRecord} (hfit : ∀ r ∈ log, r.Fits) :
    ((∀ r ∈ log, r.type = .put) → ∀ ckpt, TruncatesExactly log ckpt) ∧
    ((log.Pairwise fun a b => a.lsn < b.lsn) → (∀ r ∈ log, 0 < r.lsn) → (∀ ckpt, TruncatesExactly log ckpt) →
      ∀ r ∈ log, r.type = .put) := by
  refine ⟨fun hput => truncatesExactly_of_puts hfit hput, fun hsorted hpos hex => ?_⟩
  cases hfind : log.find? (·.type ≠ .put) with
  | none => exact fun r hr => by simpa using List.find?_eq_none.mp hfind r hr
  | some r =>
    -- the first record that is not a `PUT` record
    obtain ⟨hr, puts, after, rfl, hput⟩ := List.find?_eq_some_iff_append.mp hfind
    obtain ⟨ckpt, hno⟩ := not_truncatesExactly hfit (fun r' hr' => by simpa using hput r' hr') (by simpa using hr)
      hsorted (hpos r (List.mem_append_right _ List.mem_cons_self))
    exact absurd (hex ckpt) hno

/-- Two puts, of which the first is dropped. -/
theorem truncation_exact_two :
    TruncatesExactly [⟨1, 1, .put, [97], [49]⟩, ⟨2, 1, .put, [98], [50]⟩] 1 := by
  have hfit : ∀ r ∈ ([⟨1, 1, .put, [97], [49]⟩, ⟨2, 1, .put, [98], [50]⟩] : List WALRecord), r.Fits := by decide
  exact (truncation_exact hfit).1 (by decide) 1

/-- The log of one transaction that puts a key, and a checkpoint before it: nothing is left. -/
theorem truncation_drops_all : truncateWAL 0 (serialize
    [⟨1, 1, .begin, [], []⟩, ⟨2, 1, .put, [97], [49]⟩, ⟨3, 1, .commit, [], []⟩]) = [] ∧
    ¬ TruncatesExactly [⟨1, 1, .begin, [], []⟩, ⟨2, 1, .put, [97], [49]⟩, ⟨3, 1, .commit, [], []⟩] 0 := by
  have hnil : truncateWAL 0 (serialize
      [⟨1, 1, .begin, [], []⟩, ⟨2, 1, .put, [97], [49]⟩, ⟨3, 1, .commit, [], []⟩]) = [] := by decide +kernel
  refine ⟨hnil, fun hex => ?_⟩
  rw [TruncatesExactly, hnil] at hex
  revert hex
  decide +kernel

end Kvdb
