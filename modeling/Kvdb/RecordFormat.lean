import Kvdb.Lib.Frames
import Kvdb.Lib.ShiftRegister
import Kvdb.Recovery

/-!
# The record format: writer against reader

`serializeRecord` and the record loop of `recover` were written apart from each other. Here they meet: what the writer
produces for a record is `ScannedRecord.bytes` (`serializeRecord_eq`), the loop takes exactly such bytes off the front
of the file (`recordCodec`), and so everything known about self-delimiting frames holds of log files
(`acceptedRecords_eq`).

The format holds a record when its LSN has 64 bits and its strings have less than `2 ^ 16` bytes (`Fits`). The writer
does not check either, and a log is read back only when all its strings are short (`log_read_back_iff`). The reader is
sound: it accepts nothing but records as the writer writes them, also in a file that is cut (`accepted_records_genuine`,
`torn_write_tolerated`). The CRC tells apart two bodies that differ in no more than four bytes in a row, so the reader
stops at a record that is damaged in this way (`burst_rejected`).
-/

namespace Kvdb

/-! ## What the writer writes -/

theorem foldl_push {α β : Type} (f : α → β) (b : List β) (xs : List α) :
    xs.foldl (fun b x => b ++ [f x]) b = b ++ xs.map f := by
  induction xs generalizing b with
  | nil => simp
  | cons x xs ih => simp [ih]

theorem appendU64_eq (b : Bytes) (v : Nat) : appendU64 b v = b ++ leBytes 8 v := by
  rw [appendU64, foldl_push, ← shiftBytes_eq]
  rfl

theorem appendU32_eq (b : Bytes) (v : UInt32) : appendU32 b v = b ++ leBytes 4 v.toNat := by
  rw [appendU32, foldl_push, ← shiftBytes_eq]
  rfl

/-- The cast to `uint16_t` does not change the two bytes that are written. -/
theorem appendStr_eq (b s : Bytes) : appendStr b s = b ++ leBytes 2 s.length ++ s := by
  have hlow : UInt8.ofNat (s.length % 2 ^ 16) = UInt8.ofNat s.length := by
    apply UInt8.toNat_inj.mp
    rw [UInt8.toNat_ofNat', UInt8.toNat_ofNat']
    omega
  have hhigh : UInt8.ofNat ((s.length % 2 ^ 16) >>> 8) = UInt8.ofNat (s.length / 256) := by
    apply UInt8.toNat_inj.mp
    rw [UInt8.toNat_ofNat', UInt8.toNat_ofNat', Nat.shiftRight_eq_div_pow]
    omega
  simp only [appendStr, ofNat_mask, hlow, hhigh, leBytes]

/-- The strings of a record, as its type has them. -/
def ScannedRecord.payload (r : ScannedRecord) : Bytes :=
  if r.type = RecordType.put.toByte then leBytes 2 r.key.length ++ r.key ++ leBytes 2 r.value.length ++ r.value
  else if r.type = RecordType.delete.toByte then leBytes 2 r.key.length ++ r.key
  else []

/-- The bytes of a record in a log file. -/
def ScannedRecord.bytes (r : ScannedRecord) : Bytes := leBytes 4 (crc32 r.body).toNat ++ r.body

theorem ScannedRecord.body_eq (r : ScannedRecord) :
    r.body = leBytes 8 r.lsn ++ leBytes 4 r.txnId.toNat ++ [r.type] ++ r.payload := by
  unfold body payload
  split
  · simp
  · split <;> simp

theorem recordBody_eq (lsn : Nat) (txnId : TxnId) (type : UInt8) (key : Key) (value : Value) :
    recordBody lsn txnId type key value = (ScannedRecord.mk lsn txnId type key value).body := by
  simp only [recordBody, ScannedRecord.body, appendU64_eq, appendU32_eq, appendStr_eq, List.nil_append]

theorem serializeRecord_eq (lsn : Nat) (txnId : TxnId) (type : UInt8) (key : Key) (value : Value) :
    serializeRecord lsn txnId type key value = (ScannedRecord.mk lsn txnId type key value).bytes := by
  rw [serializeRecord, appendU32_eq, recordBody_eq]
  rfl

theorem WALRecord.raw_eq (r : WALRecord) : r.raw = r.scanned.bytes := serializeRecord_eq ..

/-- A record is at least its 17 bytes of CRC, LSN, transaction id and type. -/
theorem ScannedRecord.length_bytes (r : ScannedRecord) : r.bytes.length = 17 + r.payload.length := by
  simp only [bytes, body_eq, List.length_append, length_leBytes, List.length_singleton]
  omega

/-! ## What the CRC tells apart -/

/-- The polynomial of `crc32`. -/
def crcPolynomial : BitVec 32 := 0xEDB88320

theorem crcBit_toBitVec (crc : UInt32) : (crcBit crc).toBitVec = ShiftRegister.shift crcPolynomial crc.toBitVec := by
  have hbit : (crc &&& 1 = 0) ↔ crc.toBitVec.getLsbD 0 = false := by
    rw [← UInt32.toBitVec_inj, UInt32.toBitVec_and, UInt32.toBitVec_one, BitVec.and_one_eq_setWidth_ofBool_getLsbD]
    cases crc.toBitVec.getLsbD 0 <;> decide
  unfold crcBit ShiftRegister.shift
  cases h : crc.toBitVec.getLsbD 0 with
  | false => rw [if_neg (by rw [not_not]; exact hbit.mpr h)]; rfl
  | true =>
    have hne : crc &&& 1 ≠ 0 := fun h0 => by rw [hbit.mp h0] at h; cases h
    rw [if_pos hne]
    rfl

theorem crcByte_toBitVec (crc : UInt32) (c : UInt8) :
    (crcByte crc c).toBitVec = ShiftRegister.absorb crcPolynomial crc.toBitVec c := by
  have hiter : crcByte crc c = crcBit^[8] (crc ^^^ c.toUInt32) := rfl
  have hsemi : Function.Semiconj UInt32.toBitVec crcBit (ShiftRegister.shift crcPolynomial) := crcBit_toBitVec
  rw [hiter, (hsemi.iterate_right 8).eq, UInt32.toBitVec_xor]
  rfl

theorem foldl_crcByte_toBitVec (bs : Bytes) (crc : UInt32) :
    (bs.foldl crcByte crc).toBitVec = bs.foldl (ShiftRegister.absorb crcPolynomial) crc.toBitVec := by
  induction bs generalizing crc with
  | nil => rfl
  | cons b bs ih => rw [List.foldl_cons, List.foldl_cons, ih, crcByte_toBitVec]

/-- **The CRC tells apart** two byte strings that differ in no more than four bytes in a row. -/
theorem crc32_window {pre post us vs : Bytes} (hlen : us.length = vs.length) (hshort : us.length ≤ 4)
    (h : crc32 (pre ++ us ++ post) = crc32 (pre ++ vs ++ post)) : us = vs := by
  have htop : crcPolynomial.getLsbD (32 - 1) = true := by decide
  have hcrc := congrArg UInt32.toBitVec (UInt32.not_inj.mp h)
  simp only [List.foldl_append, foldl_crcByte_toBitVec] at hcrc
  exact ShiftRegister.foldl_absorb_injective htop _ hlen (by omega) (ShiftRegister.foldl_absorb_state htop _ hcrc)

/-- Two byte strings that differ in one word only have different CRCs. -/
theorem crc32_word {pre post : Bytes} {t u : UInt32}
    (h : crc32 (pre ++ leBytes 4 t.toNat ++ post) = crc32 (pre ++ leBytes 4 u.toNat ++ post)) : t = u := by
  have hbytes : leBytes 4 t.toNat = leBytes 4 u.toNat := crc32_window (by simp) (by simp) h
  have hval : ∀ t : UInt32, leVal (leBytes 4 t.toNat) = t.toNat := fun t =>
    leVal_leBytes_of_lt (by simpa using t.toNat_lt)
  rw [← UInt32.toNat_inj, ← hval t, ← hval u, hbytes]

/-! ## What the reader accepts -/

/-- The records that the format can hold: the fields fit their widths, and a string that the type does not have is
empty. -/
structure ScannedRecord.Fits (r : ScannedRecord) : Prop where
  lsn : r.lsn < 2 ^ 64
  key : r.key.length < 2 ^ 16
  value : r.value.length < 2 ^ 16
  noKey : r.type ≠ RecordType.put.toByte → r.type ≠ RecordType.delete.toByte → r.key = []
  noValue : r.type ≠ RecordType.put.toByte → r.value = []

theorem readStr_append {s : Bytes} (h : s.length < 2 ^ 16) (rest : Bytes) :
    readStr ⟨leBytes 2 s.length ++ (s ++ rest), true⟩ = (s, ⟨rest, true⟩) := by
  rw [readStr, IStream.read_append (length_leBytes 2 s.length)]
  exact IStream.read_append (leVal_leBytes_of_lt (by omega)).symm rest

theorem readStr_good {f : IStream} (h : (readStr f).2.good = true) :
    f.good = true ∧ (readStr f).1.length < 2 ^ 16 ∧
      f.rest = leBytes 2 (readStr f).1.length ++ ((readStr f).1 ++ (readStr f).2.rest) := by
  obtain ⟨hlen, hl, hr⟩ := IStream.read_good h
  obtain ⟨hf, hl2, hr2⟩ := IStream.read_good hlen
  have hlt := leVal_lt (f.read 2).1
  rw [hl2] at hlt
  have hbytes : leBytes 2 (readStr f).1.length = (f.read 2).1 := by
    have hinv := leBytes_leVal (f.read 2).1
    rw [hl2] at hinv
    rw [show (readStr f).1.length = leVal (f.read 2).1 from hl, hinv]
  refine ⟨hf, ?_, ?_⟩
  · rw [show (readStr f).1.length = leVal (f.read 2).1 from hl]
    omega
  · rw [hbytes, hr2]
    exact congrArg _ hr

theorem readPayload_append {r : ScannedRecord} (h : r.Fits) (rest : Bytes) :
    readPayload r.type ⟨r.payload ++ rest, true⟩ = (r.key, r.value, ⟨rest, true⟩) := by
  unfold readPayload ScannedRecord.payload
  split
  · simp only [List.append_assoc, readStr_append h.key, readStr_append h.value]
  · rename_i hput
    rw [h.noValue hput]
    split
    · simp only [List.append_assoc, readStr_append h.key]
    · rename_i hdel
      rw [h.noKey hput hdel]
      rfl

/-- What a payload that was read completely says about the bytes. -/
theorem readPayload_good {type : UInt8} {f : IStream} (h : (readPayload type f).2.2.good = true) (lsn : Nat)
    (hlsn : lsn < 2 ^ 64) (txnId : TxnId) :
    (ScannedRecord.mk lsn txnId type (readPayload type f).1 (readPayload type f).2.1).Fits ∧ f.good = true ∧
      f.rest = (ScannedRecord.mk lsn txnId type (readPayload type f).1 (readPayload type f).2.1).payload ++
        (readPayload type f).2.2.rest := by
  dsimp only [readPayload, ScannedRecord.payload] at h ⊢
  split at h
  · rename_i hput
    simp only [if_pos hput]
    obtain ⟨hk, hvl, hvr⟩ := readStr_good h
    obtain ⟨hf, hkl, hkr⟩ := readStr_good hk
    refine ⟨⟨hlsn, hkl, hvl, fun h => absurd hput h, fun h => absurd hput h⟩, hf, ?_⟩
    rw [hkr, hvr]
    simp
  · rename_i hput
    split at h
    · rename_i hdel
      simp only [if_neg hput, if_pos hdel]
      obtain ⟨hf, hkl, hkr⟩ := readStr_good h
      refine ⟨⟨hlsn, hkl, by simp, fun _ h => absurd hdel h, fun _ => rfl⟩, hf, ?_⟩
      rw [hkr]
      simp
    · rename_i hdel
      simp only [if_neg hput, if_neg hdel]
      exact ⟨⟨hlsn, by simp, by simp, fun _ _ => rfl, fun _ => rfl⟩, h, rfl⟩

/-- A body is read back whatever its CRC says, and then taken or not. -/
theorem readRecord_body {r : ScannedRecord} (h : r.Fits) (crc : UInt32) (rest : Bytes) :
    readRecord ⟨leBytes 4 crc.toNat ++ r.body ++ rest, true⟩ =
      if crc = crc32 r.body then some (r, ⟨rest, true⟩) else none := by
  have hcrc : leVal (leBytes 4 crc.toNat) = crc.toNat := leVal_leBytes_of_lt (by simpa using crc.toNat_lt)
  have hlsn : leVal (leBytes 8 r.lsn) = r.lsn := leVal_leBytes_of_lt (by have := h.lsn; omega)
  have htxn : UInt32.ofNat (leVal (leBytes 4 r.txnId.toNat)) = r.txnId := by
    rw [leVal_leBytes_of_lt (by simpa using r.txnId.toNat_lt), UInt32.ofNat_toNat]
  have hbytes : leBytes 4 crc.toNat ++ r.body ++ rest = leBytes 4 crc.toNat ++ (leBytes 8 r.lsn ++
      (leBytes 4 r.txnId.toNat ++ ([r.type] ++ (r.payload ++ rest)))) := by
    conv_lhs => rw [ScannedRecord.body_eq]
    simp
  rw [hbytes]
  dsimp only [readRecord]
  simp only [IStream.read_append (length_leBytes 4 _), IStream.read_append (length_leBytes 8 _),
    IStream.read_append (show [r.type].length = 1 from rfl), List.headD_cons, readPayload_append h, hlsn, htxn, hcrc]
  by_cases heq : crc = crc32 r.body
  · simp [heq]
  · have hne : crc.toNat ≠ (crc32 r.body).toNat := fun hn => heq (UInt32.toNat_inj.mp hn)
    simp [heq, hne]

theorem readRecord_bytes {r : ScannedRecord} (h : r.Fits) (rest : Bytes) :
    readRecord ⟨r.bytes ++ rest, true⟩ = some (r, ⟨rest, true⟩) := by
  rw [ScannedRecord.bytes, readRecord_body h, if_pos rfl]

theorem singleton_headD {bs : Bytes} (h : bs.length = 1) : [bs.headD 0] = bs := by
  obtain ⟨b, rfl⟩ := List.length_eq_one_iff.mp h
  rfl

theorem readRecord_some {bs : Bytes} {r : ScannedRecord} {f : IStream} (h : readRecord ⟨bs, true⟩ = some (r, f)) :
    r.Fits ∧ f.good = true ∧ bs = r.bytes ++ f.rest := by
  dsimp only [readRecord] at h
  split at h
  · cases h
  split at h
  · cases h
  rename_i htype
  split at h
  · cases h
  rename_i hpay
  split at h
  · cases h
  rename_i hcrc
  simp only [Bool.not_eq_true, Bool.not_eq_false'] at htype hpay
  simp only [Option.some.injEq, Prod.mk.injEq] at h
  obtain ⟨rfl, rfl⟩ := h
  obtain ⟨ht, htl, htr⟩ := IStream.read_good htype
  obtain ⟨hx, hxl, hxr⟩ := IStream.read_good ht
  obtain ⟨hl, hll, hlr⟩ := IStream.read_good hx
  obtain ⟨-, hcl, hcr⟩ := IStream.read_good hl
  have hlsn := leVal_lt ((IStream.read ⟨bs, true⟩ 4).2.read 8).1
  rw [hll] at hlsn
  obtain ⟨hfits, -, hpr⟩ := readPayload_good hpay _ hlsn (UInt32.ofNat (leVal _))
  refine ⟨hfits, hpay, ?_⟩
  -- each of the five parts is the encoding of what was read from it
  have hc := leBytes_leVal (IStream.read ⟨bs, true⟩ 4).1
  rw [hcl, not_not.mp hcrc] at hc
  have hlb := leBytes_leVal ((IStream.read ⟨bs, true⟩ 4).2.read 8).1
  rw [hll] at hlb
  have hxb := leBytes_leVal (((IStream.read ⟨bs, true⟩ 4).2.read 8).2.read 4).1
  have hxlt := leVal_lt (((IStream.read ⟨bs, true⟩ 4).2.read 8).2.read 4).1
  rw [hxl] at hxb hxlt
  have htb := singleton_headD htl
  rw [ScannedRecord.bytes, hc]
  rw [ScannedRecord.body_eq]
  dsimp only
  rw [hlb, UInt32.toNat_ofNat_of_lt' hxlt, hxb, htb]
  simp only [List.append_assoc]
  rw [← hpr, ← htr, ← hxr, ← hlr]
  exact hcr

/-! ## The format as a codec -/

/-- The record loop takes records off the front of the file as a codec does. -/
def recordCodec : Codec ScannedRecord UInt8 where
  enc := ScannedRecord.bytes
  dec bs := (readRecord ⟨bs, true⟩).map fun p => (p.1, p.2.rest)
  ok := ScannedRecord.Fits
  enc_ne_nil r h := by
    have hl := r.length_bytes
    rw [h] at hl
    simp at hl
    omega
  dec_enc h rest := by rw [readRecord_bytes h]; rfl
  enc_dec h := by
    obtain ⟨p, hp, he⟩ := Option.map_eq_some_iff.mp h
    simp only [Prod.mk.injEq] at he
    obtain ⟨rfl, rfl⟩ := he
    obtain ⟨h1, -, h2⟩ := readRecord_some hp
    exact ⟨h1, h2⟩

theorem recordLoop_eq (n : Nat) (bs : Bytes) : recordLoop n ⟨bs, true⟩ = (recordCodec.scanFuel n bs).1 := by
  induction n generalizing bs with
  | zero => rfl
  | succ n ih =>
    cases h : readRecord ⟨bs, true⟩ with
    | none => simp [recordLoop, Codec.scanFuel, recordCodec, h]
    | some p =>
      obtain ⟨r, f⟩ := p
      obtain ⟨-, hg, -⟩ := readRecord_some h
      obtain ⟨rest, _⟩ := f
      subst hg
      simp only [recordLoop, h, ih, Codec.scanFuel, recordCodec, Option.map_some]

/-- **The accepted records are the frames of the file.** -/
theorem acceptedRecords_eq (file : Bytes) : acceptedRecords file = (recordCodec.scan file).1 := recordLoop_eq ..

/-! ## Any file -/

/-- The writer's encoding of a record that was read. -/
def ScannedRecord.serialized (r : ScannedRecord) : Bytes := serializeRecord r.lsn r.txnId r.type r.key r.value

theorem ScannedRecord.serialized_eq (r : ScannedRecord) : r.serialized = recordCodec.enc r := serializeRecord_eq ..

theorem flatMap_serialized (rs : List ScannedRecord) :
    rs.flatMap ScannedRecord.serialized = recordCodec.encode rs := by
  rw [Codec.encode, funext ScannedRecord.serialized_eq]

theorem acceptedRecords_fits {file : Bytes} {r : ScannedRecord} (h : r ∈ acceptedRecords file) : r.Fits := by
  rw [acceptedRecords_eq] at h
  exact (Codec.scan_sound (C := recordCodec) file).2.1 r h

/-- **Only genuine records are accepted**: every file begins with the writer's encoding of the records that the loop
accepts in it. -/
theorem accepted_records_genuine (file : Bytes) : (acceptedRecords file).flatMap ScannedRecord.serialized <+: file := by
  rw [flatMap_serialized, acceptedRecords_eq]
  exact ⟨_, (Codec.scan_sound (C := recordCodec) file).1.symm⟩

/-! ## Bursts -/

/-- Two byte strings of the same length that differ, and do so within four bytes in a row. -/
def Burst (a b : Bytes) : Prop :=
  a.length = b.length ∧ a ≠ b ∧ ∃ n, a.take n = b.take n ∧ a.drop (n + 4) = b.drop (n + 4)

theorem crc32_ne_of_burst {a b : Bytes} (h : Burst a b) : crc32 a ≠ crc32 b := by
  obtain ⟨hlen, hne, n, htake, hdrop⟩ := h
  have hsplit : ∀ bs : Bytes, bs.take n ++ (bs.drop n).take 4 ++ bs.drop (n + 4) = bs := by
    intro bs
    rw [← List.drop_drop, List.append_assoc, List.take_append_drop, List.take_append_drop]
  intro heq
  have hcrc : crc32 (a.take n ++ (a.drop n).take 4 ++ a.drop (n + 4)) =
      crc32 (a.take n ++ (b.drop n).take 4 ++ a.drop (n + 4)) := by
    rw [hsplit a, htake, hdrop, hsplit b]
    exact heq
  have hwindow : (a.drop n).take 4 = (b.drop n).take 4 :=
    crc32_window (by simp [hlen]) (List.length_take_le 4 _) hcrc
  apply hne
  rw [← hsplit a, ← hsplit b, htake, hwindow, hdrop]

/-- The bytes are those of a body with the type and the lengths of `r`: what may differ are the LSN, the transaction id,
the key and the value. -/
def ScannedRecord.SameLayout (r : ScannedRecord) (body : Bytes) : Prop :=
  ∃ lsn txnId key value : Bytes, lsn.length = 8 ∧ txnId.length = 4 ∧ key.length = r.key.length ∧
    value.length = r.value.length ∧
    body = lsn ++ txnId ++ [r.type] ++
      (if r.type = RecordType.put.toByte then
        leBytes 2 r.key.length ++ key ++ leBytes 2 r.value.length ++ value
      else if r.type = RecordType.delete.toByte then leBytes 2 r.key.length ++ key
      else [])

/-- Such bytes are the body of a record. -/
theorem ScannedRecord.SameLayout.exists_record {r : ScannedRecord} {body : Bytes} (h : r.SameLayout body)
    (hfits : r.Fits) : ∃ r' : ScannedRecord, r'.Fits ∧ r'.body = body := by
  obtain ⟨lsn, txnId, key, value, hlsn, htxn, hkey, hvalue, rfl⟩ := h
  have hlsnlt := leVal_lt lsn
  have htxnlt := leVal_lt txnId
  have hlsnb := leBytes_leVal lsn
  have htxnb := leBytes_leVal txnId
  rw [hlsn] at hlsnlt hlsnb
  rw [htxn] at htxnlt htxnb
  refine ⟨⟨leVal lsn, UInt32.ofNat (leVal txnId), r.type, key, value⟩, ⟨hlsnlt, ?_, ?_, ?_, ?_⟩, ?_⟩
  · exact hkey ▸ hfits.key
  · exact hvalue ▸ hfits.value
  · intro hput hdelete
    exact List.length_eq_zero_iff.mp (by rw [hkey, hfits.noKey hput hdelete, List.length_nil])
  · intro hput
    exact List.length_eq_zero_iff.mp (by rw [hvalue, hfits.noValue hput, List.length_nil])
  · rw [body_eq, payload]
    dsimp only
    rw [hlsnb, UInt32.toNat_ofNat_of_lt' htxnlt, htxnb, hkey, hvalue]

/-- **A burst is detected.** The CRC differs on any two byte strings that differ within four bytes in a row. So when the
LSN, the transaction id, the key or the value of a record in a log are damaged in that way, the loop accepts the records
before it and stops. -/
theorem burst_rejected : (∀ a b : Bytes, Burst a b → crc32 a ≠ crc32 b) ∧
    ∀ (before : List ScannedRecord) (r : ScannedRecord) (body rest : Bytes), (∀ x ∈ before, x.Fits) → r.Fits →
      r.SameLayout body → Burst (r.serialized.drop 4) body →
      acceptedRecords (before.flatMap ScannedRecord.serialized ++ (r.serialized.take 4 ++ body) ++ rest) = before := by
  refine ⟨fun a b h => crc32_ne_of_burst h, fun before r body rest hbefore hfits hlayout hburst => ?_⟩
  have hser : r.serialized = leBytes 4 (crc32 r.body).toNat ++ r.body := serializeRecord_eq ..
  have hlen : (leBytes 4 (crc32 r.body).toNat).length = 4 := length_leBytes 4 _
  rw [hser, List.drop_left' hlen] at hburst
  rw [hser, List.take_left' hlen, flatMap_serialized, acceptedRecords_eq, List.append_assoc,
    Codec.scan_encode (show ∀ x ∈ before, recordCodec.ok x from hbefore)]
  obtain ⟨r', hfits', rfl⟩ := hlayout.exists_record hfits
  have hdec : recordCodec.dec (leBytes 4 (crc32 r.body).toNat ++ r'.body ++ rest) = none := by
    show (readRecord _).map _ = none
    rw [readRecord_body hfits', if_neg (crc32_ne_of_burst hburst), Option.map_none]
  rw [Codec.scan_none hdec, List.append_nil]

/-- The value of a logged `PUT` has changed: the record before it is accepted, and no other. -/
theorem burst_rejected_value : acceptedRecords ([⟨1, 1, 1, [], []⟩].flatMap ScannedRecord.serialized ++
      ((ScannedRecord.mk 2 1 2 [97] [49]).serialized.take 4 ++ (ScannedRecord.mk 2 1 2 [97] [50]).body) ++
      (ScannedRecord.mk 3 1 4 [] []).serialized) = [⟨1, 1, 1, [], []⟩] := by
  refine burst_rejected.2 _ _ _ _ (fun x hx => ?_) ?_ ⟨leBytes 8 2, leBytes 4 1, [97], [50], ?_⟩ ⟨?_, ?_, 15, ?_⟩
  · rw [List.mem_singleton.mp hx]
    exact ⟨by decide, by decide, by decide, fun _ _ => rfl, fun _ => rfl⟩
  · exact ⟨by decide, by decide, by decide, fun h => absurd rfl h, fun h => absurd rfl h⟩
  all_goals decide +kernel

/-- Records with the offsets at which they end, for a file that begins at offset `n`. -/
def recordEnds : Nat → List ScannedRecord → List (ScannedRecord × Nat)
  | _, [] => []
  | n, r :: rs => (r, n + r.serialized.length) :: recordEnds (n + r.serialized.length) rs

theorem recordEnds_eq (n : Nat) (rs : List ScannedRecord) : recordEnds n rs = recordCodec.ends n rs := by
  induction rs generalizing n with
  | nil => rfl
  | cons r rs ih => rw [recordEnds, Codec.ends, ih, ScannedRecord.serialized_eq]

/-- **Torn writes**: of a file that is cut anywhere, the loop accepts the records of the whole file that end before the
cut, and no others. -/
theorem torn_write_tolerated (file cut : Bytes) :
    acceptedRecords file =
      ((recordEnds 0 (acceptedRecords (file ++ cut))).filter (·.2 ≤ file.length)).map Prod.fst := by
  have h := Codec.scan_cut (C := recordCodec) file cut 0
  rwa [Nat.zero_add, ← acceptedRecords_eq, ← acceptedRecords_eq, ← recordEnds_eq] at h

/-! ## Logs -/

/-- The bytes of logged records. -/
def serialize (log : List WALRecord) : Bytes := log.flatMap WALRecord.raw

theorem serialize_eq (log : List WALRecord) : serialize log = recordCodec.encode (log.map WALRecord.scanned) := by
  rw [serialize, Codec.encode, List.flatMap_map]
  exact congrArg (log.flatMap ·) (funext WALRecord.raw_eq)

@[simp] theorem serialize_nil : serialize [] = [] := rfl

@[simp] theorem serialize_append (log more : List WALRecord) :
    serialize (log ++ more) = serialize log ++ serialize more := by simp [serialize]

theorem raw_ne_nil (r : WALRecord) : r.raw ≠ [] := by
  rw [WALRecord.raw_eq]
  exact recordCodec.enc_ne_nil _

theorem length_le_serialize (log : List WALRecord) : log.length ≤ (serialize log).length := by
  induction log with
  | nil => exact Nat.zero_le _
  | cons r log ih =>
    have hpos := List.length_pos_of_ne_nil (raw_ne_nil r)
    have happ : (serialize (r :: log)).length = r.raw.length + (serialize log).length := List.length_append
    rw [happ, List.length_cons]
    omega

theorem serialize_take_le {log : List WALRecord} {f f' : Nat} (h : f ≤ f') :
    serialize (log.take f) ++ serialize ((log.take f').drop f) = serialize (log.take f') := by
  rw [← serialize_append]
  congr 1
  conv_rhs => rw [← List.take_append_drop f (log.take f')]
  rw [List.take_take, Nat.min_eq_left h]

theorem length_serialize_take_lt {log : List WALRecord} {m n : Nat} (h : m < n) (hm : m < log.length) :
    (serialize (log.take m)).length < (serialize (log.take n)).length := by
  have hpos := length_le_serialize ((log.take n).drop m)
  rw [← serialize_take_le h.le, List.length_append]
  rw [List.length_drop, List.length_take] at hpos
  omega

/-- A log whose records fit is read back whole. -/
theorem acceptedRecords_serialize {log : List WALRecord} (h : ∀ r ∈ log, r.scanned.Fits) :
    acceptedRecords (serialize log) = log.map WALRecord.scanned := by
  have hok : ∀ r ∈ log.map WALRecord.scanned, recordCodec.ok r := by simpa [recordCodec] using h
  rw [acceptedRecords_eq, serialize_eq, Codec.scan_encode_nil hok]

/-- A record has the strings that its type has. -/
structure WALRecord.WellTyped (r : WALRecord) : Prop where
  noKey : r.type ≠ .put → r.type ≠ .delete → r.key = []
  noValue : r.type ≠ .put → r.value = []

theorem WALRecord.WellTyped.fits {r : WALRecord} (h : r.WellTyped) (hlsn : r.lsn < 2 ^ 64)
    (hk : r.key.length < 2 ^ 16) (hv : r.value.length < 2 ^ 16) : r.scanned.Fits where
  lsn := hlsn
  key := hk
  value := hv
  noKey hp hd := h.noKey (fun he => hp (congrArg RecordType.toByte he)) fun he => hd (congrArg RecordType.toByte he)
  noValue hp := h.noValue fun he => hp (congrArg RecordType.toByte he)

/-! ## The log of any calls -/

/-- The calls of the log manager. -/
inductive LogCall
  | begin (txnId : TxnId)
  | put (txnId : TxnId) (key : Key) (value : Value)
  | delete (txnId : TxnId) (key : Key)
  | commit (txnId : TxnId)
  | abort (txnId : TxnId)
  deriving DecidableEq, Repr

namespace LogCall

def run (wal : WALManager) : LogCall → WALManager × WALRecord
  | .begin t => wal.logBegin t
  | .put t k v => wal.logPut t k v
  | .delete t k => wal.logDelete t k
  | .commit t => wal.logCommit t
  | .abort t => wal.logAbort t

/-- The strings of the call are shorter than 64 KiB. -/
def Short : LogCall → Prop
  | .put _ k v => k.length < 2 ^ 16 ∧ v.length < 2 ^ 16
  | .delete _ k => k.length < 2 ^ 16
  | _ => True

/-- The log manager after the calls, and the records they have logged. -/
def runAll (wal : WALManager) : List LogCall → WALManager × List WALRecord
  | [] => (wal, [])
  | call :: calls => ((runAll (call.run wal).1 calls).1, (call.run wal).2 :: (runAll (call.run wal).1 calls).2)

theorem run_buffer (wal : WALManager) (call : LogCall) :
    (call.run wal).1.buffer = wal.buffer ++ [(call.run wal).2.raw] := by cases call <;> rfl

theorem runAll_buffer (wal : WALManager) (calls : List LogCall) :
    (runAll wal calls).1.buffer = wal.buffer ++ (runAll wal calls).2.map WALRecord.raw := by
  induction calls generalizing wal with
  | nil => simp [runAll]
  | cons call calls ih => rw [runAll, ih, run_buffer, List.append_assoc, List.map_cons, List.singleton_append]

end LogCall

/-- A logged record as its fields hold it: the counter of LSNs is 64 bits wide. -/
def WALRecord.stored (r : WALRecord) : ScannedRecord := { r.scanned with lsn := r.lsn % 2 ^ 64 }

theorem WALRecord.raw_stored (r : WALRecord) : r.raw = r.stored.serialized := by
  have hbody : r.stored.body = r.scanned.body := by
    have hlsn : leBytes 8 (r.lsn % 2 ^ 64) = leBytes 8 r.lsn := leBytes_mod 8 r.lsn
    rw [ScannedRecord.body_eq, ScannedRecord.body_eq, show leBytes 8 r.stored.lsn = leBytes 8 r.scanned.lsn from hlsn]
    rfl
  rw [raw_eq, ScannedRecord.serialized_eq]
  show _ = leBytes 4 (crc32 r.stored.body).toNat ++ r.stored.body
  rw [hbody]
  rfl

theorem LogCall.run_fits_iff (wal : WALManager) (call : LogCall) : (call.run wal).2.stored.Fits ↔ call.Short := by
  have hlsn : (call.run wal).2.lsn % 2 ^ 64 < 2 ^ 64 := Nat.mod_lt _ (by decide)
  have hnil : ([] : Bytes).length < 2 ^ 16 := by decide
  cases call with
  | put t k v =>
    exact ⟨fun h => ⟨h.key, h.value⟩, fun h => ⟨hlsn, h.1, h.2, fun hp => absurd rfl hp, fun hp => absurd rfl hp⟩⟩
  | delete t k => exact ⟨fun h => h.key, fun h => ⟨hlsn, h, hnil, fun _ hd => absurd rfl hd, fun _ => rfl⟩⟩
  | begin | commit | abort => exact ⟨fun _ => trivial, fun _ => ⟨hlsn, hnil, hnil, fun _ _ => rfl, fun _ => rfl⟩⟩

theorem LogCall.runAll_fits_iff (wal : WALManager) (calls : List LogCall) :
    (∀ r ∈ (runAll wal calls).2, r.stored.Fits) ↔ ∀ call ∈ calls, call.Short := by
  induction calls generalizing wal with
  | nil => simp [runAll]
  | cons call calls ih => simp only [runAll, List.forall_mem_cons, run_fits_iff, ih]

/-- **The log of any calls is read back**, all of it, if and only if their strings are shorter than 64 KiB. -/
theorem log_read_back_iff (calls : List LogCall) :
    (acceptedRecords (LogCall.runAll {} calls).1.buffer.flatten = (LogCall.runAll {} calls).2.map WALRecord.stored ∧
      (acceptedRecords (LogCall.runAll {} calls).1.buffer.flatten).flatMap ScannedRecord.serialized =
        (LogCall.runAll {} calls).1.buffer.flatten) ↔ ∀ call ∈ calls, call.Short := by
  have hfile : (LogCall.runAll {} calls).1.buffer.flatten =
      recordCodec.encode ((LogCall.runAll {} calls).2.map WALRecord.stored) := by
    rw [LogCall.runAll_buffer, ← flatMap_serialized, List.flatMap_map]
    exact congrArg ((LogCall.runAll {} calls).2.flatMap ·) (funext WALRecord.raw_stored)
  rw [← LogCall.runAll_fits_iff {} calls]
  constructor
  · rintro ⟨h, -⟩ r hr
    exact acceptedRecords_fits (h ▸ List.mem_map_of_mem hr)
  · intro h
    have hok : ∀ r ∈ (LogCall.runAll {} calls).2.map WALRecord.stored, recordCodec.ok r := by
      simpa [recordCodec] using h
    have hread : acceptedRecords (LogCall.runAll {} calls).1.buffer.flatten =
        (LogCall.runAll {} calls).2.map WALRecord.stored := by
      rw [acceptedRecords_eq, hfile, Codec.scan_encode_nil hok]
    exact ⟨hread, by rw [hread, flatMap_serialized, hfile]⟩

/-- The record of a `PUT` whose key is 64 KiB long is not read back. -/
theorem long_key_not_read_back :
    acceptedRecords (LogCall.runAll {} [.put 1 (List.replicate (2 ^ 16) 97) [49]]).1.buffer.flatten ≠
      (LogCall.runAll {} [.put 1 (List.replicate (2 ^ 16) 97) [49]]).2.map WALRecord.stored := by
  intro h
  have hmem : (⟨1, 1, 2, List.replicate (2 ^ 16) 97, [49]⟩ : ScannedRecord) ∈ acceptedRecords
      (LogCall.runAll {} [.put 1 (List.replicate (2 ^ 16) 97) [49]]).1.buffer.flatten := by
    rw [h]
    exact List.mem_singleton_self _
  have hlen := (acceptedRecords_fits hmem).key
  rw [List.length_replicate] at hlen
  omega

/-! ## A log that goes on after a crash -/

/-- The next lifetime appends the records `log` to what a crash has left in the file. They are read back after the
records of the file if and only if each of them fits the format and the file was made of whole records, or ends in a
torn tail that their bytes happen to repeat. -/
theorem restarted_log_usable_iff (file : Bytes) (log : List WALRecord) :
    acceptedRecords (file ++ serialize log) = acceptedRecords file ++ log.map WALRecord.scanned ↔
      (∀ r ∈ log, r.scanned.Fits) ∧
        (log = [] ∨ recordCodec.Whole file ∨ recordCodec.Echo file (log.map WALRecord.scanned)) := by
  rw [acceptedRecords_eq, acceptedRecords_eq, serialize_eq, Codec.scan_append_encode_iff, List.forall_mem_map,
    List.map_eq_nil_iff]
  rfl

/-- A `BEGIN` record is cut after five bytes; nothing that the next lifetime logs is read back. -/
theorem restarted_log_lost :
    acceptedRecords ((serialize [⟨1, 1, .begin, [], []⟩]).take 5 ++
        serialize [⟨1, 1, .begin, [], []⟩, ⟨2, 1, .put, [97], [49]⟩, ⟨3, 1, .commit, [], []⟩]) ≠
      acceptedRecords ((serialize [⟨1, 1, .begin, [], []⟩]).take 5) ++
        [⟨1, 1, .begin, [], []⟩, ⟨2, 1, .put, [97], [49]⟩, ⟨3, 1, .commit, [], []⟩].map WALRecord.scanned := by
  decide +kernel

end Kvdb
