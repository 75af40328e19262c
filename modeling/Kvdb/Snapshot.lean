import Kvdb.Checkpoint
import Kvdb.LogShape
import Kvdb.RecordFormat

/-!
# Recovery from a snapshot and a log

What `writeSnapshotFile` writes is read back by `loadSnapshot`, in whatever order the entries are copied, as long as the
strings fit their length fields (`loadSnapshot_snapshotBytes`), and not otherwise: all strings that `loadSnapshot` puts
into the store are short (`loadSnapshot_short`). Of a file that is cut behind its header the complete entries are loaded
(`snapshot_all_or_nothing_iff`). Replay skips the records up to the checkpoint's LSN (`replayRecords_filter`); a log
that has lost its beginning still holds the transactions all of whose records it has kept (`Logged.after`). Together
they say what recovery makes of a snapshot and the log behind it (`recover_after`).
-/

namespace Kvdb

open Std

/-! ## Snapshots are read back -/

theorem snapshotStr_eq {str : Bytes} (h : str.length < 2 ^ 16) : snapshotStr str = leBytes 2 str.length ++ str := by
  rw [snapshotStr, Nat.mod_eq_of_lt h, List.take_length]

/-- The entries of a snapshot are self-delimiting frames: two strings behind their lengths. -/
def entryCodec : Codec (Key × Value) UInt8 where
  enc p := snapshotStr p.1 ++ snapshotStr p.2
  dec bs :=
    let key := readStr ⟨bs, true⟩
    let value := readStr key.2
    if value.2.good then some ((key.1, value.1), value.2.rest) else none
  ok p := p.1.length < 2 ^ 16 ∧ p.2.length < 2 ^ 16
  enc_ne_nil p := by
    intro h
    have hlen := congrArg List.length h
    simp [snapshotStr] at hlen
  dec_enc {p} h rest := by
    simp only [snapshotStr_eq h.1, snapshotStr_eq h.2, List.append_assoc, readStr_append h.1, readStr_append h.2]
    rfl
  enc_dec {bs p rest} h := by
    dsimp only at h
    split at h
    · rename_i hgood
      cases h
      obtain ⟨hgood', hvalue, hrest⟩ := readStr_good hgood
      obtain ⟨-, hkey, hbs⟩ := readStr_good hgood'
      refine ⟨⟨hkey, hvalue⟩, ?_⟩
      dsimp only at hbs ⊢
      rw [snapshotStr_eq hkey, snapshotStr_eq hvalue]
      simp only [List.append_assoc]
      rw [← hrest]
      exact hbs
    · cases h

/-- The loop over the entries puts those that are complete, up to the number it has been given. -/
theorem loadEntries_eq (n : Nat) (bs : Bytes) (st : Store) :
    loadEntries n ⟨bs, true⟩ st = ((entryCodec.scan bs).1.take n).foldl (fun st p => st.put p.1 p.2) st := by
  induction n generalizing bs st with
  | zero => rfl
  | succ n ih =>
    rw [loadEntries]
    cases hgood : (readStr (readStr ⟨bs, true⟩).2).2.good with
    | false =>
      have hdec : entryCodec.dec bs = none := if_neg (by rw [hgood]; exact Bool.false_ne_true)
      rw [Codec.scan_none hdec]
      rfl
    | true =>
      have hdec : entryCodec.dec bs = some (_, _) := if_pos hgood
      rw [Codec.scan_some hdec, IStream.eq_of_good hgood]
      exact ih _ _

/-- The loop over the entries takes them off the front of the file. -/
theorem loadEntries_append {entries : List (Key × Value)}
    (h : ∀ p ∈ entries, p.1.length < 2 ^ 16 ∧ p.2.length < 2 ^ 16) (rest : Bytes) (st : Store) :
    loadEntries entries.length
        ⟨(entries.flatMap fun p => snapshotStr p.1 ++ snapshotStr p.2) ++ rest, true⟩ st =
      entries.foldl (fun st p => st.put p.1 p.2) st := by
  rw [loadEntries_eq]
  have hscan := Codec.scan_encode (C := entryCodec) h rest
  rw [show entries.flatMap (fun p => snapshotStr p.1 ++ snapshotStr p.2) = entryCodec.encode entries from rfl, hscan,
    List.take_left]

/-- Putting the entries of a store into an empty one gives the store, in whatever order they come. -/
theorem foldl_put_entries {st : Store} {entries : List (Key × Value)} (h : st.IsEntries entries) :
    entries.foldl (fun (st : Store) p => st.put p.1 p.2) ∅ = st := by
  have hupdate : entries.foldl (fun (st : Store) p => st.put p.1 p.2) ∅ =
      FinMap.update (∅ : Store) (entries.map fun p => (p.1, some p.2)) := by
    rw [FinMap.update, List.foldl_map]
    rfl
  have hkeys : (entries.map fun p => (p.1, some p.2)).map Prod.fst = entries.map Prod.fst := by
    simp [Function.comp_def]
  have hnodup : (entries.map Prod.fst).Nodup := (h.map Prod.fst).nodup_iff.mpr (FinMap.nodup_keys st)
  rw [hupdate]
  refine ExtTreeMap.ext_getElem? fun {k} => ?_
  cases hk : st[k]? with
  | some v =>
    have hmem : (k, v) ∈ entries := h.mem_iff.mpr (ExtTreeMap.mem_toList_iff_getElem?_eq_some.mpr hk)
    have hmem' : (k, some v) ∈ entries.map fun p => (p.1, some p.2) := List.mem_map.mpr ⟨(k, v), hmem, rfl⟩
    exact FinMap.find_update_of_mem (by rw [hkeys]; exact hnodup) hmem' ∅
  | none =>
    have hnot : k ∉ (entries.map fun p => (p.1, some p.2)).map Prod.fst := by
      rw [hkeys]
      intro hmem
      obtain ⟨p, hp, rfl⟩ := List.mem_map.mp hmem
      have := ExtTreeMap.mem_toList_iff_getElem?_eq_some.mp (h.mem_iff.mp hp)
      rw [hk] at this
      cases this
    rw [FinMap.find_update_of_notMem hnot]
    exact ExtTreeMap.getElem?_empty

/-- What is loaded from a snapshot: the numbers of its header, and as many entries as they say. -/
theorem loadSnapshot_eq (lsn : Nat) (entries : List (Key × Value)) (st : Store) :
    loadSnapshot (some (snapshotBytes lsn entries)) st =
      (loadEntries (entries.length % 256 ^ 8) ⟨entries.flatMap fun p => snapshotStr p.1 ++ snapshotStr p.2, true⟩ st,
        lsn % 256 ^ 8) := by
  have hmagic : leVal (leBytes 4 snapshotMagic) = snapshotMagic := leVal_leBytes_of_lt (by decide)
  dsimp only [loadSnapshot]
  simp only [snapshotBytes, List.append_assoc, IStream.read_append (length_leBytes 4 _),
    IStream.read_append (length_leBytes 8 _), hmagic, leVal_leBytes]
  simp

/-- **Snapshots are read back.** -/
theorem loadSnapshot_snapshotBytes {st : Store} {lsn : Nat} {entries : List (Key × Value)} (hlsn : lsn < 2 ^ 64)
    (hcount : entries.length < 2 ^ 64) (hshort : ∀ p ∈ entries, p.1.length < 2 ^ 16 ∧ p.2.length < 2 ^ 16)
    (h : st.IsEntries entries) : loadSnapshot (some (snapshotBytes lsn entries)) ∅ = (st, lsn) := by
  have hload := loadEntries_append hshort [] ∅
  rw [List.append_nil] at hload
  rw [loadSnapshot_eq, Nat.mod_eq_of_lt (by omega), Nat.mod_eq_of_lt (by omega), hload, foldl_put_entries h]

/-! ## Snapshots that are not read back -/

/-- The strings of the store have fewer than `2 ^ 16` bytes. -/
def Store.Short (st : Store) : Prop :=
  ∀ (k : Key) (v : Value), st[k]? = some v → k.length < 2 ^ 16 ∧ v.length < 2 ^ 16

/-- Whatever the file says, the strings that are loaded are short. -/
theorem loadEntries_short : ∀ (n : Nat) (f : IStream) {st : Store}, st.Short → (loadEntries n f st).Short
  | 0, _, _, hst => hst
  | n + 1, f, st, hst => by
    dsimp only [loadEntries]
    split
    · exact hst
    · rename_i hgood
      simp only [Bool.not_eq_true, Bool.not_eq_false'] at hgood
      obtain ⟨hgood', hvalue, -⟩ := readStr_good hgood
      obtain ⟨-, hkey, -⟩ := readStr_good hgood'
      refine loadEntries_short n _ fun k v hkv => ?_
      rw [Store.put, FinMap.find_insert] at hkv
      split at hkv
      · rename_i hk
        cases hkv
        exact ⟨hk ▸ hkey, hvalue⟩
      · exact hst k v hkv

/-- Every turn of the loop adds one entry at most. -/
theorem size_loadEntries : ∀ (n : Nat) (f : IStream) (st : Store), (loadEntries n f st).size ≤ st.size + n
  | 0, _, _ => Nat.le_refl _
  | n + 1, f, st => by
    dsimp only [loadEntries]
    split
    · exact Nat.le_add_right _ _
    · refine Nat.le_trans (size_loadEntries n _ _) ?_
      have hput : (st.put (readStr f).1 (readStr (readStr f).2).1).size ≤ st.size + 1 := ExtTreeMap.size_insert_le
      omega

theorem loadSnapshot_short (lsn : Nat) (entries : List (Key × Value)) :
    (loadSnapshot (some (snapshotBytes lsn entries)) ∅).1.Short := by
  rw [loadSnapshot_eq]
  refine loadEntries_short _ _ fun k v hkv => ?_
  rw [ExtTreeMap.getElem?_empty] at hkv
  cases hkv

/-- **A snapshot is read back** if and only if the numbers in it fit their 64 bits and its strings are shorter than
64 KiB, in whatever order the entries are copied. -/
theorem snapshot_read_back_iff {st : Store} {entries : List (Key × Value)} (h : st.IsEntries entries) (lsn : Nat) :
    loadSnapshot (some (snapshotBytes lsn entries)) ∅ = (st, lsn) ↔
      lsn < 2 ^ 64 ∧ entries.length < 2 ^ 64 ∧ ∀ p ∈ entries, p.1.length < 2 ^ 16 ∧ p.2.length < 2 ^ 16 := by
  refine ⟨fun hload => ⟨?_, ?_, fun p hp => ?_⟩, fun ⟨hlsn, hcount, hshort⟩ =>
    loadSnapshot_snapshotBytes hlsn hcount hshort h⟩
  · rw [loadSnapshot_eq] at hload
    have hlsn : lsn % 256 ^ 8 = lsn := (Prod.mk.inj hload).2
    have hlt := Nat.mod_lt lsn (show 0 < 256 ^ 8 by decide)
    omega
  · -- as many entries as the header says are loaded, and the store has that many
    rw [loadSnapshot_eq] at hload
    have hsize := size_loadEntries (entries.length % 256 ^ 8)
      ⟨entries.flatMap fun p => snapshotStr p.1 ++ snapshotStr p.2, true⟩ ∅
    rw [(Prod.mk.inj hload).1, ExtTreeMap.size_empty, ← ExtTreeMap.length_toList, ← h.length_eq] at hsize
    have hlt := Nat.mod_lt entries.length (show 0 < 256 ^ 8 by decide)
    omega
  · have hshort := loadSnapshot_short lsn entries
    rw [hload] at hshort
    exact hshort p.1 p.2 (ExtTreeMap.mem_toList_iff_getElem?_eq_some.mp (h.mem_iff.mp hp))

/-- A store with two entries, copied in the wrong order. -/
theorem snapshot_read_back_two :
    loadSnapshot (some (snapshotBytes 7 [([98], [50]), ([97], [49])])) ∅ =
      (Store.put (Store.put ∅ [97] [49]) [98] [50], 7) := by
  have hentries : (Store.put (Store.put ∅ [97] [49]) [98] [50]).IsEntries [([98], [50]), ([97], [49])] := by
    decide +kernel
  exact (snapshot_read_back_iff hentries 7).mpr ⟨by decide, by decide, by decide⟩

theorem le_noteWritten (wal : WALManager) {record : Bytes} (h : record.length ≥ 12) :
    memcpyLSN record ≤ (wal.noteWritten record).flushedLsn := by
  rw [WALManager.noteWritten, if_pos h, WALManager.updateFlushedLSN]
  split
  · exact Nat.le_refl _
  · exact Nat.le_of_not_lt ‹_›

open Machine

/-- A client can put any value, whatever its length. -/
theorem exists_run_put (value : Value) : ∃ as s tr, Run step (fun _ _ => True) (Server.boot {} ∅) as s tr ∧
    s.store = Store.put ∅ [97] value := by
  -- up to the moment when the worker is about to write the `COMMIT` record
  obtain ⟨s, tr, batch, hexec, hworker, hmtx, halive, hpc, hbuf, hstore⟩ : ∃ s tr batch,
      exec step (fun _ _ => True) (Server.boot {} ∅)
        [.connect, .command 0 (.begin .repeatableRead), .thread 0, .command 0 (.put [97] value), .command 0 .commit,
          .thread 0, .thread 0, .worker, .worker, .worker] = some (s, tr) ∧
      s.worker = .writing batch [WALRecord.raw ⟨3, 1, .commit, [], []⟩] ∧ s.mtx = none ∧ s.alive = true ∧
      (s.sessions 0).pc = .enterWait 3 ∧ (s.sessions 0).txn.pendingBuffer.toList = [([97], value, false)] ∧
      s.store = ∅ := ⟨_, _, _, rfl, rfl, rfl, rfl, rfl, rfl, rfl⟩
  have hflushed : 3 ≤ (s.wal.noteWritten (WALRecord.raw ⟨3, 1, .commit, [], []⟩)).flushedLsn :=
    Nat.le_trans (by decide +kernel) (le_noteWritten s.wal (by decide +kernel))
  have hrest : ((exec step (fun _ _ => True) s [.worker, .thread 0, .thread 0, .thread 0]).map fun r => r.1.store) =
      some (Store.put ∅ [97] value) := by
    simp [exec, step, halive, workerStep, hworker, threadStep, hpc, hmtx, hflushed, hbuf, State.setPc, State.setSession,
      applyWrite, hstore]
  obtain ⟨⟨s', tr'⟩, hexec', hstore'⟩ := Option.map_eq_some_iff.mp hrest
  exact ⟨_, s', _, (exec_run hexec).append (exec_run hexec'), hstore'⟩

/-- A value of 64 KiB is cut when the store that has it is written to a snapshot. -/
theorem long_value_not_read_back : ∃ as s tr, Run step (fun _ _ => True) (Server.boot {} ∅) as s tr ∧
    ∀ entries, s.store.IsEntries entries → ∀ lsn,
      (loadSnapshot (some (snapshotBytes lsn entries)) ∅).1 ≠ s.store := by
  obtain ⟨value, hlen⟩ : ∃ value : Value, 2 ^ 16 ≤ value.length :=
    ⟨List.replicate (2 ^ 16) 98, by rw [List.length_replicate]⟩
  obtain ⟨as, s, tr, hr, hstore⟩ := exists_run_put value
  have hfind : s.store[([97] : Key)]? = some value := by rw [hstore, Store.put, FinMap.find_insert, if_pos rfl]
  refine ⟨as, s, tr, hr, fun entries _ lsn hload => ?_⟩
  have hshort := (loadSnapshot_short lsn entries [97] value (hload ▸ hfind)).2
  omega

/-! ## Snapshots that are cut -/

/-- The file begins with a complete header that has the magic number and these fields; `rest` follows. -/
structure SnapshotHeader (bytes : Bytes) (lsn count : Nat) (rest : Bytes) : Prop where
  lsn_lt : lsn < 2 ^ 64
  count_lt : count < 2 ^ 64
  eq : ∃ version : Bytes, version.length = 4 ∧
    bytes = leBytes 4 snapshotMagic ++ (version ++ (leBytes 8 lsn ++ (leBytes 8 count ++ rest)))

/-- The file has a complete header and all the entries that it counts. -/
def IsSnapshot (bytes : Bytes) (lsn : Nat) (entries : List (Key × Value)) : Prop :=
  ∃ rest, SnapshotHeader bytes lsn entries.length (entryCodec.encode entries ++ rest) ∧
    ∀ p ∈ entries, entryCodec.ok p

/-- The file has a complete header and fewer complete entries than it counts. -/
def CutSnapshot (bytes : Bytes) (lsn : Nat) (entries : List (Key × Value)) : Prop :=
  ∃ count rest, SnapshotHeader bytes lsn count (entryCodec.encode entries ++ rest) ∧ entries.length < count ∧
    (∀ p ∈ entries, entryCodec.ok p) ∧ entryCodec.NoFrame rest

/-- The store after these entries have been put. -/
def Store.putAll (st : Store) (entries : List (Key × Value)) : Store := entries.foldl (fun st p => st.put p.1 p.2) st

/-- A complete snapshot is loaded, or nothing is. -/
def AllOrNothing (bytes : Bytes) (st : Store) : Prop :=
  (∃ lsn entries, IsSnapshot bytes lsn entries ∧ loadSnapshot (some bytes) st = (st.putAll entries, lsn)) ∨
    loadSnapshot (some bytes) st = (st, 0)

theorem SnapshotHeader.load {bytes rest : Bytes} {lsn count : Nat} (h : SnapshotHeader bytes lsn count rest)
    (st : Store) : loadSnapshot (some bytes) st = (st.putAll ((entryCodec.scan rest).1.take count), lsn) := by
  obtain ⟨hlsn, hcount, version, hver, rfl⟩ := h
  have hmagic : leVal (leBytes 4 snapshotMagic) = snapshotMagic := leVal_leBytes_of_lt (by decide)
  dsimp only [loadSnapshot]
  simp only [IStream.read_append (length_leBytes 4 _), IStream.read_append hver,
    IStream.read_append (length_leBytes 8 _), hmagic, leVal_leBytes_of_lt (show lsn < 256 ^ 8 by omega),
    leVal_leBytes_of_lt (show count < 256 ^ 8 by omega), loadEntries_eq]
  simp [Store.putAll]

/-- A file without such a header changes nothing. -/
theorem loadSnapshot_cases (bytes : Bytes) (st : Store) :
    loadSnapshot (some bytes) st = (st, 0) ∨ ∃ lsn count rest, SnapshotHeader bytes lsn count rest := by
  dsimp only [loadSnapshot]
  split
  · exact Or.inl rfl
  · rename_i hok
    simp only [Bool.not_eq_true, Bool.not_eq_false', not_or, not_not] at hok
    obtain ⟨hgood, hmagic⟩ := hok
    obtain ⟨hgood3, hcount, hrest4⟩ := IStream.read_good hgood
    obtain ⟨hgood2, hlsn, hrest3⟩ := IStream.read_good hgood3
    obtain ⟨hgood1, hver, hrest2⟩ := IStream.read_good hgood2
    obtain ⟨-, hmag, hrest1⟩ := IStream.read_good hgood1
    generalize hf1 : IStream.read ⟨bytes, true⟩ 4 = f1 at *
    generalize hf2 : f1.2.read 4 = f2 at *
    generalize hf3 : f2.2.read 8 = f3 at *
    generalize f3.2.read 8 = f4 at *
    refine Or.inr ⟨leVal f3.1, leVal f4.1, f4.2.rest, ?_, ?_, f2.1, hver, ?_⟩
    · have := leVal_lt f3.1
      rw [hlsn] at this
      omega
    · have := leVal_lt f4.1
      rw [hcount] at this
      omega
    · have hm := leBytes_leVal f1.1
      have hl := leBytes_leVal f3.1
      have hc := leBytes_leVal f4.1
      rw [hmag, hmagic] at hm
      rw [hlsn] at hl
      rw [hcount] at hc
      rw [hm, hl, hc, ← hrest4, ← hrest3, ← hrest2]
      exact hrest1

/-- The header says what its fields are. -/
theorem SnapshotHeader.unique {bytes rest rest' : Bytes} {lsn lsn' count count' : Nat}
    (h : SnapshotHeader bytes lsn count rest) (h' : SnapshotHeader bytes lsn' count' rest') :
    lsn = lsn' ∧ count = count' ∧ rest = rest' := by
  obtain ⟨hlsn, hcount, version, hver, rfl⟩ := h
  obtain ⟨hlsn', hcount', version', hver', heq⟩ := h'
  have h1 := (List.append_cancel_left heq)
  obtain ⟨-, h2⟩ := List.append_inj h1 (by rw [hver, hver'])
  obtain ⟨hl, h3⟩ := List.append_inj h2 (by rw [length_leBytes, length_leBytes])
  obtain ⟨hc, h4⟩ := List.append_inj h3 (by rw [length_leBytes, length_leBytes])
  have hl := congrArg leVal hl
  have hc := congrArg leVal hc
  rw [leVal_leBytes_of_lt (by omega), leVal_leBytes_of_lt (by omega)] at hl hc
  exact ⟨hl, hc, h4⟩

/-- The entries of a cut snapshot are put, and its LSN is taken over. -/
theorem CutSnapshot.load {bytes : Bytes} {lsn : Nat} {entries : List (Key × Value)} (h : CutSnapshot bytes lsn entries)
    (st : Store) : loadSnapshot (some bytes) st = (st.putAll entries, lsn) := by
  obtain ⟨count, rest, hhead, hlen, hok, hno⟩ := h
  rw [hhead.load, Codec.scan_encode hok, Codec.scan_none (Codec.dec_eq_none_iff.mpr hno), List.append_nil,
    List.take_of_length_le (Nat.le_of_lt hlen)]

/-- A cut snapshot is not a complete one. -/
theorem CutSnapshot.not_isSnapshot {bytes : Bytes} {lsn lsn' : Nat} {entries entries' : List (Key × Value)}
    (h : CutSnapshot bytes lsn entries) : ¬ IsSnapshot bytes lsn' entries' := by
  rintro ⟨rest', hhead', hok'⟩
  obtain ⟨count, rest, hhead, hlen, hok, hno⟩ := h
  obtain ⟨-, hcount, heq⟩ := hhead.unique hhead'
  -- both scans of the bytes behind the header give the same entries
  have hscan := congrArg (fun bs => (entryCodec.scan bs).1.length) heq
  simp only [Codec.scan_encode hok, Codec.scan_encode hok', Codec.scan_none (Codec.dec_eq_none_iff.mpr hno),
    List.append_nil, List.length_append] at hscan
  omega

/-- **A snapshot is loaded as a whole or not at all** if and only if it is not cut behind its header, or happens to be
cut without consequence: its LSN is zero and its complete entries are in the store already. -/
theorem snapshot_all_or_nothing_iff (bytes : Bytes) (st : Store) :
    AllOrNothing bytes st ↔ ∀ lsn entries, CutSnapshot bytes lsn entries → lsn = 0 ∧ st.putAll entries = st := by
  constructor
  · intro h lsn entries hcut
    rcases h with ⟨lsn', entries', hsnap, -⟩ | hnone
    · exact absurd hsnap hcut.not_isSnapshot
    · rw [hcut.load] at hnone
      obtain ⟨hst, hlsn⟩ := Prod.mk.inj hnone
      exact ⟨hlsn, hst⟩
  · intro h
    rcases loadSnapshot_cases bytes st with hnone | ⟨lsn, count, rest, hhead⟩
    · exact Or.inr hnone
    · obtain ⟨hrest, hok, hstop⟩ := Codec.scan_sound (C := entryCodec) rest
      by_cases hlen : count ≤ (entryCodec.scan rest).1.length
      · -- all entries are there
        have htake : ((entryCodec.scan rest).1.take count).length = count := by rw [List.length_take]; omega
        refine Or.inl ⟨lsn, (entryCodec.scan rest).1.take count,
          ⟨entryCodec.encode ((entryCodec.scan rest).1.drop count) ++ (entryCodec.scan rest).2, ?_,
            fun p hp => hok p (List.mem_of_mem_take hp)⟩, hhead.load st⟩
        rw [htake, ← List.append_assoc, ← Codec.encode_append, List.take_append_drop, ← hrest]
        exact hhead
      · have hcut : CutSnapshot bytes lsn (entryCodec.scan rest).1 :=
          ⟨count, (entryCodec.scan rest).2, hrest ▸ hhead, by omega, hok, Codec.dec_eq_none_iff.mp hstop⟩
        obtain ⟨rfl, hst⟩ := h _ _ hcut
        exact Or.inr (by rw [hcut.load, hst])

/-- A snapshot of two entries is cut behind the first: this one is loaded and the LSN is taken over, so that replay
skips the record of the other in a log that still has it. -/
theorem cut_snapshot_loaded : ∃ bytes log, ¬ AllOrNothing bytes ∅ ∧
    (RecoveryManager.declared.recover { walLog := some log } ∅).get [98] = some [50] ∧
    (RecoveryManager.declared.recover { walLog := some log, snapshots := [bytes], dataDb := some 0 } ∅).get [98] =
      none := by
  refine ⟨(snapshotBytes 4 [([97], [49]), ([98], [50])]).take 30,
    serialize [⟨1, 1, .begin, [], []⟩, ⟨2, 1, .put, [97], [49]⟩, ⟨3, 1, .put, [98], [50]⟩, ⟨4, 1, .commit, [], []⟩], ?_,
    by decide +kernel, by decide +kernel⟩
  have hcut : CutSnapshot ((snapshotBytes 4 [([97], [49]), ([98], [50])]).take 30) 4 [([97], [49])] :=
    ⟨2, [], ⟨by decide, by decide, leBytes 4 1, by decide, by decide⟩, by decide, by simp [entryCodec],
      fun p _ hp => entryCodec.enc_ne_nil p (List.prefix_nil.mp hp)⟩
  rintro (⟨lsn, entries, hsnap, -⟩ | hnone)
  · exact hcut.not_isSnapshot hsnap
  · rw [hcut.load] at hnone
    cases (Prod.mk.inj hnone).2

/-! ## The entries of a store that transactions have built -/

/-- What holds of every write holds of every binding. -/
theorem forall_applyCommits (Q : Key → Value → Prop) {cs : List Commit} (h : ∀ c ∈ cs, ∀ w ∈ c.writes, Q w.1 w.2.1)
    {st : Store} (hst : ∀ {k v}, st[k]? = some v → Q k v) {k : Key} {v : Value}
    (hv : (applyCommits st cs)[k]? = some v) : Q k v := by
  have hwrites : ∀ {ws : List Write}, (∀ w ∈ ws, Q w.1 w.2.1) → ∀ {st : Store},
      (∀ {k v}, st[k]? = some v → Q k v) → ∀ {k v}, (applyWrites st ws)[k]? = some v → Q k v := by
    intro ws
    induction ws with
    | nil => exact fun _ _ hst => hst
    | cons w ws ih =>
      intro hw st hst
      refine ih (fun w' hw' => hw w' (List.mem_cons_of_mem _ hw')) (fun {k v} hkv => ?_)
      rw [get_applyWrite] at hkv
      split at hkv
      · rename_i hk
        have hq := hw w List.mem_cons_self
        obtain ⟨key, value, _ | _⟩ := w
        · cases hkv; subst hk; exact hq
        · cases hkv
      · exact hst hkv
  induction cs generalizing st with
  | nil => exact hst hv
  | cons c cs ih =>
    exact ih (fun d hd => h d (List.mem_cons_of_mem _ hd)) (hwrites (h c List.mem_cons_self) hst) hv

/-- Such a store has no more entries than the log has records. -/
theorem length_entries_le {log : List WALRecord} {cs : List Commit} (h : Logged log cs) {entries : List (Key × Value)}
    (he : (applyCommits ∅ cs).IsEntries entries) : entries.length ≤ log.length := by
  have hnodup : (entries.map Prod.fst).Nodup := (he.map Prod.fst).nodup_iff.mpr (FinMap.nodup_keys _)
  have hsub : entries.map Prod.fst ⊆ log.map (·.key) := by
    intro k hk
    obtain ⟨p, hp, rfl⟩ := List.mem_map.mp hk
    have hget := ExtTreeMap.mem_toList_iff_getElem?_eq_some.mp (he.mem_iff.mp hp)
    refine forall_applyCommits (fun k _ => k ∈ log.map (·.key)) (fun c hc w hw => ?_) (fun h0 => ?_) hget
    · have hmem : w.content ∈ recordsOf c.txnId log := by
        rw [h.writes c hc]
        exact List.mem_append_left _ (List.mem_map_of_mem hw)
      obtain ⟨r, hr, hrw⟩ := List.mem_map.mp hmem
      refine List.mem_map.mpr ⟨r, List.mem_of_mem_filter hr, ?_⟩
      obtain ⟨key, value, _ | _⟩ := w <;> exact congrArg (·.2.1) hrw
    · rw [ExtTreeMap.getElem?_empty] at h0
      cases h0
  have hle := (List.subperm_of_subset hnodup hsub).length_le
  simpa using hle

/-! ## Replay behind a checkpoint -/

/-- Records up to the checkpoint's LSN are skipped. -/
theorem replayRecords_filter (ckpt : Nat) (st : Store) (records : List ScannedRecord) :
    replayRecords ckpt st records = replayRecords ckpt st (records.filter (ckpt < ·.lsn)) := by
  have hfold : ∀ s : Replay, records.foldl (replayRecord ckpt) s =
      (records.filter (ckpt < ·.lsn)).foldl (replayRecord ckpt) s := by
    induction records with
    | nil => exact fun _ => rfl
    | cons r records ih =>
      intro s
      by_cases hr : ckpt < r.lsn
      · rw [List.filter_cons_of_pos (by simpa using hr), List.foldl_cons, List.foldl_cons]
        exact ih _
      · have hskip : replayRecord ckpt s r = s := by rw [replayRecord, if_pos (by omega)]
        rw [List.filter_cons_of_neg (by simpa using hr), List.foldl_cons, hskip]
        exact ih s
  simp only [replayRecords, hfold]

/-- A log without its beginning holds the transactions of which it has lost no record. -/
theorem Logged.after {log : List WALRecord} {cs : List Commit} (h : Logged log cs) {m : Nat}
    (hw : ∀ c ∈ cs, m < c.lsn → ∀ r ∈ log, r.txnId = c.txnId → r.type ≠ .begin → m < r.lsn) :
    Logged (log.filter (m < ·.lsn)) (cs.filter (m < ·.lsn)) where
  sorted := h.sorted.filter _
  commits := by
    rw [List.filter_comm, h.commits, List.filter_map]
    rfl
  writes c hc := by
    rw [List.mem_filter, decide_eq_true_eq] at hc
    rw [← h.writes c hc.1]
    simp only [recordsOf, List.filter_filter]
    congr 1
    refine List.filter_congr fun r hr => ?_
    by_cases hrt : r.txnId = c.txnId ∧ r.type ≠ .begin
    · simp [hrt, hw c hc.1 hc.2 r hr hrt.1 hrt.2]
    · simp [hrt]

/-- The commits up to `f` are those up to `m` and the others. -/
theorem filter_commits {cs : List Commit} (h : cs.Pairwise fun a b => a.lsn < b.lsn) {m f : Nat}
    (hm : ∀ c ∈ cs, c.lsn ≤ m → c.lsn ≤ f) :
    cs.filter (·.lsn ≤ f) = cs.filter (·.lsn ≤ m) ++ (cs.filter (·.lsn ≤ f)).filter (m < ·.lsn) := by
  induction cs with
  | nil => rfl
  | cons c cs ih =>
    rw [List.pairwise_cons] at h
    have ih := ih h.2 fun d hd => hm d (List.mem_cons_of_mem _ hd)
    by_cases hc : c.lsn ≤ m
    · have hcf := hm c List.mem_cons_self hc
      simp only [List.filter_cons, hc, hcf, decide_true, if_true, List.cons_append, Nat.not_lt.mpr hc, decide_false]
      rw [ih]
      simp
    · -- the commits that follow have higher LSNs still
      have hlt : ∀ d ∈ c :: cs, m < d.lsn := by
        intro d hd
        rcases List.mem_cons.mp hd with rfl | hd
        · omega
        · have := h.1 d hd
          omega
      have hnone : (c :: cs).filter (·.lsn ≤ m) = [] :=
        List.filter_eq_nil_iff.mpr fun d hd => by simpa using hlt d hd
      have hall : ((c :: cs).filter (·.lsn ≤ f)).filter (m < ·.lsn) = (c :: cs).filter (·.lsn ≤ f) :=
        List.filter_eq_self.mpr fun d hd => by simpa using hlt d (List.mem_of_mem_filter hd)
      rw [hnone, hall, List.nil_append]

/-! ## What is on the disk -/

/-- The disk holds the first `f` records of a log: a snapshot of the transactions up to some LSN, made at a checkpoint
with LSN `c`, and the log file, from which the first `d` records are gone. A transaction is in one of the two. -/
structure OnDisk (log : List WALRecord) (cs : List Commit) (f c d : Nat) (disk : Disk) : Prop where
  snapshot : loadSnapshot (disk.read .dataDb) ∅ = (applyCommits ∅ (cs.filter (·.lsn ≤ max c d)), c)
  walLog : disk.walLog = some (serialize ((log.take f).drop d))
  le : d ≤ f
  bound : max c d ≤ log.length
  whole : ∀ cm ∈ cs, max c d < cm.lsn → ∀ r ∈ log, r.txnId = cm.txnId → r.type ≠ .begin → max c d < r.lsn
  flushed : ∀ cm ∈ cs, cm.lsn ≤ max c d → cm.lsn ≤ f

/-- **Recovery from a snapshot and the log behind it** restores the transactions whose `COMMIT` record has reached the
disk. -/
theorem OnDisk.recover {log : List WALRecord} {cs : List Commit} {f c d : Nat} {disk : Disk}
    (h : OnDisk log cs f c d disk) (hnum : Numbered log) (hfits : ∀ r ∈ log, r.scanned.Fits)
    (hsorted : cs.Pairwise fun a b => a.lsn < b.lsn) (hlog : Logged (log.take f) (cs.filter (·.lsn ≤ f))) :
    RecoveryManager.declared.recover disk ∅ = applyCommits ∅ (cs.filter (·.lsn ≤ f)) := by
  have hafter : Logged ((log.take f).filter (max c d < ·.lsn)) ((cs.filter (·.lsn ≤ f)).filter (max c d < ·.lsn)) :=
    hlog.after fun cm hcm hlt r hr ht hb =>
      h.whole cm (List.mem_of_mem_filter hcm) hlt r (List.mem_of_mem_take hr) ht hb
  have hfile : ((log.take f).drop d).filter (c < ·.lsn) = (log.take f).filter (max c d < ·.lsn) := by
    rw [← (hnum.take f).filter_lt d, List.filter_filter]
    refine List.filter_congr fun r _ => ?_
    simp
  have hread : acceptedRecords (serialize ((log.take f).drop d)) = ((log.take f).drop d).map WALRecord.scanned :=
    acceptedRecords_serialize fun r hr => hfits r (List.mem_of_mem_take (List.mem_of_mem_drop hr))
  have hlt : ∀ r ∈ (log.take f).filter (max c d < ·.lsn), c < r.lsn := by
    intro r hr
    have := (List.mem_filter.mp hr).2
    simp at this
    omega
  rw [RecoveryManager.recover_eq, show disk.read RecoveryManager.declared.dataFile = disk.read .dataDb from rfl,
    h.snapshot, show disk.read RecoveryManager.declared.walFile = disk.walLog from rfl, h.walLog, Option.getD_some,
    hread, replayRecords_filter, List.filter_map]
  rw [show ((log.take f).drop d).filter ((fun r : ScannedRecord => decide (c < r.lsn)) ∘ WALRecord.scanned) =
    (log.take f).filter (max c d < ·.lsn) from hfile]
  rw [replayRecords_of_logged hafter hlt, ← applyCommits_append, ← filter_commits hsorted h.flushed]

end Kvdb
