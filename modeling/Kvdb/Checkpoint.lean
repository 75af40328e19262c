import Kvdb.Recovery

/-!
# Checkpoints: the snapshot writer and the truncation of the log

`snapshotBytes` is what `writeSnapshotFile` writes and `truncateWAL` what `CheckpointManager::truncateWAL` leaves of
the log. The latter has its own idea of the record format: it reads a key after every header, also after those of
`BEGIN`, `COMMIT` and `ABORT`, which have none, and a value after the key of a `DELETE`.
-/

namespace Kvdb

/-! ## The snapshot file -/

/-- The length is cast to `uint16_t`, and as many bytes are written. -/
def snapshotStr (s : Bytes) : Bytes := leBytes 2 s.length ++ s.take (s.length % 2 ^ 16)

def snapshotBytes (checkpointLsn : Nat) (entries : List (Key × Value)) : Bytes :=
  leBytes 4 snapshotMagic ++ leBytes 4 1 ++ leBytes 8 checkpointLsn ++ leBytes 8 entries.length ++
    entries.flatMap fun p => snapshotStr p.1 ++ snapshotStr p.2

/-! ## Truncation -/

/-- One turn of the loop of `truncateWAL`: the LSN it reads and the stream at `record_end`, or nothing when the loop
breaks. -/
def readSegment (f : IStream) : Option (Nat × IStream) :=
  let crc := f.read 4
  if !crc.2.good then none
  else
    let lsn := crc.2.read 8
    let txnId := lsn.2.read 4
    let type := txnId.2.read 1
    if !type.2.good then none
    else
      let keyLen := type.2.read 2
      if !keyLen.2.good then none
      else
        let key := keyLen.2.read (leVal keyLen.1)
        if !key.2.good then none
        else
          let valueLen :=
            if type.1.headD 0 = RecordType.put.toByte ∨ type.1.headD 0 = RecordType.delete.toByte then key.2.read 2
            else ([], key.2)
          if !valueLen.2.good then none
          else
            let value := if leVal valueLen.1 > 0 then valueLen.2.read (leVal valueLen.1) else ([], valueLen.2)
            if !value.2.good then none else some (leVal lsn.1, value.2)

/-- The bytes `remaining` after the loop, with fuel: the segments whose LSN is above the checkpoint's. -/
def truncateLoop (checkpointLsn : Nat) : Nat → IStream → Bytes
  | 0, _ => []
  | n + 1, f =>
    match readSegment f with
    | none => []
    | some (lsn, f') =>
      let raw := f.rest.take (f.rest.length - f'.rest.length)
      (if lsn > checkpointLsn then raw else []) ++ truncateLoop checkpointLsn n f'

/-- What `truncateWAL` writes back. -/
def truncateWAL (checkpointLsn : Nat) (file : Bytes) : Bytes := truncateLoop checkpointLsn file.length ⟨file, true⟩

end Kvdb
