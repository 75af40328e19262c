import Kvdb.Lib.LittleEndian
import Kvdb.Types

/-!
# The write-ahead log: records, their bytes, and the log manager

`serializeRecord` is the writer's side of the record format: a CRC over the body, the LSN, the transaction id, the
type byte and, for `PUT` and `DELETE`, length-prefixed strings. Lengths are 16 bits wide and cut off what is longer.

`WALManager` holds the counters and the buffer of serialized records. LSNs are the natural numbers from `1` on: a
64-bit counter that no run exhausts. The bytes of an LSN are its low eight bytes (`appendU64`).
-/

namespace Kvdb

/-! ## CRC -/

/-- One turn of the inner loop of `crc32`. -/
def crcBit (crc : UInt32) : UInt32 :=
  if crc &&& 1 ≠ 0 then (crc >>> 1) ^^^ 0xEDB88320 else crc >>> 1

/-- One turn of the outer loop of `crc32`. -/
def crcByte (crc : UInt32) (c : UInt8) : UInt32 :=
  (List.range 8).foldl (fun crc _ => crcBit crc) (crc ^^^ c.toUInt32)

/-- `WALManager::crc32`, and `RecoveryManager::crc32`, which is the same loop. -/
def crc32 (data : Bytes) : UInt32 := ~~~(data.foldl crcByte 0xFFFFFFFF)

/-! ## Serialization -/

def appendU64 (b : Bytes) (v : Nat) : Bytes :=
  (List.range 8).foldl (fun b i => b ++ [UInt8.ofNat ((v >>> (8 * i)) &&& 0xFF)]) b

def appendU32 (b : Bytes) (v : UInt32) : Bytes :=
  (List.range 4).foldl (fun b i => b ++ [UInt8.ofNat ((v.toNat >>> (8 * i)) &&& 0xFF)]) b

/-- The length is cast to `uint16_t`. -/
def appendStr (b : Bytes) (s : Bytes) : Bytes :=
  let len := s.length % 2 ^ 16
  b ++ [UInt8.ofNat (len &&& 0xFF), UInt8.ofNat ((len >>> 8) &&& 0xFF)] ++ s

inductive RecordType
  | begin
  | put
  | delete
  | commit
  | abort
  deriving DecidableEq, Repr

def RecordType.toByte : RecordType → UInt8
  | .begin => 1
  | .put => 2
  | .delete => 3
  | .commit => 4
  | .abort => 5

/-- Everything of a record after its CRC. -/
def recordBody (lsn : Nat) (txnId : TxnId) (type : UInt8) (key : Key) (value : Value) : Bytes :=
  let body := appendU32 (appendU64 [] lsn) txnId ++ [type]
  if type = RecordType.put.toByte then appendStr (appendStr body key) value
  else if type = RecordType.delete.toByte then appendStr body key
  else body

/-- The type is the underlying byte of the enumeration, which need not be one of its five names. -/
def serializeRecord (lsn : Nat) (txnId : TxnId) (type : UInt8) (key : Key) (value : Value) : Bytes :=
  let body := recordBody lsn txnId type key value
  appendU32 [] (crc32 body) ++ body

/-- A record as it is logged. -/
structure WALRecord where
  lsn : Nat
  txnId : TxnId
  type : RecordType
  key : Key := []
  value : Value := []
  deriving DecidableEq, Repr

def WALRecord.raw (r : WALRecord) : Bytes := serializeRecord r.lsn r.txnId r.type.toByte r.key r.value

/-! ## The log manager -/

structure WALManager where
  nextLsn : Nat := 1
  flushedLsn : Nat := 0
  buffer : List Bytes := []
  deriving DecidableEq, Repr

namespace WALManager

/-- The record the next log call writes. -/
def nextRecord (wal : WALManager) (txnId : TxnId) (type : RecordType) (key : Key) (value : Value) : WALRecord :=
  ⟨wal.nextLsn, txnId, type, key, value⟩

/-- What the five log functions do with their record. -/
def log (wal : WALManager) (r : WALRecord) : WALManager :=
  { wal with nextLsn := wal.nextLsn + 1, buffer := wal.buffer ++ [r.raw] }

def logBegin (wal : WALManager) (txnId : TxnId) : WALManager × WALRecord :=
  let r := wal.nextRecord txnId .begin [] []
  (wal.log r, r)

def logPut (wal : WALManager) (txnId : TxnId) (key : Key) (value : Value) : WALManager × WALRecord :=
  let r := wal.nextRecord txnId .put key value
  (wal.log r, r)

def logDelete (wal : WALManager) (txnId : TxnId) (key : Key) : WALManager × WALRecord :=
  let r := wal.nextRecord txnId .delete key []
  (wal.log r, r)

def logCommit (wal : WALManager) (txnId : TxnId) : WALManager × WALRecord :=
  let r := wal.nextRecord txnId .commit [] []
  (wal.log r, r)

def logAbort (wal : WALManager) (txnId : TxnId) : WALManager × WALRecord :=
  let r := wal.nextRecord txnId .abort [] []
  (wal.log r, r)

def fetchAndClearBuffer (wal : WALManager) : WALManager × List Bytes := ({ wal with buffer := [] }, wal.buffer)

def updateFlushedLSN (wal : WALManager) (lsn : Nat) : WALManager :=
  if lsn > wal.flushedLsn then { wal with flushedLsn := lsn } else wal

end WALManager

/-- `std::memcpy(&lsn, rec.data() + 4, 8)` on a little-endian host. -/
def memcpyLSN (record : Bytes) : Nat := leVal ((record.drop 4).take 8)

/-- The second half of a turn of the loop of `writeToDisk`. -/
def WALManager.noteWritten (wal : WALManager) (record : Bytes) : WALManager :=
  if record.length ≥ 12 then wal.updateFlushedLSN (memcpyLSN record) else wal

/-- `GroupCommitManager::parseLSN`; nothing when it throws. -/
def parseLSN (record : Bytes) : Option Nat :=
  if record.length < 12 then none
  else some ((List.range 8).foldl (fun lsn i => lsn ||| ((record.getD (4 + i) 0).toNat <<< (8 * i))) 0)

/-- The loop of `flushOnce` that computes `max_lsn`; nothing when `parseLSN` throws. -/
def maxLSN (records : List Bytes) : Option Nat :=
  records.foldlM (fun m record => (parseLSN record).map (max m)) 0

end Kvdb
