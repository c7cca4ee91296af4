import Hyphae.Lib.Bytes
import Hyphae.Lib.Checked
import Hyphae.Lib.Effect
import Hyphae.Types.Identity

/-!
# WAL records

A record is a 44-byte header and a body. The header carries both lengths, the
record's role, engine, flags and transaction, its physical address and a checksum
over everything but the checksum itself. The checksum and the digest are arbitrary
functions: nothing here depends on what they compute.
-/

namespace Hyphae.Wal

open Lib Except

/-- Fixed WAL block size. -/
def walBlockSize : Nat := 65536

/-- WAL block header size. -/
def walBlockHeaderSize : Nat := 112

/-- Maximum encoded records in one WAL block. -/
def walBlockPayloadSize : Nat := 65424

/-- Encoded WAL record header size. -/
def walRecordHeaderSize : Nat := 44

/-- Maximum body size for one WAL record. -/
def walRecordBodySize : Nat := 65380

/-- WAL framing, integrity, or file failure. -/
inductive WalError
  | io
  | invalidBlockLength (actual : Nat)
  | invalidMagic
  | unsupportedFormat (version headerLength : Nat)
  | blockSequenceMismatch (expected found : Nat)
  | previousDigestMismatch (sequence : Nat)
  | reservedNonzero
  | blockPayloadTooLarge (actual : Nat)
  | nonzeroPadding
  | blockChecksumMismatch
  | blockDigestMismatch
  | emptyBlock
  | recordBodyTooLarge (actual : Nat)
  | invalidRecordLength (offset : Nat)
  | unknownRecordKind (code : UInt8)
  | unknownEngineKind (code : UInt8)
  | recordReservedNonzero
  | recordLsnMismatch (expected found : Nat)
  | recordChecksumMismatch (lsn : Nat)
  | poisoned
  | addressExhausted
  | invalidPhysicalBase
  deriving DecidableEq, Repr

abbrev WalM := Except WalError

/-- Native WAL record role. -/
inductive RecordKind
  | begin | mutation | commit | abort | checkpoint | catalog
  deriving DecidableEq, Repr

def RecordKind.code : RecordKind → UInt8
  | .begin => 1
  | .mutation => 2
  | .commit => 3
  | .abort => 4
  | .checkpoint => 5
  | .catalog => 6

def RecordKind.tryFrom (value : UInt8) : WalM RecordKind :=
  match value.toNat with
  | 1 => .ok .begin
  | 2 => .ok .mutation
  | 3 => .ok .commit
  | 4 => .ok .abort
  | 5 => .ok .checkpoint
  | 6 => .ok .catalog
  | _ => .error (.unknownRecordKind value)

/-- Engine that owns a record. -/
inductive EngineKind
  | kernel | relational | «structure» | search
  deriving DecidableEq, Repr

def EngineKind.code : EngineKind → UInt8
  | .kernel => 0
  | .relational => 1
  | .structure => 2
  | .search => 3

def decodeEngineKind (value : UInt8) : WalM EngineKind :=
  match value.toNat with
  | 0 => .ok .kernel
  | 1 => .ok .relational
  | 2 => .ok .structure
  | 3 => .ok .search
  | _ => .error (.unknownEngineKind value)

@[simp] theorem RecordKind.tryFrom_code (kind : RecordKind) : tryFrom kind.code = .ok kind := by
  cases kind <;> rfl

@[simp] theorem decodeEngineKind_code (engine : EngineKind) : decodeEngineKind engine.code = .ok engine := by
  cases engine <;> rfl

/-- A 32-byte content digest. -/
structure Digest where
  bytes : Bytes
  size : bytes.length = 32
  deriving DecidableEq

def zeros (n : Nat) : Bytes := List.replicate n 0

@[simp] theorem length_zeros (n : Nat) : (zeros n).length = n := by simp [zeros]

/-- The digest that stands in front of the first block. -/
def Digest.zero : Digest := ⟨zeros 32, length_zeros 32⟩

/-- The checksum and the digest function, left arbitrary. -/
structure Hashes where
  crc32cAppend : UInt32 → Bytes → UInt32
  blake3 : Bytes → Digest

def Hashes.crc32c (hashes : Hashes) (data : Bytes) : UInt32 := hashes.crc32cAppend 0 data

/-- Record not yet assigned a physical LSN. -/
structure PendingRecord where
  kind : RecordKind
  engine : EngineKind
  flags : UInt16
  transactionId : TransactionId
  body : Bytes
  bounded : body.length ≤ walRecordBodySize
  deriving DecidableEq

/-- Construct a bounded pending record. -/
def PendingRecord.new (kind : RecordKind) (engine : EngineKind) (flags : UInt16) (transactionId : TransactionId)
    (body : Bytes) : WalM PendingRecord :=
  if bounded : body.length ≤ walRecordBodySize then .ok { kind, engine, flags, transactionId, body, bounded }
  else .error (.recordBodyTooLarge body.length)

def PendingRecord.encodedLength (record : PendingRecord) : Nat := walRecordHeaderSize + record.body.length

/-- WAL record with a physical LSN. -/
structure WalRecord where
  lsn : Lsn
  kind : RecordKind
  engine : EngineKind
  flags : UInt16
  transactionId : TransactionId
  body : Bytes
  deriving DecidableEq

section Codec

variable (hashes : Hashes)

/-- The checksum of a record, taken with the checksum field zeroed. -/
def recordChecksum (encoded : Bytes) : UInt32 := hashes.crc32c (overwrite encoded 36 (zeros 4))

namespace WalRecord

variable {record : WalRecord}

/-- The fields of an encoded record in physical order. -/
def fields (record : WalRecord) (checksum : Bytes) : List Bytes :=
  [leBytes 4 (walRecordHeaderSize + record.body.length), leBytes 4 record.body.length, [record.kind.code],
    [record.engine.code], leBytes 2 record.flags.toNat, leBytes 8 record.lsn.get,
    leBytes 16 record.transactionId.get, checksum, zeros 4, record.body]

def encode (record : WalRecord) : WalM Bytes := do
  let totalLength ← .okOr (checkedAdd walRecordHeaderSize record.body.length) .addressExhausted
  .failIf (2 ^ 32 ≤ totalLength) .addressExhausted
  .failIf (2 ^ 32 ≤ record.body.length) .addressExhausted
  let encoded := (record.fields (zeros 4)).flatten
  .ok (overwrite encoded 36 (leBytes 4 (recordChecksum hashes encoded).toNat))

def decode (encoded : Bytes) (expectedLsn : Lsn) : WalM WalRecord := do
  .failIf (encoded.length < walRecordHeaderSize) (.invalidRecordLength 0)
  let totalLength := ofLe (slice encoded 0 4)
  let bodyLength := ofLe (slice encoded 4 8)
  .failIf (totalLength ≠ encoded.length ∨ bodyLength ≠ totalLength - walRecordHeaderSize) (.invalidRecordLength 0)
  .failIf (∃ byte ∈ slice encoded 40 44, byte ≠ 0) .recordReservedNonzero
  let foundLsn := ofLe (slice encoded 12 20)
  .failIf (foundLsn ≠ expectedLsn.get) (.recordLsnMismatch expectedLsn.get foundLsn)
  .failIf ((recordChecksum hashes encoded).toNat ≠ ofLe (slice encoded 36 40)) (.recordChecksumMismatch foundLsn)
  let transactionId ← .okOr (NonZeroUInt.new 128 (ofLe (slice encoded 20 36))) .recordReservedNonzero
  let kind ← RecordKind.tryFrom (encoded.getD 8 0)
  let engine ← decodeEngineKind (encoded.getD 9 0)
  .ok { lsn := expectedLsn, kind, engine, flags := UInt16.ofNat (ofLe (slice encoded 10 12)), transactionId,
        body := encoded.drop walRecordHeaderSize }

/-! ## What is encoded is decoded -/

/-- The bytes of a record. -/
def bytes (record : WalRecord) : Bytes :=
  (record.fields (leBytes 4 (recordChecksum hashes (record.fields (zeros 4)).flatten).toNat)).flatten

@[simp] theorem length_bytes (record : WalRecord) :
    (record.bytes hashes).length = walRecordHeaderSize + record.body.length := by
  simp only [bytes, fields, walRecordHeaderSize, List.flatten_cons, List.flatten_nil, List.length_append,
    length_leBytes, length_zeros, List.length_cons, List.length_nil]
  omega

/-- Writing the checksum field leaves every other field as it is. -/
theorem overwrite_fields (record : WalRecord) {old new : Bytes} (hold : old.length = 4) (hnew : new.length = 4) :
    overwrite (record.fields old).flatten 36 new = (record.fields new).flatten := by
  apply overwrite_fieldAt (i := 7)
  · rfl
  · simp [fields]
  · rw [hnew, hold]

theorem recordChecksum_fields (record : WalRecord) {checksum : Bytes} (h : checksum.length = 4) :
    recordChecksum hashes (record.fields checksum).flatten =
      recordChecksum hashes (record.fields (zeros 4)).flatten := by
  rw [recordChecksum, overwrite_fields record h (length_zeros 4), recordChecksum,
    overwrite_fields record (length_zeros 4) (length_zeros 4)]

variable {hashes}

theorem encode_eq_ok (h : walRecordHeaderSize + record.body.length < 2 ^ 32) :
    record.encode hashes = .ok (record.bytes hashes) := by
  have hadd : checkedAdd walRecordHeaderSize record.body.length = some (walRecordHeaderSize + record.body.length) := by
    rw [checkedAdd_eq_some]
    omega
  rw [encode, hadd, okOr, ok_bind, failIf_bind (by omega), failIf_bind (by omega)]
  exact congrArg ok (overwrite_fields record (length_zeros 4) (length_leBytes 4 _))

theorem decode_bytes (h : walRecordHeaderSize + record.body.length < 2 ^ 32) :
    decode hashes (record.bytes hashes) record.lsn = .ok record := by
  have hlen := record.length_bytes hashes
  have hchecksum := record.recordChecksum_fields hashes
    (length_leBytes 4 (recordChecksum hashes (record.fields (zeros 4)).flatten).toNat)
  have hbytes : record.bytes hashes = (record.fields
    (leBytes 4 (recordChecksum hashes (record.fields (zeros 4)).flatten).toNat)).flatten := rfl
  generalize recordChecksum hashes (record.fields (zeros 4)).flatten = checksum at hchecksum hbytes
  rw [← hbytes] at hchecksum
  -- every slice the decoder takes is one field
  obtain ⟨htotal, hbody, hkind, hengine, hflags, hlsn, htx, hcrc, hzero, -⟩ :=
    fieldsAt hbytes [0, 4, 8, 9, 10, 12, 20, 36, 40, 44] (by simp [fields])
  have hkind := getD_of_slice hkind
  have hengine := getD_of_slice hengine
  have hdrop : (record.bytes hashes).drop walRecordHeaderSize = record.body := by
    rw [hbytes, drop_flatten (i := 9) (by simp [fields, walRecordHeaderSize])]
    simp [fields]
  have hflag := record.flags.toNat_lt
  have hlsnLt := record.lsn.lt
  have htxLt := record.transactionId.lt
  have hsum := checksum.toNat_lt
  simp only [decode, htotal, hbody, hkind, hengine, hflags, hlsn, htx, hcrc, hzero, hdrop, hlen, hchecksum]
  rw [ofLe_leBytes (by omega), ofLe_leBytes (by omega), ofLe_leBytes (by omega), ofLe_leBytes (by omega),
    ofLe_leBytes (by omega), ofLe_leBytes (by omega)]
  rw [failIf_bind (by omega), failIf_bind (by omega), failIf_bind (by simp [zeros]), failIf_bind (by simp),
    failIf_bind (by simp)]
  simp [okOr]

end WalRecord

end Codec

end Hyphae.Wal
