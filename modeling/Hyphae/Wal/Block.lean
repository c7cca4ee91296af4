import Hyphae.Wal.Record

/-!
# WAL blocks

A block is 65536 bytes: a 112-byte header, the encoded records, and zero padding.
Building one assigns every record the absolute address at which its bytes stand.
The header chains the block to its predecessor through the predecessor's digest.
-/

namespace Hyphae.Wal

open Lib Except

variable {pending : List PendingRecord} {payloadOffset offset : Nat}

/-- The text `HYWAL001`. -/
def magic : Bytes := [72, 89, 87, 65, 76, 48, 48, 49]

def formatVersion : Nat := 1

/-- Verified fixed-size WAL block. -/
structure WalBlock where
  sequence : Nat
  previousDigest : Digest
  digest : Digest
  records : List WalRecord
  deriving DecidableEq

/-- Absolute address of a block. -/
def blockOffset (sequence : Nat) : WalM Nat :=
  .okOr (do checkedMul (← checkedSub sequence 1) walBlockSize) .addressExhausted

/-- Absolute address of a record inside the payload of a block. -/
def recordLsn (blockOffset payloadOffset : Nat) : WalM Lsn := do
  let raw ← .okOr (do checkedAdd (← checkedAdd blockOffset walBlockHeaderSize) payloadOffset) .addressExhausted
  .okOr (NonZeroUInt.new 64 raw) .addressExhausted

/-- The record a pending record becomes at an address. -/
def PendingRecord.placed (record : PendingRecord) (lsn : Lsn) : WalRecord :=
  { lsn, kind := record.kind, engine := record.engine, flags := record.flags,
    transactionId := record.transactionId, body := record.body }

/-- The records of a block from one payload offset on, with their addresses. -/
def assignLsns (blockOffset : Nat) : Nat → List PendingRecord → WalM (List WalRecord)
  | _, [] => .ok []
  | payloadOffset, record :: pending => do
    let nextPayloadOffset ← .okOr (checkedAdd payloadOffset record.encodedLength) .addressExhausted
    .failIf (walBlockPayloadSize < nextPayloadOffset) (.blockPayloadTooLarge nextPayloadOffset)
    let lsn ← recordLsn blockOffset payloadOffset
    let records ← assignLsns blockOffset nextPayloadOffset pending
    .ok (record.placed lsn :: records)

section Codec

variable (hashes : Hashes)

/-- The checksum of a block, streamed over it with the checksum and digest fields zeroed. -/
def blockChecksum (encoded : Bytes) : UInt32 :=
  let checksum := hashes.crc32c (encoded.take 44)
  let checksum := hashes.crc32cAppend checksum (zeros 4)
  let checksum := hashes.crc32cAppend checksum (slice encoded 48 80)
  let checksum := hashes.crc32cAppend checksum (zeros 32)
  hashes.crc32cAppend checksum (encoded.drop 112)

/-- The digest of a block, taken over it with the digest field zeroed. -/
def blockDigest (encoded : Bytes) : Digest := hashes.blake3 (encoded.take 80 ++ zeros 32 ++ encoded.drop 112)

namespace WalBlock

/-- The fields of an encoded block in physical order. -/
def fields (block : WalBlock) (firstLsn lastLsn : Lsn) (payload checksum digest : Bytes) : List Bytes :=
  [magic, leBytes 2 formatVersion, leBytes 2 walBlockHeaderSize, zeros 4, leBytes 8 block.sequence,
    leBytes 8 firstLsn.get, leBytes 8 lastLsn.get, leBytes 4 payload.length, checksum,
    block.previousDigest.bytes, digest, payload, zeros (walBlockPayloadSize - payload.length)]

def encodeWithZeroDigest (block : WalBlock) : WalM Bytes := do
  .failIf (block.records = []) .emptyBlock
  let payload := (← block.records.mapM (WalRecord.encode hashes)).flatten
  .failIf (walBlockPayloadSize < payload.length) (.blockPayloadTooLarge payload.length)
  let firstLsn ← .okOr (block.records.head?.map WalRecord.lsn) .emptyBlock
  let lastLsn ← .okOr (block.records.getLast?.map WalRecord.lsn) .emptyBlock
  .failIf (2 ^ 32 ≤ payload.length) .addressExhausted
  let encoded := (block.fields firstLsn lastLsn payload (zeros 4) (zeros 32)).flatten
  .ok (overwrite encoded 44 (leBytes 4 (blockChecksum hashes encoded).toNat))

/-- Build one block together with its final encoded bytes. -/
def buildEncoded (sequence : Nat) (previousDigest : Digest) (pending : List PendingRecord) :
    WalM (WalBlock × Bytes) := do
  .failIf (sequence = 0) .addressExhausted
  .failIf (pending = []) .emptyBlock
  let blockOffset ← blockOffset sequence
  let records ← assignLsns blockOffset 0 pending
  let block : WalBlock := { sequence, previousDigest, digest := Digest.zero, records }
  let encoded ← block.encodeWithZeroDigest hashes
  let digest := blockDigest hashes encoded
  .ok ({ block with digest }, overwrite encoded 80 digest.bytes)

/-- Build one block and assign physical LSNs to its records. -/
def build (sequence : Nat) (previousDigest : Digest) (pending : List PendingRecord) : WalM WalBlock := do
  let built ← buildEncoded hashes sequence previousDigest pending
  .ok built.1

end WalBlock

def decodeBlockHeader (expectedSequence : Nat) (expectedPreviousDigest : Digest) (encoded : Bytes) :
    WalM (Nat × Digest) := do
  .failIf (encoded.length ≠ walBlockSize) (.invalidBlockLength encoded.length)
  .failIf (slice encoded 0 8 ≠ magic) .invalidMagic
  let version := ofLe (slice encoded 8 10)
  let headerLength := ofLe (slice encoded 10 12)
  .failIf (version ≠ formatVersion ∨ headerLength ≠ walBlockHeaderSize) (.unsupportedFormat version headerLength)
  .failIf (∃ byte ∈ slice encoded 12 16, byte ≠ 0) .reservedNonzero
  let foundSequence := ofLe (slice encoded 16 24)
  .failIf (foundSequence ≠ expectedSequence) (.blockSequenceMismatch expectedSequence foundSequence)
  .failIf (slice encoded 48 80 ≠ expectedPreviousDigest.bytes) (.previousDigestMismatch expectedSequence)
  let payloadLength := ofLe (slice encoded 40 44)
  .failIf (payloadLength = 0) .emptyBlock
  .failIf (walBlockPayloadSize < payloadLength) (.blockPayloadTooLarge payloadLength)
  .failIf (∃ byte ∈ encoded.drop (walBlockHeaderSize + payloadLength), byte ≠ 0) .nonzeroPadding
  .failIf ((blockChecksum hashes encoded).toNat ≠ ofLe (slice encoded 44 48)) .blockChecksumMismatch
  let digest := blockDigest hashes encoded
  .failIf (digest.bytes ≠ slice encoded 80 112) .blockDigestMismatch
  .ok (payloadLength, digest)

/-- The records of a block from one payload offset on. -/
def decodeRecordsFrom (blockOffset payloadLength : Nat) (encoded : Bytes) (payloadOffset : Nat) :
    WalM (List WalRecord) :=
  if payloadOffset < payloadLength then
    let remaining := payloadLength - payloadOffset
    let start := walBlockHeaderSize + payloadOffset
    let totalLength := ofLe (slice encoded start (start + 4))
    if remaining < walRecordHeaderSize then .error (.invalidRecordLength payloadOffset)
    else if _h : totalLength < walRecordHeaderSize ∨ remaining < totalLength then
      .error (.invalidRecordLength payloadOffset)
    else do
      let expectedLsn ← recordLsn blockOffset payloadOffset
      let record ← WalRecord.decode hashes (slice encoded start (start + totalLength)) expectedLsn
      let records ← decodeRecordsFrom blockOffset payloadLength encoded (payloadOffset + totalLength)
      .ok (record :: records)
  else .ok []
termination_by payloadLength - payloadOffset
decreasing_by
  simp +zetaDelta only [walRecordHeaderSize] at _h ⊢
  omega

def decodeBlockRecords (expectedSequence payloadLength : Nat) (encoded : Bytes) : WalM (List WalRecord) := do
  let blockOffset ← blockOffset expectedSequence
  decodeRecordsFrom hashes blockOffset payloadLength encoded 0

def validateBlockRecordRange (records : List WalRecord) (encoded : Bytes) : WalM Unit := do
  let firstLsn ← .okOr (records.head?.map WalRecord.lsn) .emptyBlock
  let lastLsn ← .okOr (records.getLast?.map WalRecord.lsn) .emptyBlock
  let foundFirst := ofLe (slice encoded 24 32)
  .failIf (foundFirst ≠ firstLsn.get ∨ ofLe (slice encoded 32 40) ≠ lastLsn.get)
    (.recordLsnMismatch firstLsn.get foundFirst)

/-- Decode and verify one physical block. -/
def WalBlock.decode (expectedSequence : Nat) (expectedPreviousDigest : Digest) (encoded : Bytes) :
    WalM WalBlock := do
  let (payloadLength, digest) ← decodeBlockHeader hashes expectedSequence expectedPreviousDigest encoded
  let records ← decodeBlockRecords hashes expectedSequence payloadLength encoded
  validateBlockRecordRange records encoded
  .ok { sequence := expectedSequence, previousDigest := expectedPreviousDigest, digest, records }

end Codec

/-! ## Where the records of a block stand -/

/-- Bytes the records take in a block. -/
def recordsSize (records : List WalRecord) : Nat :=
  (records.map fun record => walRecordHeaderSize + record.body.length).sum

/-- Bytes the pending records will take in a block. -/
def pendingSize (pending : List PendingRecord) : Nat := (pending.map PendingRecord.encodedLength).sum

@[simp] theorem recordsSize_nil : recordsSize [] = 0 := rfl

@[simp] theorem recordsSize_cons (record : WalRecord) (records : List WalRecord) :
    recordsSize (record :: records) = walRecordHeaderSize + record.body.length + recordsSize records := by
  simp [recordsSize]

@[simp] theorem pendingSize_nil : pendingSize [] = 0 := rfl

@[simp] theorem pendingSize_cons (record : PendingRecord) (pending : List PendingRecord) :
    pendingSize (record :: pending) = record.encodedLength + pendingSize pending := by
  simp [pendingSize]

/-- Every record of a block carries the address of its own bytes. -/
def Placed (blockOffset : Nat) : Nat → List WalRecord → Prop
  | _, [] => True
  | payloadOffset, record :: records =>
    record.lsn.get = blockOffset + walBlockHeaderSize + payloadOffset ∧
      Placed blockOffset (payloadOffset + (walRecordHeaderSize + record.body.length)) records

/-- A record is a pending record that was given an address. -/
def WalRecord.Carries (record : WalRecord) (pending : PendingRecord) : Prop := record = pending.placed record.lsn

theorem blockOffset_eq_ok {sequence : Nat} :
    blockOffset sequence = .ok offset ↔
      0 < sequence ∧ (sequence - 1) * walBlockSize < 2 ^ 64 ∧ offset = (sequence - 1) * walBlockSize := by
  simp only [blockOffset, okOr_eq_ok, Option.bind_eq_bind, Option.bind_eq_some_iff, checkedSub_eq_some,
    checkedMul_eq_some]
  constructor
  · rintro ⟨n, ⟨hpos, rfl⟩, hlt, rfl⟩
    exact ⟨hpos, hlt, rfl⟩
  · rintro ⟨hpos, hlt, rfl⟩
    exact ⟨_, ⟨hpos, rfl⟩, hlt, rfl⟩

theorem recordLsn_eq_ok {lsn : Lsn} :
    recordLsn offset payloadOffset = .ok lsn ↔ lsn.get = offset + walBlockHeaderSize + payloadOffset := by
  simp only [recordLsn, bind_eq_ok, okOr_eq_ok, Option.bind_eq_bind, Option.bind_eq_some_iff,
    checkedAdd_eq_some, NonZeroUInt.new_eq_some]
  constructor
  · rintro ⟨raw, ⟨base, ⟨-, rfl⟩, -, rfl⟩, h⟩
    exact h.symm
  · intro h
    have hlt := lsn.lt
    exact ⟨_, ⟨_, ⟨by omega, rfl⟩, by omega, rfl⟩, h.symm⟩

theorem assignLsns_eq_ok {records : List WalRecord} (h : assignLsns offset payloadOffset pending = .ok records) :
    Placed offset payloadOffset records ∧ List.Forall₂ WalRecord.Carries records pending ∧
      recordsSize records = pendingSize pending ∧ (pending ≠ [] →
        payloadOffset + pendingSize pending ≤ walBlockPayloadSize) := by
  induction pending generalizing payloadOffset records with
  | nil =>
    cases h
    exact ⟨trivial, .nil, rfl, by simp⟩
  | cons record pending ih =>
    simp only [assignLsns, bind_eq_ok, okOr_eq_ok, checkedAdd_eq_some, failIf_eq_ok, recordLsn_eq_ok, ok.injEq] at h
    obtain ⟨next, ⟨-, rfl⟩, -, hfits, lsn, hlsn, rest, hrest, rfl⟩ := h
    obtain ⟨hplaced, hcarries, hsize, hbound⟩ := ih hrest
    refine ⟨⟨hlsn, hplaced⟩, .cons rfl hcarries, ?_, fun _ => ?_⟩
    · simp only [recordsSize_cons, pendingSize_cons, hsize]
      rfl
    · by_cases hnil : pending = []
      · subst hnil
        simp only [pendingSize_cons, pendingSize_nil]
        omega
      · have := hbound hnil
        simp only [pendingSize_cons]
        omega

/-- Records that fit a block whose last address is below the limit all get an address. -/
theorem assignLsns_ok (hoffset : offset + walBlockSize ≤ 2 ^ 64)
    (h : payloadOffset + pendingSize pending ≤ walBlockPayloadSize) :
    ∃ records, assignLsns offset payloadOffset pending = .ok records := by
  induction pending generalizing payloadOffset with
  | nil => exact ⟨[], rfl⟩
  | cons record pending ih =>
    simp only [pendingSize_cons, walBlockPayloadSize] at h
    simp only [walBlockSize] at hoffset
    have hhead : walRecordHeaderSize ≤ record.encodedLength := Nat.le_add_right _ _
    simp only [walRecordHeaderSize] at hhead
    have hrest : payloadOffset + record.encodedLength + pendingSize pending ≤ walBlockPayloadSize := by
      simp only [walBlockPayloadSize]
      omega
    obtain ⟨records, hrecords⟩ := ih hrest
    obtain ⟨lsn, hlsn⟩ : ∃ lsn, recordLsn offset payloadOffset = .ok lsn := by
      refine ⟨⟨offset + walBlockHeaderSize + payloadOffset, ?_, ?_⟩, recordLsn_eq_ok.mpr rfl⟩
      all_goals
        simp only [walBlockHeaderSize]
        omega
    refine ⟨record.placed lsn :: records, ?_⟩
    simp only [assignLsns, bind_eq_ok, okOr_eq_ok, checkedAdd_eq_some, failIf_eq_ok]
    exact ⟨_, ⟨by omega, rfl⟩, (), by simp only [walBlockPayloadSize]; omega, _, hlsn, _, hrecords, rfl⟩

end Hyphae.Wal
