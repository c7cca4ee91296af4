import Hyphae.Wal.Block

/-!
# The WAL file

The writer packs records into blocks and appends the blocks to one physical file.
Opening the file verifies every complete block against the chain that starts at a
base, and cuts an incomplete last block off. A `Device` decides what the operating
system does to the writes of one call: a write may stop inside a block, a truncation
or a synchronization may fail.
-/

namespace Hyphae.Wal

open Lib

/-- A physical file; its length is a `u64`. -/
structure File where
  bytes : Bytes
  fits : bytes.length < 2 ^ 64
  deriving DecidableEq

namespace File

def empty : File := ⟨[], by norm_num⟩

/-- The file cut at a byte offset. -/
def cut (file : File) (offset : Nat) : File :=
  ⟨file.bytes.take offset, by have := file.fits; rw [List.length_take]; omega⟩

/-- Bytes the file can still grow by. -/
def room (file : File) : Nat := 2 ^ 64 - 1 - file.bytes.length

/-- The file after `count` bytes of `data` reached its end. -/
def write (file : File) (count : Nat) (data : Bytes) : File where
  bytes := file.bytes ++ data.take (min count file.room)
  fits := by
    have := file.fits
    rw [List.length_append, List.length_take, room]
    omega

@[simp] theorem bytes_empty : empty.bytes = [] := rfl

@[simp] theorem bytes_cut (file : File) (offset : Nat) : (file.cut offset).bytes = file.bytes.take offset := rfl

@[simp] theorem bytes_write (file : File) (count : Nat) (data : Bytes) :
    (file.write count data).bytes = file.bytes ++ data.take (min count file.room) := rfl

def readExactAt (file : File) (length offset : Nat) : WalM Bytes := do
  .failIf (file.bytes.length < offset + length) .io
  .ok (slice file.bytes offset (offset + length))

end File

/-- Outcomes of the file operations of one call. -/
structure Device where
  /-- Bytes of the block with this sequence that are taken. -/
  accepts : Nat → Nat
  truncates : Bool
  synchronizes : Bool

/-- Durable identity of one appended WAL block. -/
structure BlockReceipt where
  sequence : Nat
  firstLsn : Lsn
  lastLsn : Lsn
  digest : Digest
  deriving DecidableEq

def WalBlock.receipt (block : WalBlock) : WalM BlockReceipt := do
  let firstLsn ← .okOr (block.records.head?.map WalRecord.lsn) .emptyBlock
  let lastLsn ← .okOr (block.records.getLast?.map WalRecord.lsn) .emptyBlock
  .ok { sequence := block.sequence, firstLsn, lastLsn, digest := block.digest }

/-- Verified recovery report for one WAL file. -/
structure WalRecovery where
  baseSequence : Nat
  baseDigest : Digest
  records : List WalRecord
  blocks : List BlockReceipt
  truncatedTailBytes : Nat
  lastSequence : Nat
  lastDigest : Digest

/-- Append-only block-framed native WAL file. -/
structure WalFile where
  file : File
  nextSequence : Nat
  previousDigest : Digest
  poisoned : Bool

/-- Newly opened WAL and its verified recovery evidence. -/
structure OpenedWal where
  wal : WalFile
  recovery : WalRecovery

/-- The loop that packs records into groups of one block each. -/
def packRecords : List (List PendingRecord) → List PendingRecord → Nat → List PendingRecord →
    WalM (List (List PendingRecord))
  | groups, current, _, [] => .ok (if current = [] then groups else groups ++ [current])
  | groups, current, currentBytes, record :: records => do
    let total ← .okOr (checkedAdd currentBytes record.encodedLength) .addressExhausted
    let full := walBlockPayloadSize < total
    let currentBytes ← .okOr (checkedAdd (if full then 0 else currentBytes) record.encodedLength) .addressExhausted
    packRecords (if full then groups ++ [current] else groups) ((if full then [] else current) ++ [record])
      currentBytes records

namespace WalFile

/-- The last absolute block sequence known by this writer. -/
def lastSequence (wal : WalFile) : Nat := wal.nextSequence - 1

/-- The digest preceding the next block append. -/
def lastDigest (wal : WalFile) : Digest := wal.previousDigest

/-- A new empty WAL file. -/
def create : WalFile := { file := .empty, nextSequence := 1, previousDigest := .zero, poisoned := false }

/-- Append `data` at the end of the file; the device takes `count` bytes of it. -/
def writeAll (count : Nat) (data : Bytes) : EStateM WalError WalFile Unit := fun wal =>
  let written := { wal with file := wal.file.write count data }
  if data.length ≤ min count wal.file.room then .ok () written else .error .io written

section Operations

variable (hashes : Hashes)

/-- Build and write the block of one group. -/
def appendGroup (device : Device) (group : List PendingRecord) : EStateM WalError WalFile BlockReceipt := do
  let wal ← get
  let (block, encoded) ← .ofExcept (WalBlock.buildEncoded hashes wal.nextSequence wal.previousDigest group)
  writeAll (device.accepts wal.nextSequence) encoded
  let receipt ← .ofExcept block.receipt
  modify fun wal => { wal with previousDigest := block.digest }
  let nextSequence ← .ofExcept (.okOr (checkedAdd wal.nextSequence 1) .addressExhausted)
  modify fun wal => { wal with nextSequence }
  return receipt

def appendGroups (device : Device) : List (List PendingRecord) → EStateM WalError WalFile (List BlockReceipt)
  | [] => return []
  | group :: groups => do
    let receipt ← appendGroup hashes device group
    let receipts ← appendGroups device groups
    return receipt :: receipts

/-- Append records in one or more packed fixed-size blocks. -/
def appendRecords (device : Device) (records : List PendingRecord) (synchronize : Bool) :
    EStateM WalError WalFile (List BlockReceipt) := do
  let wal ← get
  .ofExcept (.failIf wal.poisoned .poisoned)
  .ofExcept (.failIf (records = []) .emptyBlock)
  let groups ← .ofExcept (packRecords [] [] 0 records)
  modify fun wal => { wal with poisoned := true }
  let receipts ← appendGroups hashes device groups
  .ofExcept (.failIf (synchronize ∧ ¬device.synchronizes) .io)
  modify fun wal => { wal with poisoned := false }
  return receipts

/-- Synchronize previously appended blocks. -/
def syncData (device : Device) : EStateM WalError WalFile Unit := do
  let wal ← get
  .ofExcept (.failIf wal.poisoned .poisoned)
  modify fun wal => { wal with poisoned := !device.synchronizes }
  .ofExcept (.failIf (¬device.synchronizes) .io)

/-- Retire the current physical file and resume after one absolute block base. -/
def resetAfter (device : Device) (retiredThroughSequence : Nat) (retiredBlockDigest : Digest) (synchronize : Bool) :
    EStateM WalError WalFile Unit := do
  .ofExcept (.failIf (retiredThroughSequence = 0 ∨ retiredBlockDigest = .zero) .invalidPhysicalBase)
  let nextSequence ← .ofExcept (.okOr (checkedAdd retiredThroughSequence 1) .addressExhausted)
  modify fun wal => { wal with poisoned := true }
  .ofExcept (.failIf (¬device.truncates) .io)
  modify fun wal => { wal with file := .empty }
  .ofExcept (.failIf (synchronize ∧ ¬device.synchronizes) .io)
  modify fun wal => { wal with nextSequence, previousDigest := retiredBlockDigest, poisoned := false }

/-- Verify `remaining` complete blocks from block `index` of the file on. -/
def recoverBlocks (file : File) (baseSequence : Nat) :
    Nat → Nat → Digest → WalM (List WalRecord × List BlockReceipt × Digest)
  | 0, _, previousDigest => .ok ([], [], previousDigest)
  | remaining + 1, index, previousDigest => do
    let sequence ← .okOr (do checkedAdd (← checkedAdd baseSequence index) 1) .addressExhausted
    let offset ← .okOr (checkedMul index walBlockSize) .addressExhausted
    let encoded ← file.readExactAt walBlockSize offset
    let block ← WalBlock.decode hashes sequence previousDigest encoded
    let receipt ← block.receipt
    let (records, receipts, lastDigest) ← recoverBlocks file baseSequence remaining (index + 1) block.digest
    .ok (block.records ++ records, receipt :: receipts, lastDigest)

/-- Cut an incomplete last block off. -/
def repairTail (file : File) (completeBlocks tailBytes : Nat) : WalM File :=
  if tailBytes ≠ 0 then do
    let completeBytes ← .okOr (checkedMul completeBlocks walBlockSize) .addressExhausted
    .ok (file.cut completeBytes)
  else .ok file

/-- Open a retained WAL suffix after one verified absolute block base. -/
def openAfter (file : File) (baseSequence : Nat) (baseDigest : Digest) : WalM OpenedWal := do
  .failIf (¬(baseSequence = 0 ↔ baseDigest = .zero)) .invalidPhysicalBase
  let completeBlocks := file.bytes.length / walBlockSize
  let tailBytes := file.bytes.length % walBlockSize
  let (records, blocks, previousDigest) ← recoverBlocks hashes file baseSequence completeBlocks 0 baseDigest
  let file ← repairTail file completeBlocks tailBytes
  let lastSequence ← .okOr (checkedAdd baseSequence completeBlocks) .addressExhausted
  let nextSequence ← .okOr (checkedAdd lastSequence 1) .addressExhausted
  .ok
    { wal := { file, nextSequence, previousDigest, poisoned := false }
      recovery := { baseSequence, baseDigest, records, blocks, truncatedTailBytes := tailBytes, lastSequence,
                    lastDigest := previousDigest } }

end Operations

end WalFile

end Hyphae.Wal
