import Hyphae.Mvcc.Coordinator
import Hyphae.Runtime.ConflictKeys
import Hyphae.Wal.File

/-!
# Committing one optimistic batch

A detached batch is admitted against the current root set and the conflict table, its
pages are built, its records are appended to the log, and its root set is published.
What the engines do on the way (checking the shape of a batch, applying mutations,
building pages, encoding records) is a parameter: it may fail with any error and it
changes nothing but the page and blob storage.
-/

namespace Hyphae.Runtime

open Lib

open Mvcc
open Wal (Hashes WalFile WalError PendingRecord Device Digest)

/-- Runtime failures: those the commit path itself returns, those the scheduler treats as local to one request, and the
others. -/
inductive NativeRuntimeError
  | ann | walSemantic | writeConflict (conflict : WriteConflict) | catalog | model
  | uniquePrimaryKeyViolation | uniqueSecondaryIndexViolation | catalogDependencyConflict | unknownSecondaryIndex
  | unknownRelation | unknownVectorIndex | invalidPreparedMutation | structureValueNotInteger | structureIntegerOverflow
  | structureKindMismatch | unknownStructureHash | unknownStructureSet | unknownStructureList
  | unknownStructureSortedSet | structureScoreNotCanonical | structureListIndexExhausted | structureKeyExists
  | legacyStructureFamilyUnsupported | structureIdentityTooLarge | searchIdentityTooLarge
  | snapshotBelowRetentionFloor (readCsn retentionFloorCsn : Csn)
  | groupCommitRequiresGroupDurability
  | mvcc (error : MvccError)
  | wal (error : WalError)
  | transactionIdExhausted
  | other
  deriving DecidableEq

/-- A step of the runtime that may fail. -/
abbrev RuntimeM := Except NativeRuntimeError

/-- The failures after which the scheduler answers one caller and keeps serving. -/
def schedulerRequestLocal : NativeRuntimeError → Bool
  | .ann | .walSemantic | .writeConflict _ | .catalog | .model | .uniquePrimaryKeyViolation
  | .uniqueSecondaryIndexViolation | .catalogDependencyConflict | .unknownSecondaryIndex | .unknownRelation
  | .unknownVectorIndex | .invalidPreparedMutation | .structureValueNotInteger | .structureIntegerOverflow
  | .structureKindMismatch | .unknownStructureHash | .unknownStructureSet | .unknownStructureList
  | .unknownStructureSortedSet | .structureScoreNotCanonical | .structureListIndexExhausted | .structureKeyExists
  | .legacyStructureFamilyUnsupported | .structureIdentityTooLarge | .searchIdentityTooLarge
  | .snapshotBelowRetentionFloor _ _ | .groupCommitRequiresGroupDurability => true
  | _ => false

/-- An open database: its coordinator, conflict table, log and next transaction identity, and its page and blob
files. -/
structure Database (hashes : Hashes) (σ : Type) where
  coordinator : CommitCoordinator hashes
  conflicts : ConflictTable
  wal : WalFile
  nextTransactionId : Nat
  storage : σ

/-- A step on an open database. -/
abbrev DatabaseM (hashes : Hashes) (σ : Type) := EStateM NativeRuntimeError (Database hashes σ)

/-- What the page builder is given. -/
structure PageInput (hashes : Hashes) (state : Type) where
  base : RootSet hashes
  batch : NativeWriteBatch
  state : Option state
  transactionId : TransactionId
  commitCsn : Csn
  catalogVersion : CatalogVersion
  synchronize : Bool

/-- The pages, blobs and log records of one commit. -/
structure PageCommit where
  roots : List (RootSlot × PageId)
  blobGeneration : BitVec 64
  pending : List PendingRecord

/-- The engines: the shape checks on a batch, the logical state and how mutations change it, and the page builder. -/
structure Engines (hashes : Hashes) (σ state : Type) where
  validateOwnership : NativeWriteBatch → RuntimeM Unit
  validateFormat : NativeWriteBatch → RuntimeM Unit
  validateShape : NativeWriteBatch → RuntimeM Unit
  loadState : σ → RootSet hashes → RuntimeM state
  applyMutations : state → List Mutation → RuntimeM state
  commitPages : PageInput hashes state → EStateM NativeRuntimeError σ PageCommit

structure CommitReceipt where
  transactionId : TransactionId
  commitCsn : Csn
  catalogVersion : CatalogVersion
  commitLsn : Lsn
  walBlockDigest : Digest
  durability : DurabilityClass

section Commit

variable {hashes : Hashes} {σ state : Type} (engines : Engines hashes σ state) (device : Device)

def liftMvcc {α : Type} (x : MvccM α) : RuntimeM α := x.mapError .mvcc

/-- A snapshot older than the retention floor is refused. -/
def validateRetentionFloor (readCsn : Option Csn) (base : RootSet hashes) : RuntimeM Unit :=
  match readCsn, base.retentionFloorCsn with
  | some read, some floor => .failIf (read.get < floor.get) (.snapshotBelowRetentionFloor read floor)
  | _, _ => .ok ()

def validateConflicts (conflicts : ConflictTable) (batch : NativeWriteBatch) : RuntimeM Unit :=
  (conflicts.validate batch.readCsn (writeBatchValidationKeys batch)).mapError .writeConflict

def validateOptimisticBatchPreflight (batch : NativeWriteBatch) : RuntimeM Unit := do
  engines.validateOwnership batch
  engines.validateFormat batch
  .failIf (batch.mutations = []) .walSemantic
  engines.validateShape batch

/-- What is decided before anything is built: the transaction the batch is admitted to. -/
def admitOptimistic (coordinator : CommitCoordinator hashes) (conflicts : ConflictTable) (batch : NativeWriteBatch) :
    RuntimeM (RootTransaction hashes) := do
  validateOptimisticBatchPreflight engines batch
  let transaction ← liftMvcc coordinator.beginWrite
  validateRetentionFloor batch.readCsn transaction.base
  validateConflicts conflicts batch
  .ok transaction

/-- The logical state of a materialized batch, with its mutations applied to the admitted base. -/
def materializedState (storage : σ) (base : RootSet hashes) (batch : NativeWriteBatch) : RuntimeM (Option state) :=
  match batch.mode with
  | .materialized => do
    let state ← engines.loadState storage base
    let state ← engines.applyMutations state batch.mutations
    .ok (some state)
  | .physicalAllEngineDelta => .ok none

def commitCatalogVersion (base : RootSet hashes) (batch : NativeWriteBatch) : RuntimeM CatalogVersion :=
  if batch.dirtyCatalog then .okOr (checkedNext base.catalogVersion) .catalog else .ok base.catalogVersion

/-- Run a step of the page builder on the storage. -/
def onStorage {α : Type} (x : EStateM NativeRuntimeError σ α) : DatabaseM hashes σ α :=
  fun database =>
    match x database.storage with
    | .ok a storage => .ok a { database with storage }
    | .error e storage => .error e { database with storage }

/-- Run a step of the log writer on the log. -/
def onWal {α : Type} (x : EStateM WalError WalFile α) : DatabaseM hashes σ α :=
  fun database =>
    match x database.wal with
    | .ok a wal => .ok a { database with wal }
    | .error e wal => .error (.wal e) { database with wal }

/-- A commit that is ready to be written to the log. -/
structure PreparedCommit (hashes : Hashes) where
  transaction : RootTransaction hashes
  transactionId : TransactionId
  commitCsn : Csn
  catalogVersion : CatalogVersion
  writeKeys : List WriteKey
  pages : PageCommit
  batch : NativeWriteBatch

/-- Everything up to the first byte written to the log. -/
def prepareCommit (batch : NativeWriteBatch) : DatabaseM hashes σ (PreparedCommit hashes) := do
  let database ← get
  let transaction ← .ofExcept (admitOptimistic engines database.coordinator database.conflicts batch)
  let state ← .ofExcept (materializedState engines database.storage transaction.base batch)
  let transactionId ← .ofExcept (.okOr (NonZeroUInt.new 128 database.nextTransactionId) .transactionIdExhausted)
  .ofExcept (engines.validateShape batch)
  let commitCsn ← .ofExcept (liftMvcc (.okOr (NonZeroUInt.new 64 database.coordinator.nextCsn) .csnExhausted))
  .ofExcept (validateConflicts database.conflicts batch)
  let catalogVersion ← .ofExcept (commitCatalogVersion transaction.base batch)
  let pages ← onStorage (engines.commitPages {
    base := transaction.base, batch, state, transactionId, commitCsn, catalogVersion,
    synchronize := batch.durability ≠ .memory })
  return { transaction, transactionId, commitCsn, catalogVersion, writeKeys := writeBatchWriteKeys batch, pages, batch }

/-- Everything up to the first byte written to the log, for a transaction that was the only writer since it began: it
read the current root set, and `state` is what its calls made of it. -/
def prepareInteractive (state : Option state) (staged : NativeWriteBatch) :
    DatabaseM hashes σ (PreparedCommit hashes) := do
  let database ← get
  let batch : NativeWriteBatch := { staged with readCsn := database.coordinator.current.visibleCsn }
  let transactionId ← .ofExcept (.okOr (NonZeroUInt.new 128 database.nextTransactionId) .transactionIdExhausted)
  let transaction ← .ofExcept (liftMvcc database.coordinator.beginWrite)
  .ofExcept (.failIf (batch.mutations = []) .walSemantic)
  .ofExcept (engines.validateShape batch)
  let commitCsn ← .ofExcept (liftMvcc (.okOr (NonZeroUInt.new 64 database.coordinator.nextCsn) .csnExhausted))
  .ofExcept (validateConflicts database.conflicts batch)
  let catalogVersion ← .ofExcept (commitCatalogVersion transaction.base batch)
  let pages ← onStorage (engines.commitPages {
    base := transaction.base, batch, state, transactionId, commitCsn, catalogVersion,
    synchronize := batch.durability ≠ .memory })
  return { transaction, transactionId, commitCsn, catalogVersion, writeKeys := writeBatchWriteKeys batch, pages, batch }

/-- The transaction with the roots the page builder returned. -/
def PreparedCommit.staged (prepared : PreparedCommit hashes) : RootTransaction hashes :=
  (prepared.pages.roots.foldl (fun transaction root => transaction.setRoot root.1 root.2)
    prepared.transaction).setBlobGeneration prepared.pages.blobGeneration

/-- Synchronize the log if the durability class asks for it. -/
def synchronizeWal (durability : DurabilityClass) : DatabaseM hashes σ Unit :=
  if durability = .memory then pure () else onWal (WalFile.syncData device)

/-- Append to the log, publish, and record the written keys. -/
def finishCommit (prepared : PreparedCommit hashes) : DatabaseM hashes σ CommitReceipt := do
  let receipts ← onWal (WalFile.appendRecords hashes device prepared.pages.pending false)
  synchronizeWal device prepared.batch.durability
  let block ← .ofExcept (.okOr receipts.getLast? (.wal .emptyBlock))
  let anchor ← .ofExcept (liftMvcc (WalAnchor.new block.lastLsn block.digest))
  let database ← get
  let (root, nextCsn) ← .ofExcept (liftMvcc
    (prepared.staged.commit database.coordinator.nextCsn prepared.catalogVersion anchor))
  modify fun database => { database with
    coordinator := { current := root, nextCsn, writer := none }
    conflicts := database.conflicts.publishCommitted prepared.commitCsn prepared.writeKeys }
  .ofExcept (.failIf (2 ^ 128 ≤ prepared.transactionId.get + 1) .transactionIdExhausted)
  modify fun database => { database with nextTransactionId := prepared.transactionId.get + 1 }
  return {
    transactionId := prepared.transactionId, commitCsn := prepared.commitCsn,
    catalogVersion := prepared.catalogVersion, commitLsn := block.lastLsn, walBlockDigest := block.digest,
    durability := prepared.batch.durability }

def commitOptimisticScheduled (batch : NativeWriteBatch) : DatabaseM hashes σ CommitReceipt := do
  let prepared ← prepareCommit engines batch
  finishCommit device prepared

end Commit

end Hyphae.Runtime
