import Hyphae.Runtime.Commit

/-!
# Committing a cohort of batches

A cohort is admitted batch by batch against one private conflict table: a batch is
refused on its own, and what the accepted ones write is seen by those behind them.
The accepted ones are then staged in order, synchronized together and published by
installing the last root set.
-/

namespace Hyphae.Runtime

open Lib

open Mvcc
open Wal (Hashes WalFile WalError Device)

def maxGroupCommitBatchSize : Nat := 256

/-- The engines, with the projections a cohort carries from one batch to the next. -/
structure GroupEngines (hashes : Hashes) (σ state cohort : Type) extends Engines hashes σ state where
  validateGroupShape : RootSet hashes → NativeWriteBatch → RuntimeM Unit
  startCohort : σ → RootSet hashes → cohort
  validateLayout : σ → RootSet hashes → cohort → NativeWriteBatch → RuntimeM cohort
  project : σ → RootSet hashes → cohort → NativeWriteBatch → Csn → Option state → RuntimeM cohort
  reserveWalMemory : NativeWriteBatch → RuntimeM Unit
  stagePages : PageInput hashes state → EStateM NativeRuntimeError σ PageCommit
  syncPages : EStateM NativeRuntimeError σ Unit

/-- A batch that passed admission. -/
structure AdmittedGroupCommit where
  requestIndex : Nat
  transactionId : TransactionId
  commitCsn : Csn
  catalogVersion : CatalogVersion
  batch : NativeWriteBatch

/-- What admission carries from batch to batch. -/
structure GroupAdmission (state cohort : Type) where
  state : Option state
  catalogVersion : CatalogVersion
  conflicts : ConflictTable
  cohort : cohort
  nextTransactionId : Nat
  accepted : List AdmittedGroupCommit
  rejected : List (Nat × NativeRuntimeError)

section Group

variable {hashes : Hashes} {σ state cohort : Type} (engines : GroupEngines hashes σ state cohort) (device : Device)

/-- The checks a batch has to pass before anything is applied; the keys it writes. -/
def groupAdmissionRejection (base : RootSet hashes) (conflicts : ConflictTable) (batch : NativeWriteBatch) :
    RuntimeM (List WriteKey) := do
  .failIf (batch.durability ≠ .group) .groupCommitRequiresGroupDurability
  engines.validateFormat batch
  engines.validateGroupShape base batch
  .failIf (batch.mutations = []) .walSemantic
  validateRetentionFloor batch.readCsn base
  validateConflicts conflicts batch
  .ok (writeBatchWriteKeys batch)

/-- The logical state of the cohort with one more batch applied, if the cohort carries one. -/
def candidateState (current : Option state) (mutations : List Mutation) : RuntimeM (Option state) :=
  match current with
  | none => .ok none
  | some current => do .ok (some (← engines.applyMutations current mutations))

def groupCatalogVersion (current : CatalogVersion) (batch : NativeWriteBatch) : RuntimeM CatalogVersion :=
  if batch.dirtyCatalog then .okOr (checkedNext current) .catalog else .ok current

/-- Admit or refuse one batch. Only exhausted sequences fail the cohort as a whole. -/
def admitBatch (storage : σ) (group : RootGroupTransaction hashes) (nextCsn : Nat)
    (admission : GroupAdmission state cohort) (requestIndex : Nat) (batch : NativeWriteBatch) :
    RuntimeM (GroupAdmission state cohort) :=
  let base := group.baseRoots
  let reject := fun e => { admission with rejected := admission.rejected ++ [(requestIndex, e)] }
  match (do
    let writeKeys ← groupAdmissionRejection engines base admission.conflicts batch
    let layout ← engines.validateLayout storage base admission.cohort batch
    let candidate ← candidateState engines admission.state batch.mutations
    .ok (writeKeys, layout, candidate) : RuntimeM _) with
  | .error e => .ok (reject e)
  | .ok (writeKeys, layout, candidate) => do
    let commitCsn ← liftMvcc (RootGroupTransaction.commitCsnAtOffset nextCsn admission.accepted.length)
    match (do
      let projected ← engines.project storage base layout batch commitCsn candidate
      let catalogVersion ← groupCatalogVersion admission.catalogVersion batch
      engines.reserveWalMemory batch
      .ok (projected, catalogVersion) : RuntimeM _) with
    | .error e => .ok (reject e)
    | .ok (projected, catalogVersion) =>
      let transactionId ← .okOr (NonZeroUInt.new 128 admission.nextTransactionId) .transactionIdExhausted
      .failIf (2 ^ 128 ≤ admission.nextTransactionId + 1) .transactionIdExhausted
      .ok {
        state := candidate
        catalogVersion
        conflicts := admission.conflicts.publishCommitted commitCsn writeKeys
        cohort := projected
        nextTransactionId := admission.nextTransactionId + 1
        accepted := admission.accepted ++ [{ requestIndex, transactionId, commitCsn, catalogVersion, batch }]
        rejected := admission.rejected }

/-- Admit the batches in order. -/
def admitBatches (storage : σ) (group : RootGroupTransaction hashes) (nextCsn : Nat) :
    GroupAdmission state cohort → Nat → List NativeWriteBatch →
      RuntimeM (GroupAdmission state cohort)
  | admission, _, [] => .ok admission
  | admission, requestIndex, batch :: batches => do
    let admission ← admitBatch engines storage group nextCsn admission requestIndex batch
    admitBatches storage group nextCsn admission (requestIndex + 1) batches

/-- The state the cohort starts from, loaded if some batch is materialized. -/
def initialState (storage : σ) (base : RootSet hashes) (batches : List NativeWriteBatch) : RuntimeM (Option state) :=
  if batches.any (·.mode = .materialized) then do .ok (some (← engines.loadState storage base)) else .ok none

def admitCohort (storage : σ) (group : RootGroupTransaction hashes) (conflicts : ConflictTable)
    (nextCsn nextTransactionId : Nat) (batches : List NativeWriteBatch) : RuntimeM (GroupAdmission state cohort) := do
  let base := group.baseRoots
  let state ← initialState engines storage base batches
  admitBatches engines storage group nextCsn
    { state, catalogVersion := base.catalogVersion, conflicts, cohort := engines.startCohort storage base,
      nextTransactionId, accepted := [], rejected := [] } 0 batches

/-- The roots the page builder returned, as a map. -/
def rootMap (roots : List (RootSlot × PageId)) : OrderedMap RootSlot PageId :=
  roots.foldl (fun map root => map.insert root.1 root.2) OrderedMap.empty

/-- Build the pages of one admitted batch, append its records and stage its root set. -/
def stageOne (nextCsn : Nat) (group : RootGroupTransaction hashes) (current : Option state)
    (admitted : AdmittedGroupCommit) :
    DatabaseM hashes σ (RootGroupTransaction hashes × Option state) := do
  let commitCsn ← .ofExcept (liftMvcc (group.nextCommitCsn nextCsn))
  .ofExcept (.failIf (commitCsn ≠ admitted.commitCsn) .invalidPreparedMutation)
  let current ← .ofExcept (candidateState engines current admitted.batch.mutations)
  .ofExcept (.failIf (admitted.batch.mode = .materialized ∧ current.isNone) .invalidPreparedMutation)
  let pages ← onStorage (engines.stagePages {
    base := group.baseRoots, batch := admitted.batch, state := current, transactionId := admitted.transactionId,
    commitCsn, catalogVersion := admitted.catalogVersion, synchronize := true })
  let receipts ← onWal (WalFile.appendRecords hashes device pages.pending false)
  let block ← .ofExcept (.okOr receipts.getLast? (.wal .emptyBlock))
  let anchor ← .ofExcept (liftMvcc (WalAnchor.new block.lastLsn block.digest))
  let group ← .ofExcept (liftMvcc (group.stageCommit nextCsn admitted.catalogVersion anchor (rootMap pages.roots)
    pages.blobGeneration))
  return (group, current)

def stageAll (nextCsn : Nat) : RootGroupTransaction hashes → Option state → List AdmittedGroupCommit →
    DatabaseM hashes σ (RootGroupTransaction hashes)
  | group, _, [] => pure group
  | group, current, admitted :: rest => do
    let (group, current) ← stageOne engines device nextCsn group current admitted
    stageAll nextCsn group current rest

/-- Commit a cohort: the batches accepted, and those refused with their reasons. -/
def commitGroupAt (batches : List NativeWriteBatch) : DatabaseM hashes σ (GroupAdmission state cohort) := do
  .ofExcept (.failIf (batches = [] ∨ maxGroupCommitBatchSize < batches.length) .other)
  .ofExcept (batches.forM engines.validateOwnership)
  let database ← get
  let group ← .ofExcept (liftMvcc database.coordinator.beginGroupWrite)
  let nextCsn := database.coordinator.nextCsn
  let admission ← .ofExcept (admitCohort engines database.storage group database.conflicts nextCsn
    database.nextTransactionId batches)
  if admission.accepted = [] then return admission
  else do
    let initial ← .ofExcept (initialState engines database.storage group.baseRoots batches)
    let staged ← stageAll engines device nextCsn group initial admission.accepted
    onStorage engines.syncPages
    onWal (WalFile.syncData device)
    let (root, nextCsn) ← .ofExcept (liftMvcc staged.publish)
    modify fun database => { database with
      coordinator := { current := root, nextCsn, writer := none }
      conflicts := admission.conflicts
      nextTransactionId := admission.nextTransactionId }
    return admission

end Group

end Hyphae.Runtime
