import Hyphae.Runtime.WalCodec

/-!
# Recovering the transactions of a log

Recovery reads the records in order. It keeps the transaction whose begin it has seen
and whose end it has not, and what it has recovered so far: committed transactions,
checkpoints and the outcomes reserved for callers. A log that ends inside a transaction
leaves that transaction dangling.
-/

namespace Hyphae.Runtime

open Lib

open Mvcc (ObjectId CatalogVersion csnValue first)
open Wal

/-! ## Authority markers

The markers of the vector indexes a transaction changed stand behind all its other
mutations, in ascending order of the indexes, all of one version. -/

def annDeltaAuthorityV2 (mutation : Mutation) : SemanticM AnnDeltaAuthorityV2 := do
  .failIf
    (mutation.engine ≠ .search ∨ mutation.opcode ≠ .annDeltaAuthorityV2 ∨ mutation.key ≠ [] ∨
      mutation.expiresAtMicros.isSome)
    .invalidBody
  decodeAnnDeltaAuthorityV2 mutation.value mutation.target

/-- What has been seen of the mutations so far. -/
structure MarkerScan where
  upsertCounts : OrderedMap ObjectId Nat := .empty
  vectorMutationCounts : OrderedMap ObjectId Nat := .empty
  absenceFenceIndexes : Finset ObjectId := ∅
  absenceFenceCount : Nat := 0
  createdIndexes : Finset ObjectId := ∅
  legacyMutationIndexes : Finset ObjectId := ∅
  authorityV1Indexes : Finset ObjectId := ∅
  authorityV2Indexes : Finset ObjectId := ∅
  markersStarted : Bool := false
  previousMarker : Option ObjectId := none
  markerVersion : Option Nat := none

/-- One more mutation of an index, in a 32-bit counter. -/
def countMutation (counts : OrderedMap ObjectId Nat) (index : ObjectId) :
    SemanticM (OrderedMap ObjectId Nat) := do
  let count := (counts.get index).getD 0 + 1
  .failIf (2 ^ 32 ≤ count) .lengthOverflow
  .ok (counts.insert index count)

namespace MarkerScan

def marker (scan : MarkerScan) (mutation : Mutation) : SemanticM MarkerScan := do
  let index ← .okOr mutation.target .invalidBody
  let version := if mutation.opcode = .annDeltaAuthorityV1 then 1 else 2
  .failIf
    (scan.markerVersion.any (· ≠ version) ∨ mutation.engine ≠ .search ∨ mutation.key ≠ [] ∨
      mutation.expiresAtMicros.isSome ∨ scan.previousMarker.any (index ≤ ·))
    .invalidBody
  let scan := { scan with markersStarted := true, markerVersion := some version, previousMarker := some index }
  if version = 1 then do
    .failIf (¬validAnnDeltaAuthorityV1 mutation.value ∨ index ∈ scan.authorityV1Indexes) .invalidBody
    .ok { scan with authorityV1Indexes := insert index scan.authorityV1Indexes }
  else do
    let authority ← annDeltaAuthorityV2 mutation
    .failIf
      (authority.operationCount ≠ (scan.vectorMutationCounts.get index).getD 0 ∨ index ∈ scan.createdIndexes ∨
        index ∈ scan.legacyMutationIndexes ∨ index ∈ scan.authorityV2Indexes)
      .invalidSequence
    .ok { scan with authorityV2Indexes := insert index scan.authorityV2Indexes }

def ordinary (scan : MarkerScan) (mutation : Mutation) : SemanticM MarkerScan := do
  .failIf scan.markersStarted .invalidSequence
  match mutation.opcode with
  | .deleteVector => do
    let index ← .okOr mutation.target .invalidBody
    let counts ← countMutation scan.vectorMutationCounts index
    .ok { scan with vectorMutationCounts := counts }
  | .upsertVector => do
    let index ← .okOr mutation.target .invalidBody
    let counts ← countMutation scan.vectorMutationCounts index
    let upserts ← countMutation scan.upsertCounts index
    .ok { scan with vectorMutationCounts := counts, upsertCounts := upserts }
  | .fenceVectorAbsence => do
    .failIf (2 ^ 32 ≤ scan.absenceFenceCount + 1) .lengthOverflow
    .failIf (annDeltaAuthorityV2MaxOperations < scan.absenceFenceCount + 1) .invalidSequence
    let index ← .okOr mutation.target .invalidBody
    .ok { scan with
      absenceFenceCount := scan.absenceFenceCount + 1, absenceFenceIndexes := insert index scan.absenceFenceIndexes }
  | .createAnnIndex => do
    let index ← .okOr mutation.target .invalidBody
    .ok { scan with createdIndexes := insert index scan.createdIndexes }
  | .consolidateAnn | .publishInitialAnnBulk => do
    let index ← .okOr mutation.target .invalidBody
    .ok { scan with legacyMutationIndexes := insert index scan.legacyMutationIndexes }
  | _ => .ok scan

def step (scan : MarkerScan) (mutation : Mutation) : SemanticM MarkerScan :=
  if mutation.opcode = .annDeltaAuthorityV1 ∨ mutation.opcode = .annDeltaAuthorityV2 then scan.marker mutation
  else scan.ordinary mutation

def finish (scan : MarkerScan) : SemanticM Unit :=
  match scan.markerVersion with
  | some 1 =>
    .failIf
      ((scan.upsertCounts.entries.map Prod.fst).toFinset ≠ scan.authorityV1Indexes ∨ scan.absenceFenceIndexes ≠ ∅)
      .invalidSequence
  | some 2 =>
    .failIf
      ((scan.vectorMutationCounts.entries.map Prod.fst).toFinset \
        (scan.createdIndexes ∪ scan.legacyMutationIndexes) ≠ scan.authorityV2Indexes)
      .invalidSequence
  | _ => .ok ()

end MarkerScan

def validateAnnDeltaAuthorityMarkers (mutations : List Mutation) : SemanticM Unit := do
  let scan ← mutations.foldlM MarkerScan.step {}
  scan.finish

/-! ## Encoding -/

structure TransactionPlan where
  transactionId : TransactionId
  readCsn : Option Csn
  catalogVersion : CatalogVersion
  logicalTimeMicros : BitVec 64
  durability : DurabilityClass
  mutations : List Mutation
  commitCsn : Csn
  roots : Fin 4 → PageId
  blobGeneration : BitVec 64
  pageGeneration : PageGeneration
  retentionFloorCsn : Csn

/-- `hyphae-native-mutation-set-v1` -/
def mutationDigestDomain : Bytes :=
  [104, 121, 112, 104, 97, 101, 45, 110, 97, 116, 105, 118, 101, 45, 109, 117, 116, 97, 116, 105, 111, 110, 45, 115,
    101, 116, 45, 118, 49]

/-- What one mutation adds to the digested bytes. -/
def digestedBody (engine : EngineKind) (body : Bytes) : Bytes := [engine.code] ++ leBytes 4 body.length ++ body

def digestedMutations (mutations : List Mutation) : Bytes :=
  mutationDigestDomain ++ mutations.flatMap fun mutation => digestedBody mutation.engine mutation.fields.flatten

/-- Add the size of one mutation body. -/
def addBodyLength (total : Nat) (mutation : Mutation) : SemanticM Nat := do
  .failIf (2 ^ 64 ≤ mutation.bodyLength) .lengthOverflow
  .failIf (walRecordBodySize < mutation.bodyLength) .lengthOverflow
  .failIf (2 ^ 32 ≤ mutation.key.length) .lengthOverflow
  .failIf (2 ^ 32 ≤ mutation.value.length) .lengthOverflow
  .okOr (checkedAdd total mutation.bodyLength) .lengthOverflow

def pendingRecord (kind : RecordKind) (engine : EngineKind) (transactionId : TransactionId) (body : Bytes) :
    SemanticM PendingRecord :=
  (PendingRecord.new kind engine 0 transactionId body).mapError .frame

namespace TransactionPlan

variable (hashes : Hashes)

def start (plan : TransactionPlan) (mutationBytes : Nat) : Begin where
  readCsn := plan.readCsn
  catalogVersion := plan.catalogVersion
  logicalTimeMicros := plan.logicalTimeMicros
  durability := plan.durability
  mutationCount := plan.mutations.length
  mutationBytes := mutationBytes

def manifest (plan : TransactionPlan) (mutationBytes : Nat) (mutationDigest : Digest) : CommitManifest where
  readCsn := plan.readCsn
  commitCsn := plan.commitCsn
  catalogVersion := plan.catalogVersion
  blobGeneration := plan.blobGeneration
  mutationCount := plan.mutations.length
  mutationBytes := mutationBytes
  logicalTimeMicros := plan.logicalTimeMicros
  mutationDigest := mutationDigest
  roots := plan.roots
  pageGeneration := plan.pageGeneration
  retentionFloorCsn := plan.retentionFloorCsn

end TransactionPlan

/-- The digest over the engines and the bodies of the mutations. -/
def mutationDigest (hashes : Hashes) (bodies : List (EngineKind × Bytes)) : SemanticM Digest := do
  .failIf (∃ body ∈ bodies, 2 ^ 32 ≤ body.2.length) .lengthOverflow
  .ok (hashes.blake3 (mutationDigestDomain ++ bodies.flatMap fun body => digestedBody body.1 body.2))

def encodeTransaction (hashes : Hashes) (plan : TransactionPlan) : SemanticM (List PendingRecord) := do
  validateStorageState plan.pageGeneration plan.retentionFloorCsn plan.commitCsn
  .failIf (2 ^ 32 ≤ plan.mutations.length) .lengthOverflow
  let mutationBytes ← plan.mutations.foldlM addBodyLength 0
  validateTransactionBounds plan.mutations.length mutationBytes
  validateAnnDeltaAuthorityMarkers plan.mutations
  let encodedMutations ← plan.mutations.mapM Mutation.encode
  let digest ← mutationDigest hashes ((plan.mutations.map Mutation.engine).zip encodedMutations)
  let start ← pendingRecord .begin .kernel plan.transactionId (plan.start mutationBytes).encode
  let mutations ← (plan.mutations.zip encodedMutations).mapM fun (mutation, body) =>
    pendingRecord .mutation mutation.engine plan.transactionId body
  let commit ← pendingRecord .commit .kernel plan.transactionId (plan.manifest mutationBytes digest).encode
  .ok ([start] ++ mutations ++ [commit])

def encodeAbort (transactionId : TransactionId) : SemanticM PendingRecord :=
  pendingRecord .abort .kernel transactionId abortMagic

structure RecoveredCheckpoint where
  transactionId : TransactionId
  checkpointLsn : Lsn
  visibleCsn : Csn
  manifestGeneration : NonZeroUInt 64
  manifestDigest : Digest
  previousCheckpointLsn : Option Lsn
  deriving DecidableEq

/-- The fields of a checkpoint body in physical order. -/
def RecoveredCheckpoint.fields (checkpoint : RecoveredCheckpoint) : List Bytes :=
  [checkpointMagic, leBytes 8 checkpoint.visibleCsn.get, leBytes 8 checkpoint.manifestGeneration.get,
    checkpoint.manifestDigest.bytes, leBytes 8 (csnValue checkpoint.previousCheckpointLsn)]

/-- The record of a checkpoint; where it stands is not part of it. -/
def encodeCheckpoint (checkpoint : RecoveredCheckpoint) : SemanticM PendingRecord :=
  pendingRecord .checkpoint .kernel checkpoint.transactionId checkpoint.fields.flatten

structure RecoveredOutcome where
  resolutionId : TransactionId
  runtimeTransactionId : TransactionId
  principalHash : Digest
  idempotencyToken : Digest
  state : UInt8
  commitCsn : Option Csn
  deriving DecidableEq

/-- The fields of an outcome body in physical order. -/
def RecoveredOutcome.fields (outcome : RecoveredOutcome) : List Bytes :=
  [outcomeMagic, [outcome.state], zeros 7, leBytes 16 outcome.resolutionId.get,
    leBytes 16 outcome.runtimeTransactionId.get, outcome.principalHash.bytes, outcome.idempotencyToken.bytes,
    leBytes 8 (csnValue outcome.commitCsn)]

/-- One of the three states, and a sequence exactly in the committed one. -/
def RecoveredOutcome.StateAgrees (outcome : RecoveredOutcome) : Prop :=
  (outcome.state = 1 ∨ outcome.state = 2 ∨ outcome.state = 3) ∧ (outcome.state = 1 ↔ outcome.commitCsn.isSome)

instance (outcome : RecoveredOutcome) : Decidable outcome.StateAgrees := inferInstanceAs (Decidable (_ ∧ _))

def encodeOutcome (outcome : RecoveredOutcome) : SemanticM PendingRecord := do
  .failIf (¬outcome.StateAgrees) .invalidSequence
  pendingRecord .catalog .kernel outcome.runtimeTransactionId outcome.fields.flatten

/-! ## Recovery -/

structure RecoveredCommit where
  transactionId : TransactionId
  commitLsn : Lsn
  durability : DurabilityClass
  manifest : CommitManifest
  mutations : List Mutation
  deriving DecidableEq

structure RecoveredWal where
  commits : List RecoveredCommit := []
  checkpoints : List RecoveredCheckpoint := []
  outcomes : List RecoveredOutcome := []
  danglingTransaction : Option TransactionId := none
  deriving DecidableEq

/-- The checkpoint an earlier truncation of the log stopped at. -/
structure WalSemanticBase where
  visibleCsn : Csn
  checkpointLsn : Lsn
  manifestGeneration : NonZeroUInt 64
  deriving DecidableEq

/-- A transaction whose end has not been read; `hashed` is what its digest is taken over. -/
structure ActiveTransaction where
  transactionId : TransactionId
  start : Begin
  mutations : List Mutation
  mutationBytes : Nat
  hashed : Bytes
  deriving DecidableEq

namespace ActiveTransaction

def admitMutationBody (active : ActiveTransaction) (engine : EngineKind) (body : Bytes) :
    SemanticM ActiveTransaction := do
  let nextCount := active.mutations.length + 1
  let nextBytes ← .okOr (checkedAdd active.mutationBytes body.length) .lengthOverflow
  .failIf
    (active.start.mutationCount < nextCount ∨ active.start.mutationBytes < nextBytes ∨
      maxTransactionMutations < nextCount ∨ maxTransactionMutationBytes < nextBytes)
    .contentMismatch
  .failIf (2 ^ 32 ≤ body.length) .lengthOverflow
  .ok { active with hashed := active.hashed ++ digestedBody engine body, mutationBytes := nextBytes }

def validate (hashes : Hashes) (active : ActiveTransaction) (commit : CommitManifest) :
    SemanticM Unit := do
  .failIf (active.mutations = []) .invalidSequence
  validateAnnDeltaAuthorityMarkers active.mutations
  .failIf (2 ^ 32 ≤ active.mutations.length) .lengthOverflow
  .failIf
    (active.start.readCsn ≠ commit.readCsn ∨ active.start.catalogVersion ≠ commit.catalogVersion ∨
      active.start.logicalTimeMicros ≠ commit.logicalTimeMicros ∨ active.start.mutationCount ≠ active.mutations.length ∨
      active.start.mutationBytes ≠ active.mutationBytes ∨ commit.mutationCount ≠ active.mutations.length ∨
      commit.mutationBytes ≠ active.mutationBytes ∨ commit.mutationDigest ≠ hashes.blake3 active.hashed)
    .contentMismatch

end ActiveTransaction

def decodeCheckpoint (record : WalRecord) : SemanticM RecoveredCheckpoint := do
  let body := record.body
  .failIf (body.length ≠ 64 ∨ slice body 0 8 ≠ checkpointMagic) .invalidBody
  let visibleCsn ← .okOr (NonZeroUInt.new 64 (ofLe (slice body 8 16))) .invalidIdentity
  let manifestGeneration ← .okOr (NonZeroUInt.new 64 (ofLe (slice body 16 24))) .invalidIdentity
  let manifestDigest ← .okOr (readDigest (slice body 24 56)) .invalidBody
  .failIf (manifestDigest = Digest.zero) .invalidIdentity
  .ok { transactionId := record.transactionId, checkpointLsn := record.lsn, visibleCsn, manifestGeneration,
        manifestDigest, previousCheckpointLsn := NonZeroUInt.new 64 (ofLe (slice body 56 64)) }

/-- The checkpoint does not continue the one at `lsn`, with that generation and sequence. -/
def RecoveredCheckpoint.breaks (checkpoint : RecoveredCheckpoint) (lsn : Lsn) (generation : NonZeroUInt 64)
    (visible : Csn) : Prop :=
  checkpoint.previousCheckpointLsn ≠ some lsn ∨ checkpoint.manifestGeneration ≤ generation ∨
    checkpoint.visibleCsn < visible

instance (checkpoint : RecoveredCheckpoint) (lsn : Lsn) (generation : NonZeroUInt 64) (visible : Csn) :
    Decidable (checkpoint.breaks lsn generation visible) := inferInstanceAs (Decidable (_ ∨ _))

/-- A checkpoint out of line with what was recovered before it. -/
def RecoveredWal.refusesCheckpoint (recovered : RecoveredWal) (base : Option WalSemanticBase)
    (checkpoint : RecoveredCheckpoint) : Prop :=
  (¬((∃ commit ∈ recovered.commits, commit.manifest.commitCsn = checkpoint.visibleCsn) ∨
    ∃ start ∈ base, start.visibleCsn = checkpoint.visibleCsn)) ∨
  match recovered.checkpoints.getLast?, base with
  | some previous, _ => checkpoint.breaks previous.checkpointLsn previous.manifestGeneration previous.visibleCsn
  | none, some start => checkpoint.breaks start.checkpointLsn start.manifestGeneration start.visibleCsn
  | none, none => checkpoint.previousCheckpointLsn.isSome

instance (recovered : RecoveredWal) (base : Option WalSemanticBase) (checkpoint : RecoveredCheckpoint) :
    Decidable (recovered.refusesCheckpoint base checkpoint) := by
  unfold RecoveredWal.refusesCheckpoint
  split <;> infer_instance

def recoverCheckpoint (base : Option WalSemanticBase) (record : WalRecord) (transactionActive : Bool)
    (recovered : RecoveredWal) : SemanticM RecoveredWal := do
  .failIf (transactionActive ∨ record.engine ≠ .kernel ∨ record.flags ≠ 0) .invalidSequence
  let checkpoint ← decodeCheckpoint record
  .failIf (recovered.refusesCheckpoint base checkpoint) .invalidSequence
  .ok { recovered with checkpoints := recovered.checkpoints ++ [checkpoint] }

def decodeOutcome (record : WalRecord) : SemanticM RecoveredOutcome := do
  let body := record.body
  .failIf (body.length ≠ outcomeBodySize ∨ slice body 0 8 ≠ outcomeMagic ∨ ∃ byte ∈ slice body 9 16, byte ≠ 0)
    .invalidBody
  let state := body.getD 8 0
  .failIf (¬(state = 1 ∨ state = 2 ∨ state = 3)) .invalidBody
  let resolutionId ← .okOr (NonZeroUInt.new 128 (ofLe (slice body 16 32))) .invalidIdentity
  let runtimeTransactionId ← .okOr (NonZeroUInt.new 128 (ofLe (slice body 32 48))) .invalidIdentity
  let principalHash ← .okOr (readDigest (slice body 48 80)) .invalidBody
  let idempotencyToken ← .okOr (readDigest (slice body 80 112)) .invalidBody
  .failIf (principalHash = Digest.zero ∨ idempotencyToken = Digest.zero) .invalidIdentity
  let commitCsn := NonZeroUInt.new 64 (ofLe (slice body 112 120))
  .failIf (¬(state = 1 ↔ commitCsn.isSome)) .invalidSequence
  .ok { resolutionId, runtimeTransactionId, principalHash, idempotencyToken, state, commitCsn }

/-- The same reservation, or one for the same caller and token. -/
def RecoveredOutcome.rivals (outcome prior : RecoveredOutcome) : Bool :=
  prior.resolutionId = outcome.resolutionId ∨
    (prior.principalHash = outcome.principalHash ∧ prior.idempotencyToken = outcome.idempotencyToken)

/-- The outcome does not resolve the reservation `prior`. -/
def RecoveredOutcome.contradicts (outcome prior : RecoveredOutcome) : Bool :=
  prior.resolutionId ≠ outcome.resolutionId ∨ prior.runtimeTransactionId ≠ outcome.runtimeTransactionId ∨
    prior.principalHash ≠ outcome.principalHash ∨ prior.idempotencyToken ≠ outcome.idempotencyToken ∨ prior.state ≠ 3

/-- An outcome out of line with what was recovered before it. -/
def RecoveredWal.refusesOutcome (recovered : RecoveredWal) (outcome : RecoveredOutcome) : Prop :=
  ((recovered.outcomes.reverse.find? outcome.rivals).any outcome.contradicts) ∨
  (outcome.state = 1 ∧ ¬∃ commit ∈ recovered.commits,
    commit.transactionId = outcome.runtimeTransactionId ∧ some commit.manifest.commitCsn = outcome.commitCsn)

instance (recovered : RecoveredWal) (outcome : RecoveredOutcome) : Decidable (recovered.refusesOutcome outcome) :=
  inferInstanceAs (Decidable (_ ∨ _))

/-- Replace the outcome with the same identity, or add the outcome. -/
def putOutcome (outcome : RecoveredOutcome) : List RecoveredOutcome → List RecoveredOutcome
  | [] => [outcome]
  | prior :: outcomes =>
    if prior.resolutionId = outcome.resolutionId then outcome :: outcomes else prior :: putOutcome outcome outcomes

def recoverOutcome (record : WalRecord) (transactionActive : Bool) (recovered : RecoveredWal) :
    SemanticM RecoveredWal := do
  .failIf (transactionActive ∨ record.engine ≠ .kernel ∨ record.flags ≠ 0) .invalidSequence
  let outcome ← decodeOutcome record
  .failIf (recovered.refusesOutcome outcome ∨ outcome.runtimeTransactionId ≠ record.transactionId) .invalidSequence
  .ok { recovered with outcomes := putOutcome outcome recovered.outcomes }

/-- What has been recovered, and the open transaction. -/
abbrev RecoveryState := RecoveredWal × Option ActiveTransaction

section Recovery

variable (hashes : Hashes) (base : Option WalSemanticBase)

def recoverBegin (recovered : RecoveredWal) (active : Option ActiveTransaction) (record : WalRecord) :
    SemanticM RecoveryState := do
  .failIf (active.isSome ∨ record.engine ≠ .kernel) .invalidSequence
  let start ← Begin.decode record.body
  .ok (recovered, some {
    transactionId := record.transactionId, start, mutations := [], mutationBytes := 0, hashed := mutationDigestDomain })

def recoverMutation (recovered : RecoveredWal) (active : Option ActiveTransaction) (record : WalRecord) :
    SemanticM RecoveryState := do
  let transaction ← .okOr active .invalidSequence
  .failIf (transaction.transactionId ≠ record.transactionId) .invalidSequence
  let transaction ← transaction.admitMutationBody record.engine record.body
  let mutation ← decodeMutation record.engine record.body
  .ok (recovered, some { transaction with mutations := transaction.mutations ++ [mutation] })

def recoverCommit (recovered : RecoveredWal) (active : Option ActiveTransaction) (record : WalRecord) :
    SemanticM RecoveryState := do
  let transaction ← .okOr active .invalidSequence
  .failIf (transaction.transactionId ≠ record.transactionId ∨ record.engine ≠ .kernel) .invalidSequence
  let manifest ← CommitManifest.decode record.body
  transaction.validate hashes manifest
  .failIf (recovered.commits.getLast?.any fun prior => manifest.commitCsn ≤ prior.manifest.commitCsn) .invalidSequence
  .ok ({ recovered with commits := recovered.commits ++ [{
    transactionId := record.transactionId, commitLsn := record.lsn, durability := transaction.start.durability,
    manifest, mutations := transaction.mutations }] }, none)

def recoverAbort (recovered : RecoveredWal) (active : Option ActiveTransaction) (record : WalRecord) :
    SemanticM RecoveryState := do
  let transaction ← .okOr active .invalidSequence
  .failIf
    (transaction.transactionId ≠ record.transactionId ∨ record.engine ≠ .kernel ∨ record.body ≠ abortMagic)
    .invalidSequence
  .ok (recovered, none)

def recoverRecord (state : RecoveryState) (record : WalRecord) : SemanticM RecoveryState :=
  match record.kind with
  | .begin => recoverBegin state.1 state.2 record
  | .mutation => recoverMutation state.1 state.2 record
  | .commit => recoverCommit hashes state.1 state.2 record
  | .abort => recoverAbort state.1 state.2 record
  | .checkpoint => do
    let recovered ← recoverCheckpoint base record state.2.isSome state.1
    .ok (recovered, state.2)
  | .catalog => do
    let recovered ← recoverOutcome record state.2.isSome state.1
    .ok (recovered, state.2)

def recoverWalAfter (records : List WalRecord) : SemanticM RecoveredWal := do
  let (recovered, active) ← records.foldlM (recoverRecord hashes base) (({} : RecoveredWal), none)
  .ok { recovered with danglingTransaction := active.map ActiveTransaction.transactionId }

end Recovery

end Hyphae.Runtime
