import Hyphae.Runtime.Mutation

/-!
# The keys a batch writes and the keys it validates

Every mutation writes one key, and a few write more. A batch validates the keys it
writes and some it only depends on: a row depends on the catalog object of its table,
a hash field and a set member on the key of their collection.
-/

namespace Hyphae.Runtime

open Lib

open Mvcc (ObjectId WriteKey)
open Wal (EngineKind)

structure DeltaUniqueProbe where
  index : ObjectId
  key : Bytes
  deriving DecidableEq

/-- A transaction's physical durability promise. -/
inductive DurabilityClass
  | strict | group | memory
  deriving DecidableEq, Repr

/-- How a batch that may be committed optimistically was prepared. -/
inductive NativeWriteBatchMode
  | materialized | physicalAllEngineDelta
  deriving DecidableEq, Repr

/-- A detached batch: its snapshot's sequence and catalog version, its mutations, and what the commit reads of it. -/
structure NativeWriteBatch where
  readCsn : Option Csn
  mutations : List Mutation
  durability : DurabilityClass
  mode : NativeWriteBatchMode
  dirtyCatalog : Bool
  legacyAnnIndexes : List ObjectId
  uniqueProbes : List DeltaUniqueProbe

def vacuumWriteKey : WriteKey := { engine := .kernel, object := none, key := [255] }

def catalogObjectLifecycleWriteKey (object : ObjectId) : WriteKey :=
  { engine := .kernel, object := none, key := 1 :: beBytes 16 object.get }

def deltaAnnWriteKey (index : ObjectId) : WriteKey := { engine := .search, object := some index, key := [12] }

def annLifecycleFenceWriteKey (index : ObjectId) : WriteKey := { engine := .search, object := some index, key := [13] }

def deltaUniqueWriteKey (probe : DeltaUniqueProbe) : WriteKey :=
  { engine := .relational, object := some probe.index, key := 6 :: probe.key }

/-- The key a mutation is about, inside its domain. -/
def mutationIdentity (mutation : Mutation) : Bytes :=
  match mutation.opcode with
  | .setValue | .deleteValue | .expireValue | .createHash | .deleteHash | .expireHash | .createSet | .expireSet
  | .deleteSet | .createList | .deleteList | .expireList | .createSortedSet | .deleteSortedSet | .expireSortedSet
  | .createStream | .appendStreamEntry | .deleteStream | .expireStream | .pushListHead | .pushListTail | .popListHead
  | .popListTail => 0 :: mutation.key
  | .setHashField | .deleteHashField | .expireHashField => 1 :: mutation.key
  | .addSetMember | .deleteSetMember => 2 :: mutation.key
  | .upsertSortedSetMember | .deleteSortedSetMember => 4 :: mutation.key
  | .upsertVector | .deleteVector | .fenceVectorAbsence => 3 :: mutation.key
  | .compactStructure => [5]
  | .migrateStructureV3 => [8]
  | .migrateCatalogV7 => [11]
  | .cleanupStructureRetirementV3 => 9 :: mutation.key
  | .compactSearch => [6]
  | .consolidateAnn => [7]
  | .publishInitialAnnBulk => [10]
  | .annDeltaAuthorityV1 => [12]
  | _ => mutation.key

/-- The name a new catalog object takes. -/
def nameWriteKey (mutation : Mutation) : WriteKey where
  engine := .kernel
  object := none
  key := [2, mutation.engine.code] ++ if mutation.key = [] then mutation.value else mutation.key

def isAnnLifecycle : Opcode → Bool
  | .fenceVectorAbsence | .consolidateAnn | .publishInitialAnnBulk => true
  | _ => false

def createsCatalogObject : Opcode → Bool
  | .createTable | .createSecondaryIndex | .createIndex | .createAnnIndex | .createCatalogObjectV2 => true
  | _ => false

/-- The mutation changes the authority of a vector index as a whole. -/
def publishesAnnAuthority (pointIndexes : List ObjectId) (mutation : Mutation) : Bool :=
  match mutation.opcode with
  | .createAnnIndex | .consolidateAnn | .publishInitialAnnBulk => true
  | .deleteVector => decide (∀ index ∈ mutation.target, index ∉ pointIndexes)
  | .upsertVector => decide (∃ index ∈ mutation.target, index ∉ pointIndexes)
  | _ => false

/-- The keys one mutation writes. -/
def conflictKeysOf (publishAnnAuthority : Bool) (pointIndexes : List ObjectId) (mutation : Mutation) : List WriteKey :=
  match mutation.opcode with
  | .annDeltaAuthorityV2 => []
  | .vacuumPageGeneration => [vacuumWriteKey]
  | opcode =>
    [{ engine := mutation.engine, object := mutation.target, key := mutationIdentity mutation }] ++
    (if publishAnnAuthority ∧ isAnnLifecycle opcode then mutation.target.toList.map annLifecycleFenceWriteKey
      else []) ++
    (if publishAnnAuthority ∧ publishesAnnAuthority pointIndexes mutation then
      mutation.target.toList.map deltaAnnWriteKey else []) ++
    (if createsCatalogObject opcode then
      mutation.target.toList.map catalogObjectLifecycleWriteKey ++ [nameWriteKey mutation] else [])

def mutationConflictKeysWithPoints (mutations : List Mutation) (publishAnnAuthority : Bool)
    (pointIndexes : List ObjectId) : List WriteKey :=
  mutations.flatMap (conflictKeysOf publishAnnAuthority pointIndexes)

def mutationConflictKeys (mutations : List Mutation) (publishAnnAuthority : Bool) : List WriteKey :=
  mutationConflictKeysWithPoints mutations publishAnnAuthority []

def isPointOperation : Opcode → Bool
  | .upsertVector | .deleteVector | .fenceVectorAbsence => true
  | _ => false

/-- The vector indexes a batch changes point by point, in ascending order: written to, not created in it, and not in the
legacy layout. -/
def writeBatchPointIndexes (batch : NativeWriteBatch) : List ObjectId :=
  let written := (batch.mutations.filter (isPointOperation ·.opcode)).filterMap (·.target)
  let created := (batch.mutations.filter (·.opcode = .createAnnIndex)).filterMap (·.target)
  (written.dedup.insertionSort fun a b => a.get ≤ b.get).filter fun index =>
    decide (index ∉ created) && decide (index ∉ batch.legacyAnnIndexes)

def writeBatchWriteKeys (batch : NativeWriteBatch) : List WriteKey :=
  mutationConflictKeysWithPoints batch.mutations true (writeBatchPointIndexes batch) ++
    batch.uniqueProbes.map deltaUniqueWriteKey

def isRowMutation : Opcode → Bool
  | .insertRow | .updateRow | .deleteRow => true
  | _ => false

def isHashFieldMutation : Opcode → Bool
  | .setHashField | .deleteHashField | .expireHashField => true
  | _ => false

def isSetMemberMutation : Opcode → Bool
  | .addSetMember | .deleteSetMember => true
  | _ => false

/-- The key of the collection a compound key names a member of. -/
def collectionWriteKey (mutation : Mutation) : List WriteKey :=
  match decodeCollectionMemberIdentity mutation.key with
  | .ok (key, _) => [{ engine := .structure, object := mutation.target, key := 0 :: key }]
  | .error _ => []

/-- The keys one mutation depends on without writing them. -/
def dependencyKeysOf (mutation : Mutation) : List WriteKey :=
  (if mutation.engine = .relational ∧ isRowMutation mutation.opcode then
    mutation.target.toList.map catalogObjectLifecycleWriteKey else []) ++
  (if isHashFieldMutation mutation.opcode then collectionWriteKey mutation else []) ++
  (if isSetMemberMutation mutation.opcode then collectionWriteKey mutation else [])

def validatesAnnAuthority : Opcode → Bool
  | .annDeltaAuthorityV2 | .deleteVector => true
  | _ => false

def mutationValidationKeys (mutations : List Mutation) : List WriteKey :=
  mutationConflictKeys mutations false ++
    ((mutations.filter (validatesAnnAuthority ·.opcode)).filterMap (·.target)).map deltaAnnWriteKey ++
    ((mutations.filter (isAnnLifecycle ·.opcode)).filterMap (·.target)).map annLifecycleFenceWriteKey ++
    mutations.flatMap dependencyKeysOf

def writeBatchValidationKeys (batch : NativeWriteBatch) : List WriteKey :=
  mutationValidationKeys batch.mutations ++ (writeBatchPointIndexes batch).map deltaAnnWriteKey ++
    batch.uniqueProbes.map deltaUniqueWriteKey

/-! ## Collections -/

variable {family : MemberFamily}

variable {batch : NativeWriteBatch} {key : Bytes}

end Hyphae.Runtime
