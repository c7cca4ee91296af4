import Hyphae.Runtime.ConflictKeys
import Hyphae.Wal.Block

/-!
# Transaction records

A transaction is a begin record, one record for each of its mutations and a commit
record. The begin and the commit repeat each other: the snapshot, the catalog version,
the time, the number and the size of the mutations. The commit also carries the roots
and a digest over all mutation bodies. Encoding a transaction checks sizes; decoding a
mutation also checks what its operation allows it to carry.
-/

namespace Hyphae.Runtime

open Lib

open Mvcc (ObjectId CatalogVersion csnValue first new_ofLe new_ofLe_csnValue)
open Wal Except NonZeroUInt Mutation

inductive WalSemanticError
  | invalidBody
  | invalidSequence
  | contentMismatch
  | invalidIdentity
  | lengthOverflow
  | frame (error : WalError)
  deriving DecidableEq, Repr

abbrev SemanticM := Except WalSemanticError

/-- `HYBGN001` -/
def beginMagic : Bytes := [72, 89, 66, 71, 78, 48, 48, 49]

/-- `HYMUT001` -/
def mutationMagic : Bytes := [72, 89, 77, 85, 84, 48, 48, 49]

/-- `HYCMT001` -/
def commitMagicV1 : Bytes := [72, 89, 67, 77, 84, 48, 48, 49]

/-- `HYCMT002` -/
def commitMagicV2 : Bytes := [72, 89, 67, 77, 84, 48, 48, 50]

def commitV1Size : Nat := 124

def commitV2Size : Nat := 140

/-- `HYABT001` -/
def abortMagic : Bytes := [72, 89, 65, 66, 84, 48, 48, 49]

/-- `HYCHK001` -/
def checkpointMagic : Bytes := [72, 89, 67, 72, 75, 48, 48, 49]

/-- `HYOUT001` -/
def outcomeMagic : Bytes := [72, 89, 79, 85, 84, 48, 48, 49]

def outcomeBodySize : Nat := 120

/-- `HYANNA01` -/
def annDeltaAuthorityMagicV1 : Bytes := [72, 89, 65, 78, 78, 65, 48, 49]

def annDeltaAuthorityV1Size : Nat := 16

/-- `HYANNA02` -/
def annDeltaAuthorityMagicV2 : Bytes := [72, 89, 65, 78, 78, 65, 48, 50]

def annDeltaAuthorityV2Size : Nat := 184

def annDeltaAuthorityV2MaxOperations : Nat := 4096

/-- `HYANNC01` -/
def annConsolidationMagicV1 : Bytes := [72, 89, 65, 78, 78, 67, 48, 49]

/-- `HYANNC02` -/
def annConsolidationMagicV2 : Bytes := [72, 89, 65, 78, 78, 67, 48, 50]

def annConsolidationV1Size : Nat := 112

def annConsolidationV2Size : Nat := 384

/-- `HYANNP01` -/
def annPublicationMagic : Bytes := [72, 89, 65, 78, 78, 80, 48, 49]

def mutationBodyHeaderSize : Nat := 44

def maxTransactionMutationBytes : Nat := 67108864

def maxTransactionMutations : Nat := maxTransactionMutationBytes / 44

/-- Bytes of one decoded mutation in memory. -/
def sizeOfMutation : Nat := 96

/-- The largest signed 64-bit time; it stands in for an absent expiry. -/
def maxMicros : BitVec 64 := 0x7fffffffffffffff#64

/-! ## Operations -/

def Opcode.code : Opcode → UInt8
  | .createTable => 1
  | .insertRow => 2
  | .setValue => 3
  | .createIndex => 4
  | .indexDocument => 5
  | .updateRow => 6
  | .deleteRow => 7
  | .deleteValue => 8
  | .expireValue => 9
  | .createHash => 10
  | .setHashField => 11
  | .deleteHashField => 12
  | .createSecondaryIndex => 13
  | .createSet => 14
  | .addSetMember => 15
  | .deleteSetMember => 16
  | .createAnnIndex => 17
  | .upsertVector => 18
  | .deleteVector => 19
  | .createList => 20
  | .pushListHead => 21
  | .pushListTail => 22
  | .popListHead => 23
  | .popListTail => 24
  | .createSortedSet => 25
  | .upsertSortedSetMember => 26
  | .deleteSortedSetMember => 27
  | .compactStructure => 28
  | .vacuumPageGeneration => 29
  | .deleteHash => 30
  | .expireHash => 31
  | .expireHashField => 32
  | .expireSet => 33
  | .deleteSet => 34
  | .deleteList => 35
  | .expireList => 36
  | .replaceDocument => 37
  | .deleteDocument => 38
  | .compactSearch => 39
  | .dropSecondaryIndex => 40
  | .renameTable => 41
  | .migrateStructureV3 => 42
  | .dropTable => 43
  | .createStream => 44
  | .appendStreamEntry => 45
  | .deleteStream => 46
  | .expireStream => 47
  | .deleteSortedSet => 48
  | .expireSortedSet => 49
  | .consolidateAnn => 50
  | .createCatalogObjectV2 => 51
  | .cleanupStructureRetirementV3 => 52
  | .publishInitialAnnBulk => 53
  | .migrateCatalogV7 => 54
  | .annDeltaAuthorityV1 => 55
  | .annDeltaAuthorityV2 => 56
  | .fenceVectorAbsence => 57

/-- The engine whose records carry an operation. -/
def Opcode.engine : Opcode → EngineKind
  | .createTable | .insertRow | .updateRow | .deleteRow | .createSecondaryIndex | .dropSecondaryIndex | .renameTable
  | .dropTable => .relational
  | .createStream | .appendStreamEntry | .deleteStream | .expireStream | .deleteSortedSet | .expireSortedSet | .setValue
  | .deleteValue | .expireValue | .createHash | .setHashField | .deleteHashField | .deleteHash | .expireHash
  | .expireHashField | .createSet | .addSetMember | .deleteSetMember | .expireSet | .deleteSet | .createList
  | .deleteList | .expireList | .pushListHead | .pushListTail | .popListHead | .popListTail | .createSortedSet
  | .upsertSortedSetMember | .deleteSortedSetMember | .compactStructure | .migrateStructureV3
      | .cleanupStructureRetirementV3 => .structure
  | .vacuumPageGeneration | .createCatalogObjectV2 | .migrateCatalogV7 => .kernel
  | .createIndex | .indexDocument | .replaceDocument | .deleteDocument | .compactSearch | .createAnnIndex
  | .upsertVector | .deleteVector | .consolidateAnn | .publishInitialAnnBulk | .annDeltaAuthorityV1
  | .annDeltaAuthorityV2 | .fenceVectorAbsence => .search

def opcodes : List Opcode :=
  [.createTable, .insertRow, .setValue, .createIndex, .indexDocument, .updateRow, .deleteRow, .deleteValue,
    .expireValue, .createHash, .setHashField, .deleteHashField, .createSecondaryIndex, .createSet, .addSetMember,
    .deleteSetMember, .createAnnIndex, .upsertVector, .deleteVector, .createList, .pushListHead, .pushListTail,
    .popListHead, .popListTail, .createSortedSet, .upsertSortedSetMember, .deleteSortedSetMember, .compactStructure,
    .vacuumPageGeneration, .deleteHash, .expireHash, .expireHashField, .expireSet, .deleteSet, .deleteList, .expireList,
    .replaceDocument, .deleteDocument, .compactSearch, .dropSecondaryIndex, .renameTable, .migrateStructureV3,
    .dropTable, .createStream, .appendStreamEntry, .deleteStream, .expireStream, .deleteSortedSet, .expireSortedSet,
    .consolidateAnn, .createCatalogObjectV2, .cleanupStructureRetirementV3, .publishInitialAnnBulk, .migrateCatalogV7,
    .annDeltaAuthorityV1, .annDeltaAuthorityV2, .fenceVectorAbsence]

/-- The operation with a code, and its engine. -/
def decodeOpcode (value : UInt8) : SemanticM (Opcode × EngineKind) :=
  (Except.okOr (opcodes.find? (·.code = value)) .invalidBody).map fun opcode => (opcode, opcode.engine)

@[simp] theorem decodeOpcode_code (opcode : Opcode) : decodeOpcode opcode.code = .ok (opcode, opcode.engine) := by
  cases opcode <;> rfl

/-! ## What an operation may carry -/

def forbidsTarget : Opcode → Bool
  | .setValue | .createStream | .appendStreamEntry | .deleteStream | .expireStream | .deleteValue | .expireValue
  | .createHash | .deleteHash | .expireHash | .expireHashField | .setHashField | .deleteHashField | .createSet
  | .addSetMember | .deleteSetMember | .expireSet | .deleteSet | .createList | .deleteList | .expireList | .pushListHead
  | .pushListTail | .popListHead | .popListTail | .createSortedSet | .deleteSortedSet | .expireSortedSet
  | .upsertSortedSetMember | .deleteSortedSetMember => true
  | _ => false

def requiresTarget : Opcode → Bool
  | .createTable | .insertRow | .createSecondaryIndex | .dropSecondaryIndex | .renameTable | .dropTable | .createIndex
  | .indexDocument | .replaceDocument | .deleteDocument | .createAnnIndex | .upsertVector | .deleteVector
  | .fenceVectorAbsence | .consolidateAnn | .publishInitialAnnBulk | .annDeltaAuthorityV1 | .annDeltaAuthorityV2
  | .createCatalogObjectV2 | .updateRow | .deleteRow => true
  | _ => false

def validateMutationTargetShape (opcode : Opcode) (hasTarget : Bool) : SemanticM Unit :=
  .failIf ((forbidsTarget opcode ∧ hasTarget) ∨ (requiresTarget opcode ∧ ¬hasTarget)) .invalidBody

def validateTargetedAnnMaintenanceShape (hasTarget : Bool) (valueLength expectedLength : Nat)
    (expiresAtMicros : Option (BitVec 64)) (key : Bytes) : SemanticM Unit :=
  .failIf (¬(hasTarget ∧ key = [] ∧ valueLength = expectedLength ∧ expiresAtMicros = none)) .invalidBody

def validateCatalogV2Shape (hasTarget : Bool) (valueLength : Nat) (expiresAtMicros : Option (BitVec 64)) (key : Bytes) :
    SemanticM Unit :=
  .failIf (¬(hasTarget ∧ key ≠ [] ∧ valueLength ≠ 0 ∧ expiresAtMicros = none)) .invalidBody

def validateEmptyMaintenanceShape (hasTarget : Bool) (valueLength : Nat) (expiresAtMicros : Option (BitVec 64))
    (key : Bytes) : SemanticM Unit :=
  .failIf (hasTarget ∨ key ≠ [] ∨ valueLength ≠ 0 ∨ expiresAtMicros.isSome) .invalidBody

/-- The key, the value and the expiry an operation refuses. -/
def refusesContent (opcode : Opcode) (valueLength : Nat) (expiresAtMicros : Option (BitVec 64)) (key : Bytes) : Prop :=
  match opcode with
  | .renameTable | .appendStreamEntry => key = [] ∨ valueLength = 0 ∨ expiresAtMicros.isSome
  | .dropSecondaryIndex | .dropTable => valueLength ≠ 0 ∨ key ≠ [] ∨ expiresAtMicros.isSome
  | .deleteRow | .deleteVector | .fenceVectorAbsence | .deleteDocument | .deleteValue | .createStream | .deleteStream
  | .createHash | .deleteHash | .deleteHashField | .createSet | .addSetMember | .deleteSetMember | .deleteSet
  | .createList | .deleteList | .createSortedSet | .deleteSortedSet | .deleteSortedSetMember => valueLength ≠ 0 ∨
      expiresAtMicros.isSome
  | .expireValue => expiresAtMicros = none
  | .expireHash | .expireHashField | .expireSet | .expireList | .expireStream | .expireSortedSet =>
    valueLength ≠ 0 ∨ expiresAtMicros = none
  | .pushListHead | .pushListTail | .popListHead | .popListTail | .setHashField | .upsertSortedSetMember | .createTable
  | .insertRow | .updateRow | .createSecondaryIndex | .indexDocument | .replaceDocument | .createAnnIndex
  | .upsertVector => expiresAtMicros.isSome
  | _ => False

instance (opcode : Opcode) (valueLength : Nat) (expiresAtMicros : Option (BitVec 64)) (key : Bytes) :
    Decidable (refusesContent opcode valueLength expiresAtMicros key) := by
  unfold refusesContent
  split <;> infer_instance

/-- The key starts with the length of a collection's key, and that key fits. -/
def validCollectionMemberIdentity (encoded : Bytes) : Prop := 4 ≤ encoded.length ∧
    4 + ofBe (encoded.take 4) ≤ encoded.length

instance (encoded : Bytes) : Decidable (validCollectionMemberIdentity encoded) := inferInstanceAs (Decidable (_ ∧ _))

def validateMutationIdentity (opcode : Opcode) (valueLength : Nat) (key : Bytes) : SemanticM Unit :=
  match opcode with
  | .setHashField | .deleteHashField | .expireHashField | .addSetMember | .deleteSetMember | .deleteSortedSetMember =>
    .failIf (¬validCollectionMemberIdentity key) .invalidBody
  | .upsertSortedSetMember => do
    .failIf (¬validCollectionMemberIdentity key) .invalidBody
    .failIf (valueLength ≠ 8) .invalidBody
  | .deleteVector | .fenceVectorAbsence => .failIf (key.length ≠ 16) .invalidBody
  | .upsertVector => do
    .failIf (key.length ≠ 16) .invalidBody
    .failIf (valueLength = 0 ∨ valueLength % 4 ≠ 0) .invalidBody
  | .createAnnIndex => .failIf (valueLength < 20) .invalidBody
  | _ => .ok ()

def validateMutationShape (opcode : Opcode) (hasTarget : Bool) (valueLength : Nat)
    (expiresAtMicros : Option (BitVec 64)) (key : Bytes) : SemanticM Unit :=
  match opcode with
  | .annDeltaAuthorityV1 =>
    validateTargetedAnnMaintenanceShape hasTarget valueLength annDeltaAuthorityV1Size expiresAtMicros key
  | .annDeltaAuthorityV2 =>
    validateTargetedAnnMaintenanceShape hasTarget valueLength annDeltaAuthorityV2Size expiresAtMicros key
  | .consolidateAnn =>
    .failIf
      (¬(hasTarget ∧ key = [] ∧ (valueLength = annConsolidationV1Size ∨ valueLength = annConsolidationV2Size) ∧
        expiresAtMicros = none))
      .invalidBody
  | .publishInitialAnnBulk => validateTargetedAnnMaintenanceShape hasTarget valueLength 160 expiresAtMicros key
  | .createCatalogObjectV2 => validateCatalogV2Shape hasTarget valueLength expiresAtMicros key
  | .cleanupStructureRetirementV3 =>
    .failIf (hasTarget ∨ key = [] ∨ valueLength ≠ 4 ∨ expiresAtMicros.isSome) .invalidBody
  | .compactStructure | .migrateStructureV3 | .vacuumPageGeneration | .compactSearch | .migrateCatalogV7 =>
    validateEmptyMaintenanceShape hasTarget valueLength expiresAtMicros key
  | opcode => do
    validateMutationTargetShape opcode hasTarget
    .failIf (refusesContent opcode valueLength expiresAtMicros key) .invalidBody
    validateMutationIdentity opcode valueLength key

/-! ## Values with a layout of their own -/

/-- No run of `n` bytes of `bs` is all zero. -/
def noZeroRun (n : Nat) (bs : Bytes) : Nat → Bool
  | 0 => true
  | runs + 1 => (bs.take n).any (· ≠ 0) && noZeroRun n (bs.drop n) runs

def validAnnConsolidation (value : Bytes) (target : Option ObjectId) : Prop :=
  if value.length = annConsolidationV1Size ∧ slice value 0 8 = annConsolidationMagicV1 then
    noZeroRun 32 (slice value 8 104) 3 ∧ 1 ≤ ofLe (slice value 104 112) ∧ ofLe (slice value 104 112) ≤ 4096
  else
    value.length = annConsolidationV2Size ∧ slice value 0 8 = annConsolidationMagicV2 ∧
    (∀ byte ∈ slice value 26 32, byte = 0) ∧ (∀ byte ∈ slice value 376 384, byte = 0) ∧
    (value.getD 24 0 = 4 ∨ value.getD 24 0 = 5) ∧ value.getD 25 0 = 5 ∧ noZeroRun 32 (slice value 32 320) 9 ∧
    0 < ofBe (slice value 8 24) ∧ target = NonZeroUInt.new 128 (ofBe (slice value 8 24)) ∧
    1 ≤ ofLe (slice value 328 336) ∧ ofLe (slice value 328 336) ≤ 4096 ∧
    ofLe (slice value 352 360) ≤ ofLe (slice value 328 336) ∧ ofLe (slice value 360 368) ≤ 4096 ∧
    ofLe (slice value 368 376) ≤ 1000000 ∧ ofLe (slice value 320 328) ≠ 0 ∧
    ofLe (slice value 320 328) ≤ ofLe (slice value 336 344) ∧ ofLe (slice value 344 352) = ofLe (slice value 336 344)

instance (value : Bytes) (target : Option ObjectId) : Decidable (validAnnConsolidation value target) := by
  unfold validAnnConsolidation
  split <;> infer_instance

def validInitialAnnBulkPublication (value : Bytes) : Prop :=
  value.length = 160 ∧ slice value 0 8 = annPublicationMagic ∧ noZeroRun 32 (slice value 8 136) 4 ∧
    ofLe (slice value 136 144) ≠ 0 ∧ ofLe (slice value 136 144) ≤ ofLe (slice value 144 152) ∧
    ofLe (slice value 152 160) ≠ 0

instance (value : Bytes) : Decidable (validInitialAnnBulkPublication value) := by
  unfold validInitialAnnBulkPublication
  infer_instance

def validAnnDeltaAuthorityV1 (value : Bytes) : Prop :=
  value.length = annDeltaAuthorityV1Size ∧ slice value 0 8 = annDeltaAuthorityMagicV1 ∧ ∀ byte ∈ value.drop 8, byte = 0

instance (value : Bytes) : Decidable (validAnnDeltaAuthorityV1 value) := by
  unfold validAnnDeltaAuthorityV1
  infer_instance

/-- How one commit moved the point deltas of a vector index. -/
structure AnnDeltaAuthorityV2 where
  index : ObjectId
  operationCount : Nat
  priorViewIdentity : Bytes
  resultViewIdentity : Bytes
  priorOverlayRoot : Bytes
  resultOverlayRoot : Bytes
  priorNextSequence : Nat
  resultNextSequence : Nat
  m04ToM05 : Bool
  deriving DecidableEq

def decodeAnnDeltaAuthorityV2 (value : Bytes) (target : Option ObjectId) :
    SemanticM AnnDeltaAuthorityV2 := do
  .failIf
    (value.length ≠ annDeltaAuthorityV2Size ∨ slice value 0 8 ≠ annDeltaAuthorityMagicV2 ∨
      (value.getD 8 0 ≠ 0 ∧ value.getD 8 0 ≠ 1) ∨ (∃ byte ∈ slice value 9 16, byte ≠ 0) ∨
      ∃ byte ∈ slice value 36 40, byte ≠ 0)
    .invalidBody
  let index ← .okOr (NonZeroUInt.new 128 (ofBe (slice value 16 32))) .invalidIdentity
  let authority : AnnDeltaAuthorityV2 :=
    { index, operationCount := ofLe (slice value 32 36), priorViewIdentity := slice value 40 72,
      resultViewIdentity := slice value 72 104, priorOverlayRoot := slice value 104 136,
      resultOverlayRoot := slice value 136 168, priorNextSequence := ofLe (slice value 168 176),
      resultNextSequence := ofLe (slice value 176 184), m04ToM05 := value.getD 8 0 = 1 }
  .failIf
    (target ≠ some index ∨ authority.operationCount < 1 ∨ annDeltaAuthorityV2MaxOperations < authority.operationCount ∨
      zeros 32 ∈ [authority.priorViewIdentity, authority.resultViewIdentity, authority.priorOverlayRoot,
        authority.resultOverlayRoot] ∨
      authority.priorNextSequence = 0 ∨
      checkedAdd authority.priorNextSequence authority.operationCount ≠ some authority.resultNextSequence ∨
      authority.priorViewIdentity = authority.resultViewIdentity ∨
      authority.priorOverlayRoot = authority.resultOverlayRoot)
    .invalidBody
  .ok authority

/-- The checks on a value that its operation gives a layout. -/
def validateMutationValue (opcode : Opcode) (target : Option ObjectId) (value : Bytes) : SemanticM Unit :=
  match opcode with
  | .cleanupStructureRetirementV3 => .failIf (value.length ≠ 4 ∨ ofLe value < 2 ∨ 1024 < ofLe value) .invalidBody
  | .consolidateAnn => .failIf (¬validAnnConsolidation value target) .invalidBody
  | .publishInitialAnnBulk => .failIf (¬validInitialAnnBulkPublication value) .invalidBody
  | .annDeltaAuthorityV1 => .failIf (¬validAnnDeltaAuthorityV1 value) .invalidBody
  | .annDeltaAuthorityV2 => (decodeAnnDeltaAuthorityV2 value target).map fun _ => ()
  | _ => .ok ()

/-! ## Mutations -/

namespace Mutation

/-- The fields of a mutation body in physical order. -/
def fields (mutation : Mutation) : List Bytes :=
  [mutationMagic, [mutation.opcode.code], [mutation.engine.code], [if mutation.expiresAtMicros.isSome then 1 else 0],
    [0], leBytes 16 ((mutation.target.map NonZeroUInt.get).getD 0),
      leBytes 8 (mutation.expiresAtMicros.getD maxMicros).toNat,
    leBytes 4 mutation.key.length, leBytes 4 mutation.value.length, mutation.key, mutation.value]

def bodyLength (mutation : Mutation) : Nat := mutationBodyHeaderSize + mutation.key.length + mutation.value.length

def encode (mutation : Mutation) : SemanticM Bytes := do
  .failIf (2 ^ 64 ≤ mutation.bodyLength) .lengthOverflow
  .failIf (2 ^ 32 ≤ mutation.key.length) .lengthOverflow
  .failIf (2 ^ 32 ≤ mutation.value.length) .lengthOverflow
  .ok mutation.fields.flatten

end Mutation

def decodeMutation (engine : EngineKind) (body : Bytes) : SemanticM Mutation := do
  .failIf
    (body.length < 44 ∨ slice body 0 8 ≠ mutationMagic ∨ body.getD 9 0 ≠ engine.code ∨
      (body.getD 10 0 ≠ 0 ∧ body.getD 10 0 ≠ 1) ∨ body.getD 11 0 ≠ 0)
    .invalidBody
  let (opcode, opcodeEngine) ← decodeOpcode (body.getD 8 0)
  .failIf (opcodeEngine ≠ engine) .invalidBody
  let keyLength := ofLe (slice body 36 40)
  let valueLength := ofLe (slice body 40 44)
  .failIf (44 + keyLength + valueLength ≠ body.length) .invalidBody
  let target := NonZeroUInt.new 128 (ofLe (slice body 12 28))
  let rawExpiry := BitVec.ofNat 64 (ofLe (slice body 28 36))
  let expiresAtMicros := if body.getD 10 0 = 1 ∨ rawExpiry ≠ maxMicros then some rawExpiry else none
  let key := slice body 44 (44 + keyLength)
  validateMutationShape opcode target.isSome valueLength expiresAtMicros key
  let value := slice body (44 + keyLength) (44 + keyLength + valueLength)
  validateMutationValue opcode target value
  .ok { engine, opcode, target, key, value, expiresAtMicros }

/-- What the decoder asks of a mutation beyond its layout. -/
def Mutation.Recoverable (mutation : Mutation) : Prop :=
  mutation.opcode.engine = mutation.engine ∧
  validateMutationShape mutation.opcode mutation.target.isSome mutation.value.length mutation.expiresAtMicros
    mutation.key = .ok () ∧
  validateMutationValue mutation.opcode mutation.target mutation.value = .ok ()

instance (mutation : Mutation) : Decidable mutation.Recoverable := inferInstanceAs (Decidable (_ ∧ _ ∧ _))

theorem Mutation.length_fields (mutation : Mutation) : mutation.fields.flatten.length = mutation.bodyLength := by
  simp [fields, bodyLength, mutationMagic, mutationBodyHeaderSize]
  omega

/-- The body of a mutation decodes to it, after the checks on its operation. -/
theorem decodeMutation_fields (mutation : Mutation) (hkey : mutation.key.length < 2 ^ 32)
    (hvalue : mutation.value.length < 2 ^ 32) :
    decodeMutation mutation.engine mutation.fields.flatten = (do
      .failIf (mutation.opcode.engine ≠ mutation.engine) .invalidBody
      validateMutationShape mutation.opcode mutation.target.isSome mutation.value.length mutation.expiresAtMicros
        mutation.key
      validateMutationValue mutation.opcode mutation.target mutation.value
      .ok mutation) := by
  have hlength : mutation.fields.flatten.length = 44 + mutation.key.length + mutation.value.length :=
    mutation.length_fields
  -- every slice the decoder takes is one field
  obtain ⟨hmagic, hopcode, hengine, hflag, hzero, htarget, hexpiry, hkeyLength, hvalueLength, hkeyBytes, hvalueBytes,
    -⟩ := fieldsAt (Eq.refl mutation.fields.flatten) [0, 8, 9, 10, 11, 12, 28, 36, 40, 44, 44 + mutation.key.length,
      44 + mutation.key.length + mutation.value.length] (by simp [fields, mutationMagic])
  have hopcode := getD_of_slice hopcode
  have hengine := getD_of_slice hengine
  have hflag := getD_of_slice hflag
  have hzero := getD_of_slice hzero
  have hobject : new 128 ((mutation.target.map get).getD 0) = mutation.target := by
    cases mutation.target with
    | none => rfl
    | some object => simp
  have hobjectLt : (mutation.target.map get).getD 0 < 256 ^ 16 := by
    cases mutation.target with
    | none => norm_num
    | some object => exact object.lt
  have htime : (if mutation.expiresAtMicros.isSome = true ∨ mutation.expiresAtMicros.getD maxMicros ≠ maxMicros then
      some (mutation.expiresAtMicros.getD maxMicros) else none) = mutation.expiresAtMicros := by
    cases mutation.expiresAtMicros <;> simp
  have hflagBit : (if mutation.expiresAtMicros.isSome = true then (1 : UInt8) else 0) = 1 ↔
      mutation.expiresAtMicros.isSome = true := by
    split <;> simp_all
  simp only [decodeMutation, hmagic, hopcode, hengine, hflag, hzero, htarget, hexpiry, hkeyLength, hvalueLength,
    hlength]
  rw [ofLe_leBytes hobjectLt, ofLe_leBytes (show _ < 256 ^ 8 from BitVec.isLt _), ofLe_leBytes hkey,
    ofLe_leBytes hvalue, failIf_of_not, ok_bind, decodeOpcode_code, ok_bind, hobject, BitVec.ofNat_toNat]
  · simp only [BitVec.setWidth_eq, hflagBit, htime, hkeyBytes, hvalueBytes]
    rw [failIf_of_not (c := 44 + mutation.key.length + mutation.value.length ≠ _) (by simp)]
    rfl
  · have hlong : ¬44 + mutation.key.length + mutation.value.length < 44 := by omega
    split <;> simp [hlong]

theorem decodeMutation_of_recoverable {mutation : Mutation} (h : mutation.Recoverable)
    (hkey : mutation.key.length < 2 ^ 32) (hvalue : mutation.value.length < 2 ^ 32) :
    decodeMutation mutation.engine mutation.fields.flatten = .ok mutation := by
  obtain ⟨hengine, hshape, hvalid⟩ := h
  rw [decodeMutation_fields mutation hkey hvalue, failIf_bind (by simp [hengine]), hshape, ok_bind, hvalid, ok_bind]

theorem recoverable_of_decodeMutation {mutation decoded : Mutation} (hkey : mutation.key.length < 2 ^ 32)
    (hvalue : mutation.value.length < 2 ^ 32)
    (h : decodeMutation mutation.engine mutation.fields.flatten = .ok decoded) : mutation.Recoverable := by
  rw [decodeMutation_fields mutation hkey hvalue] at h
  simp only [bind_eq_ok, failIf_eq_ok, not_not] at h
  obtain ⟨-, hengine, ⟨⟩, hshape, ⟨⟩, hvalid, -⟩ := h
  exact ⟨hengine, hshape, hvalid⟩

/-! ## Begin and commit -/

def validateStorageState (pageGeneration : PageGeneration) (retentionFloorCsn commitCsn : Csn) :
    SemanticM Unit :=
  .failIf (commitCsn < retentionFloorCsn ∨ decide (pageGeneration = first) ≠ decide (retentionFloorCsn = first))
    .invalidSequence

def validateTransactionBounds (mutationCount mutationBytes : Nat) : SemanticM Unit := do
  let minimumBytes ← .okOr (checkedMul mutationCount mutationBodyHeaderSize) .lengthOverflow
  let maximumBytes ← .okOr (checkedMul mutationCount walRecordBodySize) .lengthOverflow
  let decodedMutationSlots ← .okOr (checkedMul mutationCount sizeOfMutation) .lengthOverflow
  .failIf
    (mutationCount = 0 ∨ maxTransactionMutations < mutationCount ∨ mutationBytes < minimumBytes ∨
      maximumBytes < mutationBytes ∨ maxTransactionMutationBytes < mutationBytes ∨
      maxTransactionMutationBytes < saturatingAdd mutationBytes decodedMutationSlots)
    .invalidSequence

def DurabilityClass.code : DurabilityClass → UInt8
  | .strict => 1
  | .group => 2
  | .memory => 3

def decodeDurability (value : UInt8) : SemanticM DurabilityClass :=
  match value.toNat with
  | 1 => .ok .strict
  | 2 => .ok .group
  | 3 => .ok .memory
  | _ => .error .invalidBody

@[simp] theorem decodeDurability_code (durability : DurabilityClass) :
    decodeDurability durability.code = .ok durability := by
  cases durability <;> rfl

structure Begin where
  readCsn : Option Csn
  catalogVersion : CatalogVersion
  logicalTimeMicros : BitVec 64
  durability : DurabilityClass
  mutationCount : Nat
  mutationBytes : Nat
  deriving DecidableEq

namespace Begin

/-- The fields of a begin body in physical order. -/
def fields (start : Begin) : List Bytes :=
  [beginMagic, leBytes 8 (csnValue start.readCsn), leBytes 8 start.catalogVersion.get,
    leBytes 8 start.logicalTimeMicros.toNat, [start.durability.code], zeros 7, leBytes 4 start.mutationCount,
    leBytes 8 start.mutationBytes]

def encode (start : Begin) : Bytes := start.fields.flatten

def decode (body : Bytes) : SemanticM Begin := do
  .failIf (body.length ≠ 52 ∨ slice body 0 8 ≠ beginMagic ∨ ∃ byte ∈ slice body 33 40, byte ≠ 0) .invalidBody
  let durability ← decodeDurability (body.getD 32 0)
  let readCsn := NonZeroUInt.new 64 (ofLe (slice body 8 16))
  let catalogVersion ← .okOr (NonZeroUInt.new 64 (ofLe (slice body 16 24))) .invalidIdentity
  let start : Begin :=
    { readCsn, catalogVersion, logicalTimeMicros := BitVec.ofNat 64 (ofLe (slice body 24 32)), durability,
      mutationCount := ofLe (slice body 40 44), mutationBytes := ofLe (slice body 44 52) }
  validateTransactionBounds start.mutationCount start.mutationBytes
  .ok start

end Begin

theorem Begin.decode_encode {start : Begin} (hcount : start.mutationCount < 2 ^ 32)
    (hbytes : start.mutationBytes < 2 ^ 64)
    (hbounds : validateTransactionBounds start.mutationCount start.mutationBytes = .ok ()) :
    decode start.encode = .ok start := by
  have hlength : start.encode.length = 52 := by simp [encode, fields, beginMagic]
  obtain ⟨hmagic, hread, hcatalog, htime, hdurability, hzero, hcounts, hsizes, -⟩ :=
    fieldsAt (show start.encode = start.fields.flatten from rfl) [0, 8, 16, 24, 32, 33, 40, 44, 52]
      (by simp [fields, beginMagic])
  have hdurability := getD_of_slice hdurability
  have hwidth : 2 ^ 64 = 256 ^ 8 := by norm_num
  simp only [decode, hlength, hmagic, hread, hcatalog, htime, hdurability, hzero, hcounts, hsizes, new_ofLe hwidth,
    new_ofLe_csnValue, ofNat_ofLe_leBytes hwidth]
  rw [ofLe_leBytes hcount, ofLe_leBytes hbytes, failIf_bind (by simp [zeros]), decodeDurability_code]
  simp only [okOr, ok_bind, hbounds]

/-- The digest a run of 32 bytes is. -/
def readDigest (bytes : Bytes) : Option Digest := if size : bytes.length = 32 then some ⟨bytes, size⟩ else none

@[simp] theorem readDigest_bytes (digest : Digest) : readDigest digest.bytes = some digest := dif_pos digest.size

/-- What a commit record says about its transaction. -/
structure CommitManifest where
  readCsn : Option Csn
  commitCsn : Csn
  catalogVersion : CatalogVersion
  blobGeneration : BitVec 64
  mutationCount : Nat
  mutationBytes : Nat
  logicalTimeMicros : BitVec 64
  mutationDigest : Digest
  roots : Fin 4 → PageId
  pageGeneration : PageGeneration
  retentionFloorCsn : Csn
  deriving DecidableEq

namespace CommitManifest

/-- The first format leaves the storage state out. -/
def isV1 (manifest : CommitManifest) : Bool := manifest.pageGeneration = first ∧ manifest.retentionFloorCsn = first

/-- The fields of a commit body in physical order. -/
def fields (manifest : CommitManifest) : List Bytes :=
  [if manifest.isV1 then commitMagicV1 else commitMagicV2, leBytes 8 (csnValue manifest.readCsn),
    leBytes 8 manifest.commitCsn.get, leBytes 8 manifest.catalogVersion.get, leBytes 8 manifest.blobGeneration.toNat,
    leBytes 4 manifest.mutationCount, leBytes 8 manifest.mutationBytes, leBytes 8 manifest.logicalTimeMicros.toNat,
    manifest.mutationDigest.bytes, leBytes 8 (manifest.roots 0).get, leBytes 8 (manifest.roots 1).get,
    leBytes 8 (manifest.roots 2).get, leBytes 8 (manifest.roots 3).get] ++
  if manifest.isV1 then [] else [leBytes 8 manifest.pageGeneration.get, leBytes 8 manifest.retentionFloorCsn.get]

def encode (manifest : CommitManifest) : Bytes := manifest.fields.flatten

/-- The page generation and the retention floor; the first format has the first of both. -/
def decodeStorageState (body : Bytes) (isV1 : Bool) : SemanticM (PageGeneration × Csn) :=
  if isV1 then .ok (first, first)
  else do
    let pageGeneration ← .okOr (NonZeroUInt.new 64 (ofLe (slice body 124 132))) .invalidIdentity
    let retentionFloorCsn ← .okOr (NonZeroUInt.new 64 (ofLe (slice body 132 140))) .invalidIdentity
    .ok (pageGeneration, retentionFloorCsn)

def decodeRoot (body : Bytes) (start : Nat) : SemanticM PageId :=
  .okOr (NonZeroUInt.new 64 (ofLe (slice body start (start + 8)))) .invalidIdentity

def decode (body : Bytes) : SemanticM CommitManifest := do
  let isV1 : Bool := body.length = commitV1Size ∧ slice body 0 8 = commitMagicV1
  let isV2 : Bool := body.length = commitV2Size ∧ slice body 0 8 = commitMagicV2
  .failIf (¬isV1 ∧ ¬isV2) .invalidBody
  let readCsn := NonZeroUInt.new 64 (ofLe (slice body 8 16))
  let commitCsn ← .okOr (NonZeroUInt.new 64 (ofLe (slice body 16 24))) .invalidIdentity
  let catalogVersion ← .okOr (NonZeroUInt.new 64 (ofLe (slice body 24 32))) .invalidIdentity
  let mutationDigest ← .okOr (readDigest (slice body 60 92)) .invalidBody
  let root0 ← decodeRoot body 92
  let root1 ← decodeRoot body 100
  let root2 ← decodeRoot body 108
  let root3 ← decodeRoot body 116
  let (pageGeneration, retentionFloorCsn) ← decodeStorageState body isV1
  validateStorageState pageGeneration retentionFloorCsn commitCsn
  .ok { readCsn, commitCsn, catalogVersion, blobGeneration := BitVec.ofNat 64 (ofLe (slice body 32 40)),
        mutationCount := ofLe (slice body 40 44), mutationBytes := ofLe (slice body 44 52),
        logicalTimeMicros := BitVec.ofNat 64 (ofLe (slice body 52 60)), mutationDigest,
        roots := ![root0, root1, root2, root3], pageGeneration, retentionFloorCsn }

theorem length_encode (manifest : CommitManifest) :
    manifest.encode.length = if manifest.isV1 then commitV1Size else commitV2Size := by
  cases h : manifest.isV1 <;>
    simp [encode, fields, h, commitMagicV1, commitMagicV2, commitV1Size, commitV2Size, manifest.mutationDigest.size]

theorem decode_encode {manifest : CommitManifest} (hcount : manifest.mutationCount < 2 ^ 32)
    (hbytes : manifest.mutationBytes < 2 ^ 64)
    (hstate : validateStorageState manifest.pageGeneration manifest.retentionFloorCsn manifest.commitCsn = .ok ()) :
    decode manifest.encode = .ok manifest := by
  have hsize := manifest.mutationDigest.size
  have hencode : manifest.encode = manifest.fields.flatten := rfl
  obtain ⟨hmagic, hread, hcommit, hcatalog, hblob, hcounts, hsizes, htime, hdigest, hroot0, hroot1, hroot2, hroot3,
    -⟩ := fieldsAt hencode [0, 8, 16, 24, 32, 40, 44, 52, 60, 92, 100, 108, 116, 124]
      (by cases hv1 : manifest.isV1 <;> simp [fields, hv1, hsize, commitMagicV1, commitMagicV2])
  have hwidth : 2 ^ 64 = 256 ^ 8 := by norm_num
  have hroot : ∀ start root, slice manifest.encode start (start + 8) = leBytes 8 (manifest.roots root).get →
      decodeRoot manifest.encode start = .ok (manifest.roots root) := by
    intro start root h
    rw [decodeRoot, h, new_ofLe hwidth]
    rfl
  have hroots : ![manifest.roots 0, manifest.roots 1, manifest.roots 2, manifest.roots 3] = manifest.roots := by
    funext i
    fin_cases i <;> rfl
  -- the first version leaves the storage state out, and has it at its defaults
  have hstorage : decodeStorageState manifest.encode manifest.isV1 =
      .ok (manifest.pageGeneration, manifest.retentionFloorCsn) := by
    cases hv1 : manifest.isV1 with
    | true =>
      have hfirst : manifest.pageGeneration = first ∧ manifest.retentionFloorCsn = first := by simpa [isV1] using hv1
      rw [hfirst.1, hfirst.2]
      rfl
    | false =>
      simp only [fields, hv1, Bool.false_eq_true, if_false] at hencode
      obtain ⟨-, -, -, -, -, -, -, -, -, -, -, -, -, hgeneration, hfloor, -⟩ :=
        fieldsAt hencode [0, 8, 16, 24, 32, 40, 44, 52, 60, 92, 100, 108, 116, 124, 132, 140]
          (by simp [hsize, commitMagicV2])
      rw [decodeStorageState, hgeneration, hfloor, new_ofLe hwidth, new_ofLe hwidth]
      rfl
  have hversion : (decide (manifest.encode.length = commitV1Size ∧ slice manifest.encode 0 8 = commitMagicV1)) =
      manifest.isV1 := by
    rw [length_encode, hmagic]
    cases manifest.isV1 <;> rfl
  have hversion' : (decide (manifest.encode.length = commitV2Size ∧ slice manifest.encode 0 8 = commitMagicV2)) =
      !manifest.isV1 := by
    rw [length_encode, hmagic]
    cases manifest.isV1 <;> rfl
  simp only [decode, hread, hcommit, hcatalog, hblob, hcounts, hsizes, htime, hdigest, readDigest_bytes,
    hroot 92 0 hroot0, hroot 100 1 hroot1, hroot 108 2 hroot2, hroot 116 3 hroot3, hversion, hversion', hstorage,
    new_ofLe hwidth, new_ofLe_csnValue, ofNat_ofLe_leBytes hwidth]
  rw [ofLe_leBytes hcount, ofLe_leBytes hbytes, failIf_of_not (by cases manifest.isV1 <;> simp)]
  simp only [okOr, ok_bind, hroots, hstate]

end CommitManifest

end Hyphae.Runtime
