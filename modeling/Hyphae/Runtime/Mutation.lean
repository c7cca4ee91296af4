import Hyphae.Mvcc.ConflictTable

/-!
# Logical mutations

A transaction is a list of logical mutations. Each names its engine, its operation,
the catalog object it is about if there is one, and a key. The members of a hash, a
set or a sorted set have compound keys: the length of the collection's key, that
key, and the member.
-/

namespace Hyphae.Runtime

open Lib Except List

open Mvcc (ObjectId)
open Wal (EngineKind)

/-- Operation of one mutation. -/
inductive Opcode
  | createTable | insertRow | setValue | createIndex | indexDocument | updateRow | deleteRow | deleteValue | expireValue
  | createHash | setHashField | deleteHashField | createSecondaryIndex | createSet | addSetMember | deleteSetMember
  | createAnnIndex | upsertVector | deleteVector | createList | pushListHead | pushListTail | popListHead | popListTail
  | createSortedSet | upsertSortedSetMember | deleteSortedSetMember | compactStructure | vacuumPageGeneration
  | deleteHash | expireHash | expireHashField | expireSet | deleteSet | deleteList | expireList | replaceDocument
  | deleteDocument | compactSearch | dropSecondaryIndex | renameTable | migrateStructureV3 | dropTable | createStream
  | appendStreamEntry | deleteStream | expireStream | deleteSortedSet | expireSortedSet | consolidateAnn
  | createCatalogObjectV2 | cleanupStructureRetirementV3 | publishInitialAnnBulk | migrateCatalogV7
  | annDeltaAuthorityV1 | annDeltaAuthorityV2 | fenceVectorAbsence
  deriving DecidableEq, Repr

structure Mutation where
  engine : EngineKind
  opcode : Opcode
  target : Option ObjectId
  key : Bytes
  value : Bytes
  expiresAtMicros : Option (BitVec 64)
  deriving DecidableEq

/-- What the member codecs refuse. -/
inductive IdentityError
  | structureIdentityTooLarge
  | invalidPreparedMutation
  deriving DecidableEq, Repr

/-- The compound key of a member. -/
def collectionMemberIdentity (key member : Bytes) : Except IdentityError Bytes := do
  .failIf (2 ^ 32 ≤ key.length) .structureIdentityTooLarge
  .ok (beBytes 4 key.length ++ key ++ member)

def decodeCollectionMemberIdentity (encoded : Bytes) : Except IdentityError (Bytes × Bytes) := do
  .failIf (encoded.length < 4) .invalidPreparedMutation
  let keyLength := ofBe (encoded.take 4)
  let memberStart := 4 + keyLength
  .failIf (encoded.length < memberStart) .invalidPreparedMutation
  .ok (slice encoded 4 memberStart, encoded.drop memberStart)

theorem take_memberIdentity (key member : Bytes) :
    (beBytes 4 key.length ++ key ++ member).take 4 = beBytes 4 key.length := by
  rw [append_assoc, take_left' (length_beBytes 4 _)]

end Hyphae.Runtime
