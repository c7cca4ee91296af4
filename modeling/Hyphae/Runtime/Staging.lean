import Hyphae.BTree.Node
import Hyphae.Blobs.Store
import Hyphae.Catalog.Definitions
import Hyphae.Runtime.Commit
import Hyphae.Runtime.WalLog

/-!
# From staged calls to a recovered log

Every call of the staging interface that changes something pushes one mutation onto its
batch. Committing the batch replaces large values by references to blobs, adds the
authority markers of the vector indexes, and encodes the result. The encoder checks no
mutation for what its operation may carry; the decoder does. Exactly one staged call
slips through: an entry appended to the stream with the empty key.
-/

namespace Hyphae.Runtime

open Lib Except List

open Blobs (BlobReference inlineValueLimit)
open Catalog (QualifiedName catalogNameIdentity definitionMagicV1)
open Hyphae.BTree (maxKeySize)
open Mvcc (ObjectId)
open Wal

variable {expiresAtMicros : Option (BitVec 64)} {opcode : Opcode} {key : Bytes}

/-! ## Staged calls -/

inductive CollectionKind
  | hash | set | list | stream | sortedSet
  deriving DecidableEq, Repr

namespace CollectionKind

def createOpcode : CollectionKind → Opcode
  | .hash => .createHash
  | .set => .createSet
  | .list => .createList
  | .stream => .createStream
  | .sortedSet => .createSortedSet

def deleteOpcode : CollectionKind → Opcode
  | .hash => .deleteHash
  | .set => .deleteSet
  | .list => .deleteList
  | .stream => .deleteStream
  | .sortedSet => .deleteSortedSet

def expireOpcode : CollectionKind → Opcode
  | .hash => .expireHash
  | .set => .expireSet
  | .list => .expireList
  | .stream => .expireStream
  | .sortedSet => .expireSortedSet

end CollectionKind

/-- `HYCOBJ02`, in front of the definition of a logical catalog object. -/
def definitionMagicV2 : Bytes := [72, 89, 67, 79, 66, 74, 48, 50]

/-- `HYANNCF1` -/
def annCreationMagic : Bytes := [72, 89, 65, 78, 78, 67, 70, 49]

structure IncrementalVectorLifecycle where
  deltaMaxEntries : UInt32
  consolidateAfterDeltas : UInt16
  retainGenerations : UInt16

/-- The components of a vector, as the bits of 32-bit floats. -/
structure VectorComponents where
  bits : List UInt32
  nonempty : bits ≠ []

abbrev StreamFields := List (Bytes × Bytes)

/-- A call that pushed a mutation, with what it was given and what it read from the private state. The encoded
definitions of catalog objects are known by what follows their magic. -/
inductive StagedCall
  | createCatalogObjectV2 (id : ObjectId) (name : QualifiedName) (definition : Bytes)
  | createRelation (id : ObjectId) (name : QualifiedName) (definition : Bytes)
  | createSecondaryIndex (id : ObjectId) (name : QualifiedName) (definition : Bytes)
  | renameTable (id : ObjectId) (name : Bytes) (nonempty : name ≠ []) (definition : Bytes)
  | dropTable (id : ObjectId)
  | dropSecondaryIndex (id : ObjectId)
  | insert (table : ObjectId) (primaryKey row : Bytes)
  | update (table : ObjectId) (primaryKey row : Bytes)
  | delete (table : ObjectId) (primaryKey : Bytes)
  | setValue (key value : Bytes) (expiresAtMicros : Option (BitVec 64))
  | deleteValue (key : Bytes)
  | expireValue (key value : Bytes) (expiresAtMicros : BitVec 64)
  | createCollection (kind : CollectionKind) (key : Bytes)
  | deleteCollection (kind : CollectionKind) (key : Bytes)
  | expireCollection (kind : CollectionKind) (key : Bytes) (expiresAtMicros : BitVec 64)
  | hset (key field value : Bytes)
  | hdelete (key field : Bytes)
  | expireHashField (key field : Bytes) (expiresAtMicros : BitVec 64)
  | sadd (key member : Bytes)
  | srem (key member : Bytes)
  | push (head : Bool) (key value : Bytes)
  | pop (head : Bool) (key value : Bytes)
  | zadd (key member : Bytes) (score : BitVec 64)
  | zrem (key member : Bytes)
  | xadd (key : Bytes) (id : Nat) (fields : StreamFields)
  | createSearchIndex (id : ObjectId) (name : QualifiedName) (definition : Bytes)
  | indexDocument (index : ObjectId) (document text : Bytes)
  | replaceDocument (index : ObjectId) (document text : Bytes)
  | deleteDocument (index : ObjectId) (document : Bytes)
  | createVectorIndex (id : ObjectId) (name : QualifiedName) (lifecycle : IncrementalVectorLifecycle)
      (definition : Bytes)
  | upsertVector (index object : ObjectId) (vector : VectorComponents)
  | deleteVector (index object : ObjectId)
  | fenceVectorAbsence (index object : ObjectId)

/-- The identity of a name, with an error of the catalog as one of the runtime. -/
def nameIdentity (name : QualifiedName) : RuntimeM Bytes :=
  (catalogNameIdentity name).mapError fun _ => .catalog

/-- `hash_field_identity`, `set_member_identity` and `sorted_set_member_identity`. -/
def memberIdentity (key member : Bytes) : RuntimeM Bytes := do
  let identity ← (collectionMemberIdentity key member).mapError fun _ => .structureIdentityTooLarge
  .failIf (maxKeySize < identity.length + 1) .structureIdentityTooLarge
  .ok identity

def encodeAnnCreation (lifecycle : IncrementalVectorLifecycle) (definition : Bytes) : RuntimeM Bytes := do
  .failIf (2 ^ 32 ≤ definition.length) .invalidPreparedMutation
  .ok (annCreationMagic ++ leBytes 4 lifecycle.deltaMaxEntries.toNat ++ leBytes 2
    lifecycle.consolidateAfterDeltas.toNat ++
    leBytes 2 lifecycle.retainGenerations.toNat ++ leBytes 4 definition.length ++ definition)

def encodeVectorMutation (vector : VectorComponents) : Bytes := vector.bits.flatMap fun bits => leBytes 4 bits.toNat

def encodeObjectIdentity (object : ObjectId) : Bytes := beBytes 16 object.get

def encodeStreamWalEntry (id : Nat) (fields : StreamFields) : RuntimeM Bytes := do
  .failIf (2 ^ 32 ≤ fields.length) .other
  .failIf (∃ field ∈ fields, 2 ^ 32 ≤ field.1.length ∨ 2 ^ 32 ≤ field.2.length) .structureIdentityTooLarge
  .ok (beBytes 8 id ++ beBytes 4 fields.length ++ fields.flatMap fun field =>
    beBytes 4 field.1.length ++ field.1 ++ (beBytes 4 field.2.length ++ field.2))

/-- A mutation of the structure engine. -/
def structureMutation (opcode : Opcode) (key value : Bytes) (expiresAtMicros : Option (BitVec 64)) : Mutation where
  engine := .structure
  opcode := opcode
  target := none
  key := key
  value := value
  expiresAtMicros := expiresAtMicros

/-- A mutation about a catalog object, without an expiry. -/
def objectMutation (engine : EngineKind) (opcode : Opcode) (target : ObjectId) (key value : Bytes) : Mutation where
  engine := engine
  opcode := opcode
  target := some target
  key := key
  value := value
  expiresAtMicros := none

/-- The mutation a call pushed. -/
def StagedCall.mutation : StagedCall → RuntimeM Mutation
  | .createCatalogObjectV2 id name definition =>
    (nameIdentity name).map fun key =>
      objectMutation .kernel .createCatalogObjectV2 id key (definitionMagicV2 ++ definition)
  | .createRelation id name definition =>
    (nameIdentity name).map fun key => objectMutation .relational .createTable id key (definitionMagicV1 ++ definition)
  | .createSecondaryIndex id name definition =>
    (nameIdentity name).map fun key =>
      objectMutation .relational .createSecondaryIndex id key (definitionMagicV1 ++ definition)
  | .renameTable id name _ definition => .ok (objectMutation .relational .renameTable id name
      (definitionMagicV1 ++ definition))
  | .dropTable id => .ok (objectMutation .relational .dropTable id [] [])
  | .dropSecondaryIndex id => .ok (objectMutation .relational .dropSecondaryIndex id [] [])
  | .insert table primaryKey row => .ok (objectMutation .relational .insertRow table primaryKey row)
  | .update table primaryKey row => .ok (objectMutation .relational .updateRow table primaryKey row)
  | .delete table primaryKey => .ok (objectMutation .relational .deleteRow table primaryKey [])
  | .setValue key value expiresAtMicros => .ok (structureMutation .setValue key value expiresAtMicros)
  | .deleteValue key => .ok (structureMutation .deleteValue key [] none)
  | .expireValue key value expiresAtMicros => .ok (structureMutation .expireValue key value (some expiresAtMicros))
  | .createCollection kind key => .ok (structureMutation kind.createOpcode key [] none)
  | .deleteCollection kind key => .ok (structureMutation kind.deleteOpcode key [] none)
  | .expireCollection kind key expiresAtMicros => .ok (structureMutation kind.expireOpcode key []
      (some expiresAtMicros))
  | .hset key field value => (memberIdentity key field).map fun identity =>
      structureMutation .setHashField identity value none
  | .hdelete key field => (memberIdentity key field).map fun identity =>
      structureMutation .deleteHashField identity [] none
  | .expireHashField key field expiresAtMicros =>
    (memberIdentity key field).map fun identity => structureMutation .expireHashField identity [] (some expiresAtMicros)
  | .sadd key member => (memberIdentity key member).map fun identity => structureMutation .addSetMember identity [] none
  | .srem key member => (memberIdentity key member).map fun identity =>
      structureMutation .deleteSetMember identity [] none
  | .push head key value => .ok (structureMutation (if head then .pushListHead else .pushListTail) key value none)
  | .pop head key value => .ok (structureMutation (if head then .popListHead else .popListTail) key value none)
  | .zadd key member score =>
    (memberIdentity key member).map fun identity =>
      structureMutation .upsertSortedSetMember identity (beBytes 8 score.toNat) none
  | .zrem key member =>
    (memberIdentity key member).map fun identity => structureMutation .deleteSortedSetMember identity [] none
  | .xadd key id fields =>
    (encodeStreamWalEntry id fields).map fun value => structureMutation .appendStreamEntry key value none
  | .createSearchIndex id name definition =>
    (nameIdentity name).map fun key => objectMutation .search .createIndex id key (definitionMagicV1 ++ definition)
  | .indexDocument index document text => .ok (objectMutation .search .indexDocument index document text)
  | .replaceDocument index document text => .ok (objectMutation .search .replaceDocument index document text)
  | .deleteDocument index document => .ok (objectMutation .search .deleteDocument index document [])
  | .createVectorIndex id name lifecycle definition => do
    let value ← encodeAnnCreation lifecycle (definitionMagicV1 ++ definition)
    let key ← nameIdentity name
    .ok (objectMutation .search .createAnnIndex id key value)
  | .upsertVector index object vector =>
    .ok (objectMutation .search .upsertVector index (encodeObjectIdentity object) (encodeVectorMutation vector))
  | .deleteVector index object => .ok (objectMutation .search .deleteVector index (encodeObjectIdentity object) [])
  | .fenceVectorAbsence index object =>
    .ok (objectMutation .search .fenceVectorAbsence index (encodeObjectIdentity object) [])

/-- The mutations of a sequence of calls. -/
def callMutations (calls : List StagedCall) : RuntimeM (List Mutation) := calls.mapM StagedCall.mutation

/-! ## What is written to the log -/

/-- `HYSTRV01` -/
def structureValueMagic : Bytes := [72, 89, 83, 84, 82, 86, 48, 49]

/-- `HYDOCS01` -/
def searchDocumentMagic : Bytes := [72, 89, 68, 79, 67, 83, 48, 49]

def encodeBlobReference (reference : BlobReference) : Bytes :=
  leBytes 16 reference.id.get ++ leBytes 8 reference.logicalLength ++ reference.digest.bytes

section Stored

variable (hashes : Hashes) (references : OrderedMap Digest BlobReference)

/-- The value in place, or the reference to its blob; `header` is given which of the two it is. -/
def inlineOrBlob (header : Bool → Bytes) (value : Bytes) : RuntimeM Bytes :=
  if value.length ≤ inlineValueLimit then .ok (header false ++ value)
  else do
    let reference ← .okOr (references.get (hashes.blake3 value)) .other
    .ok (header true ++ encodeBlobReference reference)

def relationalStorageValue (value : Bytes) : RuntimeM Bytes :=
  inlineOrBlob hashes references (fun blob => [if blob then 1 else 0]) value

def structureStorageValue (value : Bytes) (expiresAtMicros : Option (BitVec 64)) : RuntimeM Bytes :=
  inlineOrBlob hashes references
    (fun blob => structureValueMagic ++ [if expiresAtMicros.isSome then 1 else 0, if blob then 1 else 0] ++ zeros 6 ++
      leBytes 8 (expiresAtMicros.getD 0).toNat)
    value

def searchDocumentStorageValue (text : Bytes) (tokenCount : Nat) : RuntimeM Bytes :=
  inlineOrBlob hashes references
    (fun blob => searchDocumentMagic ++ [if blob then 1 else 0] ++ zeros 7 ++ leBytes 8 tokenCount) text

/-- The value a mutation has in the log. `analyze` counts the tokens of a text, if the bytes are one. -/
def storedValue (analyze : Bytes → Option Nat) (mutation : Mutation) : RuntimeM Bytes :=
  match mutation.engine, mutation.opcode with
  | .relational, .insertRow | .relational, .updateRow => relationalStorageValue hashes references mutation.value
  | .structure, .setValue | .structure, .expireValue | .structure, .setHashField | .structure, .pushListHead
  | .structure, .pushListTail | .structure, .popListHead | .structure, .popListTail =>
    structureStorageValue hashes references mutation.value mutation.expiresAtMicros
  | .search, .indexDocument | .search, .replaceDocument => do
    let tokenCount ← .okOr (analyze mutation.value) .other
    searchDocumentStorageValue hashes references mutation.value tokenCount
  | _, _ => .ok mutation.value

def walMutation (analyze : Bytes → Option Nat) (mutation : Mutation) : RuntimeM Mutation :=
  (storedValue hashes references analyze mutation).map fun value => { mutation with value }

def annDeltaAuthorityMarkerV2 (authority : AnnDeltaAuthorityV2) : Mutation :=
  objectMutation .search .annDeltaAuthorityV2 authority.index []
    (annDeltaAuthorityMagicV2 ++ [if authority.m04ToM05 then 1 else 0] ++ zeros 7 ++ beBytes 16 authority.index.get ++
      leBytes 4 authority.operationCount ++ zeros 4 ++ authority.priorViewIdentity ++ authority.resultViewIdentity ++
      authority.priorOverlayRoot ++ authority.resultOverlayRoot ++ leBytes 8 authority.priorNextSequence ++
      leBytes 8 authority.resultNextSequence)

/-- The mutations of a batch as they are logged, and the markers of the vector indexes it published. -/
def walMutations (analyze : Bytes → Option Nat) (staged : List Mutation) (authorities : List AnnDeltaAuthorityV2) :
    RuntimeM (List Mutation) := do
  let mutations ← staged.mapM (walMutation hashes references analyze)
  .ok (mutations ++ authorities.map annDeltaAuthorityMarkerV2)

end Stored

/-! ## Which staged mutations may be decoded -/

/-- An entry for the stream with the empty key. -/
def Mutation.AppendsToEmptyKey (mutation : Mutation) : Prop := mutation.opcode = .appendStreamEntry ∧ mutation.key = []

instance (mutation : Mutation) : Decidable mutation.AppendsToEmptyKey := inferInstanceAs (Decidable (_ ∧ _))

variable {mutation : Mutation}

theorem Mutation.AppendsToEmptyKey.not_recoverable (h : mutation.AppendsToEmptyKey) : ¬mutation.Recoverable := by
  rintro ⟨-, hshape, -⟩
  simp only [h.1, h.2, validateMutationShape, bind_eq_ok, failIf_eq_ok, refusesContent] at hshape
  obtain ⟨-, -, -, hcontent, -⟩ := hshape
  exact hcontent (.inl trivial)

theorem nameIdentity_ne_nil {name : QualifiedName} (h : nameIdentity name = .ok key) : key ≠ [] := by
  simp only [nameIdentity, catalogNameIdentity, mapError_eq_ok, foldlM_cons, bind_eq_ok, ok.injEq, foldlM_nil,
    pure_eq_ok] at h
  obtain ⟨_, -, _, -, _, ⟨-, -, rfl⟩, rfl⟩ := h
  intro hnil
  have hlength := congrArg length hnil
  simp at hlength

theorem memberIdentity_valid {member identity : Bytes} (h : memberIdentity key member = .ok identity) :
    validCollectionMemberIdentity identity := by
  unfold memberIdentity collectionMemberIdentity at h
  simp only [bind_eq_ok, mapError_eq_ok, failIf_eq_ok, ok.injEq, Nat.not_le] at h
  obtain ⟨_, ⟨-, hlength, rfl⟩, -, -, rfl⟩ := h
  have hfits : key.length < 256 ^ 4 := hlength
  rw [validCollectionMemberIdentity, take_memberIdentity, ofBe_beBytes hfits]
  simp only [length_append, length_beBytes]
  omega

theorem encodeVectorMutation_length (vector : VectorComponents) :
    (encodeVectorMutation vector).length = 4 * vector.bits.length := by
  rw [encodeVectorMutation, length_flatMap]
  simp [Nat.mul_comm]

/-- The decoder's checks on a mutation of one member of a collection. -/
theorem recoverable_member {member identity value : Bytes} (hidentity : memberIdentity key member = .ok identity)
    (h : (opcode = .setHashField ∧ expiresAtMicros = none) ∨
      ((opcode = .deleteHashField ∨ opcode = .addSetMember ∨ opcode = .deleteSetMember ∨
        opcode = .deleteSortedSetMember) ∧ value.length = 0 ∧ expiresAtMicros = none) ∨
      (opcode = .expireHashField ∧ value.length = 0 ∧ expiresAtMicros.isSome) ∨
      (opcode = .upsertSortedSetMember ∧ value.length = 8 ∧ expiresAtMicros = none)) :
    (structureMutation opcode identity value expiresAtMicros).Recoverable := by
  have hvalid := memberIdentity_valid hidentity
  rcases h with ⟨rfl, rfl⟩ | ⟨rfl | rfl | rfl | rfl, hlength, rfl⟩ | ⟨rfl, hlength, hexpiry⟩ | ⟨rfl, hlength, rfl⟩
  all_goals
    refine ⟨rfl, ?_, rfl⟩
    simp_all [structureMutation, validateMutationShape, validateMutationTargetShape, forbidsTarget, requiresTarget,
      refusesContent, validateMutationIdentity, Option.isSome_iff_ne_none]

theorem not_refused {value : Bytes} (hkey : key ≠ []) (hvalue : value.length ≠ 0) :
    ¬(key = [] ∨ value.length = 0 ∨ (none : Option (BitVec 64)).isSome) := by
  simp_all

/-- Every staged mutation may be decoded from the log, but for entries to the stream with the empty key. -/
theorem StagedCall.recoverable {hashes : Hashes} {references : OrderedMap Digest BlobReference}
    {analyze : Bytes → Option Nat} {call : StagedCall} {staged : Mutation} (hcall : call.mutation = .ok staged)
    (hstored : walMutation hashes references analyze staged = .ok mutation) (h : ¬mutation.AppendsToEmptyKey) :
    mutation.Recoverable := by
  unfold walMutation at hstored
  rw [map_eq_ok] at hstored
  obtain ⟨stored, hvalue, rfl⟩ := hstored
  cases call with
  | createCatalogObjectV2 id name definition =>
    obtain ⟨key, hkey, rfl⟩ := map_eq_ok.mp hcall
    cases hvalue
    have hname := nameIdentity_ne_nil hkey
    exact ⟨rfl, failIf_of_not (by simp [objectMutation, hname, definitionMagicV2]), rfl⟩
  | createRelation id name definition | createSecondaryIndex id name definition
      | createSearchIndex id name definition =>
    obtain ⟨key, hkey, rfl⟩ := map_eq_ok.mp hcall
    cases hvalue
    exact ⟨rfl, rfl, rfl⟩
  | renameTable id name nonempty definition =>
    cases hcall
    cases hvalue
    exact ⟨rfl, failIf_bind (not_refused nonempty (by simp [objectMutation, definitionMagicV1])), rfl⟩
  | createVectorIndex id name lifecycle definition =>
    simp only [StagedCall.mutation, bind_eq_ok, ok.injEq] at hcall
    obtain ⟨value, hcreation, key, -, rfl⟩ := hcall
    cases hvalue
    simp only [encodeAnnCreation, bind_eq_ok, ok.injEq] at hcreation
    obtain ⟨-, -, hbytes⟩ := hcreation
    have hlength : ¬value.length < 20 := by
      rw [← hbytes]
      simp [annCreationMagic]
      omega
    exact ⟨rfl, failIf_of_not hlength, rfl⟩
  | dropTable id | dropSecondaryIndex id | delete table primaryKey | deleteDocument index document | deleteValue key
  | deleteVector index object | fenceVectorAbsence index object =>
    cases hcall
    cases hvalue
    exact ⟨rfl, rfl, rfl⟩
  | insert table primaryKey row | update table primaryKey row | indexDocument index document text
  | replaceDocument index document text | setValue key value expiresAtMicros | expireValue key value expiresAtMicros =>
    cases hcall
    exact ⟨rfl, rfl, rfl⟩
  | push head key value | pop head key value =>
    cases hcall
    cases head <;> exact ⟨rfl, rfl, rfl⟩
  | createCollection kind key | deleteCollection kind key | expireCollection kind key expiresAtMicros =>
    cases hcall
    cases kind <;> cases hvalue <;> exact ⟨rfl, rfl, rfl⟩
  | hset key field value =>
    obtain ⟨identity, hidentity, rfl⟩ := map_eq_ok.mp hcall
    exact recoverable_member hidentity (by simp [structureMutation])
  | hdelete key member | expireHashField key member expiresAtMicros | sadd key member | srem key member
  | zadd key member score | zrem key member =>
    obtain ⟨identity, hidentity, rfl⟩ := map_eq_ok.mp hcall
    cases hvalue
    exact recoverable_member hidentity (by simp [structureMutation])
  | xadd key id fields =>
    obtain ⟨value, hentry, rfl⟩ := map_eq_ok.mp hcall
    cases hvalue
    have hkey : key ≠ [] := fun hnil => h ⟨rfl, hnil⟩
    have hlength : value.length ≠ 0 := by
      simp only [encodeStreamWalEntry, bind_eq_ok, ok.injEq] at hentry
      obtain ⟨-, -, -, -, rfl⟩ := hentry
      simp
    exact ⟨rfl, failIf_bind (not_refused hkey hlength), rfl⟩
  | upsertVector index object vector =>
    cases hcall
    cases hvalue
    have hlength := encodeVectorMutation_length vector
    exact ⟨rfl, failIf_of_not (by simp [objectMutation, hlength, vector.nonempty]), rfl⟩

/-- A marker the encoder let through may be decoded. -/
theorem annDeltaAuthorityMarkerV2_recoverable {mutations : List Mutation} {authority : AnnDeltaAuthorityV2}
    (h : validateAnnDeltaAuthorityMarkers mutations = .ok ()) (hmem : annDeltaAuthorityMarkerV2 authority ∈ mutations) :
    (annDeltaAuthorityMarkerV2 authority).Recoverable := by
  unfold validateAnnDeltaAuthorityMarkers at h
  rw [bind_eq_ok] at h
  obtain ⟨scan, hscan, -⟩ := h
  obtain ⟨before, after, hstep⟩ := step_of_foldlM_eq_ok hscan _ hmem
  have hopcode : (annDeltaAuthorityMarkerV2 authority).opcode = .annDeltaAuthorityV2 := rfl
  simp only [MarkerScan.step, hopcode, or_true, if_true, MarkerScan.marker, bind_eq_ok, reduceCtorEq, if_false,
    annDeltaAuthorityV2] at hstep
  obtain ⟨_, -, _, -, hstep⟩ := hstep
  simp only [OfNat.ofNat_ne_one, if_false, bind_eq_ok] at hstep
  obtain ⟨decoded, ⟨_, -, hdecoded⟩, -⟩ := hstep
  have hlength : (annDeltaAuthorityMarkerV2 authority).value.length = annDeltaAuthorityV2Size := by
    unfold decodeAnnDeltaAuthorityV2 at hdecoded
    simp only [bind_eq_ok, failIf_eq_ok, not_or, not_not] at hdecoded
    obtain ⟨-, ⟨hlength, -⟩, -⟩ := hdecoded
    exact hlength
  refine ⟨rfl, ?_, ?_⟩
  · rw [hlength]
    rfl
  · show (decodeAnnDeltaAuthorityV2 _ _).map _ = _
    rw [hdecoded]
    rfl

/-! ## Streams in a batch -/

/-- What the stream calls read and write of a batch. -/
structure StagedBatch where
  logicalTimeMicros : BitVec 64
  materialized : Bool
  supportsCollections : Bool
  scalars : Finset Bytes := ∅
  /-- Hashes, sets, lists and sorted sets. -/
  collections : CollectionKind → Finset Bytes := fun _ => ∅
  streams : OrderedMap Bytes (OrderedMap Nat StreamFields) := .empty
  expiries : CollectionKind → OrderedMap Bytes (BitVec 64) := fun _ => .empty
  mutations : List Mutation := []

namespace StagedBatch

def contains (batch : StagedBatch) (kind : CollectionKind) (key : Bytes) : Bool :=
  match kind with
  | .stream => (batch.streams.get key).isSome
  | kind => key ∈ batch.collections kind

def remove (batch : StagedBatch) (kind : CollectionKind) (key : Bytes) : StagedBatch :=
  { batch with
    collections := Function.update batch.collections kind ((batch.collections kind).erase key)
    streams := if kind = .stream then batch.streams.erase key else batch.streams
    expiries := Function.update batch.expiries kind ((batch.expiries kind).erase key) }

/-- A collection whose time has come gives its key free. -/
def retireExpiredForReuse (key : Bytes) (batch : StagedBatch) (kind : CollectionKind) : StagedBatch :=
  if batch.contains kind key ∧ ((batch.expiries kind).get key).any (·.sle batch.logicalTimeMicros) then
    { batch.remove kind key with mutations := batch.mutations ++ [structureMutation kind.deleteOpcode key [] none] }
  else batch

def createStream (batch : StagedBatch) (key : Bytes) : RuntimeM StagedBatch := do
  .failIf (¬batch.materialized) .other
  .failIf (¬batch.supportsCollections) .legacyStructureFamilyUnsupported
  .failIf (2 ^ 32 ≤ key.length) .structureIdentityTooLarge
  let batch := [.hash, .set, .list, .stream, .sortedSet].foldl (retireExpiredForReuse key) batch
  .failIf
    (key ∈ batch.scalars ∨ ∃ kind ∈ [CollectionKind.hash, .set, .list, .sortedSet, .stream], batch.contains kind key)
    .structureKeyExists
  .ok { batch with
    streams := batch.streams.insert key .empty
    mutations := batch.mutations ++ [structureMutation .createStream key [] none] }

def xadd (batch : StagedBatch) (key : Bytes) (fields : StreamFields) : RuntimeM (StagedBatch × Nat) := do
  .failIf (¬batch.materialized) .other
  let stream ← .okOr (batch.streams.get key) .other
  let id ← .okOr (checkedAdd ((stream.entries.getLast?.map Prod.fst).getD 0) 1) .other
  .failIf (fields = [] ∨ ¬(fields.map Prod.fst).Nodup) .other
  let value ← encodeStreamWalEntry id fields
  .ok ({ batch with
    streams := batch.streams.insert key (stream.insert id fields)
    mutations := batch.mutations ++ [structureMutation .appendStreamEntry key value none] }, id)

end StagedBatch

/-! ## Logs of staged batches -/

/-- The mutations of the plan are what some staged calls pushed, as they are logged. -/
def BuiltFromCalls (hashes : Hashes) (plan : TransactionPlan) : Prop :=
  ∃ calls staged references analyze authorities, callMutations calls = .ok staged ∧
    walMutations hashes references analyze staged authorities = .ok plan.mutations

/-- The transaction of an entry, complete or not. -/
def Entry.plan {hashes : Hashes} : Entry hashes → Option TransactionPlan
  | .transaction logged => some logged.plan
  | .aborted logged _ _ _ => some logged.plan
  | _ => none

theorem recoverable_of_builtFromCalls {hashes : Hashes} {plan : TransactionPlan} (hplan : plan.Encodable)
    (hbuilt : BuiltFromCalls hashes plan) (hmem : mutation ∈ plan.mutations) (h : ¬mutation.AppendsToEmptyKey) :
    mutation.Recoverable := by
  obtain ⟨calls, staged, references, analyze, authorities, hcalls, hlogged⟩ := hbuilt
  unfold walMutations at hlogged
  simp only [bind_eq_ok, ok.injEq] at hlogged
  obtain ⟨stored, hstored, heq⟩ := hlogged
  have hmem' := hmem
  rw [← heq] at hmem'
  rcases mem_append.mp hmem' with hmem' | hmarker
  · obtain ⟨original, horiginal, hwal⟩ := (mem_of_mapM_eq_ok hstored).2 mutation hmem'
    obtain ⟨call, -, hcall⟩ := (mem_of_mapM_eq_ok hcalls).2 original horiginal
    exact StagedCall.recoverable hcall hwal h
  · obtain ⟨authority, -, rfl⟩ := mem_map.mp hmarker
    exact annDeltaAuthorityMarkerV2_recoverable hplan.markers hmem

/-- A log of staged batches, aborts, checkpoints and outcomes in order is recovered exactly, at every cut, if and only
if no batch appended an entry to the stream with the empty key. -/
theorem staged_log_recovered_iff (hashes : Hashes) (base : Option WalSemanticBase) (log : List (Entry hashes))
    (horder : InOrder base {} log) (hbuilt : ∀ entry ∈ log, ∀ plan ∈ entry.plan, BuiltFromCalls hashes plan) :
    (∀ cut, RecoversCut base log cut) ↔ ∀ mutation ∈ logMutations log, ¬mutation.AppendsToEmptyKey := by
  constructor
  · intro hrecovers mutation hmutation hempty
    have hwhole := (hrecovers (logRecords log).length).1
    rw [take_length] at hwhole
    exact hempty.not_recoverable (recoverable_of_recoverWalAfter hwhole mutation hmutation)
  · intro h
    apply recoversCut_of_recoverable horder
    intro mutation hmutation
    have hkey := h mutation hmutation
    obtain ⟨entry, hentry, hmutation⟩ := mem_flatMap.mp hmutation
    cases entry with
    | transaction logged =>
      exact recoverable_of_builtFromCalls (encodeTransaction_spec logged.encoded).1
        (hbuilt _ hentry _ rfl) hmutation hkey
    | aborted logged written abort carried =>
      exact recoverable_of_builtFromCalls (encodeTransaction_spec logged.encoded).1 (hbuilt _ hentry _ rfl)
        (mem_of_mem_take hmutation) hkey
    | checkpoint | outcome => cases hmutation

/-- The records of an encodable plan can stand in a log. -/
theorem exists_logged {hashes : Hashes} {plan : TransactionPlan} {pending : List PendingRecord}
    (h : encodeTransaction hashes plan = .ok pending) (lsn : Lsn) :
    ∃ logged : LoggedTransaction hashes, logged.plan = plan := by
  have hcarries : List.Forall₂ WalRecord.Carries (pending.map fun record => record.placed lsn) pending := by
    rw [forall₂_map_left_iff, forall₂_same]
    exact fun record _ => rfl
  obtain ⟨start, body, commit, heq, -⟩ := (encodeTransaction_spec h).2 _ hcarries
  rw [heq] at hcarries
  exact ⟨⟨plan, pending, h, start, body, commit, hcarries⟩, rfl⟩

namespace EmptyKeys

def hashes : Hashes := ⟨fun _ _ => 0, fun _ => Digest.zero⟩

/-- The first transaction of a database. -/
def plan (mutations : List Mutation) : TransactionPlan where
  transactionId := .ofSucc 0
  readCsn := none
  catalogVersion := Mvcc.first
  logicalTimeMicros := 0
  durability := .strict
  mutations := mutations
  commitCsn := Mvcc.first
  roots := fun _ => Mvcc.first
  blobGeneration := 0
  pageGeneration := Mvcc.first
  retentionFloorCsn := Mvcc.first

/-- Empty keys, an empty value and the largest expiry. -/
def calls : List StagedCall := [.setValue [] [] (some maxMicros), .createCollection .stream [], .hset [] [] []]

def called : List Mutation := (callMutations calls).toOption.getD []

def logged : List Mutation := (walMutations hashes .empty (fun _ => none) called []).toOption.getD []

/-- The checkpoint of the first transaction. -/
def checkpoint : RecoveredCheckpoint :=
  ⟨.ofSucc 1, Mvcc.first, Mvcc.first, Mvcc.first, ⟨List.replicate 32 3, length_replicate⟩, none⟩

/-- The first transaction was committed. -/
def outcome : RecoveredOutcome :=
  ⟨.ofSucc 2, .ofSucc 0, checkpoint.manifestDigest, checkpoint.manifestDigest, 1, some Mvcc.first⟩

/-- A batch that creates the stream with the empty key and appends one entry to it. -/
def staged : RuntimeM (StagedBatch × Nat) := do
  let batch : StagedBatch := { logicalTimeMicros := 0, materialized := true, supportsCollections := true }
  let batch ← batch.createStream []
  batch.xadd [] [([102], [118])]

def stagedMutations : List Mutation := (staged.toOption.map fun result => result.1.mutations).getD []

end EmptyKeys

open EmptyKeys in
/-- A batch of empty keys and values, the same cut short, a checkpoint and the batch's outcome are recovered at every
cut. -/
theorem staged_log_recovered_iff_emptyKeys :
    ∃ log : List (Entry hashes), log.map Entry.plan = [some (plan logged), some (plan logged), none, none] ∧
      (expectedFrom {} log).checkpoints = [checkpoint] ∧ (expectedFrom {} log).outcomes = [outcome] ∧
      ∀ cut, RecoversCut none log cut := by
  have hcarried {x : SemanticM PendingRecord} (h : x.toOption.any fun _ => true) :
      ∃ record, Carried x record ∧ record.lsn = Mvcc.first := by
    obtain ⟨pending, hpending, -⟩ := exists_of_any _ h
    exact ⟨pending.placed Mvcc.first, ⟨pending, hpending, rfl⟩, rfl⟩
  obtain ⟨pending, hpending, -⟩ := exists_of_any (x := encodeTransaction hashes (plan logged)) (fun _ => true)
    (by decide +kernel)
  obtain ⟨transaction, hplan⟩ := exists_logged hpending Mvcc.first
  obtain ⟨abort, habort, -⟩ := hcarried (x := encodeAbort transaction.plan.transactionId)
    (by rw [hplan]; decide +kernel)
  obtain ⟨taken, htaken, hlsn⟩ := hcarried (x := encodeCheckpoint checkpoint) (by decide +kernel)
  obtain ⟨reached, hreached, -⟩ := hcarried (x := encodeOutcome outcome) (by decide +kernel)
  let log : List (Entry hashes) :=
    [.transaction transaction, .aborted transaction 1 abort habort, .checkpoint checkpoint taken htaken hlsn,
      .outcome outcome reached hreached]
  refine ⟨log, by simp [log, Entry.plan, hplan], rfl, rfl, (staged_log_recovered_iff hashes none log ?_ ?_).mpr ?_⟩
  · refine ⟨fun _ hprior => by simp at hprior, trivial, ⟨by decide, ?_⟩, ⟨by decide, by decide, ?_⟩, trivial⟩
    all_goals
      simp [Entry.apply, hplan, plan, RecoveredWal.refusesCheckpoint, RecoveredWal.refusesOutcome, checkpoint, outcome,
        TransactionPlan.recoveredCommit, TransactionPlan.manifest]
  · intro entry hentry found hfound
    have hfound : found = plan logged := by
      simp only [log, mem_cons, not_mem_nil, or_false] at hentry
      rcases hentry with rfl | rfl | rfl | rfl <;> simp_all [Entry.plan]
    exact hfound ▸ ⟨calls, called, .empty, fun _ => none, [], rfl, rfl⟩
  · have hmutations : logMutations log = logged ++ logged.take 1 := by
      simp [log, logMutations, Entry.mutations, hplan, plan]
    rw [hmutations]
    decide

open EmptyKeys in
/-- An entry for the stream with the empty key is staged and encoded, and recovery refuses the log. -/
theorem empty_stream_key_unrecoverable :
    staged.isOk = true ∧ walMutations hashes .empty (fun _ => none) stagedMutations [] = .ok stagedMutations ∧
    ∃ pending, encodeTransaction hashes (plan stagedMutations) = .ok pending ∧
      ∀ records, List.Forall₂ WalRecord.Carries records pending →
        ¬∃ recovered, recoverWalAfter hashes none records = .ok recovered := by
  obtain ⟨pending, hpending, -⟩ := exists_of_any (x := encodeTransaction hashes (plan stagedMutations))
    (fun _ => true) (by decide +kernel)
  refine ⟨rfl, rfl, pending, hpending, ?_⟩
  rintro records hcarries ⟨recovered, hrecovered⟩
  obtain ⟨start, body, commit, rfl, -⟩ := (encodeTransaction_spec hpending).2 _ hcarries
  let transaction : LoggedTransaction hashes := ⟨plan stagedMutations, pending, hpending, start, body, commit, hcarries⟩
  have hrecords : logRecords [Entry.transaction transaction] = start :: (body ++ [commit]) := by
    simp [logRecords, Entry.records, transaction]
  rw [← hrecords] at hrecovered
  have hall := recoverable_of_recoverWalAfter hrecovered
  have hmutations : logMutations [Entry.transaction transaction] = stagedMutations := by
    simp [logMutations, Entry.mutations, transaction, plan]
  rw [hmutations] at hall
  revert hall
  decide

end Hyphae.Runtime
