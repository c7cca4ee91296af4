import Hyphae.Blobs.Format
import Hyphae.Lib.Durable
import Hyphae.Runtime.ConflictKeys

/-!
# The blob store

Content is staged under a temporary name and promoted into the immutable namespace by
a rename. A stage whose final file exists reuses it, whoever wrote it. The files and
the two directories are part of the state. Any operation on the disk may fail, with or
without its effect, and the process may stop at it.
-/

namespace Hyphae.Blobs

open Lib

open Wal (Hashes Digest)
open Hyphae.Runtime (Mutation Opcode DurabilityClass)

theorem digest_bytes_injective : Function.Injective Digest.bytes := by
  rintro ⟨a, ha⟩ ⟨b, hb⟩ rfl
  rfl

instance : LinearOrder Digest := LinearOrder.lift' Digest.bytes digest_bytes_injective

/-- One verified blob namespace, as its handle knows it. -/
structure BlobStore where
  blobs : OrderedMap BlobId BlobReference
  committedGenerationFloor : Nat
  generation : Nat
  recoveredTemporaryFiles : Nat

/-- What becomes of an operation on the disk. One that fails, or at which the process stops, has made some progress. -/
inductive DiskOutcome
  | done
  | failed (progress : Nat)
  | stopped (progress : Nat)

/-- The handle, the directories `blobs` and `tmp/blobs` by the digest in the file name, and what becomes of the next
operations on the disk. -/
structure BlobSpace where
  store : BlobStore
  blobsDirectory : Directory Digest
  temporaryDirectory : Directory Digest
  outcomes : List DiskOutcome

/-- Why an operation ends early: with an error, or with the process. -/
inductive BlobFault
  | blob (error : BlobError)
  | stopped
  deriving DecidableEq

/-- An operation on the namespace. -/
abbrev BlobM (α : Type) := EStateM BlobFault BlobSpace α

/-- A check or a codec that touches no file. -/
def lift {α : Type} (x : Except BlobError α) : BlobM α := EStateM.ofExcept (x.mapError .blob)

/-- One operation on the disk, with what it changes when it gets only so far. -/
def touchPartly (change : BlobSpace → BlobSpace) (partly : Nat → BlobSpace → BlobSpace) : BlobM Unit := do
  let space ← get
  let next := { space with outcomes := space.outcomes.tail }
  match space.outcomes.head? with
  | none | some .done => set (change next)
  | some (.failed progress) => do
    set (partly progress next)
    throw (.blob .io)
  | some (.stopped progress) => do
    set (partly progress next)
    throw .stopped

/-- One operation on the disk that is done whole or not at all. -/
def touch (change : BlobSpace → BlobSpace) : BlobM Unit :=
  touchPartly change fun progress => if progress = 0 then id else change

/-- An operation on the disk made only for a synchronized commit. -/
def touchIf (synchronize : Bool) (change : BlobSpace → BlobSpace) : BlobM Unit :=
  if synchronize then touch change else pure ()

/-- A create-new blob stage that is not visible from the final namespace, or a final file found to be the same. -/
structure StagedBlob where
  reference : BlobReference
  temporary : Bool
  deriving DecidableEq

def writeTemporary (name : Digest) (file : File) (space : BlobSpace) : BlobSpace :=
  { space with temporaryDirectory := space.temporaryDirectory.write name file }

/-- `fs::rename` from the temporary to the final name. -/
def promoteFile (name : Digest) (file : File) (space : BlobSpace) : BlobSpace :=
  { space with
    blobsDirectory := space.blobsDirectory.write name file
    temporaryDirectory := space.temporaryDirectory.remove name }

def syncBlobs (space : BlobSpace) : BlobSpace := { space with blobsDirectory := space.blobsDirectory.sync }

def syncTemporary (space : BlobSpace) : BlobSpace := { space with temporaryDirectory := space.temporaryDirectory.sync }

section Operations

variable (hashes : Hashes)

/-! ## Staging -/

/-- Existing final content is verified and reused. -/
def stageExisting (reference : BlobReference) (file : File) : BlobM StagedBlob := do
  touch id
  let found ← lift (decodeBlob hashes file.bytes)
  lift (.failIf (found.1 ≠ reference) .identityMismatch)
  pure ⟨reference, false⟩

/-- New content goes to a create-new temporary file. -/
def stageNew (reference : BlobReference) (content : Bytes) (synchronize : Bool) : BlobM StagedBlob := do
  let space ← get
  lift (.failIf ((space.store.blobs.get reference.id).any (· ≠ reference)) .identityCollision)
  lift (.failIf (space.temporaryDirectory.current.get reference.digest).isSome .publicationTargetExists)
  let encoded ← lift (encodeBlob hashes reference content)
  touch (writeTemporary reference.digest ⟨[], false⟩)
  touchPartly (writeTemporary reference.digest ⟨encoded, false⟩) fun progress =>
    writeTemporary reference.digest ⟨encoded.take progress, false⟩
  touchIf synchronize (writeTemporary reference.digest ⟨encoded, true⟩)
  pure ⟨reference, true⟩

def stage (content : Bytes) (synchronize : Bool) : BlobM StagedBlob := do
  let reference ← lift (referenceFor hashes content)
  let space ← get
  match space.blobsDirectory.current.get reference.digest with
  | some file => stageExisting hashes reference file
  | none => stageNew hashes reference content synchronize

/-! ## Publication -/

/-- Adds the reference; `false` when it is there already. -/
def insertReference (blobs : OrderedMap BlobId BlobReference) (reference : BlobReference) :
    Except BlobError (OrderedMap BlobId BlobReference × Bool) :=
  match blobs.get reference.id with
  | some current => if current ≠ reference then .error .identityCollision else .ok (blobs, false)
  | none => .ok (blobs.insert reference.id reference, true)

/-- Moves the temporary file into the immutable namespace. -/
def promote (staged : StagedBlob) (synchronize : Bool) : BlobM Unit := do
  let space ← get
  lift (.failIf (space.blobsDirectory.current.get staged.reference.digest).isSome .publicationTargetExists)
  match space.temporaryDirectory.current.get staged.reference.digest with
  | none => throw (.blob .io)
  | some file => do
    touch (promoteFile staged.reference.digest file)
    touchIf synchronize syncBlobs
    touchIf synchronize syncTemporary

/-- Whether the reference is new, and the generation after it. -/
def nextGeneration (store : BlobStore) (reference : BlobReference) : Except BlobError (Bool × Nat) :=
  match store.blobs.get reference.id with
  | some current => if current ≠ reference then .error .identityCollision else .ok (false, store.generation)
  | none => (Except.okOr (checkedAdd store.generation 1) .generationExhausted).map fun next => (true, next)

/-- The handle learns the reference. -/
def enroll (reference : BlobReference) (isNew : Bool) (generation : Nat) : BlobM BlobReference := do
  let space ← get
  let inserted ← lift (insertReference space.store.blobs reference)
  lift (.failIf (inserted.2 ≠ isNew) .identityCollision)
  set { space with store := { space.store with blobs := inserted.1, generation } }
  pure reference

def publish (staged : StagedBlob) (synchronize : Bool) : BlobM BlobReference := do
  let space ← get
  let next ← lift (nextGeneration space.store staged.reference)
  if staged.temporary then promote staged synchronize else pure ()
  enroll staged.reference next.1 next.2

/-! ## Reading and opening -/

def read (space : BlobSpace) (reference : BlobReference) : Except BlobError Bytes := do
  .failIf (space.store.blobs.get reference.id ≠ some reference) (.referenceOutsideBoundary reference.id)
  let file ← .okOr (space.blobsDirectory.current.get reference.digest) .io
  let found ← decodeBlob hashes file.bytes
  .failIf (found.1 ≠ reference) .identityMismatch
  .ok found.2

/-- Verifies one final file. -/
def loadEntry (blobs : OrderedMap BlobId BlobReference) (entry : Digest × File) :
    Except BlobError (OrderedMap BlobId BlobReference) := do
  let found ← decodeBlob hashes entry.2.bytes
  .failIf (found.1.digest ≠ entry.1) .identityMismatch
  let inserted ← insertReference blobs found.1
  .ok inserted.1

/-- Verifies every immutable blob, then removes the temporary files. The directory of the immutable blobs is not
synchronized. -/
def openWithGenerationFloor (blobsDirectory temporaryDirectory : Directory Digest) (committedGenerationFloor : Nat) :
    Except BlobError BlobSpace := do
  let blobs ← blobsDirectory.current.entries.foldlM (loadEntry hashes) OrderedMap.empty
  let recoveredTemporaryFiles := temporaryDirectory.current.entries.length
  .ok {
    store := {
      blobs
      committedGenerationFloor
      generation := max committedGenerationFloor blobs.entries.length
      recoveredTemporaryFiles }
    blobsDirectory
    temporaryDirectory := if recoveredTemporaryFiles = 0 then temporaryDirectory else .ofImage OrderedMap.empty
    outcomes := [] }

/-! ## The blobs of a commit -/

/-- `CATALOG_`, `RELATIONAL_`, `STRUCTURE_` and `SEARCH_INLINE_VALUE_LIMIT`. -/
def inlineValueLimit : Nat := 8192

/-- Whether the value of a mutation goes to the blob store. -/
def isLarge (mutation : Mutation) : Bool :=
  decide (mutation.value.length > inlineValueLimit) &&
    match mutation.engine, mutation.opcode with
    | .relational, .insertRow | .relational, .updateRow => true
    | .structure, .setValue | .structure, .expireValue | .structure, .setHashField | .structure, .pushListHead
    | .structure, .pushListTail | .structure, .popListHead | .structure, .popListTail => true
    | .search, .indexDocument | .search, .replaceDocument => true
    | _, _ => false

/-- The values of a batch that go to the blob store: encoded definitions of the catalog objects it writes, then the
values of its mutations. -/
def largeValues (definitions : List Bytes) (mutations : List Mutation) : List Bytes :=
  definitions.filter (fun definition => definition.length > inlineValueLimit) ++
    (mutations.filter isLarge).map Mutation.value

def stageBlobValue (synchronize : Bool) (staged : OrderedMap Digest StagedBlob) (value : Bytes) :
    BlobM (OrderedMap Digest StagedBlob) :=
  match staged.get (hashes.blake3 value) with
  | some _ => pure staged
  | none => do
    let blob ← stage hashes value synchronize
    pure (staged.insert (hashes.blake3 value) blob)

def stageLargeValues (values : List Bytes) (synchronize : Bool) : BlobM (OrderedMap Digest StagedBlob) :=
  values.foldlM (stageBlobValue hashes synchronize) OrderedMap.empty

def publishStagedBlob (synchronize : Bool) (references : OrderedMap Digest BlobReference)
    (entry : Digest × StagedBlob) : BlobM (OrderedMap Digest BlobReference) := do
  let reference ← publish entry.2 synchronize
  pure (references.insert entry.1 reference)

def publishStagedBlobs (staged : OrderedMap Digest StagedBlob) (synchronize : Bool) :
    BlobM (OrderedMap Digest BlobReference) :=
  staged.entries.foldlM (publishStagedBlob synchronize) OrderedMap.empty

/-- What a commit does in the blob store before it writes pages and log. -/
def commitBlobs (durability : DurabilityClass) (values : List Bytes) : BlobM (OrderedMap Digest BlobReference) := do
  let synchronize := decide (durability ≠ .memory)
  let staged ← stageLargeValues hashes values synchronize
  publishStagedBlobs staged synchronize

end Operations

end Hyphae.Blobs
