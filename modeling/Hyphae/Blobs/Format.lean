import Hyphae.Wal.Record

/-!
# Blob files

A blob is named by the digest of its content. Its file is an 80-byte header and the
content; the header repeats the identity, the length and the digest, and carries a
checksum over everything but the checksum itself. A decoder accepts a file only when
the content gives back the reference in its header.
-/

namespace Hyphae.Blobs

open Lib Except

open Wal (Hashes Digest zeros length_zeros)

variable {content : Bytes}

/-- Fixed blob-file header before content bytes. -/
def blobHeaderSize : Nat := 80

/-- Maximum blob accepted by the first bounded implementation. -/
def maxBlobSize : Nat := 1073741824

/-- `HYBLOB01` -/
def blobMagic : Bytes := [72, 89, 66, 76, 79, 66, 48, 49]

def blobFormatVersion : Nat := 1

/-- Stable blob identity. -/
abbrev BlobId := NonZeroUInt 128

/-- Immutable content reference. -/
structure BlobReference where
  id : BlobId
  logicalLength : Nat
  digest : Digest
  deriving DecidableEq

variable {reference : BlobReference}

/-- Blob format, staging, publication, or recovery failure. -/
inductive BlobError
  | io
  | identity
  | tooLarge (actual : Nat)
  | invalidPreamble
  | invalidLength
  | checksumMismatch
  | identityMismatch
  | unexpectedDirectoryEntry
  | publicationTargetExists
  | identityCollision
  | referenceOutsideBoundary (id : BlobId)
  | generationExhausted
  | inconsistentGeneration
  deriving DecidableEq

/-- The first 16 bytes of the digest; one in place of zero. -/
def blobIdOf (digest : Digest) : BlobId :=
  if h : ofLe (digest.bytes.take 16) = 0 then ⟨1, by norm_num, by norm_num⟩
  else ⟨ofLe (digest.bytes.take 16), Nat.pos_of_ne_zero h, by
    have hlt := ofLe_lt (digest.bytes.take 16)
    have hlen : (digest.bytes.take 16).length = 16 := by simp [digest.size]
    rw [hlen] at hlt
    exact hlt.trans_eq (by norm_num)⟩

section Codec

variable (hashes : Hashes)

def referenceFor (content : Bytes) : Except BlobError BlobReference :=
  if content.length > maxBlobSize then .error (.tooLarge content.length)
  else .ok ⟨blobIdOf (hashes.blake3 content), content.length, hashes.blake3 content⟩

theorem referenceFor_eq_ok :
    referenceFor hashes content = .ok reference ↔
      content.length ≤ maxBlobSize ∧
        reference = ⟨blobIdOf (hashes.blake3 content), content.length, hashes.blake3 content⟩ := by
  unfold referenceFor
  split
  · rename_i h
    simp [Nat.not_le.mpr h]
  · rename_i h
    simp [Nat.not_lt.mp h, eq_comm]

/-- The checksum of a blob file, taken with the checksum field zeroed. -/
def blobChecksum (encoded : Bytes) : UInt32 := hashes.crc32c (overwrite encoded 40 (zeros 4))

/-- The fields of a blob file in physical order. -/
def blobFields (reference : BlobReference) (checksum content : Bytes) : List Bytes :=
  [blobMagic, leBytes 2 blobFormatVersion, leBytes 2 blobHeaderSize, zeros 4, leBytes 16 reference.id.get,
    leBytes 8 reference.logicalLength, checksum, zeros 4, reference.digest.bytes, content]

def encodeBlob (reference : BlobReference) (content : Bytes) : Except BlobError Bytes := do
  .failIf
    (content.length > maxBlobSize ∨ content.length ≠ reference.logicalLength ∨
      hashes.blake3 content ≠ reference.digest ∨ referenceFor hashes content ≠ .ok reference)
    .identityMismatch
  let encoded := (blobFields reference (zeros 4) content).flatten
  .ok (overwrite encoded 40 (leBytes 4 (blobChecksum hashes encoded).toNat))

def decodeBlob (encoded : Bytes) : Except BlobError (BlobReference × Bytes) := do
  .failIf (encoded.length < blobHeaderSize) .invalidLength
  .failIf
    (slice encoded 0 8 ≠ blobMagic ∨ ofLe (slice encoded 8 10) ≠ blobFormatVersion ∨
      ofLe (slice encoded 10 12) ≠ blobHeaderSize ∨ (∃ byte ∈ slice encoded 12 16, byte ≠ 0) ∨
      ∃ byte ∈ slice encoded 44 48, byte ≠ 0)
    .invalidPreamble
  let logicalLength := ofLe (slice encoded 32 40)
  .failIf (logicalLength > maxBlobSize ∨ encoded.length ≠ blobHeaderSize + logicalLength) .invalidLength
  .failIf ((blobChecksum hashes encoded).toNat ≠ ofLe (slice encoded 40 44)) .checksumMismatch
  let id ← .okOr (NonZeroUInt.new 128 (ofLe (slice encoded 16 32))) .identity
  let content := encoded.drop blobHeaderSize
  let found ← referenceFor hashes content
  .failIf (found.id ≠ id ∨ found.logicalLength ≠ logicalLength ∨ found.digest.bytes ≠ slice encoded 48 80)
    .identityMismatch
  .ok (found, content)

/-! ## What is encoded is decoded -/

/-- Writing the checksum field leaves every other field as it is. -/
theorem overwrite_blobFields (reference : BlobReference) (content : Bytes) {old new : Bytes} (hold : old.length = 4)
    (hnew : new.length = 4) :
    overwrite (blobFields reference old content).flatten 40 new = (blobFields reference new content).flatten := by
  apply overwrite_fieldAt (i := 6)
  · rfl
  · simp [blobFields, blobMagic]
  · rw [hnew, hold]

theorem blobChecksum_fields (reference : BlobReference) (content : Bytes) {checksum : Bytes} (h : checksum.length = 4) :
    blobChecksum hashes (blobFields reference checksum content).flatten =
      blobChecksum hashes (blobFields reference (zeros 4) content).flatten := by
  rw [blobChecksum, overwrite_blobFields reference content h (length_zeros 4), blobChecksum,
    overwrite_blobFields reference content (length_zeros 4) (length_zeros 4)]

theorem encodeBlob_eq_ok (h : referenceFor hashes content = .ok reference) :
    ∃ checksum : UInt32, checksum = blobChecksum hashes (blobFields reference
      (leBytes 4 checksum.toNat) content).flatten ∧
      encodeBlob hashes reference content = .ok (blobFields reference (leBytes 4 checksum.toNat) content).flatten := by
  obtain ⟨hsize, hreference⟩ := (referenceFor_eq_ok hashes).mp h
  refine ⟨blobChecksum hashes (blobFields reference (zeros 4) content).flatten, ?_, ?_⟩
  · exact (blobChecksum_fields hashes reference content (length_leBytes 4 _)).symm
  · rw [encodeBlob, failIf_of_not, ok_bind]
    · exact congrArg ok (overwrite_blobFields reference content (length_zeros 4) (length_leBytes 4 _))
    · rintro (hlong | hlen | hdigest | href)
      · omega
      · exact hlen (by rw [hreference])
      · exact hdigest (by rw [hreference])
      · exact href h

/-- The file of a content decodes to its reference and the content. -/
theorem decodeBlob_encodeBlob (h : referenceFor hashes content = .ok reference) :
    ∃ encoded, encodeBlob hashes reference content = .ok encoded ∧
      decodeBlob hashes encoded = .ok (reference, content) := by
  obtain ⟨checksum, hchecksum, hencoded⟩ := encodeBlob_eq_ok hashes h
  obtain ⟨hsize, hreference⟩ := (referenceFor_eq_ok hashes).mp h
  have hdigestSize := reference.digest.size
  have hlength : reference.logicalLength = content.length := by rw [hreference]
  refine ⟨_, hencoded, ?_⟩
  generalize hbytes : (blobFields reference (leBytes 4 checksum.toNat) content).flatten = encoded at hchecksum
  -- every slice the decoder takes is one field
  obtain ⟨hmagic, hversion, hheader, hzero, hid, hlen, hcrc, hzero', hdigest, -⟩ :=
    fieldsAt hbytes.symm [0, 8, 10, 12, 16, 32, 40, 44, 48, 80] (by simp [blobFields, blobMagic, hdigestSize])
  have hcontent : encoded.drop blobHeaderSize = content := by
    rw [← hbytes, drop_flatten (i := 9) (by simp [blobFields, blobMagic, blobHeaderSize, hdigestSize])]
    simp [blobFields]
  have htotal : encoded.length = blobHeaderSize + content.length := by
    rw [← hbytes]
    simp [blobFields, blobMagic, blobHeaderSize, hdigestSize]
    omega
  have hidLt := reference.id.lt
  have hsum := checksum.toNat_lt
  have hfits : content.length < 256 ^ 8 := by
    simp only [maxBlobSize] at hsize
    omega
  simp only [decodeBlob, hmagic, hversion, hheader, hzero, hid, hlen, hcrc, hzero', hdigest, hcontent, htotal, hlength,
    ← hchecksum, h]
  rw [ofLe_leBytes (by norm_num [blobFormatVersion]), ofLe_leBytes (by norm_num [blobHeaderSize]), ofLe_leBytes hfits,
    ofLe_leBytes (by omega), ofLe_leBytes (by omega)]
  rw [failIf_bind (by omega), failIf_bind (by simp [zeros]), failIf_bind (by omega), failIf_bind (by simp)]
  simp [okOr, hlength, failIf]

/-- What decodes has the reference of its content. -/
theorem referenceFor_of_decodeBlob {encoded : Bytes} (h : decodeBlob hashes encoded = .ok (reference, content)) :
    referenceFor hashes content = .ok reference := by
  simp only [decodeBlob, bind_eq_ok, ok.injEq, Prod.mk.injEq] at h
  obtain ⟨_, -, _, -, _, -, _, -, _, -, found, hfound, _, -, rfl, rfl⟩ := h
  exact hfound

end Codec

end Hyphae.Blobs
