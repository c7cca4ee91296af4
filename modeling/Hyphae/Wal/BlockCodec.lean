import Hyphae.Wal.Block

/-!
# The block codec

Building a block succeeds for every nonempty group of records that fits, as long as
the block's addresses fit 64 bits, and decoding the bytes it built gives the block
back, records and addresses included.
-/

namespace Hyphae.Wal

open Lib Except List

open WalRecord Digest

variable {hashes : Hashes} {records : List WalRecord}

/-! ## Fields of a block -/

@[simp] theorem length_magic : magic.length = 8 := rfl

@[simp] theorem Digest.length_bytes (digest : Digest) : digest.bytes.length = 32 := digest.size

/-- A record that carries a pending record is far below the 32-bit length limit. -/
theorem WalRecord.Carries.length_lt {record : WalRecord} {pending : PendingRecord} (h : record.Carries pending) :
    walRecordHeaderSize + record.body.length < 2 ^ 32 := by
  have hbody : record.body = pending.body := by rw [h]; rfl
  have := pending.bounded
  simp only [walRecordBodySize] at this
  simp only [hbody, walRecordHeaderSize]
  omega

theorem WalRecord.length_lt_of_carries {pending : List PendingRecord}
    (h : List.Forall₂ WalRecord.Carries records pending) :
    ∀ record ∈ records, walRecordHeaderSize + record.body.length < 2 ^ 32 :=
  ((forall₂_and_left _ _).mp (h.imp fun _ _ hc => ⟨hc.length_lt, hc⟩)).1

theorem WalRecord.ne_nil_of_carries {pending : List PendingRecord} (h : List.Forall₂ WalRecord.Carries records pending)
    (hne : pending ≠ []) : records ≠ [] := by
  intro hnil
  subst hnil
  cases h
  exact hne rfl

namespace WalBlock

section Fields

variable (block : WalBlock) (firstLsn lastLsn : Lsn) {payload checksum digest : Bytes}

theorem overwrite_checksum (new : Bytes) (hchecksum : checksum.length = 4) (hnew : new.length = 4) :
    overwrite (block.fields firstLsn lastLsn payload checksum digest).flatten 44 new =
      (block.fields firstLsn lastLsn payload new digest).flatten := by
  apply overwrite_fieldAt (i := 8)
  · rfl
  · simp [fields]
  · rw [hnew, hchecksum]

theorem overwrite_digest (new : Bytes) (hchecksum : checksum.length = 4) (hdigest : digest.length = 32)
    (hnew : new.length = 32) :
    overwrite (block.fields firstLsn lastLsn payload checksum digest).flatten 80 new =
      (block.fields firstLsn lastLsn payload checksum new).flatten := by
  apply overwrite_fieldAt (i := 10)
  · rfl
  · simp [fields, hchecksum]
  · rw [hnew, hdigest]

theorem length_fields (hchecksum : checksum.length = 4) (hdigest : digest.length = 32)
    (hpayload : payload.length ≤ walBlockPayloadSize) :
    (block.fields firstLsn lastLsn payload checksum digest).flatten.length = walBlockSize := by
  simp only [fields, walBlockSize, walBlockPayloadSize, flatten_cons, flatten_nil, length_append,
    length_leBytes, length_zeros, length_nil, length_magic, Digest.length_bytes, hchecksum, hdigest] at hpayload ⊢
  omega

/-- The checksum of a block does not depend on its checksum and digest fields. -/
theorem blockChecksum_fields (hchecksum : checksum.length = 4) (hdigest : digest.length = 32) :
    blockChecksum hashes (block.fields firstLsn lastLsn payload checksum digest).flatten =
      blockChecksum hashes (block.fields firstLsn lastLsn payload (zeros 4) (zeros 32)).flatten := by
  have spans : ∀ c d : Bytes, c.length = 4 → d.length = 32 →
      ((block.fields firstLsn lastLsn payload c d).flatten.take 44 =
        ((block.fields firstLsn lastLsn payload [] []).take 8).flatten) ∧
      (slice (block.fields firstLsn lastLsn payload c d).flatten 48 80 = block.previousDigest.bytes) ∧
      ((block.fields firstLsn lastLsn payload c d).flatten.drop 112 =
        ((block.fields firstLsn lastLsn payload [] []).drop 11).flatten) := by
    intro c d hc hd
    refine ⟨?_, ?_, ?_⟩
    · rw [take_flatten (i := 8) (by simp [fields])]
      simp [fields]
    · obtain ⟨-, -, -, -, -, -, -, -, -, hprevious, -⟩ := fieldsAt
        (Eq.refl (block.fields firstLsn lastLsn payload c d).flatten) [0, 8, 10, 12, 16, 24, 32, 40, 44, 48, 80]
        (by simp [fields, hc])
      exact hprevious
    · rw [drop_flatten (i := 11) (by simp [fields, hc, hd])]
      simp [fields]
  obtain ⟨hfront, hprevious, hback⟩ := spans checksum digest hchecksum hdigest
  obtain ⟨hfront', hprevious', hback'⟩ := spans (zeros 4) (zeros 32) (length_zeros 4) (length_zeros 32)
  rw [blockChecksum, hfront, hprevious, hback, blockChecksum, hfront', hprevious', hback']

/-- The digest of a block does not depend on its digest field. -/
theorem blockDigest_fields (hchecksum : checksum.length = 4) (hdigest : digest.length = 32) :
    blockDigest hashes (block.fields firstLsn lastLsn payload checksum digest).flatten =
      blockDigest hashes (block.fields firstLsn lastLsn payload checksum (zeros 32)).flatten := by
  have spans : ∀ d : Bytes, d.length = 32 →
      ((block.fields firstLsn lastLsn payload checksum d).flatten.take 80 =
        ((block.fields firstLsn lastLsn payload checksum []).take 10).flatten) ∧
      ((block.fields firstLsn lastLsn payload checksum d).flatten.drop 112 =
        ((block.fields firstLsn lastLsn payload checksum []).drop 11).flatten) := by
    intro d hd
    constructor
    · rw [take_flatten (i := 10) (by simp [fields, hchecksum])]
      simp [fields]
    · rw [drop_flatten (i := 11) (by simp [fields, hchecksum, hd])]
      simp [fields]
  obtain ⟨hfront, hback⟩ := spans digest hdigest
  obtain ⟨hfront', hback'⟩ := spans (zeros 32) (length_zeros 32)
  rw [blockDigest, hfront, hback, blockDigest, hfront', hback']

end Fields

/-! ## Building -/

/-- The encoded records of a block. -/
def payload (hashes : Hashes) (records : List WalRecord) : Bytes := (records.map (WalRecord.bytes hashes)).flatten

theorem length_payload (hashes : Hashes) (records : List WalRecord) :
    (payload hashes records).length = recordsSize records := by
  induction records with
  | nil => rfl
  | cons record records ih => simp_all [payload]

/-- What a built block is: its records stand at their addresses, and its bytes are
its fields under the checksum and the digest of those very bytes. -/
structure Built (hashes : Hashes) (sequence : Nat) (previousDigest : Digest) (pending : List PendingRecord)
    (block : WalBlock) (encoded : Bytes) : Prop where
  sequence_eq : block.sequence = sequence
  previous_eq : block.previousDigest = previousDigest
  sequence_pos : 0 < sequence
  address : (sequence - 1) * walBlockSize < 2 ^ 64
  nonempty : block.records ≠ []
  placed : Placed ((sequence - 1) * walBlockSize) 0 block.records
  carries : List.Forall₂ WalRecord.Carries block.records pending
  fits : recordsSize block.records ≤ walBlockPayloadSize
  digest_eq : block.digest = blockDigest hashes encoded
  encoded_eq : ∃ firstLsn lastLsn, block.records.head?.map WalRecord.lsn = some firstLsn ∧
    block.records.getLast?.map WalRecord.lsn = some lastLsn ∧
    encoded = (block.fields firstLsn lastLsn (payload hashes block.records)
      (leBytes 4 (blockChecksum hashes encoded).toNat) block.digest.bytes).flatten

theorem encodeWithZeroDigest_eq_ok (hashes : Hashes) (block : WalBlock) (hne : block.records ≠ [])
    (hlt : ∀ record ∈ block.records, walRecordHeaderSize + record.body.length < 2 ^ 32)
    (hfits : recordsSize block.records ≤ walBlockPayloadSize) :
    ∃ firstLsn lastLsn, block.records.head?.map WalRecord.lsn = some firstLsn ∧
      block.records.getLast?.map WalRecord.lsn = some lastLsn ∧
      block.encodeWithZeroDigest hashes = .ok (block.fields firstLsn lastLsn (payload hashes block.records)
        (leBytes 4 (blockChecksum hashes
          (block.fields firstLsn lastLsn (payload hashes block.records) (zeros 4) (zeros 32)).flatten).toNat)
        (zeros 32)).flatten := by
  have hlen := length_payload hashes block.records
  have hmap : block.records.mapM (WalRecord.encode hashes) = .ok (block.records.map (WalRecord.bytes hashes)) :=
    mapM_eq_ok fun record hr => WalRecord.encode_eq_ok (hlt record hr)
  have hsize : (payload hashes block.records).length < 2 ^ 32 := by
    simp only [walBlockPayloadSize] at hfits
    omega
  refine ⟨(block.records.head hne).lsn, (block.records.getLast hne).lsn, ?_, ?_, ?_⟩
  · rw [head?_eq_some_head hne, Option.map_some]
  · rw [getLast?_eq_some_getLast hne, Option.map_some]
  · simp only [encodeWithZeroDigest, bind_eq_ok, failIf_eq_ok, okOr_eq_ok,
      head?_eq_some_head hne, getLast?_eq_some_getLast hne, Option.map_some]
    refine ⟨(), hne, _, hmap, (), ?_, _, rfl, _, rfl, (), ?_, ?_⟩
    · exact Nat.not_lt.mpr (hlen.trans_le hfits)
    · exact Nat.not_le.mpr hsize
    · exact congrArg ok (overwrite_checksum block _ _ _ (length_zeros 4) (length_leBytes 4 _))

theorem built_of_buildEncoded {sequence : Nat} {previousDigest : Digest} {pending : List PendingRecord}
    {block : WalBlock} {encoded : Bytes}
    (h : buildEncoded hashes sequence previousDigest pending = .ok (block, encoded)) :
    Built hashes sequence previousDigest pending block encoded := by
  simp only [buildEncoded, bind_eq_ok, failIf_eq_ok, blockOffset_eq_ok, ok.injEq, Prod.mk.injEq] at h
  obtain ⟨-, hpos, -, hne, offset, ⟨-, haddress, rfl⟩, records, hassign, bytes, hencode, hblock, hencoded⟩ := h
  obtain ⟨hplaced, hcarries, hsize, hbound⟩ := assignLsns_eq_ok hassign
  have hrecords := ne_nil_of_carries hcarries hne
  have hfits : recordsSize records ≤ walBlockPayloadSize := by
    have := hbound hne
    omega
  obtain ⟨firstLsn, lastLsn, hfirst, hlast, henc⟩ := encodeWithZeroDigest_eq_ok hashes
    ⟨sequence, previousDigest, zero, records⟩ hrecords (length_lt_of_carries hcarries) hfits
  have hbytes := ok.inj (hencode.symm.trans henc)
  rw [hbytes, overwrite_digest _ _ _ _ (length_leBytes 4 _) (length_zeros 32) (length_bytes _)] at hencoded
  rw [hbytes] at hblock
  subst hblock hencoded
  exact
    { sequence_eq := rfl
      previous_eq := rfl
      sequence_pos := Nat.pos_of_ne_zero hpos
      address := haddress
      nonempty := hrecords
      placed := hplaced
      carries := hcarries
      fits := hfits
      digest_eq := (blockDigest_fields _ _ _ (length_leBytes 4 _) (length_bytes _)).symm
      -- the checksum field does not enter what it covers
      encoded_eq := ⟨firstLsn, lastLsn, hfirst, hlast,
        congrArg (fun c : UInt32 => (WalBlock.fields _ firstLsn lastLsn _ (leBytes 4 c.toNat) _).flatten)
          (blockChecksum_fields _ _ _ (length_leBytes 4 _) (length_bytes _)).symm⟩ }

/-- A nonempty group that fits is built into a block wherever the block's addresses fit. -/
theorem buildEncoded_ok {sequence : Nat} (previousDigest : Digest) {pending : List PendingRecord}
    (hpos : 0 < sequence) (haddress : sequence * walBlockSize ≤ 2 ^ 64) (hne : pending ≠ [])
    (hfits : pendingSize pending ≤ walBlockPayloadSize) :
    ∃ block encoded, buildEncoded hashes sequence previousDigest pending = .ok (block, encoded) := by
  have hoffset : (sequence - 1) * walBlockSize + walBlockSize = sequence * walBlockSize := by
    rw [← Nat.succ_mul, Nat.succ_eq_add_one, Nat.sub_add_cancel hpos]
  obtain ⟨records, hassign⟩ := assignLsns_ok (hoffset.trans_le haddress) ((Nat.zero_add _).trans_le hfits)
  obtain ⟨-, hcarries, hsize, -⟩ := assignLsns_eq_ok hassign
  have hrecords := ne_nil_of_carries hcarries hne
  obtain ⟨firstLsn, lastLsn, -, -, henc⟩ := encodeWithZeroDigest_eq_ok hashes
    ⟨sequence, previousDigest, zero, records⟩ hrecords (length_lt_of_carries hcarries)
    (hsize.trans_le hfits)
  have hblock : blockOffset sequence = .ok ((sequence - 1) * walBlockSize) := by
    rw [blockOffset_eq_ok]
    refine ⟨hpos, ?_, rfl⟩
    simp only [walBlockSize] at hoffset haddress ⊢
    omega
  simp only [buildEncoded, hblock, hassign, henc, ok_bind, failIf_of_not hpos.ne', failIf_of_not hne]
  exact ⟨_, _, rfl⟩

/-! ## Decoding -/

/-- The decoder reads back records that stand at their addresses in the payload. -/
theorem decodeRecordsFrom_eq_ok {offset payloadOffset : Nat} {encoded rest : Bytes}
    (hplaced : Placed offset payloadOffset records)
    (hlt : ∀ record ∈ records, walRecordHeaderSize + record.body.length < 2 ^ 32)
    (hencoded : encoded.drop (walBlockHeaderSize + payloadOffset) = payload hashes records ++ rest) :
    decodeRecordsFrom hashes offset (payloadOffset + recordsSize records) encoded payloadOffset = .ok records := by
  induction records generalizing payloadOffset with
  | nil =>
    rw [decodeRecordsFrom, recordsSize_nil, if_neg (by omega)]
  | cons record records ih =>
    obtain ⟨hlsn, hplaced⟩ := hplaced
    obtain ⟨hrecord, hrecords⟩ := forall_mem_cons.mp hlt
    have hlen := record.length_bytes hashes
    have hfront : encoded.drop (walBlockHeaderSize + payloadOffset) =
        record.bytes hashes ++ (payload hashes records ++ rest) := by
      rw [hencoded]
      simp [payload]
    -- the record's own bytes, and the length field at their front
    have hbytes : slice encoded (walBlockHeaderSize + payloadOffset)
        (walBlockHeaderSize + payloadOffset + (walRecordHeaderSize + record.body.length)) = record.bytes hashes := by
      rw [slice, drop_take, hfront, Nat.add_sub_cancel_left, ← hlen, take_left]
    have htotal : ofLe (slice encoded (walBlockHeaderSize + payloadOffset) (walBlockHeaderSize + payloadOffset + 4)) =
        walRecordHeaderSize + record.body.length := by
      have : (record.bytes hashes).take 4 = leBytes 4 (walRecordHeaderSize + record.body.length) := by
        rw [WalRecord.bytes, take_flatten (i := 1) (by simp [WalRecord.fields])]
        simp [WalRecord.fields]
      rw [slice, drop_take, hfront, Nat.add_sub_cancel_left, take_append_of_le_length, this, ofLe_leBytes (by omega)]
      rw [hlen, walRecordHeaderSize]
      omega
    have hnext := ih hplaced hrecords (by
      rw [← Nat.add_assoc, ← drop_drop, hfront, ← hlen, drop_left])
    rw [decodeRecordsFrom, recordsSize_cons, if_pos (by simp only [walRecordHeaderSize]; omega)]
    simp only [htotal, hbytes]
    rw [if_neg (by omega), dif_neg (by omega), recordLsn_eq_ok.mpr hlsn, ok_bind,
      WalRecord.decode_bytes hrecord, ok_bind, ← Nat.add_assoc, hnext]
    rfl

section Built

variable {sequence : Nat} {previousDigest : Digest} {pending : List PendingRecord} {block : WalBlock} {encoded : Bytes}

section

variable (h : Built hashes sequence previousDigest pending block encoded)
include h

theorem Built.length_encoded : encoded.length = walBlockSize := by
  obtain ⟨firstLsn, lastLsn, -, -, hencoded⟩ := h.encoded_eq
  rw [hencoded]
  apply length_fields _ _ _ (length_leBytes 4 _) (length_bytes _)
  exact (length_payload hashes block.records).trans_le h.fits

/-- What the checks of the decoder read in a built block. -/
theorem Built.decodeBlockHeader_eq_ok (hsequence : sequence < 2 ^ 64) :
    decodeBlockHeader hashes sequence previousDigest encoded = .ok (recordsSize block.records, block.digest) := by
  obtain ⟨firstLsn, lastLsn, -, -, hencoded⟩ := h.encoded_eq
  have hlen := length_payload hashes block.records
  have hfits := h.fits
  have hsize : 0 < recordsSize block.records := by
    obtain ⟨record, records, hrecords⟩ := exists_cons_of_ne_nil h.nonempty
    simp only [hrecords, recordsSize_cons, walRecordHeaderSize]
    omega
  have hsum := (blockChecksum hashes encoded).toNat_lt
  generalize hchecksum : blockChecksum hashes encoded = checksum at hencoded hsum
  obtain ⟨hmagic, hversion, hheader, hzero, hseq, -, -, hlength, hcrc, hprevious, hdigest, -⟩ :=
    fieldsAt hencoded [0, 8, 10, 12, 16, 24, 32, 40, 44, 48, 80, 112] (by simp [fields])
  have hpadding : encoded.drop (walBlockHeaderSize + recordsSize block.records) =
      zeros (walBlockPayloadSize - (payload hashes block.records).length) := by
    rw [hencoded, drop_flatten (i := 12) (by simp [fields, hlen, walBlockHeaderSize]; omega)]
    simp [fields]
  simp only [decodeBlockHeader, hmagic, hversion, hheader, hzero, hseq, hlength, hcrc, hprevious, hdigest, hchecksum,
    h.length_encoded, ← h.digest_eq, hlen]
  rw [ofLe_leBytes (by decide), ofLe_leBytes (by decide), ofLe_leBytes (by rw [h.sequence_eq]; omega),
    ofLe_leBytes (by simp only [walBlockPayloadSize] at hfits; omega), ofLe_leBytes (by omega), hpadding]
  rw [failIf_bind (by simp), failIf_bind (by simp), failIf_bind (by simp), failIf_bind (by simp [zeros]),
    failIf_bind (by simp [h.sequence_eq]),
    failIf_bind (by simp [h.previous_eq]), failIf_bind (by omega),
    failIf_bind (by omega), failIf_bind (by simp [zeros]),
    failIf_bind (by simp), failIf_bind (by simp)]

theorem Built.validateBlockRecordRange_eq_ok : validateBlockRecordRange block.records encoded = .ok () := by
  obtain ⟨firstLsn, lastLsn, hfirst, hlast, hencoded⟩ := h.encoded_eq
  obtain ⟨-, -, -, -, -, hfirstField, hlastField, -⟩ :=
    fieldsAt hencoded [0, 8, 10, 12, 16, 24, 32, 40] (by simp [fields])
  have hfirstLt := firstLsn.lt
  have hlastLt := lastLsn.lt
  simp only [validateBlockRecordRange, hfirst, hlast, hfirstField, hlastField]
  rw [ofLe_leBytes (by omega), ofLe_leBytes (by omega)]
  simp [okOr]

/-- Decoding a built block gives it back. -/
theorem Built.decode_eq_ok (hsequence : sequence < 2 ^ 64) :
    decode hashes sequence previousDigest encoded = .ok block := by
  obtain ⟨firstLsn, lastLsn, -, -, hencoded⟩ := h.encoded_eq
  have hoffset : blockOffset sequence = .ok ((sequence - 1) * walBlockSize) :=
    blockOffset_eq_ok.mpr ⟨h.sequence_pos, h.address, rfl⟩
  have hpayload : ∃ rest, encoded.drop (walBlockHeaderSize + 0) = payload hashes block.records ++ rest := by
    refine ⟨zeros (walBlockPayloadSize - (payload hashes block.records).length), ?_⟩
    rw [hencoded, drop_flatten (i := 11) (by simp [fields, walBlockHeaderSize])]
    simp [fields]
  obtain ⟨rest, hrest⟩ := hpayload
  have hrecords := decodeRecordsFrom_eq_ok h.placed (length_lt_of_carries h.carries) hrest
  rw [Nat.zero_add] at hrecords
  rw [decode, h.decodeBlockHeader_eq_ok hsequence, ok_bind]
  simp only [decodeBlockRecords, hoffset, ok_bind, hrecords, h.validateBlockRecordRange_eq_ok]
  rw [← h.sequence_eq, ← h.previous_eq]

end

end Built

end WalBlock

end Hyphae.Wal
