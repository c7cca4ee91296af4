import Hyphae.Wal.Chain

/-!
# Appending extends the chain

Whatever the device does, an append leaves the file as it was, the complete blocks
of its first groups, and at most one torn block. An append that succeeds leaves the
blocks of all its groups, which together hold its records in order.
-/

namespace Hyphae.Wal

open Lib EStateM List

open Except
open WalBlock (buildEncoded build built_of_buildEncoded receipt)

variable {hashes : Hashes} {records : List PendingRecord} {block : WalBlock} {encoded : Bytes}

/-! ## Packing -/

/-- A group of records one block can hold. -/
def FitsBlock (group : List PendingRecord) : Prop := group ≠ [] ∧ pendingSize group ≤ walBlockPayloadSize

theorem pendingSize_append (xs ys : List PendingRecord) : pendingSize (xs ++ ys) = pendingSize xs + pendingSize ys := by
  simp [pendingSize]

theorem PendingRecord.encodedLength_le (record : PendingRecord) : record.encodedLength ≤ walBlockPayloadSize := by
  have := record.bounded
  simp only [walRecordBodySize, encodedLength, walRecordHeaderSize, walBlockPayloadSize] at this ⊢
  omega

/-- The packing loop keeps every record in order and fills only groups that fit. -/
theorem packRecords_eq_ok {groups : List (List PendingRecord)} {current : List PendingRecord} {currentBytes : Nat}
    (hgroups : ∀ group ∈ groups, FitsBlock group) (hcurrent : pendingSize current = currentBytes)
    (hbytes : currentBytes ≤ walBlockPayloadSize) :
    ∃ packed, packRecords groups current currentBytes records = .ok packed ∧ (∀ group ∈ packed, FitsBlock group) ∧
      packed.flatten = groups.flatten ++ current ++ records := by
  induction records generalizing groups current currentBytes with
  | nil =>
    by_cases hnil : current = []
    · subst hnil
      exact ⟨groups, rfl, hgroups, by simp⟩
    · refine ⟨groups ++ [current], by rw [packRecords, if_neg hnil], ?_, by simp⟩
      exact forall_mem_append.mpr ⟨hgroups, forall_mem_singleton.mpr ⟨hnil, hcurrent.trans_le hbytes⟩⟩
  | cons record records ih =>
    have hrecord := record.encodedLength_le
    have htotal : checkedAdd currentBytes record.encodedLength = some (currentBytes + record.encodedLength) := by
      rw [checkedAdd_eq_some]
      simp only [walBlockPayloadSize] at hbytes hrecord
      omega
    by_cases hfull : walBlockPayloadSize < currentBytes + record.encodedLength
    · -- the record opens a new group; the current one cannot be empty
      have hne : current ≠ [] := by
        intro hnil
        rw [hnil, pendingSize_nil] at hcurrent
        omega
      have hclosed : ∀ group ∈ groups ++ [current], FitsBlock group :=
        forall_mem_append.mpr ⟨hgroups, forall_mem_singleton.mpr ⟨hne, hcurrent.trans_le hbytes⟩⟩
      have hopen : pendingSize [record] = record.encodedLength := by simp
      have hzero : checkedAdd 0 record.encodedLength = some record.encodedLength := by
        rw [checkedAdd_eq_some]
        simp only [walBlockPayloadSize] at hrecord
        omega
      obtain ⟨packed, hpacked, hfits, hflat⟩ := ih hclosed hopen hrecord
      refine ⟨packed, ?_, hfits, by rw [hflat]; simp⟩
      simpa [packRecords, htotal, hzero, hfull, okOr] using hpacked
    · have hgrown : pendingSize (current ++ [record]) = currentBytes + record.encodedLength := by
        simp [pendingSize_append, hcurrent]
      obtain ⟨packed, hpacked, hfits, hflat⟩ := ih hgroups hgrown (Nat.le_of_not_lt hfull)
      refine ⟨packed, ?_, hfits, by rw [hflat]; simp⟩
      simpa [packRecords, htotal, hfull, okOr] using hpacked

theorem packRecords_all (records : List PendingRecord) :
    ∃ groups, packRecords [] [] 0 records = .ok groups ∧ (∀ group ∈ groups, FitsBlock group) ∧
      groups.flatten = records := by
  have hgroups : ∀ group ∈ ([] : List (List PendingRecord)), FitsBlock group := by simp
  obtain ⟨packed, hpacked, hfits, hflat⟩ := packRecords_eq_ok hgroups pendingSize_nil (Nat.zero_le _)
  exact ⟨packed, hpacked, hfits, by simpa using hflat⟩

/-- The blocks that hold the groups when they are appended behind a block sequence and a
digest, up to the first group that cannot be given addresses. -/
def chainBlocks (hashes : Hashes) : Nat → Digest → List (List PendingRecord) → List WalBlock
  | _, _, [] => []
  | sequence, digest, group :: groups =>
    match WalBlock.build hashes sequence digest group with
    | .ok block => block :: chainBlocks hashes (sequence + 1) block.digest groups
    | .error _ => []

theorem chainBlocks_cons {sequence : Nat} {digest : Digest} {group : List PendingRecord}
    (h : buildEncoded hashes sequence digest group = .ok (block, encoded)) (groups : List (List PendingRecord)) :
    chainBlocks hashes sequence digest (group :: groups) =
      block :: chainBlocks hashes (sequence + 1) block.digest groups := by
  have hbuild : build hashes sequence digest group = .ok block := by
    rw [build, h]
    rfl
  rw [chainBlocks, hbuild]

/-! ## Writing -/

namespace WalFile

variable {device : Device} {group : List PendingRecord} {wal : WalFile} {groups : List (List PendingRecord)}
  {blocks : Nat}

/-- The writer after one complete block. -/
def advanced (wal : WalFile) (block : WalBlock) (file : File) : WalFile :=
  { wal with file, nextSequence := wal.nextSequence + 1, previousDigest := block.digest }

/-- A block that the device and the file take in full is appended. -/
theorem appendGroup_of_write
    (hbuild : buildEncoded hashes wal.nextSequence wal.previousDigest group = .ok (block, encoded))
    (hwrite : encoded.length ≤ min (device.accepts wal.nextSequence) wal.file.room) :
    ∃ receipt, block.receipt = .ok receipt ∧ appendGroup hashes device group wal =
      .ok receipt (wal.advanced block (wal.file.write (device.accepts wal.nextSequence) encoded)) := by
  have hbuilt := built_of_buildEncoded hbuild
  obtain ⟨receipt, hreceipt⟩ := hbuilt.receipt_eq_ok
  have hnext : checkedAdd wal.nextSequence 1 = some (wal.nextSequence + 1) := by
    have := hbuilt.address
    rw [checkedAdd_eq_some]
    simp only [walBlockSize] at this
    omega
  refine ⟨receipt, hreceipt, ?_⟩
  simp [appendGroup, bind_apply, hbuild, EStateM.ofExcept, writeAll, hwrite, hreceipt, hnext, okOr,
    advanced, -bind_pure_comp]

/-- What writing the block of one group leaves. -/
theorem appendGroup_spec (hashes : Hashes) (device : Device) (group : List PendingRecord) (wal : WalFile) :
    (∃ receipt file block encoded, appendGroup hashes device group wal = .ok receipt (wal.advanced block file) ∧
      buildEncoded hashes wal.nextSequence wal.previousDigest group = .ok (block, encoded) ∧
      block.receipt = .ok receipt ∧ file.bytes = wal.file.bytes ++ encoded) ∨
    (∃ e file tail, appendGroup hashes device group wal = .error e { wal with file } ∧
      tail.length < walBlockSize ∧ file.bytes = wal.file.bytes ++ tail) := by
  cases hbuild : buildEncoded hashes wal.nextSequence wal.previousDigest group with
  | error e =>
    refine .inr ⟨e, wal.file, [], ?_, by simp [walBlockSize], by simp⟩
    simp [appendGroup, bind_apply, hbuild, EStateM.ofExcept]
  | ok built =>
    obtain ⟨block, encoded⟩ := built
    have hlen := (built_of_buildEncoded hbuild).length_encoded
    by_cases hwrite : encoded.length ≤ min (device.accepts wal.nextSequence) wal.file.room
    · obtain ⟨receipt, hreceipt, happend⟩ := appendGroup_of_write hbuild hwrite
      refine .inl ⟨receipt, wal.file.write (device.accepts wal.nextSequence) encoded, block, encoded, happend, rfl,
        hreceipt, ?_⟩
      rw [File.bytes_write, take_of_length_le hwrite]
    · refine .inr ⟨.io, wal.file.write (device.accepts wal.nextSequence) encoded,
        encoded.take (min (device.accepts wal.nextSequence) wal.file.room), ?_, ?_, rfl⟩
      · simp [appendGroup, bind_apply, hbuild, EStateM.ofExcept, writeAll, hwrite]
      · rw [length_take]
        omega

/-- `final` is `wal` with complete blocks of the groups, and then a torn block, behind it. -/
structure Extended (hashes : Hashes) (wal : WalFile) (groups : List (List PendingRecord)) (blocks : List WalBlock)
    (bytes tail : Bytes) (final : WalFile) : Prop where
  chain : Chain hashes wal.nextSequence wal.previousDigest blocks bytes final.previousDigest
  blocks_le : blocks <+: chainBlocks hashes wal.nextSequence wal.previousDigest groups
  file : final.file.bytes = wal.file.bytes ++ bytes ++ tail
  torn : tail.length < walBlockSize
  sequence : final.nextSequence = wal.nextSequence + blocks.length

theorem Extended.cons {final : WalFile} {file : File} {block : WalBlock} {blocks : List WalBlock}
    {encoded bytes tail : Bytes}
    (hbuild : buildEncoded hashes wal.nextSequence wal.previousDigest group = .ok (block, encoded))
    (hfile : file.bytes = wal.file.bytes ++ encoded)
    (h : Extended hashes (wal.advanced block file) groups blocks bytes tail final) :
    Extended hashes wal (group :: groups) (block :: blocks) (encoded ++ bytes) tail final where
  chain := .cons (built_of_buildEncoded hbuild) h.chain
  blocks_le := by
    rw [chainBlocks_cons hbuild]
    exact prefix_cons_inj block |>.mpr h.blocks_le
  file := by
    rw [h.file]
    simp [advanced, hfile]
  torn := h.torn
  sequence := by
    rw [h.sequence, length_cons]
    simp only [advanced]
    omega

theorem appendGroups_spec (hashes : Hashes) (device : Device) (groups : List (List PendingRecord)) (wal : WalFile) :
    (∃ receipts final blocks bytes, appendGroups hashes device groups wal = .ok receipts final ∧
      Extended hashes wal groups blocks bytes [] final ∧ final.poisoned = wal.poisoned ∧
      List.Forall₂ (fun block group => List.Forall₂ WalRecord.Carries block.records group) blocks groups ∧
      blocks.mapM receipt = .ok receipts) ∨
    (∃ e final blocks bytes tail, appendGroups hashes device groups wal = .error e final ∧
      Extended hashes wal groups blocks bytes tail final ∧ final.poisoned = wal.poisoned) := by
  induction groups generalizing wal with
  | nil =>
    refine .inl ⟨[], wal, [], [], rfl, ⟨.nil _ _, nil_prefix, by simp, ?_, rfl⟩, rfl, .nil, rfl⟩
    simp [walBlockSize]
  | cons group groups ih =>
    rcases appendGroup_spec hashes device group wal with
      ⟨receipt, file, block, encoded, happend, hbuild, hreceipt, hfile⟩ | ⟨e, file, tail, happend, htail, hfile⟩
    · rcases ih (wal.advanced block file) with
        ⟨receipts, final, blocks, bytes, hrest, hext, hpoison, hcarries, hreceipts⟩ |
        ⟨e, final, blocks, bytes, tail, hrest, hext, hpoison⟩
      · refine .inl ⟨receipt :: receipts, final, block :: blocks, encoded ++ bytes, ?_, hext.cons hbuild hfile, hpoison,
          .cons (built_of_buildEncoded hbuild).carries hcarries, ?_⟩
        · rw [appendGroups, bind_apply, happend]
          simp only [bind_apply, hrest, pure_apply]
        · simp [hreceipt, hreceipts]
      · refine .inr ⟨e, final, block :: blocks, encoded ++ bytes, tail, ?_, hext.cons hbuild hfile, hpoison⟩
        rw [appendGroups, bind_apply, happend]
        simp only [bind_apply, hrest]
    · refine .inr ⟨e, { wal with file }, [], [], tail, ?_, ⟨.nil _ _, nil_prefix, by simpa using hfile, htail,
        rfl⟩, rfl⟩
      rw [appendGroups, bind_apply, happend]

/-- Past the checks, the call is the run over its groups and a synchronization. -/
theorem appendRecords_eq (hashes : Hashes) (device : Device) (synchronize : Bool) (hclean : wal.poisoned = false)
    (hrecords : records ≠ []) (hpacked : packRecords [] [] 0 records = .ok groups) :
    appendRecords hashes device records synchronize wal =
      match appendGroups hashes device groups { wal with poisoned := true } with
      | .ok receipts final =>
        if synchronize ∧ ¬device.synchronizes then .error .io final else .ok receipts { final with poisoned := false }
      | .error e final => .error e final := by
  simp only [appendRecords, bind_apply, get_apply, hpacked, EStateM.ofExcept,
    failIf_of_not (Bool.eq_false_iff.mp hclean), failIf_of_not hrecords, pure_apply,
    modify_apply]
  cases appendGroups hashes device groups { wal with poisoned := true } with
  | error e final => rfl
  | ok receipts final =>
    by_cases hsync : synchronize ∧ ¬device.synchronizes
    · simp only [failIf_of hsync, if_pos hsync, throw_apply]
    · simp only [failIf_of_not hsync, if_neg hsync, pure_apply]

/-- What a call of the writer leaves: nothing, if it is refused; otherwise the blocks of its
groups. A call that succeeds leaves all of them, and no torn block. -/
theorem appendRecords_spec (hashes : Hashes) (device : Device) (records : List PendingRecord) (synchronize : Bool)
    (wal : WalFile) :
    (∃ receipts final blocks bytes groups, appendRecords hashes device records synchronize wal = .ok receipts final ∧
      packRecords [] [] 0 records = .ok groups ∧ wal.poisoned = false ∧ final.poisoned = false ∧
      Extended hashes wal groups blocks bytes [] final ∧
      List.Forall₂ WalRecord.Carries (blocks.flatMap WalBlock.records) records ∧
      blocks.mapM receipt = .ok receipts) ∨
    (∃ e, appendRecords hashes device records synchronize wal = .error e wal) ∨
    (∃ e final blocks bytes tail groups, appendRecords hashes device records synchronize wal = .error e final ∧
      packRecords [] [] 0 records = .ok groups ∧ wal.poisoned = false ∧ final.poisoned = true ∧
      Extended hashes wal groups blocks bytes tail final) := by
  by_cases hpoisoned : wal.poisoned = true
  · refine .inr (.inl ⟨.poisoned, ?_⟩)
    simp [appendRecords, bind_apply, EStateM.ofExcept, failIf, hpoisoned]
  by_cases hempty : records = []
  · refine .inr (.inl ⟨.emptyBlock, ?_⟩)
    simp [appendRecords, bind_apply, EStateM.ofExcept, failIf, hpoisoned, hempty]
  obtain ⟨groups, hpacked, -, hflat⟩ := packRecords_all records
  have hclean : wal.poisoned = false := Bool.eq_false_iff.mpr hpoisoned
  have hrun := appendRecords_eq hashes device synchronize hclean hempty hpacked
  rcases appendGroups_spec hashes device groups { wal with poisoned := true } with
    ⟨receipts, final, blocks, bytes, hrest, hext, hpoison, hcarries, hreceipts⟩ |
    ⟨e, final, blocks, bytes, tail, hrest, hext, hpoison⟩
  · by_cases hsync : synchronize ∧ ¬device.synchronizes
    · refine .inr (.inr ⟨.io, final, blocks, bytes, [], groups, ?_, hpacked, hclean, hpoison, ?_⟩)
      · rw [hrun, hrest]
        exact if_pos hsync
      · exact { hext with }
    · refine .inl ⟨receipts, { final with poisoned := false }, blocks, bytes, groups, ?_, hpacked, hclean, rfl, ?_, ?_,
        hreceipts⟩
      · rw [hrun, hrest]
        exact if_neg hsync
      · exact { hext with }
      · rw [← hflat, flatMap_def]
        exact rel_flatten (forall₂_map_left_iff.mpr hcarries)
  · refine .inr (.inr ⟨e, final, blocks, bytes, tail, groups, ?_, hpacked, hclean, hpoison, ?_⟩)
    · rw [hrun, hrest]
    · exact { hext with }

/-! ## Appending on a working device -/

/-- A device that takes every block and synchronizes. -/
structure Works (device : Device) : Prop where
  accepts : ∀ sequence, walBlockSize ≤ device.accepts sequence
  synchronizes : device.synchronizes = true

/-- The addresses and the file have room for this many more blocks. -/
structure Roomy (wal : WalFile) (blocks : Nat) : Prop where
  positive : 0 < wal.nextSequence
  addresses : (wal.nextSequence + blocks) * walBlockSize ≤ 2 ^ 64
  file : wal.file.bytes.length + blocks * walBlockSize < 2 ^ 64

theorem Roomy.mono {fewer : Nat} (h : Roomy wal blocks) (hle : fewer ≤ blocks) : Roomy wal fewer where
  positive := h.positive
  addresses := le_trans (Nat.mul_le_mul_right _ (Nat.add_le_add_left hle _)) h.addresses
  file := Nat.lt_of_le_of_lt (Nat.add_le_add_left (Nat.mul_le_mul_right _ hle) _) h.file

theorem appendGroup_works (hashes : Hashes) (hdevice : Works device) (hgroup : FitsBlock group)
    (hroomy : Roomy wal (blocks + 1)) :
    ∃ receipt final, appendGroup hashes device group wal = .ok receipt final ∧ Roomy final blocks ∧
      final.poisoned = wal.poisoned ∧
      ∃ encoded, encoded.length = walBlockSize ∧ receipt.digest = blockDigest hashes encoded := by
  have hone : wal.nextSequence * walBlockSize ≤ 2 ^ 64 :=
    le_trans (Nat.mul_le_mul_right _ (Nat.le_add_right _ _)) hroomy.addresses
  obtain ⟨block, encoded, hbuild⟩ :
      ∃ block encoded, buildEncoded hashes wal.nextSequence wal.previousDigest group = .ok (block, encoded) :=
    WalBlock.buildEncoded_ok wal.previousDigest hroomy.positive hone hgroup.1 hgroup.2
  have hbuilt := built_of_buildEncoded hbuild
  have hwrite : encoded.length ≤ min (device.accepts wal.nextSequence) wal.file.room := by
    have haccepts := hdevice.accepts wal.nextSequence
    have hfile := hroomy.file
    rw [Nat.add_one_mul] at hfile
    rw [hbuilt.length_encoded, File.room]
    omega
  obtain ⟨receipt, hreceipt, happend⟩ := appendGroup_of_write hbuild hwrite
  refine ⟨receipt, _, happend, ⟨Nat.succ_pos _, ?_, ?_⟩, rfl, encoded, hbuilt.length_encoded, ?_⟩
  · have := hroomy.addresses
    simp only [advanced]
    rwa [Nat.add_assoc, Nat.add_comm 1 blocks]
  · have := hroomy.file
    rw [Nat.add_one_mul] at this
    simp only [advanced, File.bytes_write, take_of_length_le hwrite, length_append, hbuilt.length_encoded]
    omega
  · rw [WalBlock.receipt_digest hreceipt]
    exact hbuilt.digest_eq

/-- The digest of every receipt is that of a block. -/
def DigestsOfBlocks (hashes : Hashes) (receipts : List BlockReceipt) : Prop :=
  ∀ receipt ∈ receipts, ∃ encoded, encoded.length = walBlockSize ∧ receipt.digest = blockDigest hashes encoded

theorem appendGroups_works (hashes : Hashes) (hdevice : Works device) (hgroups : ∀ group ∈ groups, FitsBlock group)
    (hroomy : Roomy wal (blocks + groups.length)) :
    ∃ receipts final, appendGroups hashes device groups wal = .ok receipts final ∧ Roomy final blocks ∧
      receipts.length = groups.length ∧ DigestsOfBlocks hashes receipts := by
  induction groups generalizing wal with
  | nil => exact ⟨[], wal, rfl, hroomy, rfl, by simp [DigestsOfBlocks]⟩
  | cons group groups ih =>
    obtain ⟨hgroup, hgroups⟩ := forall_mem_cons.mp hgroups
    obtain ⟨receipt, middle, hfirst, hmiddle, -, hdigest⟩ := appendGroup_works hashes hdevice hgroup hroomy
    obtain ⟨receipts, final, hrest, hfinal, hlength, hdigests⟩ := ih hgroups hmiddle
    refine ⟨receipt :: receipts, final, ?_, hfinal, by simp [hlength], forall_mem_cons.mpr ⟨hdigest, hdigests⟩⟩
    rw [appendGroups, bind_apply, hfirst]
    simp only [bind_apply, hrest, pure_apply]

/-- On a working device with room, every nonempty append succeeds. -/
theorem appendRecords_works (hashes : Hashes) (hdevice : Works device) (hrecords : records ≠ [])
    (hclean : wal.poisoned = false) (hroomy : Roomy wal (blocks + records.length)) (synchronize : Bool) :
    ∃ receipts final, appendRecords hashes device records synchronize wal = .ok receipts final ∧ Roomy final blocks ∧
      final.poisoned = false ∧ receipts ≠ [] ∧ DigestsOfBlocks hashes receipts := by
  obtain ⟨groups, hpacked, hfits, hflat⟩ := packRecords_all records
  -- no group is empty, so there are no more groups than records
  have hcount : groups.length ≤ records.length := by
    have hpositive : ∀ n ∈ groups.map length, 1 ≤ n := by
      intro n hn
      obtain ⟨group, hgroup, rfl⟩ := mem_map.mp hn
      exact length_pos_of_ne_nil (hfits group hgroup).1
    have hsum := length_le_sum_of_one_le _ hpositive
    rwa [length_map, ← length_flatten, hflat] at hsum
  have hgroups : groups ≠ [] := by
    rintro rfl
    exact hrecords hflat.symm
  have hbusy : Roomy { wal with poisoned := true } (blocks + groups.length) :=
    { hroomy.mono (Nat.add_le_add_left hcount _) with }
  obtain ⟨receipts, final, hrun, hfinal, hlength, hdigests⟩ := appendGroups_works hashes hdevice hfits hbusy
  refine ⟨receipts, { final with poisoned := false }, ?_, { hfinal with }, rfl, ?_, hdigests⟩
  · rw [appendRecords_eq hashes device synchronize hclean hrecords hpacked, hrun]
    simp [hdevice.synchronizes]
  · rintro rfl
    exact hgroups (length_eq_zero_iff.mp hlength.symm)

end WalFile

end Hyphae.Wal
