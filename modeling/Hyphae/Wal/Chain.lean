import Hyphae.Wal.BlockCodec
import Hyphae.Wal.File

/-!
# Chains of blocks

A run of the writer lays one block behind the other, each naming the digest of the
one before. `Chain` says which blocks stand in a stretch of the file and which
digest they end with. Appending extends a chain, a crash leaves a chain and a torn
block, and opening reads a chain back.
-/

namespace Hyphae.Wal

open Lib List Except Nat

open WalFile

variable {hashes : Hashes}

variable {file : File} {bytes tail encoded : Bytes} {sequence : Nat} {digest last : Digest} {blocks : List WalBlock}
  {block : WalBlock} {pending : List PendingRecord} {records : List WalRecord}

/-- `Chain hashes sequence digest blocks bytes last`: `bytes` are the encodings of
`blocks`, numbered from `sequence` on and chained from `digest` to `last`. -/
inductive Chain (hashes : Hashes) : Nat → Digest → List WalBlock → Bytes → Digest → Prop
  | nil (sequence : Nat) (digest : Digest) : Chain hashes sequence digest [] [] digest
  | cons {sequence : Nat} {digest last : Digest} {pending : List PendingRecord} {block : WalBlock}
      {blocks : List WalBlock} {encoded bytes : Bytes} :
      WalBlock.Built hashes sequence digest pending block encoded →
      Chain hashes (sequence + 1) block.digest blocks bytes last →
      Chain hashes sequence digest (block :: blocks) (encoded ++ bytes) last

namespace Chain

variable {middle : Digest} {more : List WalBlock} {rest : Bytes}

theorem length_bytes (h : Chain hashes sequence digest blocks bytes last) :
    bytes.length = blocks.length * walBlockSize := by
  induction h with
  | nil => simp
  | cons hbuilt _ ih => rw [length_append, hbuilt.length_encoded, ih, length_cons, succ_mul, add_comm]

theorem append (h : Chain hashes sequence digest blocks bytes middle)
    (h' : Chain hashes (sequence + blocks.length) middle more rest last) :
    Chain hashes sequence digest (blocks ++ more) (bytes ++ rest) last := by
  induction h with
  | nil => exact h'
  | @cons sequence digest middle pending block blocks encoded bytes hbuilt _ ih =>
    rw [length_cons, add_comm blocks.length 1, ← add_assoc] at h'
    rw [append_assoc]
    exact .cons hbuilt (ih h')

/-- A chain cut behind any of its blocks. -/
theorem split (h : Chain hashes sequence digest blocks bytes last) (n : Nat) (hn : n ≤ blocks.length) :
    ∃ middle, Chain hashes sequence digest (blocks.take n) (bytes.take (n * walBlockSize)) middle ∧
      Chain hashes (sequence + n) middle (blocks.drop n) (bytes.drop (n * walBlockSize)) last := by
  induction h generalizing n with
  | nil sequence digest =>
    obtain rfl : n = 0 := by simpa using hn
    exact ⟨digest, .nil _ _, .nil _ _⟩
  | @cons sequence digest last pending block blocks encoded bytes hbuilt htail ih =>
    cases n with
    | zero =>
      refine ⟨digest, ?_, ?_⟩
      · simpa using Chain.nil sequence digest
      · simpa using htail.cons hbuilt
    | succ n =>
      obtain ⟨middle, hfront, hback⟩ := ih n (le_of_succ_le_succ hn)
      have hlen := hbuilt.length_encoded
      have hsize : (n + 1) * walBlockSize = encoded.length + n * walBlockSize := by rw [hlen, succ_mul, add_comm]
      refine ⟨middle, ?_, ?_⟩
      · rw [hsize, take_length_add_append]
        exact hfront.cons hbuilt
      · rw [hsize, drop_length_add_append, drop_succ_cons, add_comm n 1, ← add_assoc]
        exact hback

/-- The addresses of a chain's blocks fit 64 bits. -/
theorem sequence_le (h : Chain hashes sequence digest blocks bytes last) (hne : blocks ≠ []) :
    (sequence + blocks.length - 2) * walBlockSize < 2 ^ 64 := by
  induction h with
  | nil => exact absurd rfl hne
  | @cons sequence digest last pending block blocks encoded bytes hbuilt htail ih =>
    by_cases hnil : blocks = []
    · subst hnil
      exact hbuilt.address
    · have := ih hnil
      rwa [length_cons, add_comm blocks.length 1, ← add_assoc]

theorem length_lt (h : Chain hashes 1 digest blocks bytes last) : blocks.length + 2 < 2 ^ 64 := by
  by_cases hne : blocks = []
  · subst hne
    norm_num
  · have := h.sequence_le hne
    simp only [walBlockSize] at this
    omega

/-- No digest inside a chain is the zero digest, if no block's digest is. -/
theorem last_ne_zero (hzero : ∀ encoded, encoded.length = walBlockSize → blockDigest hashes encoded ≠ Digest.zero)
    (h : Chain hashes sequence digest blocks bytes last) (hne : blocks ≠ []) : last ≠ Digest.zero := by
  induction h with
  | nil => exact absurd rfl hne
  | @cons sequence digest last pending block blocks encoded bytes hbuilt htail ih =>
    by_cases hnil : blocks = []
    · subst hnil
      cases htail
      rw [hbuilt.digest_eq]
      exact hzero encoded hbuilt.length_encoded
    · exact ih hnil

theorem last_of_nil (h : Chain hashes sequence digest [] bytes last) : last = digest := by
  cases h
  rfl

theorem last_of_singleton {block : WalBlock} (h : Chain hashes sequence digest [block] bytes last) :
    block.sequence = sequence ∧ last = block.digest := by
  cases h with
  | cons hbuilt htail => exact ⟨hbuilt.sequence_eq, htail.last_of_nil⟩

end Chain

/-! ## Cutting the file of a chain -/

def File.completeBlocks (file : File) : Nat := file.bytes.length / walBlockSize

theorem walBlockSize_pos : 0 < walBlockSize := by norm_num [walBlockSize]

theorem File.completeBlocks_eq {n : Nat} (hfile : file.bytes = bytes ++ tail) (hbytes : bytes.length = n * walBlockSize)
    (htail : tail.length < walBlockSize) : file.completeBlocks = n := by
  rw [completeBlocks, hfile, length_append, hbytes, mul_comm, mul_add_div walBlockSize_pos,
    div_eq_of_lt htail, add_zero]

/-- A file that holds a chain and a torn block, cut anywhere, holds the complete blocks in front of
the cut and a torn block. -/
theorem Chain.cut (h : Chain hashes sequence digest blocks bytes last) (hfile : file.bytes = bytes ++ tail)
    (htail : tail.length < walBlockSize) (offset : Nat) :
    (file.cut offset).completeBlocks ≤ blocks.length ∧
      ∃ middle front rest, Chain hashes sequence digest (blocks.take (file.cut offset).completeBlocks) front middle ∧
        (file.cut offset).bytes = front ++ rest ∧ rest.length = (file.cut offset).bytes.length % walBlockSize := by
  have hlen := h.length_bytes
  have hcut : (file.cut offset).bytes = (bytes ++ tail).take offset := by rw [File.bytes_cut, hfile]
  have hcomplete : (file.cut offset).completeBlocks ≤ blocks.length := by
    rw [File.completeBlocks, hcut, ← Nat.lt_succ_iff, Nat.div_lt_iff_lt_mul walBlockSize_pos, length_take,
      length_append, hlen, succ_mul]
    omega
  obtain ⟨middle, hfront, -⟩ := h.split _ hcomplete
  have hdiv := div_add_mod (file.cut offset).bytes.length walBlockSize
  rw [← File.completeBlocks, Nat.mul_comm] at hdiv
  have hle : (file.cut offset).completeBlocks * walBlockSize ≤ bytes.length := by
    rw [hlen]
    exact Nat.mul_le_mul_right _ hcomplete
  have hoffset : (file.cut offset).completeBlocks * walBlockSize ≤ offset := by
    have := congrArg length hcut
    rw [length_take] at this
    omega
  have hsame : (file.cut offset).bytes.take ((file.cut offset).completeBlocks * walBlockSize) =
      bytes.take ((file.cut offset).completeBlocks * walBlockSize) := by
    rw [hcut, take_take, Nat.min_eq_left hoffset, take_append_of_le_length hle]
  refine ⟨hcomplete, middle, _, (file.cut offset).bytes.drop ((file.cut offset).completeBlocks * walBlockSize), hfront,
    ?_, ?_⟩
  · rw [← hsame, take_append_drop]
  · rw [length_drop]
    omega

/-! ## Addresses grow -/

/-- The records of a block stand one behind the other from its first payload byte on. -/
theorem Placed.bounds {offset payloadOffset : Nat} (h : Placed offset payloadOffset records) :
    ∀ record ∈ records, offset + walBlockHeaderSize + payloadOffset ≤ record.lsn.get ∧
      record.lsn.get < offset + walBlockHeaderSize + payloadOffset + recordsSize records := by
  induction records generalizing payloadOffset with
  | nil => simp
  | cons record records ih =>
    obtain ⟨hlsn, hplaced⟩ := h
    simp only [recordsSize_cons, walRecordHeaderSize] at hplaced ⊢
    intro other hother
    rcases mem_cons.mp hother with rfl | hmem
    · omega
    · have := ih hplaced other hmem
      omega

theorem Placed.pairwise {offset payloadOffset : Nat} (h : Placed offset payloadOffset records) :
    records.Pairwise fun a b => a.lsn.get < b.lsn.get := by
  induction records generalizing payloadOffset with
  | nil => exact .nil
  | cons record records ih =>
    obtain ⟨hlsn, hplaced⟩ := h
    refine .cons ?_ (ih hplaced)
    intro other hother
    have := (hplaced.bounds other hother).1
    simp only [walRecordHeaderSize] at this
    omega

/-- A built block's records have addresses inside the block. -/
theorem WalBlock.Built.lsn_bounds (h : WalBlock.Built hashes sequence digest pending block encoded) :
    ∀ record ∈ block.records, (sequence - 1) * walBlockSize ≤ record.lsn.get ∧
      record.lsn.get < sequence * walBlockSize := by
  intro record hr
  obtain ⟨hlow, hhigh⟩ := h.placed.bounds record hr
  have hfits := h.fits
  have hpos := h.sequence_pos
  simp only [walBlockHeaderSize, walBlockPayloadSize, walBlockSize] at hlow hhigh hfits ⊢
  omega

namespace Chain

theorem lsn_ge (h : Chain hashes sequence digest blocks bytes last) :
    ∀ record ∈ blocks.flatMap WalBlock.records, (sequence - 1) * walBlockSize ≤ record.lsn.get := by
  induction h with
  | nil => simp
  | @cons sequence digest last pending block blocks encoded bytes hbuilt htail ih =>
    intro record hr
    rw [flatMap_cons, mem_append] at hr
    rcases hr with hr | hr
    · exact (hbuilt.lsn_bounds record hr).1
    · have := ih record hr
      have hle : (sequence - 1) * walBlockSize ≤ (sequence + 1 - 1) * walBlockSize := mul_le_mul_right _ (by omega)
      exact hle.trans this

/-- Addresses grow strictly along a chain. -/
theorem lsn_pairwise (h : Chain hashes sequence digest blocks bytes last) :
    (blocks.flatMap WalBlock.records).Pairwise fun a b => a.lsn.get < b.lsn.get := by
  induction h with
  | nil => exact .nil
  | @cons sequence digest last pending block blocks encoded bytes hbuilt htail ih =>
    rw [flatMap_cons, pairwise_append]
    refine ⟨hbuilt.placed.pairwise, ih, ?_⟩
    intro a ha b hb
    have hfirst := (hbuilt.lsn_bounds a ha).2
    have hsecond := htail.lsn_ge b hb
    rw [Nat.add_sub_cancel] at hsecond
    exact hfirst.trans_le hsecond

end Chain

/-! ## Opening a chain -/

theorem WalBlock.receipt_digest {receipt : BlockReceipt} (h : block.receipt = .ok receipt) :
    receipt.digest = block.digest := by
  obtain ⟨_, -, h⟩ := bind_eq_ok.mp h
  obtain ⟨_, -, h⟩ := bind_eq_ok.mp h
  cases h
  rfl

theorem WalBlock.Built.receipt_eq_ok (h : WalBlock.Built hashes sequence digest pending block encoded) :
    ∃ receipt, block.receipt = .ok receipt := by
  obtain ⟨firstLsn, lastLsn, hfirst, hlast, -⟩ := h.encoded_eq
  refine ⟨⟨block.sequence, firstLsn, lastLsn, block.digest⟩, ?_⟩
  rw [WalBlock.receipt, hfirst, hlast]
  rfl

theorem Chain.recoverBlocks_eq_ok {base index : Nat} (h : Chain hashes (base + index + 1) digest blocks bytes last)
    (hfile : file.bytes.drop (index * walBlockSize) = bytes ++ tail) :
    ∃ receipts, blocks.mapM WalBlock.receipt = .ok receipts ∧
      recoverBlocks hashes file base blocks.length index digest =
        .ok (blocks.flatMap WalBlock.records, receipts, last) := by
  induction blocks generalizing index digest bytes with
  | nil =>
    cases h
    exact ⟨[], rfl, rfl⟩
  | cons block blocks ih =>
    cases h with
    | @cons _ _ _ pending _ _ encoded bytes hbuilt htail =>
      have hlen := hbuilt.length_encoded
      have haddress := hbuilt.address
      have hfits := file.fits
      have hsize : index * walBlockSize + walBlockSize ≤ file.bytes.length := by
        have := congrArg length hfile
        simp only [length_drop, length_append, hlen, walBlockSize] at this ⊢
        omega
      have hrest : file.bytes.drop ((index + 1) * walBlockSize) = bytes ++ tail := by
        rw [succ_mul, ← drop_drop, hfile, append_assoc, ← hlen, drop_left]
      obtain ⟨receipts, hreceipts, hrecover⟩ := ih htail hrest
      obtain ⟨receipt, hreceipt⟩ := hbuilt.receipt_eq_ok
      have hread : file.readExactAt walBlockSize (index * walBlockSize) = .ok encoded := by
        rw [File.readExactAt, failIf_bind (by omega), slice, drop_take, hfile,
          append_assoc, Nat.add_sub_cancel_left, ← hlen, take_left]
      have hsequence : base + index + 1 < 2 ^ 64 := by
        simp only [walBlockSize] at haddress
        omega
      have hnext : checkedAdd base index = some (base + index) := checkedAdd_eq_some.mpr ⟨by omega, rfl⟩
      have hadd : checkedAdd (base + index) 1 = some (base + index + 1) := checkedAdd_eq_some.mpr ⟨hsequence, rfl⟩
      have hmul : checkedMul index walBlockSize = some (index * walBlockSize) :=
        checkedMul_eq_some.mpr ⟨by simp only [walBlockSize] at hsize ⊢; omega, rfl⟩
      refine ⟨receipt :: receipts, ?_, ?_⟩
      · simp [hreceipt, hreceipts]
      · simp only [length_cons, recoverBlocks, hnext, Option.bind_eq_bind, Option.bind_some, hadd, hmul,
          okOr, ok_bind, hread, hbuilt.decode_eq_ok hsequence, hreceipt, hrecover, flatMap_cons]

/-- What opening a file finds: the blocks of a chain, whole, and the writer ready behind them. -/
structure Recovers (base : Nat) (baseDigest : Digest) (blocks : List WalBlock) (bytes : Bytes) (tailBytes : Nat)
    (last : Digest) (opened : OpenedWal) : Prop where
  records : opened.recovery.records = blocks.flatMap WalBlock.records
  receipts : blocks.mapM WalBlock.receipt = .ok opened.recovery.blocks
  baseSequence : opened.recovery.baseSequence = base
  baseDigest_eq : opened.recovery.baseDigest = baseDigest
  tail : opened.recovery.truncatedTailBytes = tailBytes
  lastSequence : opened.recovery.lastSequence = base + blocks.length
  lastDigest : opened.recovery.lastDigest = last
  file : opened.wal.file.bytes = bytes
  writerSequence : opened.wal.lastSequence = base + blocks.length
  nextSequence : opened.wal.nextSequence = base + blocks.length + 1
  writerDigest : opened.wal.lastDigest = last
  clean : opened.wal.poisoned = false

theorem Chain.openAfter_eq_ok {base : Nat} {baseDigest : Digest}
    (h : Chain hashes (base + 1) baseDigest blocks bytes last) (hbase : base = 0 ↔ baseDigest = Digest.zero)
    (hfile : file.bytes = bytes ++ tail) (htail : tail.length < walBlockSize)
    (hsequence : base + blocks.length + 1 < 2 ^ 64) :
    ∃ opened, openAfter hashes file base baseDigest = .ok opened ∧
      Recovers base baseDigest blocks bytes tail.length last opened := by
  have hlength : file.bytes.length = blocks.length * walBlockSize + tail.length := by
    rw [hfile, length_append, h.length_bytes]
  have hfits := file.fits
  have hdiv : file.bytes.length / walBlockSize = blocks.length := File.completeBlocks_eq hfile h.length_bytes htail
  have hmod : file.bytes.length % walBlockSize = tail.length := by
    rw [hlength, mul_comm, mul_add_mod, mod_eq_of_lt htail]
  have hdrop : file.bytes.drop (0 * walBlockSize) = bytes ++ tail := by rw [zero_mul, drop_zero, hfile]
  obtain ⟨receipts, hreceipts, hrecover⟩ :=
    Chain.recoverBlocks_eq_ok (show Chain hashes (base + 0 + 1) baseDigest blocks bytes last from h) hdrop
  have hmul : checkedMul blocks.length walBlockSize = some (blocks.length * walBlockSize) :=
    checkedMul_eq_some.mpr ⟨by omega, rfl⟩
  -- the repaired file holds exactly the chain
  obtain ⟨repaired, hrepair, hbytes⟩ : ∃ repaired,
      repairTail file blocks.length tail.length = .ok repaired ∧ repaired.bytes = bytes := by
    rw [repairTail, hmul]
    by_cases hempty : tail = []
    · subst hempty
      exact ⟨file, rfl, by rw [hfile, append_nil]⟩
    · refine ⟨file.cut (blocks.length * walBlockSize), ?_, ?_⟩
      · rw [if_pos (by simpa using hempty)]
        rfl
      · rw [File.bytes_cut, hfile, ← h.length_bytes, take_left]
  have hlast : checkedAdd base blocks.length = some (base + blocks.length) := checkedAdd_eq_some.mpr ⟨by omega, rfl⟩
  have hnext : checkedAdd (base + blocks.length) 1 = some (base + blocks.length + 1) :=
    checkedAdd_eq_some.mpr ⟨hsequence, rfl⟩
  simp only [openAfter, failIf_of_not (not_not.mpr hbase), hdiv, hmod, hrecover, hrepair, hlast, hnext, okOr, ok_bind]
  exact ⟨_, rfl, ⟨rfl, hreceipts, rfl, rfl, rfl, rfl, rfl, hbytes, rfl, rfl, rfl, rfl⟩⟩

end Hyphae.Wal
