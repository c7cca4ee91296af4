import Hyphae.Wal.Append

/-!
# The log over whole histories

A history of the log is any sequence of appends, synchronizations and resets, each
under its own device, and of crashes that cut the physical file at any byte and are
followed by reopening at the current base. Beside the writer, a session keeps the
blocks the log consists of: those retired by resets and those in the file. Reopening
finds exactly the complete ones.
-/

namespace Hyphae.Wal

open Lib List EStateM Except

open EStateM.Result WalFile Digest

variable {hashes : Hashes}

/-- One operation on the log. -/
inductive Op
  | append (device : Device) (records : List PendingRecord) (synchronize : Bool)
  | sync (device : Device)
  | reset (device : Device) (synchronize : Bool)
  | crash (offset : Nat)

/-- The writer, the base its file starts at, and every block of the log since it was created. -/
structure Session where
  wal : WalFile
  baseSequence : Nat
  baseDigest : Digest
  history : List WalBlock

namespace Session

def start : Session := { wal := .create, baseSequence := 0, baseDigest := .zero, history := [] }

/-- The blocks an append gives the log: of those that hold its groups, the ones that reached the file whole. -/
def appended (hashes : Hashes) (before after : WalFile) (records : List PendingRecord) : List WalBlock :=
  match packRecords [] [] 0 records with
  | .ok groups =>
    (chainBlocks hashes before.nextSequence before.previousDigest groups).take
      (after.file.completeBlocks - before.file.completeBlocks)
  | .error _ => []

/-- One operation. Only reopening can stop a history. -/
def step (hashes : Hashes) (s : Session) : Op → WalM Session
  | .append device records synchronize =>
    let wal := (s.wal.appendRecords hashes device records synchronize).state
    .ok { s with wal, history := s.history ++ appended hashes s.wal wal records }
  | .sync device => .ok { s with wal := (s.wal.syncData device).state }
  | .reset device synchronize =>
    let wal := (s.wal.resetAfter device s.wal.lastSequence s.wal.lastDigest synchronize).state
    -- the base moves when the truncation reached the file
    if wal.file.bytes = [] then
      .ok { s with wal, baseSequence := s.wal.lastSequence, baseDigest := s.wal.lastDigest }
    else .ok { s with wal }
  | .crash offset => do
    let file := s.wal.file.cut offset
    let opened ← WalFile.openAfter hashes file s.baseSequence s.baseDigest
    .ok { s with wal := opened.wal, history := s.history.take (s.baseSequence + file.completeBlocks) }

def run (hashes : Hashes) (ops : List Op) : WalM Session := ops.foldlM (step hashes) start

/-! ## The invariant -/

/-- The history is one chain from genesis on, cut in two at the base: the retired part, and
the part whose bytes are the file. A torn block behind it poisons the writer. -/
structure Inv (hashes : Hashes) (s : Session) : Prop where
  base_le : s.baseSequence ≤ s.history.length
  retired : ∃ bytes, Chain hashes 1 Digest.zero (s.history.take s.baseSequence) bytes s.baseDigest
  current : ∃ bytes tail, Chain hashes (s.baseSequence + 1) s.baseDigest (s.history.drop s.baseSequence) bytes
      s.wal.previousDigest ∧
    s.wal.file.bytes = bytes ++ tail ∧ tail.length < walBlockSize ∧ (s.wal.poisoned = false → tail = [])
  next : s.wal.nextSequence = s.history.length + 1

theorem inv_start : Inv hashes start where
  base_le := Nat.le_refl 0
  retired := ⟨[], .nil _ _⟩
  current := ⟨[], [], .nil _ _, rfl, by simp [walBlockSize], fun _ => rfl⟩
  next := rfl

section Steps

variable {s : Session} {records : List PendingRecord} {blocks : List WalBlock} {wal : WalFile}

theorem Inv.whole (h : Inv hashes s) : ∃ bytes, Chain hashes 1 zero s.history bytes s.wal.previousDigest := by
  obtain ⟨front, hfront⟩ := h.retired
  obtain ⟨back, tail, hback, -⟩ := h.current
  refine ⟨front ++ back, ?_⟩
  rw [← take_append_drop s.baseSequence s.history]
  apply hfront.append
  rw [length_take, Nat.min_eq_left h.base_le, Nat.add_comm]
  exact hback

/-- The writer of a clean session, extended by the blocks of some groups, is that of a longer history. -/
theorem Inv.extend (h : Inv hashes s) {groups : List (List PendingRecord)} {bytes tail : Bytes} {final : WalFile}
    (hclean : s.wal.poisoned = false) (hpacked : packRecords [] [] 0 records = .ok groups)
    (hext : WalFile.Extended hashes s.wal groups blocks bytes tail final)
    (hpoison : final.poisoned = false → tail = []) :
    appended hashes s.wal final records = blocks ∧
      Inv hashes { s with wal := final, history := s.history ++ blocks } := by
  obtain ⟨front, torn, hchain, hfile, -, htorn⟩ := h.current
  have hnil := htorn hclean
  subst hnil
  rw [append_nil] at hfile
  have hfinal : final.file.bytes = (front ++ bytes) ++ tail := by rw [hext.file, hfile]
  have hnext : s.baseSequence + 1 + (s.history.drop s.baseSequence).length = s.wal.nextSequence := by
    have := h.base_le
    rw [h.next, length_drop]
    omega
  have hgrown : Chain hashes (s.baseSequence + 1) s.baseDigest (s.history.drop s.baseSequence ++ blocks)
      (front ++ bytes) final.previousDigest := hchain.append (by rw [hnext]; exact hext.chain)
  have hbefore : s.wal.file.completeBlocks = (s.history.drop s.baseSequence).length :=
    File.completeBlocks_eq (by rw [hfile, append_nil]) hchain.length_bytes (by simp [walBlockSize])
  have hafter := File.completeBlocks_eq hfinal hgrown.length_bytes hext.torn
  constructor
  · have hcount : final.file.completeBlocks - s.wal.file.completeBlocks = blocks.length := by
      rw [hbefore, hafter, length_append, Nat.add_sub_cancel_left]
    simp only [appended, hpacked, hcount]
    exact (prefix_iff_eq_take.mp hext.blocks_le).symm
  · exact
      { base_le := h.base_le.trans (by simp)
        retired := by
          rw [take_append_of_le_length h.base_le]
          exact h.retired
        current := ⟨front ++ bytes, tail, by rw [drop_append_of_le_length h.base_le]; exact hgrown, hfinal,
          hext.torn, hpoison⟩
        next := by
          rw [length_append, hext.sequence, h.next]
          omega }

theorem appended_self (hashes : Hashes) (wal : WalFile) (records : List PendingRecord) :
    appended hashes wal wal records = [] := by
  rw [appended, Nat.sub_self]
  split <;> simp

theorem Inv.append (h : Inv hashes s) (device : Device) (records : List PendingRecord) (synchronize : Bool) :
    ∃ s', step hashes s (.append device records synchronize) = .ok s' ∧ Inv hashes s' := by
  refine ⟨_, rfl, ?_⟩
  rcases appendRecords_spec hashes device records synchronize s.wal with
    ⟨receipts, final, blocks, bytes, groups, hrun, hpacked, hclean, hpoison, hext, -, -⟩ | ⟨e, hrun⟩ |
    ⟨e, final, blocks, bytes, tail, groups, hrun, hpacked, hclean, hpoison, hext⟩
  · obtain ⟨happended, hinv⟩ := h.extend hclean hpacked hext (fun _ => rfl)
    simp only [hrun, state_ok, happended]
    exact hinv
  · simp only [hrun, state_error, appended_self, append_nil]
    exact h
  · have htorn : final.poisoned = false → tail = [] := by
      intro hfalse
      rw [hpoison] at hfalse
      cases hfalse
    obtain ⟨happended, hinv⟩ := h.extend hclean hpacked hext htorn
    simp only [hrun, state_error, happended]
    exact hinv

/-- Poisoning the writer keeps the invariant; it only loses what a clean writer promises. -/
theorem Inv.poison (h : Inv hashes s) {poisoned : Bool} (hpoison : poisoned = false → s.wal.poisoned = false) :
    Inv hashes { s with wal := { s.wal with poisoned } } where
  base_le := h.base_le
  retired := h.retired
  current := by
    obtain ⟨bytes, tail, hchain, hfile, htail, htorn⟩ := h.current
    exact ⟨bytes, tail, hchain, hfile, htail, fun hclean => htorn (hpoison hclean)⟩
  next := h.next

theorem Inv.sync (h : Inv hashes s) (device : Device) :
    ∃ s', step hashes s (.sync device) = .ok s' ∧ Inv hashes s' := by
  refine ⟨_, rfl, ?_⟩
  by_cases hpoisoned : s.wal.poisoned = true
  · have hrun : s.wal.syncData device = .error .poisoned s.wal := by
      simp [syncData, bind_apply, EStateM.ofExcept, failIf, hpoisoned]
    simp only [hrun, state_error]
    exact h
  · have hrun : (s.wal.syncData device).state = { s.wal with poisoned := !device.synchronizes } := by
      cases hsync : device.synchronizes <;>
        simp [syncData, bind_apply, EStateM.ofExcept, failIf, hpoisoned, hsync]
    simp only [hrun]
    exact h.poison fun _ => Bool.eq_false_iff.mpr hpoisoned

/-- A session whose file is empty stands at the end of its history, so that is its base. -/
theorem Inv.rebase (h : Inv hashes s) (hfile : wal.file.bytes = []) (hnext : wal.nextSequence = s.wal.nextSequence)
    (hdigest : wal.previousDigest = s.wal.previousDigest) :
    Inv hashes { s with wal, baseSequence := s.wal.lastSequence, baseDigest := s.wal.lastDigest } := by
  have hlast : s.wal.lastSequence = s.history.length := by rw [lastSequence, h.next, Nat.add_sub_cancel]
  exact
    { base_le := hlast.le
      retired := by
        obtain ⟨bytes, hchain⟩ := h.whole
        exact ⟨bytes, by rw [hlast, take_length]; exact hchain⟩
      current := by
        refine ⟨[], [], ?_, hfile, by simp [walBlockSize], fun _ => rfl⟩
        rw [hlast, drop_length, hdigest]
        exact .nil _ _
      next := by rw [hnext, h.next] }

/-- A reset at the last block leaves the writer's position alone. It empties the file, or leaves it as it is. -/
theorem resetAfter_state (h : Inv hashes s) (device : Device) (synchronize : Bool) :
    ∃ file poisoned,
      (s.wal.resetAfter device s.wal.lastSequence s.wal.lastDigest synchronize).state = { s.wal with file, poisoned } ∧
      (file = .empty ∨ file = s.wal.file ∧ (poisoned = false → s.wal.poisoned = false)) := by
  have hnext : checkedAdd s.wal.lastSequence 1 = some s.wal.nextSequence := by
    obtain ⟨bytes, hchain⟩ := h.whole
    have := hchain.length_lt
    have := h.next
    rw [checkedAdd_eq_some, lastSequence]
    omega
  by_cases hbase : s.wal.lastSequence = 0 ∨ s.wal.lastDigest = .zero
  · refine ⟨s.wal.file, s.wal.poisoned, ?_, .inr ⟨rfl, id⟩⟩
    simp only [resetAfter, bind_apply, failIf_of hbase, EStateM.ofExcept, throw_apply, state_error]
  by_cases htruncates : ¬device.truncates
  · refine ⟨s.wal.file, true, ?_, .inr ⟨rfl, by simp⟩⟩
    simp only [resetAfter, bind_apply, failIf_of_not hbase, EStateM.ofExcept, pure_apply,
      hnext, okOr, modify_apply, failIf_of htruncates, throw_apply,
      state_error]
  by_cases hsync : synchronize ∧ ¬device.synchronizes
  · refine ⟨.empty, true, ?_, .inl rfl⟩
    simp only [resetAfter, bind_apply, failIf_of_not hbase, EStateM.ofExcept, pure_apply,
      hnext, okOr, modify_apply, failIf_of_not htruncates, failIf_of hsync,
      throw_apply, state_error]
  · refine ⟨.empty, false, ?_, .inl rfl⟩
    simp only [resetAfter, bind_apply, failIf_of_not hbase, EStateM.ofExcept, pure_apply,
      hnext, okOr, modify_apply, failIf_of_not htruncates, failIf_of_not hsync,
      state_ok]
    rfl

theorem Inv.reset (h : Inv hashes s) (device : Device) (synchronize : Bool) :
    ∃ s', step hashes s (.reset device synchronize) = .ok s' ∧ Inv hashes s' := by
  obtain ⟨file, poisoned, hstate, hfile⟩ := resetAfter_state h device synchronize
  by_cases hempty : file.bytes = []
  · refine ⟨{ s with wal := { s.wal with file, poisoned }, baseSequence := s.wal.lastSequence,
                     baseDigest := s.wal.lastDigest }, ?_, ?_⟩
    · simp only [step, hstate, if_pos hempty]
    · exact h.rebase hempty rfl rfl
  · refine ⟨{ s with wal := { s.wal with file, poisoned } }, ?_, ?_⟩
    · simp only [step, hstate, if_neg hempty]
    · rcases hfile with rfl | ⟨rfl, hpoison⟩
      · exact absurd rfl hempty
      · exact h.poison hpoison

/-! ## Reopening -/

/-- Sequence of the last of the blocks, or that in front of the first block. -/
def tipSequence (blocks : List WalBlock) : Nat := (blocks.getLast?.map WalBlock.sequence).getD 0

/-- Digest of the last of the blocks, or that in front of the first block. -/
def tipDigest (blocks : List WalBlock) : Digest := (blocks.getLast?.map WalBlock.digest).getD .zero

theorem tip_of_chain {bytes : Bytes} {last : Digest} (h : Chain hashes 1 zero blocks bytes last) :
    tipSequence blocks = blocks.length ∧ tipDigest blocks = last := by
  rcases eq_nil_or_concat blocks with hnil | ⟨front, block, hblocks⟩
  · subst hnil
    cases h
    exact ⟨rfl, rfl⟩
  · rw [concat_eq_append] at hblocks
    subst hblocks
    obtain ⟨middle, -, hback⟩ := h.split front.length (by simp)
    rw [drop_left] at hback
    obtain ⟨hsequence, hdigest⟩ := hback.last_of_singleton
    refine ⟨?_, by simp [tipDigest, hdigest]⟩
    simp only [tipSequence, getLast?_concat, Option.map_some, Option.getD_some, hsequence, length_append,
      length_cons, length_nil]
    omega

/-- The complete blocks of the log when the file is cut at an offset. -/
def survivors (s : Session) (offset : Nat) : List WalBlock :=
  s.history.take (s.baseSequence + (s.wal.file.cut offset).completeBlocks)

section Nonzero

variable (hzero : ∀ encoded, encoded.length = walBlockSize → blockDigest hashes encoded ≠ zero)
include hzero

theorem Inv.base_iff (h : Inv hashes s) : s.baseSequence = 0 ↔ s.baseDigest = zero := by
  obtain ⟨bytes, hchain⟩ := h.retired
  constructor
  · intro hbase
    rw [hbase, take_zero] at hchain
    exact hchain.last_of_nil
  · intro hdigest
    by_contra hbase
    refine hchain.last_ne_zero hzero ?_ hdigest
    intro hnil
    have := congrArg length hnil
    rw [length_take, Nat.min_eq_left h.base_le] at this
    exact hbase this

/-- Reopening the file cut at any offset finds the complete blocks in front of the cut. -/
theorem Inv.opens (h : Inv hashes s) (offset : Nat) :
    ∃ opened bytes, openAfter hashes (s.wal.file.cut offset) s.baseSequence s.baseDigest = .ok opened ∧
      Recovers s.baseSequence s.baseDigest ((survivors s offset).drop s.baseSequence) bytes
        ((s.wal.file.cut offset).bytes.length % walBlockSize) (tipDigest (survivors s offset)) opened ∧
      opened.wal.lastSequence = tipSequence (survivors s offset) ∧
      Inv hashes { s with wal := opened.wal, history := survivors s offset } := by
  obtain ⟨bytes, tail, hchain, hfile, htail, -⟩ := h.current
  obtain ⟨retired, hretired⟩ := h.retired
  obtain ⟨all, hall⟩ := h.whole
  obtain ⟨hcomplete, middle, front, rest, hfront, hsplit, hrest⟩ := hchain.cut hfile htail offset
  have hbound := hall.length_lt
  have hbase := h.base_le
  have hlength : (s.history.drop s.baseSequence).length = s.history.length - s.baseSequence := length_drop
  have hdrop : (survivors s offset).drop s.baseSequence =
      (s.history.drop s.baseSequence).take (s.wal.file.cut offset).completeBlocks := by
    rw [survivors, drop_take, Nat.add_sub_cancel_left]
  have hkept : (survivors s offset).length = s.baseSequence + (s.wal.file.cut offset).completeBlocks := by
    rw [survivors, length_take]
    omega
  have hcount : ((survivors s offset).drop s.baseSequence).length = (s.wal.file.cut offset).completeBlocks := by
    rw [length_drop, hkept, Nat.add_sub_cancel_left]
  have htake : (survivors s offset).take s.baseSequence = s.history.take s.baseSequence := by
    rw [survivors, take_take, Nat.min_eq_left (Nat.le_add_right _ _)]
  rw [← hdrop] at hfront
  have htail' : rest.length < walBlockSize := by
    rw [hrest]
    exact Nat.mod_lt _ walBlockSize_pos
  obtain ⟨opened, hopened, hrecovers⟩ := hfront.openAfter_eq_ok (h.base_iff hzero) hsplit htail' (by omega)
  -- the reopened writer stands at the end of the surviving history
  have hinv : Inv hashes { s with wal := opened.wal, history := survivors s offset } :=
    { base_le := by rw [hkept]; exact Nat.le_add_right _ _
      retired := ⟨retired, by rw [htake]; exact hretired⟩
      current := ⟨front, [], by rw [← hrecovers.writerDigest] at hfront; exact hfront,
        by rw [hrecovers.file, append_nil], walBlockSize_pos, fun _ => rfl⟩
      next := by rw [hrecovers.nextSequence, hcount, hkept] }
  obtain ⟨whole, hwhole⟩ := hinv.whole
  obtain ⟨hsequence, hdigest⟩ := tip_of_chain hwhole
  refine ⟨opened, front, hopened, ?_, ?_, hinv⟩
  · rw [← hrest, hdigest]
    rw [← hrecovers.writerDigest] at hrecovers
    exact hrecovers
  · rw [hrecovers.writerSequence, hcount, hsequence, hkept]

theorem Inv.step (h : Inv hashes s) (op : Op) : ∃ s', step hashes s op = .ok s' ∧ Inv hashes s' := by
  cases op with
  | append device records synchronize => exact h.append device records synchronize
  | sync device => exact h.sync device
  | reset device synchronize => exact h.reset device synchronize
  | crash offset =>
    obtain ⟨opened, bytes, hopened, -, -, hinv⟩ := h.opens hzero offset
    refine ⟨_, ?_, hinv⟩
    rw [Session.step, hopened, ok_bind]
    rfl

theorem inv_run (ops : List Op) (h : Inv hashes s) : ∃ s', ops.foldlM (Session.step hashes) s = .ok s' ∧
    Inv hashes s' := by
  induction ops generalizing s with
  | nil => exact ⟨s, rfl, h⟩
  | cons op ops ih =>
    obtain ⟨middle, hstep, hmiddle⟩ := h.step hzero op
    obtain ⟨final, hrun, hfinal⟩ := ih hmiddle
    refine ⟨final, ?_, hfinal⟩
    rw [foldlM_cons, hstep, ok_bind, hrun]

end Nonzero

/-! ## What every history keeps -/

/-- The promise of the log in one state. -/
structure Durable (hashes : Hashes) (s : Session) : Prop where
  /-- Addresses grow strictly over the whole history, across resets and crashes. -/
  ascending : (s.history.flatMap WalBlock.records).Pairwise fun a b => a.lsn.get < b.lsn.get
  /-- An acknowledged append adds exactly its records, in order, at the addresses it reports. -/
  acknowledged : ∀ device records synchronize receipts wal,
    s.wal.appendRecords hashes device records synchronize = .ok receipts wal →
    ∃ blocks, Session.step hashes s (.append device records synchronize) =
        .ok { s with wal, history := s.history ++ blocks } ∧
      List.Forall₂ WalRecord.Carries (blocks.flatMap WalBlock.records) records ∧
      blocks.mapM WalBlock.receipt = .ok receipts
  /-- An acknowledged reset empties the file, which from then on starts behind the last block of the history. -/
  retired : ∀ device synchronize wal,
    s.wal.resetAfter device s.wal.lastSequence s.wal.lastDigest synchronize = .ok () wal →
    wal.file.bytes = [] ∧ Session.step hashes s (.reset device synchronize) =
      .ok { s with wal, baseSequence := s.history.length, baseDigest := s.wal.lastDigest }
  /-- Wherever a crash cuts the file, reopening at the base finds the complete blocks in front of the
  cut, whole and in order, and puts the writer behind the last of them. -/
  reopens : ∀ offset, ∃ opened bytes,
    WalFile.openAfter hashes (s.wal.file.cut offset) s.baseSequence s.baseDigest = .ok opened ∧
      Recovers s.baseSequence s.baseDigest ((survivors s offset).drop s.baseSequence) bytes
        ((s.wal.file.cut offset).bytes.length % walBlockSize) (tipDigest (survivors s offset)) opened ∧
      opened.wal.lastSequence = tipSequence (survivors s offset)

theorem Inv.acknowledged (h : Inv hashes s) {device : Device} {synchronize : Bool} {receipts : List BlockReceipt}
    (hrun : s.wal.appendRecords hashes device records synchronize = .ok receipts wal) :
    ∃ blocks, Session.step hashes s (.append device records synchronize) =
        .ok { s with wal, history := s.history ++ blocks } ∧
      List.Forall₂ WalRecord.Carries (blocks.flatMap WalBlock.records) records ∧
      blocks.mapM WalBlock.receipt = .ok receipts := by
  rcases appendRecords_spec hashes device records synchronize s.wal with
    ⟨found, final, blocks, bytes, groups, hspec, hpacked, hclean, -, hext, hcarries, hreceipts⟩ | ⟨e, hspec⟩ |
    ⟨e, final, blocks, bytes, tail, groups, hspec, -⟩
  · obtain ⟨rfl, rfl⟩ : receipts = found ∧ wal = final := by
      rw [hrun] at hspec
      cases hspec
      exact ⟨rfl, rfl⟩
    obtain ⟨happended, -⟩ := h.extend hclean hpacked hext (fun _ => rfl)
    refine ⟨blocks, ?_, hcarries, hreceipts⟩
    simp only [Session.step, hrun, state_ok, happended]
  · rw [hrun] at hspec
    cases hspec
  · rw [hrun] at hspec
    cases hspec

theorem Inv.retires (h : Inv hashes s) {device : Device} {synchronize : Bool}
    (hrun : s.wal.resetAfter device s.wal.lastSequence s.wal.lastDigest synchronize = .ok () wal) :
    wal.file.bytes = [] ∧ Session.step hashes s (.reset device synchronize) =
      .ok { s with wal, baseSequence := s.history.length, baseDigest := s.wal.lastDigest } := by
  have hempty : wal.file.bytes = [] := by
    simp only [WalFile.resetAfter, EStateM.bind_eq_ok, ofExcept_eq_ok, modify_apply, Result.ok.injEq] at hrun
    obtain ⟨_, _, -, _, _, -, _, _, -, _, _, -, _, _, ⟨-, rfl⟩, _, _, ⟨-, rfl⟩, -, rfl⟩ := hrun
    rfl
  have hlast : s.wal.lastSequence = s.history.length := by rw [WalFile.lastSequence, h.next, Nat.add_sub_cancel]
  refine ⟨hempty, ?_⟩
  simp only [Session.step, hrun, state_ok, if_pos hempty, ← hlast]

theorem Inv.durable (h : Inv hashes s)
    (hzero : ∀ encoded, encoded.length = walBlockSize → blockDigest hashes encoded ≠ zero) :
    Durable hashes s where
  ascending := by
    obtain ⟨bytes, hchain⟩ := h.whole
    exact hchain.lsn_pairwise
  acknowledged := fun _ _ _ _ _ hrun => h.acknowledged hrun
  retired := fun _ _ _ hrun => h.retires hrun
  reopens := by
    intro offset
    obtain ⟨opened, bytes, hopened, hrecovers, hsequence, -⟩ := h.opens hzero offset
    exact ⟨opened, bytes, hopened, hrecovers, hsequence⟩

end Steps

/-- Every history of a created log runs to its end, through all its crashes, and leaves the log durable.
The checksum and the digest are arbitrary functions; only the zero digest is no block's digest. -/
theorem histories_durable (hashes : Hashes)
    (hzero : ∀ encoded, encoded.length = walBlockSize → blockDigest hashes encoded ≠ Digest.zero) (ops : List Op) :
    ∃ s, run hashes ops = .ok s ∧ Durable hashes s := by
  obtain ⟨s, hrun, hinv⟩ := inv_run hzero ops inv_start
  exact ⟨s, hrun, hinv.durable hzero⟩

/-- Hash functions that ignore their input. -/
def constantHashes : Hashes where
  crc32cAppend := fun _ _ => 0
  blake3 := fun _ => ⟨List.replicate 32 1, by simp⟩

theorem constantHashes_ne_zero (encoded : Bytes) : blockDigest constantHashes encoded ≠ zero := by
  intro h
  have hbytes : (replicate 32 1 : Bytes) = zeros 32 := congrArg bytes h
  exact absurd hbytes (by decide)

/-- Two appends around a reset, then a crash inside the second block. -/
def appendsAroundReset : List Op :=
  let record : PendingRecord :=
    { kind := .commit, engine := .kernel, flags := 0, transactionId := .ofSucc 0, body := [7],
      bounded := by norm_num [walRecordBodySize] }
  let device : Device := { accepts := fun _ => walBlockSize, truncates := true, synchronizes := true }
  [.append device [record] true, .reset device true, .append device [record, record] false, .crash 65000]

theorem histories_durable_appendsAroundReset :
    (∀ encoded, encoded.length = walBlockSize → blockDigest constantHashes encoded ≠ Digest.zero) ∧
      ∃ s, run constantHashes appendsAroundReset = .ok s ∧ Durable constantHashes s :=
  ⟨fun encoded _ => constantHashes_ne_zero encoded,
    histories_durable constantHashes (fun encoded _ => constantHashes_ne_zero encoded) appendsAroundReset⟩

end Session

end Hyphae.Wal
