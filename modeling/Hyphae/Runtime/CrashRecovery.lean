import Hyphae.Runtime.Collections
import Hyphae.Runtime.Staging

/-!
# Commits across a crash

A commit appends the records of its transaction to the log, and opening a database
reads the records back from what a crash left of the file. Together they keep commits
whole, durable and in order.
-/

namespace Hyphae.Runtime

open Lib List Except

open Wal Session

variable {hashes : Hashes} {s middle final : Session} {plans kept later : List TransactionPlan} {offset : Nat}

/-- Transactions appended to the log one after the other, each of them acknowledged. -/
def Commits (hashes : Hashes) : Session → List TransactionPlan → Session → Prop
  | s, [], final => s = final
  | s, plan :: plans, final => ∃ pending device synchronize receipts wal middle,
    encodeTransaction hashes plan = .ok pending ∧
    s.wal.appendRecords hashes device pending synchronize = .ok receipts wal ∧
    Session.step hashes s (.append device pending synchronize) = .ok middle ∧ Commits hashes middle plans final

/-- The blocks that commits add hold the records of the transactions, in order. -/
theorem Commits.logged (h : Commits hashes s plans final) (hinv : Inv hashes s) :
    ∃ (logs : List (LoggedTransaction hashes)) (blocks : List WalBlock), logs.map (·.plan) = plans ∧
      blocks.flatMap WalBlock.records = logRecords (logs.map .transaction) ∧ Inv hashes final ∧
      final.history = s.history ++ blocks ∧ final.baseSequence = s.baseSequence := by
  induction plans generalizing s with
  | nil =>
    cases h
    exact ⟨[], [], rfl, rfl, hinv, (append_nil _).symm, rfl⟩
  | cons plan plans ih =>
    obtain ⟨pending, device, synchronize, receipts, wal, middle, hencode, happend, hstep, hrest⟩ := h
    obtain ⟨front, hfront, hcarries, -⟩ := hinv.acknowledged happend
    obtain ⟨_, hsame, hmiddle⟩ := hinv.append device pending synchronize
    cases hstep.symm.trans hsame
    cases hfront.symm.trans hsame
    obtain ⟨start, body, commit, hrecords, -⟩ := (encodeTransaction_spec hencode).2 _ hcarries
    rw [hrecords] at hcarries
    obtain ⟨logs, back, hplans, hback, hfinal, hhistory, hbase⟩ := ih hrest hmiddle
    refine ⟨⟨plan, pending, hencode, start, body, commit, hcarries⟩ :: logs, front ++ back, by rw [map_cons, hplans],
      ?_, hfinal, by rw [hhistory, append_assoc], hbase⟩
    rw [flatMap_append, hrecords, hback]
    rfl

section Log

variable {base : Option WalSemanticBase} {log rest : List (Entry hashes)} {logs : List (LoggedTransaction hashes)}

theorem completeBefore_append (cut : Nat) :
    completeBefore (log ++ rest) ((logRecords log).length + cut) = log ++ completeBefore rest cut := by
  induction log with
  | nil => simp [logRecords]
  | cons entry log ih =>
    rw [logRecords, flatMap_cons, length_append, Nat.add_assoc, cons_append, completeBefore,
      if_pos (Nat.le_add_right _ _), Nat.add_sub_cancel_left]
    exact congrArg _ ih

theorem completeBefore_isPrefix (log : List (Entry hashes)) (cut : Nat) : completeBefore log cut <+: log := by
  induction log generalizing cut with
  | nil => exact prefix_rfl
  | cons entry log ih =>
    unfold completeBefore
    split
    · exact (prefix_cons_inj entry).mpr (ih _)
    · exact nil_prefix

theorem commits_expectedFrom (recovered : RecoveredWal) :
    (expectedFrom recovered (logs.map .transaction)).commits =
      recovered.commits ++ logs.map fun logged => logged.plan.recoveredCommit hashes logged.commit.lsn := by
  induction logs generalizing recovered with
  | nil => simp [expectedFrom]
  | cons logged logs ih =>
    have hrest := ih (Entry.apply recovered (.transaction logged))
    rwa [Entry.apply, append_assoc] at hrest

theorem inOrder_transactions {recovered : RecoveredWal} (h : (logs.map (·.plan)).Pairwise (·.commitCsn < ·.commitCsn))
    (hlast : ∀ prior ∈ recovered.commits.getLast?, ∀ logged ∈ logs, prior.manifest.commitCsn < logged.plan.commitCsn) :
    InOrder base recovered (logs.map .transaction) := by
  induction logs generalizing recovered with
  | nil => trivial
  | cons logged logs ih =>
    rw [map_cons, pairwise_cons] at h
    refine ⟨fun prior hprior => hlast prior hprior logged mem_cons_self, ih h.2 ?_⟩
    intro prior hprior later hlater
    simp only [Entry.apply, getLast?_concat, Option.mem_some_iff] at hprior
    subst hprior
    exact h.1 _ (mem_map_of_mem hlater)

end Log

/-- The file holds the blocks of the history, and a tail only after a failed write. -/
theorem length_file (h : Inv hashes s) (hbase : s.baseSequence = 0) :
    ∃ tail, s.wal.file.bytes.length = s.history.length * walBlockSize + tail ∧ (s.wal.poisoned = false → tail = 0) := by
  obtain ⟨bytes, tail, hchain, hfile, -, hclean⟩ := h.current
  have hlength := hchain.length_bytes
  rw [hbase, drop_zero] at hlength
  refine ⟨tail.length, by rw [hfile, length_append, hlength], ?_⟩
  exact fun hwhole => length_eq_zero_iff.mpr (hclean hwhole)

/-- A crash cuts the log at any byte. Opening it recovers the transactions committed first, in order and each of them
whole: all that were committed while the file was no longer than what is left of it, perhaps some later ones, and
nothing else. An abort record closes the transaction the cut fell into. -/
theorem commits_survive_crash (hzero : NonzeroDigests hashes) (hkept : Commits hashes .start kept middle)
    (hlater : Commits hashes middle later final)
    (hordered : (kept ++ later).Pairwise (·.commitCsn < ·.commitCsn))
    (hbuilt : ∀ plan ∈ kept ++ later, BuiltFromCalls hashes plan ∧ ∀ mutation ∈ plan.mutations,
      ¬mutation.AppendsToEmptyKey)
    (hoffset : middle.wal.file.bytes.length ≤ offset) :
    ∃ opened recovered survived, WalFile.openAfter hashes (final.wal.file.cut offset) 0 .zero = .ok opened ∧
      recoverWalAfter hashes none opened.recovery.records = .ok recovered ∧ kept <+: survived ∧
        survived <+: kept ++ later ∧
      List.Forall₂ (fun plan commit => ∃ lsn, commit = plan.recoveredCommit hashes lsn) survived recovered.commits ∧
      ∀ transactionId ∈ recovered.danglingTransaction, ∀ record, Carried (encodeAbort transactionId) record →
        recoverWalAfter hashes none (opened.recovery.records ++ [record]) =
          .ok { recovered with danglingTransaction := none } := by
  obtain ⟨front, frontBlocks, rfl, hfront, hmiddle, hhistory, hbase⟩ := hkept.logged inv_start
  obtain ⟨back, backBlocks, rfl, hback, hfinal, hgrown, hsame⟩ := hlater.logged hmiddle
  have hstart : final.baseSequence = 0 := hsame.trans hbase
  have hfrontHistory : middle.history = frontBlocks := hhistory
  obtain ⟨opened, _, hopened, hrecovers, -⟩ := hfinal.opens hzero offset
  rw [hstart, (hfinal.base_iff hzero).mp hstart] at hopened
  -- what was in the shorter file is in front of the cut
  have hwhole : frontBlocks.length ≤ (final.wal.file.cut offset).completeBlocks := by
    obtain ⟨_, hbefore, -⟩ := length_file hmiddle hbase
    obtain ⟨_, hafter, -⟩ := length_file hfinal hstart
    rw [hgrown, length_append, Nat.add_mul] at hafter
    rw [File.completeBlocks, Nat.le_div_iff_mul_le walBlockSize_pos, File.bytes_cut, length_take, ← hfrontHistory]
    omega
  -- so the cut falls into the records of the later transactions
  obtain ⟨cut, hcut⟩ : ∃ cut, opened.recovery.records =
      (logRecords (front.map .transaction ++ back.map .transaction)).take
        ((logRecords (front.map .transaction)).length + cut) := by
    refine ⟨((backBlocks.take ((final.wal.file.cut offset).completeBlocks - frontBlocks.length)).flatMap
      WalBlock.records).length, ?_⟩
    rw [hrecovers.records, survivors, hstart, hgrown, hfrontHistory, drop_zero, Nat.zero_add, take_append,
      take_of_length_le hwhole, flatMap_append, hfront, logRecords, logRecords, flatMap_append, take_length_add_append]
    refine congrArg _ (prefix_iff_eq_take.mp ?_)
    rw [← logRecords, ← hback]
    refine IsPrefix.flatMap ?_ _
    exact take_prefix _ _
  have hrecovered : RecoversCut none (front.map .transaction ++ back.map .transaction)
      ((logRecords (front.map .transaction)).length + cut) := by
    rw [← map_append] at hordered hbuilt ⊢
    refine recoversCut_of_recoverable (inOrder_transactions hordered (by simp)) ?_ _
    intro mutation hmutation
    obtain ⟨_, hentry, hmutation⟩ := mem_flatMap.mp hmutation
    obtain ⟨logged, hlogged, rfl⟩ := mem_map.mp hentry
    obtain ⟨hcalls, hkeys⟩ := hbuilt logged.plan (mem_map_of_mem hlogged)
    exact recoverable_of_builtFromCalls (encodeTransaction_spec logged.encoded).1 hcalls hmutation (hkeys _ hmutation)
  obtain ⟨part, hpart, hcomplete⟩ := prefix_map_iff.mp (completeBefore_isPrefix (back.map .transaction) cut)
  refine ⟨opened, _, (front ++ part).map (·.plan), hopened, hcut ▸ hrecovered.1, ?_, ?_, ?_, hcut ▸ hrecovered.2⟩
  · rw [map_append]
    exact prefix_append _ _
  · rw [map_append, prefix_append_right_inj]
    exact hpart.map _
  · change List.Forall₂ _ _ (expectedFrom {} (completeBefore _ _)).commits
    rw [completeBefore_append, hcomplete, ← map_append, commits_expectedFrom, forall₂_map_left_iff]
    exact forall₂_map_right_iff.mpr (forall₂_same.mpr fun logged _ => ⟨_, rfl⟩)

/-- On a working device with room a transaction is committed, in blocks of its own. -/
theorem exists_commits {plan : TransactionPlan} {pending : List PendingRecord} {blocks : Nat} (hinv : Inv hashes s)
    (hclean : s.wal.poisoned = false) (hencode : encodeTransaction hashes plan = .ok pending) (hne : pending ≠ [])
    (hroomy : WalFile.Roomy s.wal (blocks + pending.length)) :
    ∃ final, Commits hashes s [plan] final ∧ Inv hashes final ∧ final.wal.poisoned = false ∧
      WalFile.Roomy final.wal blocks ∧ s.history.length < final.history.length ∧
        final.baseSequence = s.baseSequence := by
  obtain ⟨receipts, wal, happend, hroom, hwhole, -⟩ :=
    WalFile.appendRecords_works hashes reliableDevice_works hne hclean hroomy true
  obtain ⟨added, hstep, hcarries, -⟩ := hinv.acknowledged happend
  obtain ⟨_, hsame, hfinal⟩ := hinv.append reliableDevice pending true
  cases hstep.symm.trans hsame
  refine ⟨_, ⟨pending, reliableDevice, true, receipts, wal, _, hencode, happend, hstep, rfl⟩, hfinal, hwhole, hroom,
    ?_, rfl⟩
  rw [length_append, Nat.lt_add_right_iff_pos, length_pos_iff]
  rintro rfl
  cases hcarries
  exact hne rfl

/-- The second transaction of a database. -/
def EmptyKeys.secondPlan : TransactionPlan :=
  { plan logged with transactionId := .ofSucc 1, readCsn := some Mvcc.first, commitCsn := .ofSucc 1 }

open EmptyKeys in
/-- The cut falls into the second of two transactions, and the first is recovered. -/
theorem commits_survive_crash_emptyKeys :
    ∃ middle final offset, Commits constantHashes .start [plan logged] middle ∧
      Commits constantHashes middle [secondPlan] final ∧
      middle.wal.file.bytes.length < offset ∧ offset < final.wal.file.bytes.length ∧ ∃ opened recovered lsn,
        WalFile.openAfter constantHashes (final.wal.file.cut offset) 0 .zero = .ok opened ∧
        recoverWalAfter constantHashes none opened.recovery.records = .ok recovered ∧
        (plan logged).recoveredCommit constantHashes lsn ∈ recovered.commits := by
  obtain ⟨pending, hpending, hlength⟩ := exists_of_any (x := encodeTransaction constantHashes (plan logged))
    (·.length = 5) (by decide +kernel)
  obtain ⟨others, hothers, hsize⟩ := exists_of_any (x := encodeTransaction constantHashes secondPlan)
    (·.length = 5) (by decide +kernel)
  have hlength : pending.length = 5 := of_decide_eq_true hlength
  have hsize : others.length = 5 := of_decide_eq_true hsize
  have hroomy : WalFile.Roomy .create (0 + others.length + pending.length) := by
    rw [hlength, hsize]
    constructor <;> norm_num [WalFile.create, walBlockSize]
  obtain ⟨middle, hkept, hmiddle, hclean, hroom, -, hbase⟩ :=
    exists_commits inv_start rfl hpending (ne_nil_of_length_eq_add_one hlength) hroomy
  obtain ⟨final, hlater, hfinal, -, -, hgrown, hsame⟩ :=
    exists_commits hmiddle hclean hothers (ne_nil_of_length_eq_add_one hsize) hroom
  -- the file grew by at least one block
  obtain ⟨tail, hbefore, hwhole⟩ := length_file hmiddle hbase
  obtain ⟨rest, hafter, -⟩ := length_file hfinal (hsame.trans hbase)
  have hblocks := Nat.mul_le_mul_right walBlockSize hgrown
  rw [hwhole hclean] at hbefore
  rw [walBlockSize] at hbefore hafter hblocks
  have hbuilt : ∀ plan' ∈ [plan logged] ++ [secondPlan], BuiltFromCalls constantHashes plan' ∧
      ∀ mutation ∈ plan'.mutations, ¬mutation.AppendsToEmptyKey := by
    intro plan' hplan
    have hlogged : plan'.mutations = logged := by
      rcases mem_pair.mp hplan with rfl | rfl <;> rfl
    exact ⟨⟨calls, called, .empty, fun _ => none, [], rfl, hlogged ▸ rfl⟩, hlogged ▸ by decide⟩
  obtain ⟨opened, recovered, survived, hopened, hrecovered, hprefix, -, hcommits, -⟩ :=
    commits_survive_crash (fun encoded _ => constantHashes_ne_zero encoded)
      hkept hlater (by decide) hbuilt (Nat.le_succ middle.wal.file.bytes.length)
  obtain ⟨_, rfl⟩ := hprefix
  obtain ⟨_, _, ⟨lsn, rfl⟩, -, hrecords⟩ := forall₂_cons_left_iff.mp hcommits
  exact ⟨middle, final, _, hkept, hlater, Nat.lt_succ_self _, by omega, opened, recovered, lsn, hopened, hrecovered,
    hrecords ▸ mem_cons_self⟩

end Hyphae.Runtime
