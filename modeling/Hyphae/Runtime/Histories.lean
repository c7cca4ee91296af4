import Hyphae.Runtime.CommitFailure
import Hyphae.Runtime.CommitSuccess
import Hyphae.Runtime.GroupCommit

/-!
# First committer wins, over whole histories

A history is any sequence of optimistic commits and cohorts on one database, failed
ones included, with other commits in between. Its ledger lists the batches that
committed, with their sequences. Whatever a batch of the ledger wrote, the conflict
table knows a writer at its sequence or behind it, so no later batch of the ledger
validated the same key on an older snapshot.
-/

namespace Hyphae.Runtime

open Lib EStateM List

open Mvcc Except ConflictTable
open Wal (Hashes Device)

variable {requestIndex : Nat} {α : Type}

/-- The batches that committed, with their sequences. -/
abbrev Ledger := List (Csn × NativeWriteBatch)

variable {conflicts : ConflictTable} {batch : NativeWriteBatch}

section Settled

variable {ledger : Ledger} {u : Unit}

/-- The later batch validates no key that the earlier one wrote behind the later one's snapshot. -/
def Respects (earlier later : Csn × NativeWriteBatch) : Prop :=
  ∀ key ∈ writeBatchWriteKeys earlier.2, key ∈ writeBatchValidationKeys later.2 →
    ¬committedAfter later.2.readCsn earlier.1

/-- The table knows the writers of everything in the ledger, and nothing in it overlooked an earlier writer. -/
structure Settled (conflicts : ConflictTable) (ledger : Ledger) : Prop where
  recorded : ∀ entry ∈ ledger, ∀ key ∈ writeBatchWriteKeys entry.2, conflicts.WrittenSince key entry.1
  ordered : ledger.Pairwise Respects

theorem Settled.nil (conflicts : ConflictTable) : Settled conflicts [] where
  recorded := by simp
  ordered := .nil

theorem Settled.extends {later : ConflictTable} (h : Settled conflicts ledger) (hextends : conflicts.Extends later) :
    Settled later ledger where
  recorded entry hentry key hkey := hextends key entry.1 (h.recorded entry hentry key hkey)
  ordered := h.ordered

theorem validateConflicts_eq_ok :
    validateConflicts conflicts batch = .ok u ↔
      ∀ key ∈ writeBatchValidationKeys batch, ∀ latest, conflicts.latest key = some latest →
        ¬committedAfter batch.readCsn latest := by
  rw [← validate_eq_ok, validateConflicts]
  cases conflicts.validate batch.readCsn (writeBatchValidationKeys batch) <;> simp [Except.mapError]

/-- A batch that validates is behind none of the writers the table knows. -/
theorem Settled.respects (h : Settled conflicts ledger) (hvalid : validateConflicts conflicts batch = .ok u)
    (commitCsn : Csn) : ∀ entry ∈ ledger, Respects entry (commitCsn, batch) := by
  intro entry hentry key hwritten hvalidated hafter
  obtain ⟨latest, hlatest, hle⟩ := h.recorded entry hentry key hwritten
  exact validateConflicts_eq_ok.mp hvalid key hvalidated latest hlatest (Nat.lt_of_lt_of_le hafter hle)

/-- Committing one validated batch. -/
theorem Settled.commit (h : Settled conflicts ledger) (hvalid : validateConflicts conflicts batch = .ok u)
    (commitCsn : Csn) :
    Settled (conflicts.publishCommitted commitCsn (writeBatchWriteKeys batch)) (ledger ++ [(commitCsn, batch)]) where
  recorded := by
    intro entry hentry key hkey
    rcases mem_append.mp hentry with hold | hnew
    · exact (h.recorded entry hold key hkey).publish commitCsn _
    · obtain rfl := mem_singleton.mp hnew
      exact publish_written hkey commitCsn
  ordered := by
    rw [pairwise_append]
    refine ⟨h.ordered, pairwise_singleton _ _, ?_⟩
    intro entry hentry later hlater
    obtain rfl := mem_singleton.mp hlater
    exact h.respects hvalid commitCsn entry hentry

/-- The batches of the ledger were admitted one after the other, each against what those before it had published. -/
inductive Publishes : ConflictTable → Ledger → ConflictTable → Prop
  | nil (conflicts : ConflictTable) : Publishes conflicts [] conflicts
  | cons {conflicts after : ConflictTable} {batch : NativeWriteBatch} {rest : Ledger} (commitCsn : Csn) :
      validateConflicts conflicts batch = .ok () →
      Publishes (conflicts.publishCommitted commitCsn (writeBatchWriteKeys batch)) rest after →
      Publishes conflicts ((commitCsn, batch) :: rest) after

theorem Settled.publishes {after : ConflictTable} {entries : Ledger} (h : Settled conflicts ledger)
    (hentries : Publishes conflicts entries after) : Settled after (ledger ++ entries) := by
  induction hentries generalizing ledger with
  | nil => rwa [append_nil]
  | cons commitCsn hvalid _ ih =>
    have hrest := ih (h.commit hvalid commitCsn)
    rwa [append_assoc] at hrest

end Settled

variable {hashes : Hashes} {σ state cohort : Type} {device : Device} {engines : GroupEngines hashes σ state cohort}
  {before after : Database hashes σ} {receipt : CommitReceipt} {storage : σ} {group : RootGroupTransaction hashes}
  {nextCsn : Nat} {admission : GroupAdmission state cohort} {batches : List NativeWriteBatch}

/-! ## One optimistic commit -/

/-- A prepared commit has validated, writes the keys of its batch, and has its pages from the engine. -/
structure Prepared (engines : Engines hashes σ state) (before : Database hashes σ) (prepared : PreparedCommit hashes)
    (after : Database hashes σ) : Prop where
  valid : validateConflicts before.conflicts prepared.batch = .ok ()
  writeKeys : prepared.writeKeys = writeBatchWriteKeys prepared.batch
  pages : ∃ input, input.batch = prepared.batch ∧ input.commitCsn = prepared.commitCsn ∧
    onStorage (engines.commitPages input) before = .ok prepared.pages after

variable {prepared : PreparedCommit hashes}

theorem prepareCommit_ok {engines : Engines hashes σ state} {middle : Database hashes σ}
    (h : prepareCommit engines batch before = .ok prepared middle) :
    prepared.batch = batch ∧ Prepared engines before prepared middle := by
  simp only [prepareCommit, EStateM.bind_eq_ok, ofExcept_eq_ok, get_apply, EStateM.Result.ok.injEq] at h
  obtain ⟨_, _, ⟨rfl, rfl⟩, _, _, ⟨-, rfl⟩, _, _, ⟨-, rfl⟩, _, _, ⟨-, rfl⟩, _, _, ⟨-, rfl⟩, _, _, ⟨-, rfl⟩, _, _,
    ⟨hvalid, rfl⟩, _, _, ⟨-, rfl⟩, _, _, hpages, h⟩ := h
  cases h
  exact ⟨rfl, hvalid, rfl, _, rfl, rfl, hpages⟩

/-- The conflict table is the same. -/
def SameConflicts (before after : Database hashes σ) : Prop := after.conflicts = before.conflicts

instance : IsPreorder (Database hashes σ) SameConflicts where
  refl _ := rfl
  trans _ _ _ h h' := Eq.trans h' h

theorem onStorage_sameConflicts (x : EStateM NativeRuntimeError σ α) :
    EStateM.Moves (@SameConflicts hashes σ) (onStorage x) := fun database => (onStorage_moves x database).conflicts

theorem onWal_sameConflicts (x : EStateM Wal.WalError Wal.WalFile α) :
    EStateM.Moves (@SameConflicts hashes σ) (onWal x) := by
  intro database
  unfold onWal
  cases x database.wal with
  | ok a wal => rfl
  | error e wal => rfl

theorem synchronizeWal_sameConflicts (durability : DurabilityClass) :
    EStateM.Moves (@SameConflicts hashes σ) (synchronizeWal device durability) := by
  unfold synchronizeWal
  split
  · exact .pure ()
  · exact onWal_sameConflicts _

/-- A finished commit has appended its records to the log and put its keys into the table. -/
theorem finishCommit_ok (h : finishCommit device prepared before = .ok receipt after) :
    after.conflicts = before.conflicts.publishCommitted receipt.commitCsn prepared.writeKeys ∧
      receipt.commitCsn = prepared.commitCsn ∧ ∃ receipts middle,
        onWal (Wal.WalFile.appendRecords hashes device prepared.pages.pending false) before = .ok receipts middle := by
  simp only [finishCommit, EStateM.bind_eq_ok, ofExcept_eq_ok, get_apply, EStateM.Result.ok.injEq] at h
  obtain ⟨_, _, happend, _, _, hsync, _, _, ⟨-, rfl⟩, _, _, ⟨-, rfl⟩, _, _, ⟨rfl, rfl⟩, _, _, ⟨-, rfl⟩, _, _, hpublish,
    _, _, ⟨-, rfl⟩, _, _, hnext, h⟩ := h
  cases hpublish
  cases hnext
  cases h
  refine ⟨?_, rfl, _, _, happend⟩
  rw [← Eq.trans ((synchronizeWal_sameConflicts _).ok hsync) ((onWal_sameConflicts _).ok happend)]

/-- The table keeps its writers. -/
def KeepsWriters (before after : Database hashes σ) : Prop := before.conflicts.Extends after.conflicts

instance : IsPreorder (Database hashes σ) KeepsWriters where
  refl _ := ConflictTable.Extends.refl _
  trans _ _ _ := ConflictTable.Extends.trans

theorem SameConflicts.keeps {x : DatabaseM hashes σ α} (h : EStateM.Moves SameConflicts x) :
    EStateM.Moves KeepsWriters x := by
  intro database
  have hsame : (x database).state.conflicts = database.conflicts := h database
  unfold KeepsWriters
  rw [hsame]
  exact ConflictTable.Extends.refl _

/-- Whatever becomes of a commit, no writer is forgotten. -/
theorem finishCommit_keeps (prepared : PreparedCommit hashes) :
    EStateM.Moves (@KeepsWriters hashes σ) (finishCommit device prepared) := by
  unfold finishCommit
  refine .bind (SameConflicts.keeps (onWal_sameConflicts _)) fun receipts => ?_
  refine .bind (SameConflicts.keeps (synchronizeWal_sameConflicts _)) fun _ => .bind (.ofExcept _) fun block => ?_
  refine .bind (.ofExcept _) fun anchor => .bind .get fun database => .bind (.ofExcept _) fun (root, nextCsn) => ?_
  refine .bind (fun database => publish_extends _ _ _) fun _ => .bind (.ofExcept _) fun _ => ?_
  exact .bind (fun database => .refl _) fun _ => .pure _

theorem commitOptimisticScheduled_keeps (engines : Engines hashes σ state) (batch : NativeWriteBatch) :
    EStateM.Moves (@KeepsWriters hashes σ) (commitOptimisticScheduled engines device batch) := by
  unfold commitOptimisticScheduled
  exact .bind (SameConflicts.keeps fun database => (prepareCommit_moves batch database).conflicts) finishCommit_keeps

/-- A successful optimistic commit validated against the table it found and put its keys into it. -/
theorem commitOptimisticScheduled_ok {engines : Engines hashes σ state}
    (h : commitOptimisticScheduled engines device batch before = .ok receipt after) :
    validateConflicts before.conflicts batch = .ok () ∧
      after.conflicts = before.conflicts.publishCommitted receipt.commitCsn (writeBatchWriteKeys batch) := by
  unfold commitOptimisticScheduled at h
  obtain ⟨prepared, middle, hprepare, hfinish⟩ := bind_eq_ok.mp h
  obtain ⟨rfl, hprepared⟩ := prepareCommit_ok hprepare
  have hsame := ((prepareCommit_moves _).ok hprepare).conflicts
  refine ⟨hprepared.valid, ?_⟩
  rw [(finishCommit_ok hfinish).1, hprepared.writeKeys, hsame]

theorem commitOptimisticScheduled_publishes {engines : Engines hashes σ state}
    (h : commitOptimisticScheduled engines device batch before = .ok receipt after) :
    Publishes before.conflicts [(receipt.commitCsn, batch)] after.conflicts := by
  obtain ⟨hvalid, hafter⟩ := commitOptimisticScheduled_ok h
  rw [hafter]
  exact .cons receipt.commitCsn hvalid (.nil _)

/-! ## Cohorts -/

/-- The accepted batches of an admission, with their sequences. -/
def GroupAdmission.ledger (admission : GroupAdmission state cohort) : Ledger :=
  admission.accepted.map fun admitted => (admitted.commitCsn, admitted.batch)

theorem groupAdmissionRejection_ok {base : RootSet hashes} {keys : List WriteKey}
    (h : groupAdmissionRejection engines base conflicts batch = .ok keys) :
    validateConflicts conflicts batch = .ok () ∧ keys = writeBatchWriteKeys batch := by
  unfold groupAdmissionRejection at h
  obtain ⟨_, -, h⟩ := bind_eq_ok.mp h
  obtain ⟨_, -, h⟩ := bind_eq_ok.mp h
  obtain ⟨_, -, h⟩ := bind_eq_ok.mp h
  obtain ⟨_, -, h⟩ := bind_eq_ok.mp h
  obtain ⟨_, -, h⟩ := bind_eq_ok.mp h
  obtain ⟨_, hvalid, h⟩ := bind_eq_ok.mp h
  cases h
  exact ⟨hvalid, rfl⟩

/-- Admission refuses a batch, or validates it and puts its keys into the private table. -/
theorem admitBatch_ok {after : GroupAdmission state cohort}
    (h : admitBatch engines storage group nextCsn admission requestIndex batch = .ok after) :
    (after.conflicts = admission.conflicts ∧ after.ledger = admission.ledger) ∨
      ∃ commitCsn, validateConflicts admission.conflicts batch = .ok () ∧
        after.conflicts = admission.conflicts.publishCommitted commitCsn (writeBatchWriteKeys batch) ∧
        after.ledger = admission.ledger ++ [(commitCsn, batch)] := by
  unfold admitBatch at h
  simp only at h
  split at h
  next => cases h; exact .inl ⟨rfl, rfl⟩
  next writeKeys layout candidate hchecks =>
    obtain ⟨keys, hrejection, hchecks⟩ := bind_eq_ok.mp hchecks
    obtain ⟨_, -, hchecks⟩ := bind_eq_ok.mp hchecks
    obtain ⟨_, -, hchecks⟩ := bind_eq_ok.mp hchecks
    cases hchecks
    obtain ⟨hvalid, rfl⟩ := groupAdmissionRejection_ok hrejection
    obtain ⟨commitCsn, -, h⟩ := bind_eq_ok.mp h
    split at h
    next => cases h; exact .inl ⟨rfl, rfl⟩
    next =>
      obtain ⟨_, -, h⟩ := bind_eq_ok.mp h
      obtain ⟨_, -, h⟩ := bind_eq_ok.mp h
      cases h
      exact .inr ⟨commitCsn, hvalid, rfl, by simp [GroupAdmission.ledger]⟩

/-- Admission publishes the batches it accepts, one after the other. -/
theorem admitBatches_publishes {after : GroupAdmission state cohort}
    (h : admitBatches engines storage group nextCsn admission requestIndex batches = .ok after) :
    ∃ entries, after.ledger = admission.ledger ++ entries ∧ Publishes admission.conflicts entries after.conflicts := by
  induction batches generalizing admission requestIndex with
  | nil => cases h; exact ⟨[], (append_nil _).symm, .nil _⟩
  | cons batch batches ih =>
    obtain ⟨middle, hbatch, hrest⟩ := bind_eq_ok.mp h
    obtain ⟨entries, hentries, hpublishes⟩ := ih hrest
    rcases admitBatch_ok hbatch with ⟨hconflicts, hledger⟩ | ⟨commitCsn, hvalid, hconflicts, hledger⟩
    · exact ⟨entries, by rw [hentries, hledger], hconflicts ▸ hpublishes⟩
    · refine ⟨(commitCsn, batch) :: entries, by rw [hentries, hledger, append_assoc]; rfl, ?_⟩
      exact .cons commitCsn hvalid (hconflicts ▸ hpublishes)

theorem admitCohort_publishes {nextTransactionId : Nat}
    (h : admitCohort engines storage group conflicts nextCsn nextTransactionId batches = .ok admission) :
    Publishes conflicts admission.ledger admission.conflicts := by
  obtain ⟨_, -, hbatches⟩ := bind_eq_ok.mp h
  obtain ⟨entries, hentries, hpublishes⟩ := admitBatches_publishes hbatches
  rw [hentries]
  exact hpublishes

theorem stageOne_sameConflicts (engines : GroupEngines hashes σ state cohort) (nextCsn : Nat)
    (group : RootGroupTransaction hashes) (current : Option state) (admitted : AdmittedGroupCommit) :
    EStateM.Moves (@SameConflicts hashes σ) (stageOne engines device nextCsn group current admitted) := by
  unfold stageOne
  refine .bind (.ofExcept _) fun commitCsn => .bind (.ofExcept _) fun _ => .bind (.ofExcept _) fun current => ?_
  refine .bind (.ofExcept _) fun _ => .bind (onStorage_sameConflicts _) fun pages => ?_
  refine .bind (onWal_sameConflicts _) fun receipts => .bind (.ofExcept _) fun block => ?_
  exact .bind (.ofExcept _) fun anchor => .bind (.ofExcept _) fun staged => .pure _

theorem stageAll_sameConflicts (engines : GroupEngines hashes σ state cohort) (nextCsn : Nat)
    (group : RootGroupTransaction hashes) (current : Option state) (accepted : List AdmittedGroupCommit) :
    EStateM.Moves (@SameConflicts hashes σ) (stageAll engines device nextCsn group current accepted) := by
  induction accepted generalizing group current with
  | nil => exact .pure _
  | cons admitted rest ih => exact .bind (stageOne_sameConflicts _ _ _ _ _) fun staged => ih staged.1 staged.2

/-- A cohort that fails as a whole leaves the table as it was. -/
theorem commitGroupAt_error {e : NativeRuntimeError}
    (h : commitGroupAt engines device batches before = .error e after) : after.conflicts = before.conflicts := by
  have hfails : EStateM.FailsWithin (@SameConflicts hashes σ) (commitGroupAt engines device batches) := by
    have hpure {α : Type} (x : RuntimeM α) : EStateM.Moves (@SameConflicts hashes σ) (.ofExcept x) := .ofExcept x
    unfold commitGroupAt
    refine (hpure _).bind_failsWithin fun _ => (hpure _).bind_failsWithin fun _ => ?_
    refine EStateM.Moves.get.bind_failsWithin fun database => (hpure _).bind_failsWithin fun group => ?_
    refine (hpure _).bind_failsWithin fun admission => ?_
    split
    · exact (EStateM.Moves.pure _).failsWithin
    · refine (hpure _).bind_failsWithin fun initial => ?_
      refine (stageAll_sameConflicts engines _ _ _ _).bind_failsWithin fun staged => ?_
      refine (onStorage_sameConflicts _).bind_failsWithin fun _ => (onWal_sameConflicts _).bind_failsWithin fun _ => ?_
      apply (hpure _).bind_failsWithin
      rintro ⟨root, nextCsn⟩ s e s' hfail
      -- only the assignment is left, and it cannot fail
      cases hfail
  exact hfails before e after h

theorem commitGroupAt_ok (h : commitGroupAt engines device batches before = .ok admission after) :
    ∃ group, admitCohort engines before.storage group before.conflicts before.coordinator.nextCsn
        before.nextTransactionId batches = .ok admission ∧
      (admission.accepted = [] ∧ after = before ∨ after.conflicts = admission.conflicts ∧ ∃ initial staged middle,
        stageAll engines device before.coordinator.nextCsn group initial admission.accepted before =
          .ok staged middle) := by
  simp only [commitGroupAt, EStateM.bind_eq_ok, ofExcept_eq_ok, get_apply, EStateM.Result.ok.injEq] at h
  obtain ⟨_, _, ⟨-, rfl⟩, _, _, ⟨-, rfl⟩, _, _, ⟨rfl, rfl⟩, group, _, ⟨-, rfl⟩, admitted, _, ⟨hcohort, rfl⟩, h⟩ := h
  split at h
  · -- nothing was accepted: the database is as it was
    next hempty =>
    cases h
    exact ⟨group, hcohort, .inl ⟨hempty, rfl⟩⟩
  · simp only [EStateM.bind_eq_ok, ofExcept_eq_ok] at h
    obtain ⟨_, _, ⟨-, rfl⟩, _, _, hstaged, _, _, -, _, _, -, _, _, -, _, _, hpublish, h⟩ := h
    cases hpublish
    cases h
    exact ⟨group, hcohort, .inr ⟨rfl, _, _, _, hstaged⟩⟩

/-- A cohort that commits leaves the private table of its admission. -/
theorem commitGroupAt_publishes (h : commitGroupAt engines device batches before = .ok admission after) :
    Publishes before.conflicts admission.ledger after.conflicts := by
  obtain ⟨group, hcohort, ⟨hempty, rfl⟩ | ⟨hconflicts, -⟩⟩ := commitGroupAt_ok h
  · rw [GroupAdmission.ledger, hempty]
    exact .nil _
  · rw [hconflicts]
    exact admitCohort_publishes hcohort

/-! ## Histories -/

/-- The databases and ledgers that histories reach. -/
inductive History : Database hashes σ → Ledger → Prop
  | start (database : Database hashes σ) : History database []
  | optimistic {state : Type} {database after : Database hashes σ} {ledger : Ledger}
      (engines : Engines hashes σ state) (device : Device) (batch : NativeWriteBatch) (receipt : CommitReceipt) :
      History database ledger → commitOptimisticScheduled engines device batch database = .ok receipt after →
      History after (ledger ++ [(receipt.commitCsn, batch)])
  | optimisticFailed {state : Type} {database after : Database hashes σ} {ledger : Ledger}
      (engines : Engines hashes σ state) (device : Device) (batch : NativeWriteBatch) (e : NativeRuntimeError) :
      History database ledger → commitOptimisticScheduled engines device batch database = .error e after →
      History after ledger
  | cohort {state cohort : Type} {database after : Database hashes σ} {ledger : Ledger}
      (engines : GroupEngines hashes σ state cohort) (device : Device) (batches : List NativeWriteBatch)
      (admission : GroupAdmission state cohort) :
      History database ledger → commitGroupAt engines device batches database = .ok admission after →
      History after (ledger ++ admission.ledger)
  | cohortFailed {state cohort : Type} {database after : Database hashes σ} {ledger : Ledger}
      (engines : GroupEngines hashes σ state cohort) (device : Device) (batches : List NativeWriteBatch)
      (e : NativeRuntimeError) :
      History database ledger → commitGroupAt engines device batches database = .error e after →
      History after ledger
  | other {database after : Database hashes σ} {ledger : Ledger} (commitCsn : Csn) (keys : List WriteKey) :
      History database ledger → after.conflicts = database.conflicts.publishCommitted commitCsn keys →
      History after ledger

/-- Every history is settled. -/
theorem History.settled {database : Database hashes σ} {ledger : Ledger} (h : History database ledger) :
    Settled database.conflicts ledger := by
  induction h with
  | start database => exact .nil _
  | optimistic engines device batch receipt _ hcommit ih =>
    exact ih.publishes (commitOptimisticScheduled_publishes hcommit)
  | optimisticFailed engines device batch e _ hcommit ih =>
    exact ih.extends ((commitOptimisticScheduled_keeps engines batch).error hcommit)
  | cohort engines device batches admission _ hcommit ih => exact ih.publishes (commitGroupAt_publishes hcommit)
  | cohortFailed engines device batches e _ hcommit ih =>
    rw [commitGroupAt_error hcommit]
    exact ih
  | other commitCsn keys _ hafter ih =>
    rw [hafter]
    exact ih.extends (publish_extends _ commitCsn keys)

end Hyphae.Runtime
