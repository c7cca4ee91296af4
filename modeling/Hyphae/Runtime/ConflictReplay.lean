import Hyphae.Runtime.Collections
import Hyphae.Runtime.LoggedBatch

/-!
# Replaying conflicts at open

The conflict table is not stored. Opening a database validates and publishes the keys
of every recovered transaction again, in the order of the log. The keys it reads off
the log are fewer than those the running engine validated and published, so whatever
the engine accepted is accepted again, also when some of it was accepted against a
table that had itself been replayed.
-/

namespace Hyphae.Runtime

open Lib EStateM List

open Mvcc ConflictTable
open Wal (Hashes Device)

variable {conflicts : ConflictTable} {commitCsn latest : Csn} {log : List RecoveredCommit} {recovered : RecoveredCommit}
  {batch : NativeWriteBatch} {keys : List WriteKey} {entries : Ledger}

/-- Validate and publish one recovered transaction. -/
def replayCommit (conflicts : ConflictTable) (recovered : RecoveredCommit) : Except WriteConflict ConflictTable := do
  conflicts.validate recovered.manifest.readCsn (mutationValidationKeys recovered.mutations)
  .ok (conflicts.publishCommitted recovered.manifest.commitCsn (mutationWriteKeys recovered.mutations))

/-- The conflict table of the recovered transactions. -/
def replayConflicts (commits : List RecoveredCommit) : Except WriteConflict ConflictTable :=
  commits.foldlM replayCommit .empty

/-! ## Which logs replay -/

/-- The later transaction validates no key that the earlier one wrote behind the later one's snapshot. -/
def LogRespects (earlier later : RecoveredCommit) : Prop :=
  ∀ key ∈ mutationWriteKeys earlier.mutations, key ∈ mutationValidationKeys later.mutations →
    ¬committedAfter later.manifest.readCsn earlier.manifest.commitCsn

/-- Every writer in the table is a transaction of the log. -/
def WritersFrom (conflicts : ConflictTable) (log : List RecoveredCommit) : Prop :=
  ∀ key latest, conflicts.latest key = some latest →
    ∃ writer ∈ log, key ∈ mutationWriteKeys writer.mutations ∧ writer.manifest.commitCsn = latest

theorem record_latest {key other : WriteKey} (h : (conflicts.record commitCsn key).latest other = some latest) :
    conflicts.latest other = some latest ∨ other = key ∧ latest = commitCsn := by
  unfold record at h
  by_cases heq : other = key
  · subst heq
    simp only [if_true] at h
    cases hprior : conflicts.latest other with
    | none =>
      rw [hprior] at h
      cases h
      exact .inr ⟨rfl, rfl⟩
    | some prior =>
      rw [hprior] at h
      by_cases hle : prior.get ≤ commitCsn.get
      · simp only [hle, if_true, Option.some.injEq] at h
        exact .inr ⟨rfl, h.symm⟩
      · simp only [hle, if_false] at h
        exact .inl h
  · simp only [heq, if_false] at h
    exact .inl h

/-- Publishing adds this commit as a writer of these keys, and nothing else. -/
theorem publishCommitted_latest {other : WriteKey}
    (h : (conflicts.publishCommitted commitCsn keys).latest other = some latest) :
    conflicts.latest other = some latest ∨ other ∈ keys ∧ latest = commitCsn := by
  unfold publishCommitted at h
  induction keys generalizing conflicts with
  | nil => exact .inl h
  | cons key keys ih =>
    rcases ih h with hprior | ⟨hmem, hlatest⟩
    · rcases record_latest hprior with hprior | ⟨rfl, hlatest⟩
      · exact .inl hprior
      · exact .inr ⟨mem_cons_self, hlatest⟩
    · exact .inr ⟨mem_cons_of_mem _ hmem, hlatest⟩

theorem WritersFrom.publish (h : WritersFrom conflicts log) (recovered : RecoveredCommit) :
    WritersFrom (conflicts.publishCommitted recovered.manifest.commitCsn (mutationWriteKeys recovered.mutations))
      (log ++ [recovered]) := by
  intro key latest hlatest
  rcases publishCommitted_latest hlatest with hprior | ⟨hkey, rfl⟩
  · obtain ⟨writer, hwriter, hwritten⟩ := h key latest hprior
    exact ⟨writer, mem_append_left _ hwriter, hwritten⟩
  · exact ⟨recovered, mem_append_right _ (mem_singleton.mpr rfl), hkey, rfl⟩

/-- A transaction that respects every writer of the table replays. -/
theorem replayCommit_succeeds (h : WritersFrom conflicts log)
    (hrespects : ∀ earlier ∈ log, LogRespects earlier recovered) :
    replayCommit conflicts recovered =
      .ok (conflicts.publishCommitted recovered.manifest.commitCsn (mutationWriteKeys recovered.mutations)) := by
  have hvalid : conflicts.validate recovered.manifest.readCsn (mutationValidationKeys recovered.mutations) =
    .ok () := by
    rw [validate_eq_ok]
    intro key hkey latest hlatest
    obtain ⟨writer, hwriter, hwritten, rfl⟩ := h key latest hlatest
    exact hrespects writer hwriter key hwritten hkey
  rw [replayCommit, hvalid, Except.ok_bind]

/-- What a table and the log behind it have in common while a database is open: the table knows every writer of the log,
and no transaction of the log overlooked an earlier one. -/
structure LogSettled (conflicts : ConflictTable) (log : List RecoveredCommit) : Prop where
  recorded : ∀ recovered ∈ log, ∀ key ∈ mutationWriteKeys recovered.mutations,
    conflicts.WrittenSince key recovered.manifest.commitCsn
  ordered : log.Pairwise LogRespects

theorem LogSettled.empty (conflicts : ConflictTable) : LogSettled conflicts [] where
  recorded := by simp
  ordered := .nil

theorem LogSettled.extends {later : ConflictTable} (h : LogSettled conflicts log) (hextends : conflicts.Extends later) :
    LogSettled later log where
  recorded recovered hmem key hkey := hextends key _ (h.recorded recovered hmem key hkey)
  ordered := h.ordered

theorem LogSettled.sublist {kept : List RecoveredCommit} (h : LogSettled conflicts log) (hkept : kept.Sublist log) :
    LogSettled conflicts kept where
  recorded recovered hmem := h.recorded recovered (hkept.subset hmem)
  ordered := h.ordered.sublist hkept

/-- One more transaction that overlooked none of those before it. -/
theorem LogSettled.append (h : LogSettled conflicts log) (hkeys : mutationWriteKeys recovered.mutations ⊆ keys)
    (hrespects : ∀ earlier ∈ log, LogRespects earlier recovered) :
    LogSettled (conflicts.publishCommitted recovered.manifest.commitCsn keys) (log ++ [recovered]) where
  recorded := by
    intro writer hwriter key hkey
    rcases mem_append.mp hwriter with hold | hnew
    · exact (h.recorded writer hold key hkey).publish _ _
    · obtain rfl := mem_singleton.mp hnew
      exact publish_written (hkeys hkey) _
  ordered := by
    rw [pairwise_append]
    refine ⟨h.ordered, pairwise_singleton _ _, ?_⟩
    intro earlier hearlier later hlater
    obtain rfl := mem_singleton.mp hlater
    exact hrespects earlier hearlier

/-- A log without overlooked writers replays, to a table that knows its writers. -/
theorem replayConflicts_succeeds (h : log.Pairwise LogRespects) :
    ∃ conflicts, replayConflicts log = .ok conflicts ∧ LogSettled conflicts log ∧ WritersFrom conflicts log := by
  induction log using reverseRecOn with
  | nil => exact ⟨.empty, rfl, .empty _, fun key latest hlatest => by cases hlatest⟩
  | append_singleton log recovered ih =>
    obtain ⟨hlog, -, hlast⟩ := pairwise_append.mp h
    have hrespects : ∀ earlier ∈ log, LogRespects earlier recovered := fun earlier hearlier =>
      hlast earlier hearlier recovered (mem_singleton.mpr rfl)
    obtain ⟨conflicts, hok, hsettled, hwriters⟩ := ih hlog
    refine ⟨_, ?_, hsettled.append (fun _ hkey => hkey) hrespects, hwriters.publish recovered⟩
    unfold replayConflicts at hok ⊢
    rw [foldlM_append, hok, Except.ok_bind, foldlM_cons, replayCommit_succeeds hwriters hrespects]
    rfl

/-! ## Accepted batches in the log -/

variable {hashes : Hashes} {σ state cohort : Type} {device : Device} {builder : PageBuilder hashes σ state}
  {checks : Engines hashes σ state} {logical : Option state} {staged : NativeWriteBatch}
  {before middle after : Database hashes σ} {prepared : PreparedCommit hashes} {receipt : CommitReceipt}

/-- The transaction recovered from the records of a batch committed at this sequence. -/
def Logs (builder : PageBuilder hashes σ state) (entry : Csn × NativeWriteBatch) (recovered : RecoveredCommit) : Prop :=
  ∃ plan lsn, builder.Plans entry.2 entry.1 plan ∧ recovered = plan.recoveredCommit hashes lsn

/-- A batch that validated against the table overlooks nothing once it is recovered. -/
theorem LogSettled.respects (h : LogSettled conflicts log) (hvalid : validateConflicts conflicts batch = .ok ())
    (hlogs : Logs builder (commitCsn, batch) recovered) : ∀ earlier ∈ log, LogRespects earlier recovered := by
  obtain ⟨plan, lsn, hplan, rfl⟩ := hlogs
  obtain ⟨hread, -, -, hvalidation⟩ := hplan.spec
  intro earlier hearlier key hwritten hvalidated hafter
  obtain ⟨latest, hlatest, hle⟩ := h.recorded earlier hearlier key hwritten
  have hnot := validateConflicts_eq_ok.mp hvalid key (hvalidation hvalidated) latest hlatest
  have hafter : csnValue plan.readCsn < earlier.manifest.commitCsn.get := hafter
  rw [hread] at hafter
  exact hnot (Nat.lt_of_lt_of_le hafter hle)

/-- Batches that are admitted and published one after the other keep table and log settled. -/
theorem LogSettled.publishes {after : ConflictTable} {commits : List RecoveredCommit} (h : LogSettled conflicts log)
    (hentries : Publishes conflicts entries after) (hlogs : List.Forall₂ (Logs builder) entries commits) :
    LogSettled after (log ++ commits) := by
  induction hentries generalizing log commits with
  | nil =>
    cases hlogs
    rwa [append_nil]
  | cons commitCsn hvalid _ ih =>
    cases hlogs with
    | cons hlogged hrest =>
      have hrespects := h.respects hvalid hlogged
      obtain ⟨plan, lsn, hplan, rfl⟩ := hlogged
      obtain ⟨-, hcsn, hwritten, -⟩ := hplan.spec
      have hkeys : mutationWriteKeys (plan.recoveredCommit hashes lsn).mutations ⊆ _ := hwritten
      have happended := h.append hkeys hrespects
      have hmanifest : (plan.recoveredCommit hashes lsn).manifest.commitCsn = commitCsn := hcsn
      rw [hmanifest] at happended
      have htail := ih happended hrest
      rwa [append_assoc] at htail

/-- A cohort that is stopped leaves a part of its batches in the log. -/
theorem Publishes.take {after : ConflictTable} (h : Publishes conflicts entries after) (count : Nat) :
    ∃ middle, Publishes conflicts (entries.take count) middle := by
  induction h generalizing count with
  | nil => exact ⟨_, by rw [take_nil]; exact .nil _⟩
  | cons commitCsn hvalid _ ih =>
    cases count with
    | zero => exact ⟨_, .nil _⟩
    | succ count =>
      obtain ⟨middle, hmiddle⟩ := ih count
      exact ⟨middle, .cons commitCsn hvalid hmiddle⟩

/-- An interactive transaction has validated what it read of the database when it began. -/
theorem prepareInteractive_ok {engines : Engines hashes σ state}
    (h : prepareInteractive engines logical staged before = .ok prepared middle) :
    Prepared engines before prepared middle := by
  simp only [prepareInteractive, bind_eq_ok, ofExcept_eq_ok, get_apply, EStateM.Result.ok.injEq] at h
  obtain ⟨_, _, ⟨rfl, rfl⟩, _, _, ⟨-, rfl⟩, _, _, ⟨-, rfl⟩, _, _, ⟨-, rfl⟩, _, _, ⟨-, rfl⟩, _, _, ⟨-, rfl⟩, _, _,
    ⟨hvalid, rfl⟩, _, _, ⟨-, rfl⟩, _, _, hpages, h⟩ := h
  cases h
  exact ⟨hvalid, rfl, _, rfl, rfl, hpages⟩

theorem onStorage_eq_ok {α : Type} {x : EStateM NativeRuntimeError σ α} {a : α} (h : onStorage x before = .ok a after) :
    ∃ storage, x before.storage = .ok a storage := by
  unfold onStorage at h
  cases hx : x before.storage with
  | ok b storage => rw [hx] at h; cases h; exact ⟨storage, rfl⟩
  | error e storage => rw [hx] at h; cases h

/-! ## Every accepted batch is logged as a transaction -/

theorem Prepared.plans (h : Prepared (builder.engines checks) before prepared middle) :
    ∃ plan, builder.Plans prepared.batch prepared.commitCsn plan ∧
      encodeTransaction hashes plan = .ok prepared.pages.pending := by
  obtain ⟨input, hbatch, hcsn, hpages⟩ := h.pages
  obtain ⟨storage, hbuilt⟩ := onStorage_eq_ok hpages
  rw [← hbatch, ← hcsn]
  exact PageBuilder.commitPages_ok hbuilt

/-! ## Histories of open databases and their logs -/

/-- What a vacuum logs. -/
def vacuumMutation : Mutation where
  engine := .kernel
  opcode := .vacuumPageGeneration
  target := none
  key := []
  value := []
  expiresAtMicros := none

/-- The databases that histories reach, and the transactions in their logs. A database that is not open is `none`. -/
inductive Reached : Option (Database hashes σ) → List RecoveredCommit → Prop
  | created (database : Database hashes σ) : Reached (some database) []
  | optimistic {state : Type} {database after : Database hashes σ} {log : List RecoveredCommit}
      {recovered : RecoveredCommit} (builder : PageBuilder hashes σ state) (checks : Engines hashes σ state)
        (device : Device)
      (batch : NativeWriteBatch) (receipt : CommitReceipt) :
      Reached (some database) log →
      commitOptimisticScheduled (builder.engines checks) device batch database = .ok receipt after →
      Logs builder (receipt.commitCsn, batch) recovered → Reached (some after) (log ++ [recovered])
  | interactive {state : Type} {database middle after : Database hashes σ} {log : List RecoveredCommit}
      {recovered : RecoveredCommit} (builder : PageBuilder hashes σ state) (checks : Engines hashes σ state)
        (device : Device)
      (logical : Option state) (staged : NativeWriteBatch) (prepared : PreparedCommit hashes)
        (receipt : CommitReceipt) :
      Reached (some database) log →
      prepareInteractive (builder.engines checks) logical staged database = .ok prepared middle →
      finishCommit device prepared middle = .ok receipt after →
      Logs builder (receipt.commitCsn, prepared.batch) recovered → Reached (some after) (log ++ [recovered])
  | cohort {state cohort : Type} {database after : Database hashes σ} {log commits : List RecoveredCommit}
      (builder : PageBuilder hashes σ state) (checks : GroupEngines hashes σ state cohort) (device : Device)
      (batches : List NativeWriteBatch) (admission : GroupAdmission state cohort) :
      Reached (some database) log →
      commitGroupAt (builder.groupEngines checks) device batches database = .ok admission after →
      List.Forall₂ (Logs builder) admission.ledger commits → Reached (some after) (log ++ commits)
  -- a vacuum reads the newest sequence and writes one key of its own
  | vacuum {database after : Database hashes σ} {log : List RecoveredCommit} {recovered : RecoveredCommit} :
      Reached (some database) log →
      recovered.mutations = [vacuumMutation] →
      (∀ earlier ∈ log, earlier.manifest.commitCsn.get ≤ csnValue recovered.manifest.readCsn) →
      after.conflicts = database.conflicts.publishCommitted recovered.manifest.commitCsn [vacuumWriteKey] →
      Reached (some after) (log ++ [recovered])
  -- commits that fail before anything is logged
  | optimisticFailed {state : Type} {database after : Database hashes σ} {log : List RecoveredCommit}
      (engines : Engines hashes σ state) (device : Device) (batch : NativeWriteBatch) (e : NativeRuntimeError) :
      Reached (some database) log → commitOptimisticScheduled engines device batch database = .error e after →
      after.wal = database.wal → Reached (some after) log
  | cohortFailed {state cohort : Type} {database after : Database hashes σ} {log : List RecoveredCommit}
      (engines : GroupEngines hashes σ state cohort) (device : Device) (batches : List NativeWriteBatch)
      (e : NativeRuntimeError) :
      Reached (some database) log → commitGroupAt engines device batches database = .error e after →
      after.wal = database.wal → Reached (some after) log
  -- commits that stop once they are logged, before they are published
  | optimisticStopped {state : Type} {database middle : Database hashes σ} {log : List RecoveredCommit}
      {recovered : RecoveredCommit} (builder : PageBuilder hashes σ state) (checks : Engines hashes σ state)
      (batch : NativeWriteBatch) (prepared : PreparedCommit hashes) :
      Reached (some database) log → prepareCommit (builder.engines checks) batch database = .ok prepared middle →
      Logs builder (prepared.commitCsn, batch) recovered → Reached none (log ++ [recovered])
  | interactiveStopped {state : Type} {database middle : Database hashes σ} {log : List RecoveredCommit}
      {recovered : RecoveredCommit} (builder : PageBuilder hashes σ state) (checks : Engines hashes σ state)
      (logical : Option state) (staged : NativeWriteBatch) (prepared : PreparedCommit hashes) :
      Reached (some database) log →
      prepareInteractive (builder.engines checks) logical staged database = .ok prepared middle →
      Logs builder (prepared.commitCsn, prepared.batch) recovered → Reached none (log ++ [recovered])
  | cohortStopped {state cohort : Type} {database : Database hashes σ} {log commits : List RecoveredCommit}
      (builder : PageBuilder hashes σ state) (checks : GroupEngines hashes σ state cohort)
      (group : RootGroupTransaction hashes) (batches : List NativeWriteBatch) (admission : GroupAdmission state cohort)
      (count : Nat) :
      Reached (some database) log →
      admitCohort (builder.groupEngines checks) database.storage group database.conflicts database.coordinator.nextCsn
        database.nextTransactionId batches = .ok admission →
      List.Forall₂ (Logs builder) (admission.ledger.take count) commits → Reached none (log ++ commits)
  | truncated {handle : Option (Database hashes σ)} {dropped log : List RecoveredCommit} :
      Reached handle (dropped ++ log) → Reached handle log
  | closed {database : Database hashes σ} {log : List RecoveredCommit} : Reached (some database) log → Reached none log
  | opened {log : List RecoveredCommit} {database : Database hashes σ} :
      Reached none log → replayConflicts log = .ok database.conflicts → Reached (some database) log

variable {database : Database hashes σ}

/-- Nothing in a log overlooks an earlier writer, and the table of an open database knows the writers. -/
theorem Reached.settled {handle : Option (Database hashes σ)} (h : Reached handle log) :
    log.Pairwise LogRespects ∧ ∀ database ∈ handle, LogSettled database.conflicts log := by
  have hopen : ∀ {database : Database hashes σ} {log : List RecoveredCommit}, LogSettled database.conflicts log →
      log.Pairwise LogRespects ∧ ∀ opened ∈ some database, LogSettled opened.conflicts log := by
    rintro database log hsettled
    exact ⟨hsettled.ordered, fun opened hopened => by cases hopened; exact hsettled⟩
  have hshut : ∀ {log : List RecoveredCommit}, log.Pairwise LogRespects →
      log.Pairwise LogRespects ∧ ∀ opened ∈ (none : Option (Database hashes σ)), LogSettled opened.conflicts log :=
    fun hordered => ⟨hordered, fun opened hopened => by cases hopened⟩
  induction h with
  | created database => exact hopen (.empty _)
  | optimistic builder checks device batch receipt _ hcommit hlogs ih =>
    exact hopen ((ih.2 _ rfl).publishes (commitOptimisticScheduled_publishes hcommit) (.cons hlogs .nil))
  | interactive builder checks device logical staged prepared receipt _ hprepare hfinish hlogs ih =>
    have hprepared := prepareInteractive_ok hprepare
    obtain ⟨_, -, -, hpages⟩ := hprepared.pages
    refine hopen ((ih.2 _ rfl).publishes ?_ (.cons hlogs .nil))
    rw [(finishCommit_ok hfinish).1, hprepared.writeKeys, (onStorage_sameConflicts _).ok hpages]
    exact .cons _ hprepared.valid (.nil _)
  | cohort builder checks device batches admission _ hcommit hlogs ih =>
    exact hopen ((ih.2 _ rfl).publishes (commitGroupAt_publishes hcommit) hlogs)
  | vacuum _ hmutations hnewest hafter ih =>
    refine hopen ?_
    rw [hafter]
    refine (ih.2 _ rfl).append ?_ ?_
    · rw [hmutations]
      exact fun key hkey => hkey
    · intro earlier hearlier key _ _ hlater
      exact absurd hlater (Nat.not_lt.mpr (hnewest earlier hearlier))
  | optimisticFailed engines device batch e _ hcommit _ ih =>
    exact hopen ((ih.2 _ rfl).extends ((commitOptimisticScheduled_keeps engines batch).error hcommit))
  | cohortFailed engines device batches e _ hcommit _ ih =>
    refine hopen ?_
    rw [commitGroupAt_error hcommit]
    exact ih.2 _ rfl
  | optimisticStopped builder checks batch prepared _ hprepare hlogs ih =>
    obtain ⟨rfl, hprepared⟩ := prepareCommit_ok hprepare
    exact hshut ((ih.2 _ rfl).publishes (.cons _ hprepared.valid (.nil _)) (.cons hlogs .nil)).ordered
  | interactiveStopped builder checks logical staged prepared _ hprepare hlogs ih =>
    exact hshut ((ih.2 _ rfl).publishes (.cons _ (prepareInteractive_ok hprepare).valid (.nil _))
      (.cons hlogs .nil)).ordered
  | cohortStopped builder checks group batches admission count _ hadmit hlogs ih =>
    obtain ⟨middle, hpublishes⟩ := (admitCohort_publishes hadmit).take count
    exact hshut ((ih.2 _ rfl).publishes hpublishes hlogs).ordered
  | truncated _ ih =>
    refine ⟨ih.1.sublist (sublist_append_right _ _), ?_⟩
    exact fun database hdatabase => (ih.2 database hdatabase).sublist (sublist_append_right _ _)
  | closed _ ih => exact hshut ih.1
  | opened _ hreplay ih =>
    obtain ⟨conflicts, hok, hsettled, -⟩ := replayConflicts_succeeds ih.1
    rw [hok] at hreplay
    cases hreplay
    exact hopen hsettled

/-- Opening never finds a conflict in what was accepted. -/
theorem conflict_replay_succeeds {handle : Option (Database hashes σ)} {log : List RecoveredCommit}
    (h : Reached handle log) : ∃ conflicts, replayConflicts log = .ok conflicts := by
  obtain ⟨conflicts, hok, -⟩ := replayConflicts_succeeds h.settled.1
  exact ⟨conflicts, hok⟩

/-- Engines that build the same pages for every batch. -/
def constantBuilder : PageBuilder Wal.Session.constantHashes Unit Unit where
  build _ := pure { roots := fun _ => first, blobGeneration := 0, references := .empty, logicalTimeMicros := 0 }
  analyze _ := none
  publish _ _ _ := .error .other

/-- What is logged for the scalar is its write, on the snapshot of the batch. -/
theorem setScalar_logged {readCsn : Option Csn} {plan : TransactionPlan}
    (h : constantBuilder.Plans { setScalar with readCsn } commitCsn plan) :
    plan.readCsn = readCsn ∧ plan.commitCsn = commitCsn ∧
      ∃ value, plan.mutations = [⟨.structure, .setValue, none, [7], value, none⟩] := by
  obtain ⟨input, built, hbatch, rfl, hplan⟩ := h
  rw [PageBuilder.plan, hbatch] at hplan
  cases hplan
  exact ⟨rfl, rfl, _, rfl⟩

/-- A commit of the scalar that stops once it is logged. -/
theorem setScalar_stops {database : Database Wal.Session.constantHashes Unit} (readCsn : Option Csn) (commitCsn : Csn)
    (h : Reached (some database) log)
    (hprepares : (match prepareCommit (constantBuilder.engines idleEngines) { setScalar with readCsn } database with
      | .ok prepared _ => decide (prepared.commitCsn = commitCsn)
      | .error _ _ => false) = true) :
    ∃ recovered, Reached (none : Option (Database Wal.Session.constantHashes Unit)) (log ++ [recovered]) ∧
      recovered.manifest.readCsn = readCsn ∧ recovered.manifest.commitCsn = commitCsn ∧
      ∃ value, recovered.mutations = [⟨.structure, .setValue, none, [7], value, none⟩] := by
  split at hprepares
  · rename_i prepared middle hprepare
    obtain ⟨hbatch, hprepared⟩ := prepareCommit_ok hprepare
    obtain ⟨plan, hplan, -⟩ := hprepared.plans
    rw [hbatch, of_decide_eq_true hprepares] at hplan
    refine ⟨plan.recoveredCommit Wal.Session.constantHashes first, ?_, setScalar_logged hplan⟩
    exact .optimisticStopped constantBuilder idleEngines _ prepared h hprepare
      ⟨plan, first, by rwa [of_decide_eq_true hprepares], rfl⟩
  · cases hprepares

/-- A database that was opened again behind the first commit of the scalar. -/
def reopenedDatabase : Database Wal.Session.constantHashes Unit :=
  { writtenDatabase with coordinator := ⟨.lone _ first first .empty, 2, none⟩, nextTransactionId := 2 }

theorem reopenedDatabase_reached :
    ∃ recovered, Reached (some reopenedDatabase) [recovered] ∧ recovered.manifest.commitCsn = first ∧
      ∃ value, recovered.mutations = [⟨.structure, .setValue, none, [7], value, none⟩] := by
  obtain ⟨recovered, hreached, hread, hcsn, value, hmutations⟩ :=
    setScalar_stops none first (.created freshDatabase) (by decide +kernel)
  refine ⟨recovered, .opened hreached ?_, hcsn, value, hmutations⟩
  simp only [replayConflicts, foldlM_cons, foldlM_nil, replayCommit, hread, hcsn, hmutations]
  rfl

/-- The scalar is committed again, on the snapshot of its first commit. -/
theorem conflict_replay_succeeds_setScalar :
    ∃ earlier later : RecoveredCommit,
      Reached (none : Option (Database Wal.Session.constantHashes Unit)) [earlier, later] ∧
      later.manifest.readCsn = some earlier.manifest.commitCsn ∧
      (∃ key ∈ mutationWriteKeys earlier.mutations, key ∈ mutationValidationKeys later.mutations) ∧
      ∃ conflicts, replayConflicts [earlier, later] = .ok conflicts := by
  obtain ⟨earlier, hopened, hcsn, value, hearlier⟩ := reopenedDatabase_reached
  obtain ⟨later, hreached, hread, -, value', hlater⟩ :=
    setScalar_stops (some first) (.ofSucc 1) hopened (by decide +kernel)
  refine ⟨earlier, later, hreached, by rw [hread, hcsn], ?_, conflict_replay_succeeds hreached⟩
  rw [hearlier, hlater]
  exact ⟨_, mem_cons_self, mem_cons_self⟩

/-! ## No lost updates -/

/-- The mutation writes the key it is about. -/
def WritesItself (mutation : Mutation) : Prop :=
  mutation.opcode ≠ .annDeltaAuthorityV2 ∧ mutation.opcode ≠ .vacuumPageGeneration

def SameKey (written mutation : Mutation) : Prop :=
  WritesItself written ∧ WritesItself mutation ∧ identityWriteKey written = identityWriteKey mutation

theorem identityWriteKey_mem {mutation : Mutation} {publishAnnAuthority : Bool} {pointIndexes : List ObjectId}
    {mutations : List Mutation} (hmem : mutation ∈ mutations) (h : WritesItself mutation) :
    identityWriteKey mutation ∈ mutationConflictKeysWithPoints mutations publishAnnAuthority pointIndexes := by
  refine mem_flatMap.mpr ⟨mutation, hmem, ?_⟩
  unfold conflictKeysOf
  split
  · exact absurd ‹_› h.1
  · exact absurd ‹_› h.2
  · exact mem_cons_self

/-- The first committer wins, across restarts: no logged transaction writes a key over an earlier one that its snapshot
does not have, and an open database refuses every batch that would. -/
theorem first_committer_wins {handle : Option (Database hashes σ)} {log : List RecoveredCommit}
    (h : Reached handle log) :
    (log.Pairwise fun earlier later => ∀ written ∈ earlier.mutations, ∀ mutation ∈ later.mutations,
      SameKey written mutation → earlier.manifest.commitCsn.get ≤ csnValue later.manifest.readCsn) ∧
    ∀ database ∈ handle, ∀ earlier ∈ log, ∀ written ∈ earlier.mutations, ∀ batch : NativeWriteBatch,
      ∀ mutation ∈ batch.mutations, SameKey written mutation →
        csnValue batch.readCsn < earlier.manifest.commitCsn.get → RefusedForConflict database batch := by
  obtain ⟨hordered, hopen⟩ := h.settled
  have hvalidated : ∀ {mutations : List Mutation} {written mutation : Mutation}, mutation ∈ mutations →
      SameKey written mutation → identityWriteKey written ∈ mutationValidationKeys mutations := by
    intro mutations written mutation hmem hsame
    rw [hsame.2.2]
    exact mem_append_left _ (mem_append_left _ (mem_append_left _ (identityWriteKey_mem hmem hsame.2.1)))
  constructor
  · refine hordered.imp fun hrespects written hwritten mutation hmutation hsame => Nat.not_lt.mp ?_
    exact hrespects _ (identityWriteKey_mem hwritten hsame.1) (hvalidated hmutation hsame)
  · intro database hdatabase earlier hearlier written hwritten batch mutation hmutation hsame hafter
    have hrecorded := (hopen database hdatabase).recorded earlier hearlier _ (identityWriteKey_mem hwritten hsame.1)
    exact refused_of_written (mem_append_left _ (mem_append_left _ (hvalidated hmutation hsame))) hrecorded hafter

/-- A committed scalar is not overwritten from the snapshot before it. -/
theorem first_committer_wins_setScalar :
    ∃ (database : Database Wal.Session.constantHashes Unit) (recovered : RecoveredCommit),
      Reached (some database) [recovered] ∧ RefusedForConflict database setScalar := by
  obtain ⟨recovered, hreached, hcsn, value, hmutations⟩ := reopenedDatabase_reached
  have hmem : ⟨.structure, .setValue, none, [7], value, none⟩ ∈ recovered.mutations := by simp [hmutations]
  refine ⟨reopenedDatabase, recovered, hreached, ?_⟩
  refine (first_committer_wins hreached).2 _ rfl _ mem_cons_self _ hmem _ _ mem_cons_self
    ⟨⟨nofun, nofun⟩, ⟨nofun, nofun⟩, rfl⟩ ?_
  rw [hcsn]
  decide

end Hyphae.Runtime
