import Hyphae.Runtime.Commit
import Hyphae.Wal.History

/-!
# Commits that fail for their own request only

The log, the visible root set, the conflict table and the next transaction identity
change only behind the append. From there on a commit fails only with errors that stop
the scheduler, so a failure it survives has left all four as they were.
-/

namespace Hyphae.Runtime

open Lib

open Mvcc
open Wal (Hashes WalFile WalError Device)

variable {hashes : Hashes} {σ state α : Type} {engines : Engines hashes σ state} {device : Device}
  {e : NativeRuntimeError}

/-- Everything but the page and blob storage is the same. -/
structure SameLedger (before after : Database hashes σ) : Prop where
  wal : after.wal = before.wal
  coordinator : after.coordinator = before.coordinator
  conflicts : after.conflicts = before.conflicts
  nextTransactionId : after.nextTransactionId = before.nextTransactionId

instance : IsPreorder (Database hashes σ) SameLedger where
  refl _ := ⟨rfl, rfl, rfl, rfl⟩
  trans _ _ _ h h' := ⟨h'.wal.trans h.wal, h'.coordinator.trans h.coordinator, h'.conflicts.trans h.conflicts,
    h'.nextTransactionId.trans h.nextTransactionId⟩

theorem onStorage_moves (x : EStateM NativeRuntimeError σ α) : EStateM.Moves (@SameLedger hashes σ) (onStorage x) := by
  intro database
  unfold onStorage
  cases x database.storage with
  | ok a storage | error e storage => exact ⟨rfl, rfl, rfl, rfl⟩

/-- Nothing before the append touches the log or what is visible. -/
theorem prepareCommit_moves (batch : NativeWriteBatch) :
    EStateM.Moves (@SameLedger hashes σ) (prepareCommit engines batch) := by
  refine .bind .get fun database => .bind (.ofExcept _) fun transaction => .bind (.ofExcept _) fun state => ?_
  refine .bind (.ofExcept _) fun transactionId => .bind (.ofExcept _) fun _ => .bind (.ofExcept _) fun commitCsn => ?_
  refine .bind (.ofExcept _) fun _ => .bind (.ofExcept _) fun catalogVersion => ?_
  exact .bind (onStorage_moves _) fun pages => .pure _

theorem onWal_error {x : EStateM WalError WalFile α} {before after : Database hashes σ}
    (h : onWal x before = .error e after) : schedulerRequestLocal e = false := by
  unfold onWal at h
  split at h
  · cases h
  · cases h
    rfl

theorem liftMvcc_error {x : MvccM α} (h : liftMvcc x = .error e) : schedulerRequestLocal e = false := by
  cases x with
  | ok a => cases h
  | error e' =>
    cases h
    rfl

/-- The computation fails only with errors that stop the scheduler. -/
def Stops {α : Type} (x : DatabaseM hashes σ α) : Prop :=
  ∀ e, schedulerRequestLocal e = true → EStateM.Avoids e x

theorem Stops.bind {β : Type} {x : DatabaseM hashes σ α}
    {f : α → DatabaseM hashes σ β} (hx : Stops x) (hf : ∀ a, Stops (f a)) :
    Stops (x >>= f) := fun e he => (hx e he).bind fun a => hf a e he

theorem Stops.pure (a : α) : Stops (Pure.pure a : DatabaseM hashes σ α) :=
  fun e _ => EStateM.Avoids.pure e a

theorem Stops.onWal (x : EStateM WalError WalFile α) : Stops (Runtime.onWal x : DatabaseM hashes σ α) := by
  intro e he before after h
  rw [onWal_error h] at he
  cases he

theorem Stops.ofExcept {x : RuntimeM α} (h : ∀ e, x = .error e → schedulerRequestLocal e = false) :
    Stops (.ofExcept x : DatabaseM hashes σ α) := by
  intro e he
  apply EStateM.Avoids.ofExcept
  intro hx
  rw [h e hx] at he
  cases he

theorem Stops.get : Stops (MonadState.get : DatabaseM hashes σ _) := by
  intro e _ s s' h
  cases h

theorem Stops.modify (f : Database hashes σ → Database hashes σ) : Stops (modify f : DatabaseM hashes σ PUnit) := by
  intro e _ s s' h
  cases h

theorem synchronizeWal_stops (durability : DurabilityClass) :
    Stops (synchronizeWal device durability : DatabaseM hashes σ Unit) := by
  unfold synchronizeWal
  split
  · exact Stops.pure ()
  · exact Stops.onWal _

/-- From the append on, every failure stops the scheduler. -/
theorem finishCommit_stops (prepared : PreparedCommit hashes) : Stops (σ := σ) (finishCommit device prepared) := by
  unfold finishCommit
  apply (Stops.onWal _).bind
  intro receipts
  apply (synchronizeWal_stops _).bind
  intro _
  apply Stops.bind
  · apply Stops.ofExcept
    rintro e h
    obtain ⟨-, rfl⟩ := Except.okOr_eq_error.mp h
    rfl
  intro block
  apply (Stops.ofExcept fun _ => liftMvcc_error).bind
  intro anchor
  apply Stops.get.bind
  intro database
  apply (Stops.ofExcept fun _ => liftMvcc_error).bind
  rintro ⟨root, nextCsn⟩
  apply (Stops.modify _).bind
  intro _
  apply Stops.bind
  · apply Stops.ofExcept
    rintro e h
    obtain ⟨-, rfl⟩ := Except.failIf_eq_error.mp h
    rfl
  intro _
  apply (Stops.modify _).bind
  intro _
  exact Stops.pure _

/-- A commit that fails for its own request only leaves the log, the visible root set, the conflict table and the next
transaction identity as they were, so every later commit goes as without it, on the page and blob files it left. -/
theorem requestLocal_failure_leaves_ledger (engines : Engines hashes σ state) (device : Device)
    (batch : NativeWriteBatch) (before after : Database hashes σ) (e : NativeRuntimeError)
    (h : commitOptimisticScheduled engines device batch before = .error e after)
    (hlocal : schedulerRequestLocal e = true) :
    SameLedger before after ∧ ∀ next, commitOptimisticScheduled engines device next after =
      commitOptimisticScheduled engines device next { before with storage := after.storage } := by
  have hsame : SameLedger before after := by
    unfold commitOptimisticScheduled at h
    rcases EStateM.bind_eq_error.mp h with hprepare | ⟨prepared, middle, -, hfinish⟩
    · exact (prepareCommit_moves batch).error hprepare
    · exact absurd hfinish (finishCommit_stops prepared e hlocal middle after)
  refine ⟨hsame, fun next => ?_⟩
  rw [← hsame.wal, ← hsame.coordinator, ← hsame.conflicts, ← hsame.nextTransactionId]

/-- Engines that accept everything and write nothing. -/
def idleEngines : Engines Wal.Session.constantHashes Unit Unit where
  validateOwnership _ := .ok ()
  validateFormat _ := .ok ()
  validateShape _ := .ok ()
  loadState _ _ := .ok ()
  applyMutations state _ := .ok state
  commitPages _ := pure { roots := [], blobGeneration := 0, pending := [] }

/-- A device on which every write succeeds. -/
def reliableDevice : Device := { accepts := fun _ => Wal.walBlockSize, truncates := true, synchronizes := true }

/-- Sets one scalar, on a snapshot before the first commit. -/
def setScalar : NativeWriteBatch where
  readCsn := none
  mutations := [⟨.structure, .setValue, none, [7], [1], none⟩]
  durability := .strict
  mode := .physicalAllEngineDelta
  dirtyCatalog := false
  legacyAnnIndexes := []
  uniqueProbes := []

/-- A fresh database whose table knows a later writer of the same scalar. -/
def writtenDatabase : Database Wal.Session.constantHashes Unit where
  coordinator := .new _ first
  conflicts := ConflictTable.empty.publishCommitted first (writeBatchWriteKeys setScalar)
  wal := .create
  nextTransactionId := 1
  storage := ()

theorem requestLocal_failure_leaves_ledger_setScalar :
    ∃ e after, commitOptimisticScheduled idleEngines reliableDevice setScalar writtenDatabase = .error e after ∧
      SameLedger writtenDatabase after := by
  refine ⟨.writeConflict ⟨⟨.structure, none, [0, 7]⟩, first, none⟩, writtenDatabase, rfl, ?_⟩
  exact (requestLocal_failure_leaves_ledger idleEngines reliableDevice setScalar writtenDatabase writtenDatabase _ rfl
    rfl).1

end Hyphae.Runtime
