import Hyphae.Runtime.Histories

/-!
# Members of collections against the life of the collection

Writing a hash field or a set member depends on the key that owns the collection, and
creating, deleting or expiring the collection writes it. So a member is never written
over a change of its collection that the writer has not seen. Sorted-set members do
not depend on that key, and no change of a collection depends on its members.
-/

namespace Hyphae.Runtime

open Lib List Except

open Mvcc
open Wal (Hashes Device)

variable {hashes : Hashes} {σ : Type} {batch : NativeWriteBatch} {database : Database hashes σ} {key : WriteKey}
  {commit : Csn}

/-- Whoever commits the batch is told that it conflicts, unless an earlier check refuses it. -/
structure RefusedForConflict (database : Database hashes σ) (batch : NativeWriteBatch) : Prop where
  single : ∀ {state : Type} (engines : Engines hashes σ state) (device : Device),
    ∃ e, commitOptimisticScheduled engines device batch database = .error e database ∧
      ∀ transaction, validateOptimisticBatchPreflight engines batch = .ok () →
        database.coordinator.beginWrite = .ok transaction →
        validateRetentionFloor batch.readCsn transaction.base = .ok () → ∃ conflict, e = .writeConflict conflict
  cohort : ∀ {state cohort : Type} (engines : GroupEngines hashes σ state cohort) (base : RootSet hashes)
    (conflicts : ConflictTable), database.conflicts.Extends conflicts →
    ∃ e, groupAdmissionRejection engines base conflicts batch = .error e ∧
      (batch.durability = .group → engines.validateFormat batch = .ok () →
        engines.validateGroupShape base batch = .ok () → batch.mutations ≠ [] →
        validateRetentionFloor batch.readCsn base = .ok () → ∃ conflict, e = .writeConflict conflict)

theorem validateConflicts_of_written {conflicts : ConflictTable} (hkey : key ∈ writeBatchValidationKeys batch)
    (hwritten : conflicts.WrittenSince key commit) (hafter : committedAfter batch.readCsn commit) :
    ∃ conflict, validateConflicts conflicts batch = .error (.writeConflict conflict) := by
  obtain ⟨conflict, hconflict⟩ := ConflictTable.validate_of_written hkey hwritten hafter
  refine ⟨conflict, ?_⟩
  rw [validateConflicts, hconflict]
  rfl

/-- A batch that is not admitted changes nothing. -/
theorem commitOptimisticScheduled_of_refused {state : Type} {engines : Engines hashes σ state} {device : Device}
    {e : NativeRuntimeError} (h : admitOptimistic engines database.coordinator database.conflicts batch = .error e) :
    commitOptimisticScheduled engines device batch database = .error e database := by
  unfold commitOptimisticScheduled prepareCommit
  simp only [EStateM.bind_apply, EStateM.get_apply, h, EStateM.ofExcept, EStateM.throw_apply]

/-- A batch that validates a key written behind its snapshot is refused. -/
theorem refused_of_written (hkey : key ∈ writeBatchValidationKeys batch)
    (hwritten : database.conflicts.WrittenSince key commit) (hafter : committedAfter batch.readCsn commit) :
    RefusedForConflict database batch where
  single := by
    intro state engines device
    obtain ⟨conflict, hconflict⟩ := validateConflicts_of_written hkey hwritten hafter
    cases hadmitted : admitOptimistic engines database.coordinator database.conflicts batch with
    | ok transaction =>
      rw [(admitOptimistic_ok hadmitted).2.2.2] at hconflict
      cases hconflict
    | error e =>
      refine ⟨e, commitOptimisticScheduled_of_refused hadmitted, ?_⟩
      intro transaction hpreflight hbegin hretained
      have hbegun : liftMvcc database.coordinator.beginWrite = .ok transaction := by rw [hbegin]; rfl
      simp only [admitOptimistic, hpreflight, hbegun, hretained, hconflict, ok_bind, error_bind] at hadmitted
      cases hadmitted
      exact ⟨conflict, rfl⟩
  cohort := by
    intro state cohort engines base conflicts hextends
    obtain ⟨conflict, hconflict⟩ := validateConflicts_of_written hkey (hextends key commit hwritten) hafter
    cases hadmitted : groupAdmissionRejection engines base conflicts batch with
    | ok keys =>
      rw [(groupAdmissionRejection_ok hadmitted).1] at hconflict
      cases hconflict
    | error e =>
      refine ⟨e, rfl, ?_⟩
      intro hgroup hformat hshape hmutations hretained
      simp only [groupAdmissionRejection, hgroup, hformat, hshape, hretained, hconflict, ok_bind,
        error_bind, ne_eq, not_true, failIf_of_not not_false, failIf_of_not hmutations] at hadmitted
      cases hadmitted
      exact ⟨conflict, rfl⟩

/-! ## What depends on its own key only -/

/-- The key a mutation is about. -/
def identityWriteKey (mutation : Mutation) : WriteKey where
  engine := mutation.engine
  object := mutation.target
  key := mutationIdentity mutation

def freshDatabase : Database Wal.Session.constantHashes Unit where
  coordinator := .new _ first
  conflicts := .empty
  wal := .create
  nextTransactionId := 1
  storage := ()

theorem reliableDevice_works : Wal.WalFile.Works reliableDevice := ⟨fun _ => Nat.le_refl _, rfl⟩

end Hyphae.Runtime
