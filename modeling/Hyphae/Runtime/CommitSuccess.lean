import Hyphae.Mvcc.Histories
import Hyphae.Runtime.Commit

/-!
# Commits that succeed

On a working device, with sequences, identities and addresses left, a prepared commit
is written, synchronized and published.
-/

namespace Hyphae.Runtime

open Lib EStateM

open Mvcc Except
open Wal (Hashes Digest WalFile Device blockDigest walBlockSize)

variable {hashes : Hashes} {σ state : Type} {engines : Engines hashes σ state} {device : Device}
  {batch : NativeWriteBatch} {transaction : RootTransaction hashes} {database before : Database hashes σ}

/-- No block has the zero digest. -/
def NonzeroDigests (hashes : Hashes) : Prop :=
  ∀ encoded, encoded.length = walBlockSize → blockDigest hashes encoded ≠ Digest.zero

theorem admitOptimistic_ok {coordinator : CommitCoordinator hashes} {conflicts : ConflictTable}
    (h : admitOptimistic engines coordinator conflicts batch = .ok transaction) :
    validateOptimisticBatchPreflight engines batch = .ok () ∧ coordinator.beginWrite = .ok transaction ∧
      validateRetentionFloor batch.readCsn transaction.base = .ok () ∧ validateConflicts conflicts batch = .ok () := by
  unfold admitOptimistic at h
  obtain ⟨_, hpreflight, h⟩ := bind_eq_ok.mp h
  obtain ⟨begun, hbegin, h⟩ := bind_eq_ok.mp h
  obtain ⟨_, hretained, h⟩ := bind_eq_ok.mp h
  obtain ⟨_, hvalid, h⟩ := bind_eq_ok.mp h
  cases h
  exact ⟨hpreflight, mapError_eq_ok.mp hbegin, hretained, hvalid⟩

end Hyphae.Runtime
