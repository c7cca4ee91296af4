import Hyphae.Mvcc.RootSet

/-!
# The commit coordinator

The coordinator holds the visible root set and the next commit sequence. One writer
at a time holds its mutex: a transaction of a single commit, or a group whose root
sets stay private until the last of them is published. A next sequence of zero means
that the sequences are exhausted.
-/

namespace Hyphae.Mvcc

open Lib

open Wal (Hashes)

variable (hashes : Hashes)

/-- Private root write set of one commit. -/
structure RootTransaction where
  base : RootSet hashes
  roots : OrderedMap RootSlot PageId
  blobGeneration : Option (BitVec 64)
  pageGeneration : Option PageGeneration
  retentionFloorCsn : Option Csn

/-- Private root chain of one durability cohort. -/
structure RootGroupTransaction where
  initial : RootSet hashes
  staged : List (RootSet hashes)

/-- Whoever holds the writer mutex. -/
inductive Writer
  | single (transaction : RootTransaction hashes)
  | group (group : RootGroupTransaction hashes)

/-- The published root set, the next sequence, and the writer that holds the mutex. -/
structure CommitCoordinator where
  current : RootSet hashes
  nextCsn : Nat
  writer : Option (Writer hashes)

/-- Immutable read snapshot. -/
structure Snapshot where
  visibleCsn : Option Csn
  catalogVersion : CatalogVersion
  logicalTimeMicros : BitVec 64
  roots : RootSet hashes

variable {hashes}

namespace RootTransaction

variable (transaction : RootTransaction hashes)

def setRoot (slot : RootSlot) (page : PageId) : RootTransaction hashes :=
  { transaction with roots := transaction.roots.insert slot page }

def setBlobGeneration (generation : BitVec 64) : RootTransaction hashes :=
  { transaction with blobGeneration := some generation }

def setPageGeneration (generation : PageGeneration) : RootTransaction hashes :=
  { transaction with pageGeneration := some generation }

def setRetentionFloor (floor : Csn) : RootTransaction hashes :=
  { transaction with retentionFloorCsn := some floor }

/-- The page storage a commit may leave: that of its base, or the next generation with the floor at the commit. -/
def validTransition (base : RootSet hashes) (pageGeneration : PageGeneration) (floor commitCsn : Csn) : Prop :=
  if base.visibleCsn = none then pageGeneration = first ∧ floor = commitCsn
  else if pageGeneration ≠ base.pageGeneration then
    checkedNext base.pageGeneration = some pageGeneration ∧ floor = commitCsn
  else base.retentionFloorCsn = some floor

instance (base : RootSet hashes) (pageGeneration : PageGeneration) (floor commitCsn : Csn) :
    Decidable (validTransition base pageGeneration floor commitCsn) := by
  unfold validTransition
  infer_instance

/-- The root set to publish and the next sequence after it. -/
def commit (nextCsn : Nat) (catalogVersion : CatalogVersion)
    (walAnchor : WalAnchor) : MvccM (RootSet hashes × Nat) := do
  .failIf (walAnchor.digest = .zero) .invalidWalAnchor
  let commitCsn ← .okOr (NonZeroUInt.new 64 nextCsn) .csnExhausted
  let next ← .okOr (checkedAdd nextCsn 1) .csnExhausted
  let base := transaction.base
  let pageGeneration := transaction.pageGeneration.getD base.pageGeneration
  let floor := (transaction.retentionFloorCsn.or base.retentionFloorCsn).getD commitCsn
  .failIf (¬validTransition base pageGeneration floor commitCsn) .invalidStorageTransition
  let root ← RootSet.committedWithStorage hashes commitCsn catalogVersion walAnchor transaction.roots
    (transaction.blobGeneration.getD base.blobGeneration) pageGeneration floor
  .ok (root, next)

end RootTransaction

namespace RootGroupTransaction

variable (group : RootGroupTransaction hashes)

/-- The latest private root set, or the one the group was admitted on. -/
def baseRoots : RootSet hashes := group.staged.getLast?.getD group.initial

def commitCsnAtOffset (nextCsn offset : Nat) : MvccM Csn := do
  let sequence ← .okOr (checkedAdd nextCsn offset) .csnExhausted
  .okOr (NonZeroUInt.new 64 sequence) .csnExhausted

def nextCommitCsn (nextCsn : Nat) : MvccM Csn :=
  commitCsnAtOffset nextCsn group.staged.length

/-- Add one root set to the private chain. -/
def stageCommit (nextCsn : Nat) (catalogVersion : CatalogVersion)
    (walAnchor : WalAnchor) (roots : OrderedMap RootSlot PageId) (blobGeneration : BitVec 64) :
    MvccM (RootGroupTransaction hashes) := do
  let base := group.baseRoots
  let commitCsn ← group.nextCommitCsn nextCsn
  let floor := base.retentionFloorCsn.getD commitCsn
  let root ← RootSet.committedWithStorage hashes commitCsn catalogVersion walAnchor roots blobGeneration
    base.pageGeneration floor
  .ok { group with staged := group.staged ++ [root] }

/-- The final root set and the next sequence after it. -/
def publish : MvccM (RootSet hashes × Nat) := do
  let published ← .okOr group.staged.getLast? .emptyGroup
  let visible ← .okOr published.visibleCsn .uncommittedRootSet
  let next ← .okOr (checkedAdd visible.get 1) .csnExhausted
  .ok (published, next)

end RootGroupTransaction

namespace CommitCoordinator

variable (coordinator : CommitCoordinator hashes)

def new (hashes : Hashes) (catalogVersion : CatalogVersion) : CommitCoordinator hashes :=
  { current := .genesis hashes catalogVersion, nextCsn := 1, writer := none }

def restore (root : RootSet hashes) : MvccM (CommitCoordinator hashes) := do
  let visible ← .okOr root.visibleCsn .uncommittedRootSet
  .failIf (root.walAnchor = none) .uncommittedRootSet
  .ok { current := root, nextCsn := (checkedAdd visible.get 1).getD 0, writer := none }

def snapshot (logicalTimeMicros : BitVec 64) : Snapshot hashes where
  visibleCsn := coordinator.current.visibleCsn
  catalogVersion := coordinator.current.catalogVersion
  logicalTimeMicros
  roots := coordinator.current

def beginWrite : MvccM (RootTransaction hashes) := do
  .failIf (coordinator.nextCsn = 0) .csnExhausted
  let base := coordinator.current
  .ok { base, roots := base.roots, blobGeneration := none, pageGeneration := none, retentionFloorCsn := none }

def beginGroupWrite : MvccM (RootGroupTransaction hashes) := do
  .failIf (coordinator.nextCsn = 0) .csnExhausted
  .ok { initial := coordinator.current, staged := [] }

/-- One call by whoever uses the coordinator. -/
inductive Op
  | beginWrite
  | setRoot (slot : RootSlot) (page : PageId)
  | setBlobGeneration (generation : BitVec 64)
  | setPageGeneration (generation : PageGeneration)
  | setRetentionFloor (floor : Csn)
  | commit (catalogVersion : CatalogVersion) (walAnchor : WalAnchor)
  | beginGroupWrite
  | stageCommit (catalogVersion : CatalogVersion) (walAnchor : WalAnchor) (roots : OrderedMap RootSlot PageId)
      (blobGeneration : BitVec 64)
  | publish
  | drop

/-- What a call returned, and the coordinator after it. -/
abbrev Outcome (hashes : Hashes) := MvccM Unit × CommitCoordinator hashes

/-- A fallible call that hands the writer back. -/
def hold (kept : Option (Writer hashes)) :
    MvccM (Writer hashes) → Outcome hashes
  | .ok writer => (.ok (), { coordinator with writer := some writer })
  | .error e => (.error e, { coordinator with writer := kept })

/-- A call that consumes the writer and publishes on success. -/
def install : MvccM (RootSet hashes × Nat) → Outcome hashes
  | .ok (root, next) => (.ok (), { current := root, nextCsn := next, writer := none })
  | .error e => (.error e, { coordinator with writer := none })

/-- One call. A call that waits for the mutex, or that no writer of its kind can make, is no step. -/
def step (op : Op) : Option (Outcome hashes) :=
  match coordinator.writer, op with
  | none, .beginWrite => some (coordinator.hold none (coordinator.beginWrite.map .single))
  | none, .beginGroupWrite => some (coordinator.hold none (coordinator.beginGroupWrite.map .group))
  | some (.single transaction), .setRoot slot page =>
    some (coordinator.hold none (.ok (.single (transaction.setRoot slot page))))
  | some (.single transaction), .setBlobGeneration generation =>
    some (coordinator.hold none (.ok (.single (transaction.setBlobGeneration generation))))
  | some (.single transaction), .setPageGeneration generation =>
    some (coordinator.hold none (.ok (.single (transaction.setPageGeneration generation))))
  | some (.single transaction), .setRetentionFloor floor =>
    some (coordinator.hold none (.ok (.single (transaction.setRetentionFloor floor))))
  | some (.single transaction), .commit catalogVersion walAnchor =>
    some (coordinator.install (transaction.commit coordinator.nextCsn catalogVersion walAnchor))
  | some (.group group), .stageCommit catalogVersion walAnchor roots blobGeneration =>
    -- a refused root set leaves the group as it was
    some (coordinator.hold (some (.group group))
      ((group.stageCommit coordinator.nextCsn catalogVersion walAnchor roots blobGeneration).map .group))
  | some (.group group), .publish => some (coordinator.install group.publish)
  | some _, .drop => some (.ok (), { coordinator with writer := none })
  | _, _ => none

end CommitCoordinator

end Hyphae.Mvcc
