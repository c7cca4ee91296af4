import Hyphae.Mvcc.RootSet

/-!
# The latest writer of every key

The conflict table keeps, for every logical key, the latest commit that wrote it. A
transaction is admitted when none of the keys it validates was written behind the
snapshot it read.
-/

namespace Hyphae.Mvcc

open Lib

open Wal (EngineKind)

/-- Catalog object identity. -/
abbrev ObjectId := NonZeroUInt 128

instance : LawfulBEq ObjectId := inferInstance

/-- One logical write-conflict entry. -/
structure WriteKey where
  engine : EngineKind
  object : Option ObjectId
  key : Bytes
  deriving DecidableEq

/-- First-committer-wins validation failure. -/
structure WriteConflict where
  key : WriteKey
  latestCommit : Csn
  readCsn : Option Csn
  deriving DecidableEq

/-- Latest committed writer of every key that has one. -/
structure ConflictTable where
  latest : WriteKey → Option Csn

/-- The commit is behind the snapshot. -/
def committedAfter (readCsn : Option Csn) (commit : Csn) : Prop := csnValue readCsn < commit.get

instance (readCsn : Option Csn) (commit : Csn) : Decidable (committedAfter readCsn commit) :=
  inferInstanceAs (Decidable (_ < _))

namespace ConflictTable

variable {table : ConflictTable} {keys : List WriteKey} {commit : Csn} {key : WriteKey} {readCsn : Option Csn}

def empty : ConflictTable := ⟨fun _ => none⟩

/-- Refuse the first key whose latest writer is newer than the snapshot. -/
def validate (table : ConflictTable) (readCsn : Option Csn) : List WriteKey → Except WriteConflict Unit
  | [] => .ok ()
  | key :: keys =>
    match table.latest key with
    | none => table.validate readCsn keys
    | some latestCommit =>
      if committedAfter readCsn latestCommit then .error { key, latestCommit, readCsn }
      else table.validate readCsn keys

/-- Record one written key; an older commit never moves a writer back. -/
def record (table : ConflictTable) (commitCsn : Csn) (key : WriteKey) : ConflictTable where
  latest := fun other =>
    if other = key then
      match table.latest key with
      | none => some commitCsn
      | some latest => some (if latest.get ≤ commitCsn.get then commitCsn else latest)
    else table.latest other

def publishCommitted (table : ConflictTable) (commitCsn : Csn) (keys : List WriteKey) : ConflictTable :=
  keys.foldl (fun table key => table.record commitCsn key) table

/-- Some writer of the key is at this commit or behind it. -/
def WrittenSince (table : ConflictTable) (key : WriteKey) (commit : Csn) : Prop :=
  ∃ latest, table.latest key = some latest ∧ commit.get ≤ latest.get

theorem validate_eq_ok :
    table.validate readCsn keys = .ok () ↔
      ∀ key ∈ keys, ∀ latest, table.latest key = some latest → ¬committedAfter readCsn latest := by
  induction keys with
  | nil => simp [validate]
  | cons key keys ih =>
    rw [List.forall_mem_cons, validate]
    cases hlatest : table.latest key with
    | none => simp [ih]
    | some latestCommit =>
      by_cases hafter : committedAfter readCsn latestCommit
      · simp [hafter]
      · simp [hafter, ih]

/-- A validated key that was written behind the snapshot is refused. -/
theorem validate_of_written (hkey : key ∈ keys) (hwritten : table.WrittenSince key commit)
    (hafter : committedAfter readCsn commit) :
    ∃ conflict, table.validate readCsn keys = .error conflict := by
  obtain ⟨latest, hlatest, hle⟩ := hwritten
  cases hvalidate : table.validate readCsn keys with
  | error conflict => exact ⟨conflict, rfl⟩
  | ok u =>
    have hnot := validate_eq_ok.mp hvalidate key hkey latest hlatest
    exact absurd (Nat.lt_of_lt_of_le hafter hle) hnot

theorem record_written (table : ConflictTable) (commitCsn : Csn) (key : WriteKey) :
    (table.record commitCsn key).WrittenSince key commitCsn := by
  unfold WrittenSince record
  cases hlatest : table.latest key with
  | none => exact ⟨commitCsn, by simp, Nat.le_refl _⟩
  | some latest =>
    by_cases hle : latest.get ≤ commitCsn.get
    · exact ⟨commitCsn, by simp [hle], Nat.le_refl _⟩
    · exact ⟨latest, by simp [hle], Nat.le_of_not_le hle⟩

theorem WrittenSince.record {other : WriteKey} (h : table.WrittenSince key commit) (commitCsn : Csn) :
    (table.record commitCsn other).WrittenSince key commit := by
  obtain ⟨latest, hlatest, hle⟩ := h
  unfold WrittenSince ConflictTable.record
  by_cases heq : key = other
  · subst heq
    by_cases hnewer : latest.get ≤ commitCsn.get
    · exact ⟨commitCsn, by simp [hlatest, hnewer], hle.trans hnewer⟩
    · exact ⟨latest, by simp [hlatest, hnewer], hle⟩
  · exact ⟨latest, by simp [heq, hlatest], hle⟩

theorem WrittenSince.publish (h : table.WrittenSince key commit) (commitCsn : Csn) (keys : List WriteKey) :
    (table.publishCommitted commitCsn keys).WrittenSince key commit := by
  unfold publishCommitted
  induction keys generalizing table with
  | nil => exact h
  | cons other keys ih => exact ih (h.record commitCsn)

theorem publish_written (hkey : key ∈ keys) (commitCsn : Csn) :
    (table.publishCommitted commitCsn keys).WrittenSince key commitCsn := by
  unfold publishCommitted
  induction keys generalizing table with
  | nil => cases hkey
  | cons other keys ih =>
    rcases List.mem_cons.mp hkey with rfl | hmem
    · exact (table.record_written commitCsn key).publish commitCsn keys
    · exact ih hmem

/-- Every writer that one table knows is known to the other, at the same commit or a later one. -/
def Extends (table later : ConflictTable) : Prop :=
  ∀ key commit, table.WrittenSince key commit → later.WrittenSince key commit

theorem Extends.refl (table : ConflictTable) : table.Extends table := fun _ _ h => h

theorem Extends.trans {a b c : ConflictTable} (h : a.Extends b) (h' : b.Extends c) : a.Extends c :=
  fun key commit hwritten => h' key commit (h key commit hwritten)

theorem publish_extends (table : ConflictTable) (commitCsn : Csn) (keys : List WriteKey) :
    table.Extends (table.publishCommitted commitCsn keys) := fun _ _ h => h.publish commitCsn keys

end ConflictTable

end Hyphae.Mvcc
