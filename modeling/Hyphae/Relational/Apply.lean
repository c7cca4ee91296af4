import Hyphae.Lib.OrderCode
import Hyphae.Relational.State
import Hyphae.Runtime.Mutation

/-!
# Applying relational mutations

A mutation is replayed on the materialized state with all its checks: the CHECK
constraints of a row, its foreign keys, the entries it has in the secondary indexes
of its table, and, for a delete, the rows that reference it. How a definition is read
from the bytes of a mutation is left open.
-/

namespace Hyphae.Relational

open Lib Hyphae.Types

open Catalog Records
open Mvcc (ObjectId)
open Hyphae.Runtime (Mutation Opcode)
open Wal (EngineKind)

/-- Why a mutation is refused. -/
inductive ApplyError
  | invalidPreparedMutation
  | invalidRelationalTree
  | checkConstraintViolation
  | foreignKeyConstraintViolation
  | model (error : ModelError)
  | catalog (error : CatalogError)
  | record (error : RecordError)
  deriving DecidableEq

abbrev ApplyM := Except ApplyError

/-- How bytes are read: the JSON library below the scalar codec, and the codec of the definitions. -/
structure Codec where
  json : JsonLibrary
  decodeDefinition : Bytes → Except CatalogError CatalogObject

variable (codec : Codec)

/-! ## Columns of a stored row -/

def decodeTuple (row : Bytes) : ApplyM RowTupleView := (RowTupleView.decode row).mapError .record

/-- The bytes of a column, or null. -/
def columnBytes (relation : RelationDefinition) (tuple : RowTupleView) (column : ColumnId) :
    ApplyM (Option Bytes) := do
  let index ← .okOr (relation.position column) .invalidRelationalTree
  .okOr (tuple.value index) .invalidRelationalTree

def decodeColumn (logicalType : LogicalType) (encoded : Bytes) : ApplyM ScalarValue :=
  (decodeStorage codec.json logicalType encoded).mapError fun _ => .invalidRelationalTree

def orderedColumn (logicalType : LogicalType) (value : ScalarValue) : ApplyM Bytes :=
  (encodeOrderedComponent logicalType value).mapError fun _ => .invalidRelationalTree

/-! ## Check constraints -/

def ColumnCheckOperator.passes (ordering : Ordering) : ColumnCheckOperator → Bool
  | .equal => ordering == .eq
  | .notEqual => ordering != .eq
  | .less => ordering == .lt
  | .lessOrEqual => ordering != .gt
  | .greater => ordering == .gt
  | .greaterOrEqual => ordering != .lt

def validateRelationCheck (relation : RelationDefinition) (tuple : RowTupleView) (columnId : ColumnId)
    (check : ColumnCheckConstraint) : ApplyM Unit := do
  let column ← .okOr (relation.column columnId) .invalidRelationalTree
  match ← columnBytes relation tuple columnId with
  | none => .ok ()
  | some encoded =>
    let value ← decodeColumn codec column.logicalType encoded
    let left ← orderedColumn column.logicalType value
    let right ← orderedColumn column.logicalType check.operand
    .failIf (ColumnCheckOperator.passes (compareBytes left right) check.operator = false) .checkConstraintViolation

def validateRelationChecks (catalog : CatalogState) (relationId : ObjectId) (row : Bytes) : ApplyM Unit := do
  let relation ← .okOr (catalog.relation relationId) .invalidRelationalTree
  if relation.checks = [] then .ok ()
  else do
    let tuple ← decodeTuple row
    .failIf (tuple.columnCount ≠ relation.columns.length) .invalidRelationalTree
    relation.checks.forM fun (columnId, check) => validateRelationCheck codec relation tuple columnId check

/-! ## Foreign keys -/

/-- The key that a row of the child looks for in the parent, up to the first null. -/
def foreignKeyOf (child parent : RelationDefinition) (tuple : RowTupleView) :
    List (ColumnId × ColumnId) → ApplyM (Bytes × Bool)
  | [] => .ok ([], false)
  | (childId, parentId) :: columns => do
    let parentColumn ← .okOr (parent.column parentId) .invalidRelationalTree
    match ← columnBytes child tuple childId with
    | none => .ok ([], true)
    | some encoded =>
      let value ← decodeColumn codec parentColumn.logicalType encoded
      let component ← orderedColumn parentColumn.logicalType value
      let (key, containsNull) ← foreignKeyOf child parent tuple columns
      .ok (component ++ key, containsNull)

/-- There is a parent with this key: an entry in the index that the foreign key names, or else a row. -/
def parentExists (relational : RelationState) (foreignKey : ForeignKeyDefinition) (key : Bytes) : Bool :=
  match foreignKey.referencedIndex with
  | some index => ((relational.indexes.get index).bind (·.entries.get key)).any (·.entries ≠ [])
  | none => (relational.select foreignKey.referencedRelation key).isSome

def validateForeignKey (state : MaterializedState) (relation : RelationDefinition) (tuple : RowTupleView)
    (foreignKey : ForeignKeyDefinition) : ApplyM Unit := do
  let parent ← .okOr (state.catalog.relation foreignKey.referencedRelation) .invalidRelationalTree
  let (key, containsNull) ← foreignKeyOf codec relation parent tuple
    (foreignKey.columns.zip foreignKey.referencedColumns)
  .failIf (containsNull = false ∧ parentExists state.relational foreignKey key = false) .foreignKeyConstraintViolation

def validateRelationForeignKeys (state : MaterializedState) (relationId : ObjectId) (row : Bytes) :
    ApplyM Unit := do
  let relation ← .okOr (state.catalog.relation relationId) .invalidRelationalTree
  if relation.foreignKeys = [] then .ok ()
  else do
    let tuple ← decodeTuple row
    relation.foreignKeys.forM (validateForeignKey codec state relation tuple)

/-- No row of a child has this key under one of its foreign keys to the parent. -/
def validateNoReference (parent : RelationDefinition) (parentKey : Bytes) (child : RelationDefinition)
    (foreignKey : ForeignKeyDefinition) (stored : Bytes) : ApplyM Unit := do
  let tuple ← decodeTuple stored
  let (key, containsNull) ← foreignKeyOf codec child parent tuple (foreignKey.columns.zip foreignKey.referencedColumns)
  .failIf (containsNull = false ∧ key = parentKey) .foreignKeyConstraintViolation

def validateParentNotReferencedState (state : MaterializedState) (parentId : ObjectId) (parentKey : Bytes) :
    ApplyM Unit := do
  let parent ← .okOr (state.catalog.relation parentId) .invalidRelationalTree
  state.catalog.objects.values.forM fun object =>
    match object with
    | .relation child => child.foreignKeys.forM fun foreignKey =>
      if foreignKey.referencedRelation ≠ parentId then .ok ()
      else
        match state.relational.tables.get child.header.id with
        | none => .ok ()
        | some rows => rows.values.forM (validateNoReference codec parent parentKey child foreignKey)
    | _ => .ok ()

/-! ## Secondary indexes -/

structure SecondaryIndexProjection where
  index : ObjectId
  key : Bytes
  containsNull : Bool
  deriving DecidableEq

/-- The key of a row in an index. -/
def projectColumns (relation : RelationDefinition) (tuple : RowTupleView) :
    List ColumnId → ApplyM (Bytes × Bool)
  | [] => .ok ([], false)
  | columnId :: columns => do
    let column ← .okOr (relation.column columnId) .invalidRelationalTree
    let (value, isNull) ← match ← columnBytes relation tuple columnId with
      | none => .ok (.null, true)
      | some encoded => (decodeColumn codec column.logicalType encoded).map (·, false)
    let component ← orderedColumn column.logicalType value
    let (key, containsNull) ← projectColumns relation tuple columns
    .ok (component ++ key, isNull || containsNull)

def secondaryIndexProjection (catalog : CatalogState) (definition : SecondaryIndexDefinition) (row : Bytes) :
    ApplyM SecondaryIndexProjection := do
  let relation ← .okOr (catalog.relation definition.relation) .invalidRelationalTree
  let tuple ← decodeTuple row
  .failIf (tuple.columnCount ≠ relation.columns.length) .invalidRelationalTree
  let (key, containsNull) ← projectColumns codec relation tuple definition.columns
  .ok { index := definition.header.id, key, containsNull }

/-- The secondary indexes on a relation. -/
def CatalogState.indexesOn (catalog : CatalogState) (relation : ObjectId) : List SecondaryIndexDefinition :=
  catalog.objects.values.filterMap fun object =>
    match object with
    | .secondaryIndex definition => if definition.relation = relation then some definition else none
    | _ => none

def secondaryIndexProjections (catalog : CatalogState) (relation : ObjectId) (row : Bytes) :
    ApplyM (List SecondaryIndexProjection) :=
  (CatalogState.indexesOn catalog relation).mapM fun definition => secondaryIndexProjection codec catalog definition row

def insertSecondaryIndexProjections (primaryKey : Bytes) :
    List SecondaryIndexProjection → RelationState → ApplyM RelationState
  | [], relational => .ok relational
  | projection :: projections, relational => do
    let relational ← (relational.insertSecondaryIndex projection.index projection.key primaryKey
      projection.containsNull).mapError .model
    insertSecondaryIndexProjections primaryKey projections relational

def removeSecondaryIndexProjections (primaryKey : Bytes) :
    List SecondaryIndexProjection → RelationState → ApplyM RelationState
  | [], relational => .ok relational
  | projection :: projections, relational => do
    let relational ← (relational.removeSecondaryIndex projection.index projection.key primaryKey).mapError .model
    removeSecondaryIndexProjections primaryKey projections relational

/-! ## Definitions in mutations -/

def validateCatalogCreationIdentity (object : CatalogObject) (mutation : Mutation) : ApplyM Unit :=
  if mutation.key = [] then .ok ()
  else do
    let identity ← (catalogNameIdentity object.header.name).mapError .catalog
    .failIf (mutation.key ≠ identity) .invalidPreparedMutation

/-- `main.public.name`. -/
def qualifiedName (name : Bytes) : Except CatalogError QualifiedName := do
  let database ← CatalogName.unquoted [0x6d, 0x61, 0x69, 0x6e]
  let schema ← CatalogName.unquoted [0x70, 0x75, 0x62, 0x6c, 0x69, 0x63]
  let object ← CatalogName.unquoted name
  .ok { database, schema, object }

/-- `primary_key` and `row`. -/
def primaryKeyColumnName : Bytes := [0x70, 0x72, 0x69, 0x6d, 0x61, 0x72, 0x79, 0x5f, 0x6b, 0x65, 0x79]

def rowColumnName : Bytes := [0x72, 0x6f, 0x77]

/-- A table of raw keys and raw rows. -/
def binaryRelationDefinition (id : ObjectId) (name : Bytes) : Except CatalogError RelationDefinition := do
  let name ← qualifiedName name
  let definition : RelationDefinition := {
    header := { id, owner := .relational, name }
    columns := [
      { id := ⟨1, Nat.one_pos, by decide⟩, name := ⟨primaryKeyColumnName, primaryKeyColumnName⟩, logicalType := .binary,
        nullable := false },
      { id := ⟨2, by decide, by decide⟩, name := ⟨rowColumnName, rowColumnName⟩, logicalType := .binary,
        nullable := false }]
    primaryKey := [⟨1, Nat.one_pos, by decide⟩]
    checks := []
    foreignKeys := [] }
  definition.validate codec.json
  .ok definition

/-- An encoded definition, or else the name of a table of raw rows. -/
def decodeCreatedObject (id : ObjectId) (mutation : Mutation) : ApplyM CatalogObject :=
  if definitionMagicV1.isPrefixOf mutation.value then (codec.decodeDefinition mutation.value).mapError .catalog
  else do
    .failIf (mutation.key ≠ []) .invalidPreparedMutation
    .failIf (validUtf8 mutation.value = false) .invalidPreparedMutation
    ((binaryRelationDefinition codec id mutation.value).map .relation).mapError .catalog

def decodeRelationCreation (id : ObjectId) (mutation : Mutation) : ApplyM RelationDefinition := do
  match ← decodeCreatedObject codec id mutation with
  | .relation definition => do
    .failIf (definition.header.id ≠ id) .invalidPreparedMutation
    .failIf (definitionMagicV1.isPrefixOf mutation.value ∧ mutation.key = []) .invalidPreparedMutation
    validateCatalogCreationIdentity (.relation definition) mutation
    .ok definition
  | _ => .error .invalidPreparedMutation

def decodeSecondaryIndexCreation (id : ObjectId) (mutation : Mutation) :
    ApplyM SecondaryIndexDefinition := do
  .failIf (mutation.key = [] ∨ mutation.expiresAtMicros.isSome ∨ ¬definitionMagicV1.isPrefixOf mutation.value)
    .invalidPreparedMutation
  match ← (codec.decodeDefinition mutation.value).mapError .catalog with
  | .secondaryIndex definition => do
    .failIf (definition.header.id ≠ id) .invalidPreparedMutation
    validateCatalogCreationIdentity (.secondaryIndex definition) mutation
    .ok definition
  | _ => .error .invalidPreparedMutation

/-! ## Mutations -/

section Apply

variable (state : MaterializedState) (target : ObjectId) (mutation : Mutation)

def applyTableCreation : ApplyM MaterializedState := do
  let definition ← decodeRelationCreation codec target mutation
  let catalog ← (state.catalog.create codec.json (.relation definition)).mapError .model
  let relational ← (state.relational.createTable target).mapError .model
  .ok { catalog, relational }

def applyInsert : ApplyM MaterializedState := do
  (state.catalog.require target .relational).mapError .model
  validateRelationChecks codec state.catalog target mutation.value
  validateRelationForeignKeys codec state target mutation.value
  let projections ← secondaryIndexProjections codec state.catalog target mutation.value
  let relational ← (state.relational.insert target mutation.key mutation.value).mapError .model
  let relational ← insertSecondaryIndexProjections mutation.key projections relational
  .ok { state with relational }

/-- The row that is there, out of the secondary indexes. -/
def withoutEntries : ApplyM RelationState := do
  let oldRow ← .okOr (state.relational.select target mutation.key) .invalidPreparedMutation
  let oldProjections ← secondaryIndexProjections codec state.catalog target oldRow
  removeSecondaryIndexProjections mutation.key oldProjections state.relational

def applyUpdate : ApplyM MaterializedState := do
  (state.catalog.require target .relational).mapError .model
  let relational ← withoutEntries codec state target mutation
  validateRelationChecks codec state.catalog target mutation.value
  validateRelationForeignKeys codec { state with relational } target mutation.value
  let newProjections ← secondaryIndexProjections codec state.catalog target mutation.value
  let relational ← (relational.update target mutation.key mutation.value).mapError .model
  let relational ← insertSecondaryIndexProjections mutation.key newProjections relational
  .ok { state with relational }

def applyDelete : ApplyM MaterializedState := do
  (state.catalog.require target .relational).mapError .model
  validateParentNotReferencedState codec state target mutation.key
  let relational ← withoutEntries codec state target mutation
  .failIf (mutation.value ≠ []) .invalidPreparedMutation
  let relational ← (relational.delete target mutation.key).mapError .model
  .ok { state with relational }

def applyRename : ApplyM MaterializedState := do
  .failIf (mutation.key = [] ∨ mutation.value = [] ∨ mutation.expiresAtMicros.isSome) .invalidPreparedMutation
  match ← (codec.decodeDefinition mutation.value).mapError .catalog with
  | .relation definition => do
    .failIf (definition.header.id ≠ target) .invalidPreparedMutation
    let catalog ← (state.catalog.replace codec.json (.relation definition)).mapError .model
    .ok { state with catalog }
  | _ => .error .invalidPreparedMutation

def applyTableDrop : ApplyM MaterializedState := do
  .failIf (mutation.key ≠ [] ∨ mutation.value ≠ [] ∨ mutation.expiresAtMicros.isSome) .invalidPreparedMutation
  .failIf (state.catalog.relation target).isNone .invalidPreparedMutation
  let relational ← (state.relational.dropTable target).mapError .model
  let catalog ← (state.catalog.remove target).mapError .model
  .ok { catalog, relational }

def applySecondaryIndexDrop : ApplyM MaterializedState := do
  .failIf (mutation.key ≠ [] ∨ mutation.value ≠ [] ∨ mutation.expiresAtMicros.isSome) .invalidPreparedMutation
  match state.catalog.object target with
  | some (.secondaryIndex _) => do
    let relational ← (state.relational.dropSecondaryIndex target).mapError .model
    let catalog ← (state.catalog.remove target).mapError .model
    .ok { catalog, relational }
  | _ => .error .invalidPreparedMutation

/-- Enter the rows of the table into a new index. -/
def indexRows (catalog : CatalogState) (definition : SecondaryIndexDefinition) :
    List (Bytes × Bytes) → RelationState → ApplyM RelationState
  | [], relational => .ok relational
  | (primaryKey, row) :: rows, relational => do
    let projection ← secondaryIndexProjection codec catalog definition row
    let relational ← (relational.insertSecondaryIndex definition.header.id projection.key primaryKey
      projection.containsNull).mapError .model
    indexRows catalog definition rows relational

def applySecondaryIndexCreation : ApplyM MaterializedState := do
  let definition ← decodeSecondaryIndexCreation codec target mutation
  let catalog ← (state.catalog.create codec.json (.secondaryIndex definition)).mapError .model
  let relational ← (state.relational.createSecondaryIndex target definition.relation definition.unique
    definition.nullsDistinct).mapError .model
  let rows ← .okOr (relational.tables.get definition.relation) .invalidPreparedMutation
  let relational ← indexRows codec catalog definition rows.entries relational
  .ok { catalog, relational }

end Apply

def applyRelationalMutation (state : MaterializedState) (mutation : Mutation) :
    ApplyM MaterializedState := do
  let target ← .okOr mutation.target .invalidPreparedMutation
  match mutation.opcode with
  | .createTable => applyTableCreation codec state target mutation
  | .insertRow => applyInsert codec state target mutation
  | .updateRow => applyUpdate codec state target mutation
  | .deleteRow => applyDelete codec state target mutation
  | .renameTable => applyRename codec state target mutation
  | .dropTable => applyTableDrop state target mutation
  | .dropSecondaryIndex => applySecondaryIndexDrop state target mutation
  | .createSecondaryIndex => applySecondaryIndexCreation codec state target mutation
  | _ => .error .invalidPreparedMutation

/-- Replay a list of mutations. -/
def applyRelationalMutations (state : MaterializedState) (mutations : List Mutation) :
    ApplyM MaterializedState :=
  mutations.foldlM (applyRelationalMutation codec) state

end Hyphae.Relational
