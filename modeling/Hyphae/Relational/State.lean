import Hyphae.Catalog.Definitions
import Hyphae.Records.Tuple

/-!
# The materialized relational state

The catalog objects by identity, the rows of every table by primary key, and the
entries of every secondary index: for an index key, the primary keys of the rows that
have it. Every operation checks before it changes anything.
-/

namespace Hyphae.Relational

open Lib Hyphae.Types

open Catalog
open Mvcc (ObjectId)
open Wal (EngineKind)

/-- Failure of an operation on the state. -/
inductive ModelError
  | duplicateObjectId
  | duplicateObjectName
  | unknownObject
  | wrongEngine
  | dependencyConflict (object : ObjectId)
  | unknownSecondaryIndexRelation
  | duplicatePrimaryKey
  | missingPrimaryKey
  | duplicateSecondaryIndexEntry
  | missingSecondaryIndexEntry
  | uniqueSecondaryIndexViolation
  | catalog (error : CatalogError)
  deriving DecidableEq

/-! ## The catalog -/

/-- What the relational engine sees of a logical object: its name and the objects it needs. -/
structure LogicalCatalogObject where
  name : QualifiedName
  prerequisites : List ObjectId

structure CatalogState where
  objects : OrderedMap ObjectId CatalogObject
  logicalObjects : OrderedMap ObjectId LogicalCatalogObject
  nextObjectId : Option Nat

namespace CatalogState

variable (catalog : CatalogState)

def empty : CatalogState := { objects := .empty, logicalObjects := .empty, nextObjectId := some 1 }

def object (id : ObjectId) : Option CatalogObject := catalog.objects.get id

/-- The relation with this identity. -/
def relation (id : ObjectId) : Option RelationDefinition :=
  match catalog.object id with
  | some (.relation definition) => some definition
  | _ => none

def names : List QualifiedName :=
  catalog.objects.values.map (·.header.name) ++ catalog.logicalObjects.values.map (·.name)

def advanceNextObjectId (next : Option Nat) (id : ObjectId) : Option Nat :=
  match next with
  | some current => if id.get + 1 < 2 ^ 128 then some (max current (id.get + 1)) else none
  | none => none

/-- The parent of a foreign key in the definition of its child, which may be the child itself. -/
def foreignKeyParent (definition : RelationDefinition) (foreignKey : ForeignKeyDefinition) :
    Option RelationDefinition :=
  if foreignKey.referencedRelation = definition.header.id then some definition
  else catalog.relation foreignKey.referencedRelation

def validateReferences : CatalogObject → Except ModelError Unit
  | .relation definition => definition.foreignKeys.forM fun foreignKey => do
    let parent ← .okOr (catalog.foreignKeyParent definition foreignKey) (.catalog .invalidDefinitionEncoding)
    (foreignKey.validateRelations definition parent).mapError .catalog
  | .secondaryIndex definition => do
    let relation ← .okOr (catalog.relation definition.relation) .unknownSecondaryIndexRelation
    (definition.validateRelation relation).mapError .catalog
  | .other _ _ => .ok ()

def create (json : JsonLibrary) (catalog : CatalogState) (object : CatalogObject) : Except ModelError CatalogState := do
  (object.validate json).mapError .catalog
  let id := object.header.id
  .failIf ((catalog.object id).isSome ∨ (catalog.logicalObjects.get id).isSome) .duplicateObjectId
  .failIf (∃ name ∈ catalog.names, sameCatalogLookup name object.header.name) .duplicateObjectName
  catalog.validateReferences object
  .ok { catalog with
    objects := catalog.objects.insert id object, nextObjectId := advanceNextObjectId catalog.nextObjectId id }

def replace (json : JsonLibrary) (catalog : CatalogState) (object : CatalogObject) :
    Except ModelError CatalogState := do
  (object.validate json).mapError .catalog
  let id := object.header.id
  let old ← .okOr (catalog.object id) .unknownObject
  .failIf (old.header.owner ≠ object.header.owner) .wrongEngine
  .failIf (∃ name ∈ (catalog.objects.values.filter (·.header.id ≠ id)).map (·.header.name) ++
    catalog.logicalObjects.values.map (·.name), sameCatalogLookup name object.header.name) .duplicateObjectName
  .ok { catalog with objects := catalog.objects.insert id object }

/-- Some object needs this one. -/
def hasDependents (id : ObjectId) : Prop :=
  (∃ object ∈ catalog.objects.values, id ∈ object.prerequisites) ∨
    ∃ object ∈ catalog.logicalObjects.values, id ∈ object.prerequisites

instance (catalog : CatalogState) (id : ObjectId) : Decidable (catalog.hasDependents id) :=
  inferInstanceAs (Decidable (_ ∨ _))

def remove (id : ObjectId) : Except ModelError CatalogState := do
  .failIf (catalog.object id).isNone .unknownObject
  .failIf (catalog.hasDependents id) (.dependencyConflict id)
  .ok { catalog with objects := catalog.objects.erase id }

def require (id : ObjectId) (owner : EngineKind) : Except ModelError Unit := do
  let entry ← .okOr (catalog.object id) .unknownObject
  .failIf (entry.header.owner ≠ owner) .wrongEngine

end CatalogState

/-! ## Rows and index entries -/

/-- A set of primary keys. -/
abbrev KeySet := OrderedMap Bytes Unit

/-- The entries of one secondary index. -/
structure SecondaryIndexState where
  relation : ObjectId
  unique : Bool
  nullsDistinct : Bool
  entries : OrderedMap Bytes KeySet

/-- The primary keys under an index key. -/
def SecondaryIndexState.keys (index : SecondaryIndexState) (indexKey : Bytes) : KeySet :=
  (index.entries.get indexKey).getD .empty

structure RelationState where
  tables : OrderedMap ObjectId (OrderedMap Bytes Bytes)
  indexes : OrderedMap ObjectId SecondaryIndexState

namespace RelationState

variable (state : RelationState)

def empty : RelationState := { tables := .empty, indexes := .empty }

def select (table : ObjectId) (key : Bytes) : Option Bytes :=
  (state.tables.get table).bind (·.get key)

def createTable (id : ObjectId) : Except ModelError RelationState := do
  .failIf (state.tables.get id).isSome .duplicateObjectId
  .ok { state with tables := state.tables.insert id .empty }

def dropTable (id : ObjectId) : Except ModelError RelationState := do
  .failIf (∃ index ∈ state.indexes.values, index.relation = id) (.dependencyConflict id)
  .failIf (state.tables.get id).isNone .unknownObject
  .ok { state with tables := state.tables.erase id }

def createSecondaryIndex (id relation : ObjectId) (unique nullsDistinct : Bool) : Except ModelError RelationState := do
  .failIf (state.tables.get relation).isNone .unknownObject
  .failIf (state.indexes.get id).isSome .duplicateObjectId
  .ok { state with indexes := state.indexes.insert id { relation, unique, nullsDistinct, entries := .empty } }

def dropSecondaryIndex (id : ObjectId) : Except ModelError RelationState := do
  .failIf (state.indexes.get id).isNone .unknownObject
  .ok { state with indexes := state.indexes.erase id }

/-- An index takes a row unless the entry is there, or its key is taken and has to be unique. -/
def validateSecondaryIndexInsert (index : SecondaryIndexState) (indexKey primaryKey : Bytes) (containsNull : Bool) :
    Except ModelError Unit := do
  .failIf ((index.keys indexKey).get primaryKey).isSome .duplicateSecondaryIndexEntry
  .failIf (index.unique = true ∧ ¬(containsNull = true ∧ index.nullsDistinct = true) ∧
    (index.keys indexKey).entries ≠ []) .uniqueSecondaryIndexViolation

def insertSecondaryIndex (id : ObjectId) (indexKey primaryKey : Bytes) (containsNull : Bool) :
    Except ModelError RelationState := do
  let index ← .okOr (state.indexes.get id) .unknownObject
  validateSecondaryIndexInsert index indexKey primaryKey containsNull
  let keys := (index.keys indexKey).insert primaryKey ()
  .ok { state with indexes := state.indexes.insert id { index with entries := index.entries.insert indexKey keys } }

def removeSecondaryIndex (id : ObjectId) (indexKey primaryKey : Bytes) : Except ModelError RelationState := do
  let index ← .okOr (state.indexes.get id) .unknownObject
  .failIf ((index.keys indexKey).get primaryKey).isNone .missingSecondaryIndexEntry
  let keys := (index.keys indexKey).erase primaryKey
  let entries := if keys.entries = [] then index.entries.erase indexKey else index.entries.insert indexKey keys
  .ok { state with indexes := state.indexes.insert id { index with entries } }

def insert (table : ObjectId) (key row : Bytes) : Except ModelError RelationState := do
  let rows ← .okOr (state.tables.get table) .unknownObject
  .failIf (rows.get key).isSome .duplicatePrimaryKey
  .ok { state with tables := state.tables.insert table (rows.insert key row) }

def update (table : ObjectId) (key row : Bytes) : Except ModelError RelationState := do
  let rows ← .okOr (state.tables.get table) .unknownObject
  .failIf (rows.get key).isNone .missingPrimaryKey
  .ok { state with tables := state.tables.insert table (rows.insert key row) }

def delete (table : ObjectId) (key : Bytes) : Except ModelError RelationState := do
  let rows ← .okOr (state.tables.get table) .unknownObject
  .failIf (rows.get key).isNone .missingPrimaryKey
  .ok { state with tables := state.tables.insert table (rows.erase key) }

end RelationState

/-- The catalog and the rows; the other engines' states are left out. -/
structure MaterializedState where
  catalog : CatalogState
  relational : RelationState

def MaterializedState.empty : MaterializedState := { catalog := .empty, relational := .empty }

end Hyphae.Relational
