import Hyphae.Mvcc.ConflictTable
import Hyphae.Types.Storage

/-!
# Catalog definitions

What the catalog knows about a relation: its columns, its primary key, the checks and
the foreign keys it declares, and the secondary indexes on it. Names carry a display
and a lookup form. Definitions of the other engines are known by their header and by
the objects they need.
-/

namespace Hyphae.Catalog

open Lib Hyphae.Types

open Mvcc (ObjectId)
open Wal (EngineKind)

/-! ## Names -/

def maxCatalogNameBytes : Nat := 1024

def maxCatalogDefinitionItems : Nat := 100000

/-- Display and normalized representation of one name component, in UTF-8. -/
structure CatalogName where
  display : Bytes
  lookup : Bytes
  deriving DecidableEq

structure QualifiedName where
  database : CatalogName
  schema : CatalogName
  object : CatalogName
  deriving DecidableEq

/-- Failure of a definition. -/
inductive CatalogError
  | emptyName
  | nameTooLong
  | duplicateColumnId (column : ColumnId)
  | duplicateColumnName (name : CatalogName)
  | noncanonicalColumnOrder
  | emptyRelation
  | missingPrimaryKeyColumn (column : ColumnId)
  | duplicatePrimaryKeyColumn (column : ColumnId)
  | nullablePrimaryKeyColumn (column : ColumnId)
  | emptySecondaryIndex
  | duplicateSecondaryIndexColumn (column : ColumnId)
  | selfReferentialSecondaryIndex
  | missingSecondaryIndexRelation (relation : ObjectId)
  | missingSecondaryIndexColumn (column : ColumnId)
  | wrongObjectOwner
  | tooManyDefinitionItems
  | invalidDefinitionEncoding
  deriving DecidableEq

/-- `HYCOBJ01`, in front of the definition of a relation, an index or a search collection. -/
def definitionMagicV1 : Bytes := [0x48, 0x59, 0x43, 0x4f, 0x42, 0x4a, 0x30, 0x31]

/-- The three lookup names, each behind its length. -/
def catalogNameIdentity (name : QualifiedName) : Except CatalogError Bytes :=
  [name.database, name.schema, name.object].foldlM (fun encoded component => do
    .failIf (2 ^ 32 ≤ component.lookup.length) .nameTooLong
    .ok (encoded ++ leBytes 4 component.lookup.length ++ component.lookup)) []

/-- ASCII uppercase to lowercase; the bytes of other characters stay. -/
def foldUnquotedName (name : Bytes) : Bytes :=
  name.map fun byte => if 0x41 ≤ byte ∧ byte ≤ 0x5a then byte + 0x20 else byte

def CatalogName.unquoted (display : Bytes) : Except CatalogError CatalogName := do
  .failIf (display = []) .emptyName
  .failIf (maxCatalogNameBytes < display.length) .nameTooLong
  .ok { display, lookup := foldUnquotedName display }

def sameCatalogLookup (left right : QualifiedName) : Prop :=
  left.database.lookup = right.database.lookup ∧ left.schema.lookup = right.schema.lookup ∧
    left.object.lookup = right.object.lookup

instance (left right : QualifiedName) : Decidable (sameCatalogLookup left right) := inferInstanceAs (Decidable (_ ∧ _))

structure ObjectHeader where
  id : ObjectId
  owner : EngineKind
  name : QualifiedName
  deriving DecidableEq

/-! ## Relations -/

structure ColumnDefinition where
  id : ColumnId
  name : CatalogName
  logicalType : LogicalType
  nullable : Bool
  deriving DecidableEq

inductive ColumnCheckOperator
  | equal | notEqual | less | lessOrEqual | greater | greaterOrEqual
  deriving DecidableEq

/-- One column-local CHECK predicate. -/
structure ColumnCheckConstraint where
  operator : ColumnCheckOperator
  operand : ScalarValue

/-- One immediate MATCH SIMPLE foreign key, to the primary key of the parent or to a unique index on it. -/
structure ForeignKeyDefinition where
  name : Option CatalogName
  columns : List ColumnId
  referencedRelation : ObjectId
  referencedColumns : List ColumnId
  referencedIndex : Option ObjectId
  deriving DecidableEq

structure RelationDefinition where
  header : ObjectHeader
  columns : List ColumnDefinition
  primaryKey : List ColumnId
  checks : List (ColumnId × ColumnCheckConstraint)
  foreignKeys : List ForeignKeyDefinition

namespace RelationDefinition

/-- The column with an identity, and its position. -/
def column (relation : RelationDefinition) (id : ColumnId) : Option ColumnDefinition :=
  relation.columns.find? (·.id = id)

def position (relation : RelationDefinition) (id : ColumnId) : Option Nat := relation.columns.findIdx? (·.id = id)

/-- Columns in ascending order of their identities, with different names. -/
def validateColumns (previous : Option ColumnId) (names : List Bytes) : List ColumnDefinition → Except CatalogError Unit
  | [] => .ok ()
  | column :: columns => do
    .failIf (previous = some column.id) (.duplicateColumnId column.id)
    .failIf (previous.any (column.id < ·)) .noncanonicalColumnOrder
    .failIf (column.name.lookup ∈ names) (.duplicateColumnName column.name)
    validateColumns (some column.id) (column.name.lookup :: names) columns

def validatePrimaryKey (relation : RelationDefinition) (seen : List ColumnId) : List ColumnId → Except CatalogError Unit
  | [] => .ok ()
  | id :: ids => do
    .failIf (id ∈ seen) (.duplicatePrimaryKeyColumn id)
    .failIf (relation.column id).isNone (.missingPrimaryKeyColumn id)
    .failIf ((relation.column id).any (·.nullable)) (.nullablePrimaryKeyColumn id)
    validatePrimaryKey relation (id :: seen) ids

def validateChecks (json : JsonLibrary) (relation : RelationDefinition) (previous : Option ColumnId) :
    List (ColumnId × ColumnCheckConstraint) → Except CatalogError Unit
  | [] => .ok ()
  | (id, check) :: checks => do
    .failIf (previous.any (id ≤ ·) ∨ (relation.column id).isNone ∨ check.operand.isNull) .invalidDefinitionEncoding
    let definition ← .okOr (relation.column id) .invalidDefinitionEncoding
    let _ ← (encodeStorage json definition.logicalType check.operand).mapError fun _ => .invalidDefinitionEncoding
    validateChecks json relation (some id) checks

def validateForeignKeys (relation : RelationDefinition) (names : List Bytes) :
    List ForeignKeyDefinition → Except CatalogError Unit
  | [] => .ok ()
  | foreignKey :: foreignKeys => do
    .failIf (foreignKey.name.any (·.lookup ∈ names)) .invalidDefinitionEncoding
    .failIf (foreignKey.columns = [] ∨ foreignKey.columns.length ≠ foreignKey.referencedColumns.length ∨
      ∃ id ∈ foreignKey.columns, (relation.column id).isNone) .invalidDefinitionEncoding
    validateForeignKeys relation ((foreignKey.name.map (·.lookup)).toList ++ names) foreignKeys

def validate (json : JsonLibrary) (relation : RelationDefinition) : Except CatalogError Unit := do
  .failIf (relation.columns = []) .emptyRelation
  .failIf (maxCatalogDefinitionItems < relation.columns.length ∨ maxCatalogDefinitionItems < relation.primaryKey.length)
    .tooManyDefinitionItems
  validateColumns none [] relation.columns
  relation.validatePrimaryKey [] relation.primaryKey
  relation.validateChecks json none relation.checks
  relation.validateForeignKeys [] relation.foreignKeys

end RelationDefinition

/-- A foreign key against both relations. An index it names is not looked at. -/
def ForeignKeyDefinition.validateRelations (foreignKey : ForeignKeyDefinition) (child parent : RelationDefinition) :
    Except CatalogError Unit := do
  .failIf (foreignKey.columns = [] ∨ foreignKey.columns.length ≠ foreignKey.referencedColumns.length ∨
    (foreignKey.referencedIndex = none ∧ foreignKey.referencedColumns ≠ parent.primaryKey)) .invalidDefinitionEncoding
  (foreignKey.columns.zip foreignKey.referencedColumns).forM fun (childId, parentId) => do
    let childColumn ← .okOr (child.column childId) .invalidDefinitionEncoding
    let parentColumn ← .okOr (parent.column parentId) .invalidDefinitionEncoding
    .failIf (childColumn.logicalType ≠ parentColumn.logicalType) .invalidDefinitionEncoding

/-! ## Secondary indexes -/

structure SecondaryIndexDefinition where
  header : ObjectHeader
  relation : ObjectId
  columns : List ColumnId
  unique : Bool
  nullsDistinct : Bool
  deriving DecidableEq

namespace SecondaryIndexDefinition

def validateColumns (seen : List ColumnId) : List ColumnId → Except CatalogError Unit
  | [] => .ok ()
  | id :: ids => do
    .failIf (id ∈ seen) (.duplicateSecondaryIndexColumn id)
    validateColumns (id :: seen) ids

def validate (index : SecondaryIndexDefinition) : Except CatalogError Unit := do
  .failIf (index.columns = []) .emptySecondaryIndex
  .failIf (maxCatalogDefinitionItems < index.columns.length) .tooManyDefinitionItems
  .failIf (index.relation = index.header.id) .selfReferentialSecondaryIndex
  validateColumns [] index.columns

def validateRelation (index : SecondaryIndexDefinition) (relation : RelationDefinition) : Except CatalogError Unit := do
  .failIf (relation.header.id ≠ index.relation) (.missingSecondaryIndexRelation index.relation)
  index.columns.forM fun id => .failIf (relation.column id).isNone (.missingSecondaryIndexColumn id)

end SecondaryIndexDefinition

/-! ## Objects -/

inductive CatalogObject
  | relation (definition : RelationDefinition)
  | secondaryIndex (definition : SecondaryIndexDefinition)
  /-- An object of another engine, and the objects it needs. -/
  | other (header : ObjectHeader) (prerequisites : List ObjectId)

namespace CatalogObject

def header : CatalogObject → ObjectHeader
  | .relation definition => definition.header
  | .secondaryIndex definition => definition.header
  | .other header _ => header

/-- The objects it depends on. -/
def prerequisites : CatalogObject → List ObjectId
  | .relation definition => definition.foreignKeys.flatMap fun foreignKey =>
      (if foreignKey.referencedRelation ≠ definition.header.id then [foreignKey.referencedRelation] else []) ++
        foreignKey.referencedIndex.toList
  | .secondaryIndex definition => [definition.relation]
  | .other _ prerequisites => prerequisites

def validate (json : JsonLibrary) : CatalogObject → Except CatalogError Unit
  | .relation definition => do
    .failIf (definition.header.owner ≠ .relational) .wrongObjectOwner
    definition.validate json
  | .secondaryIndex definition => do
    .failIf (definition.header.owner ≠ .relational) .wrongObjectOwner
    definition.validate
  | .other header _ => .failIf (header.owner = .relational) .wrongObjectOwner

end CatalogObject

end Hyphae.Catalog
