import Hyphae.Relational.ForeignKeys

/-!
# Referential integrity

Replay checks a foreign key from the side of the child when a row is written. From the
side of the parent it checks deletes only, and compares the child's key with the primary
key of the row that goes away, also where the foreign key refers to a unique index.
Integrity is therefore kept by those runs whose updates and deletes leave the keys that
are referenced through an index alone, and whose rows are stored under their own keys.
-/

namespace Hyphae.Relational

open Lib Hyphae.Types Except OrderedMap Option

open Catalog Records RelationState
open Mvcc (ObjectId)
open Hyphae.Runtime (Mutation Opcode)

variable (codec : Codec)

variable {state : MaterializedState} {catalog : CatalogState} {definition : SecondaryIndexDefinition} {row key : Bytes}
  {foreignKey : ForeignKeyDefinition} {id : ObjectId} {child parent : RelationDefinition} {replacement : Option Bytes}
  {tuple : RowTupleView}

/-! ## Runs -/

/-- The states that accepted mutations reach from the empty one, all of them as `allowed` wants it. -/
inductive Reached (allowed : MaterializedState → Mutation → Prop) : MaterializedState → Prop
  | empty : Reached allowed .empty
  | step {state after : MaterializedState} {mutation : Mutation} : Reached allowed state → allowed state mutation →
      applyRelationalMutation codec state mutation = .ok after → Reached allowed after

/-- The foreign key names a unique index on the columns that it refers to. -/
def NamesUniqueIndex (catalog : CatalogState) (foreignKey : ForeignKeyDefinition) (id : ObjectId) : Prop :=
  ∃ index, catalog.object id = some (.secondaryIndex index) ∧ index.unique = true ∧
    index.relation = foreignKey.referencedRelation ∧ index.columns = foreignKey.referencedColumns

/-- Tables and indexes come and go and rows are written; a foreign key refers to the primary key of its parent or to a
unique index on it. -/
def Declares (state : MaterializedState) (mutation : Mutation) : Prop :=
  mutation.opcode ≠ .renameTable ∧
    ∀ target definition, mutation.opcode = .createTable →
      decodeRelationCreation codec target mutation = .ok definition →
      ∀ foreignKey ∈ definition.foreignKeys, ∀ id, foreignKey.referencedIndex = some id →
        NamesUniqueIndex state.catalog foreignKey id

/-- The columns of the primary key encode to the key under which the row is stored. -/
def Keyed (relation : RelationDefinition) (key row : Bytes) : Prop :=
  ∃ tuple containsNull, decodeTuple row = .ok tuple ∧
    projectColumns codec relation tuple relation.primaryKey = .ok (key, containsNull)

/-- A foreign key refers to the primary key of the table. -/
def KeyReferenced (catalog : CatalogState) (id : ObjectId) : Prop :=
  ∃ childId child, catalog.relation childId = some child ∧
    ∃ foreignKey ∈ child.foreignKeys, foreignKey.referencedRelation = id ∧ foreignKey.referencedIndex = none

/-- A row of a table that is referenced by its primary key is stored under its own key. -/
def WritesKeyed (state : MaterializedState) (target : ObjectId) (key row : Bytes) : Prop :=
  KeyReferenced state.catalog target → ∀ relation, state.catalog.relation target = some relation →
    Keyed codec relation key row

/-- No other row refers to this one through an index, unless the row that takes its place has the same index key. -/
def KeepsIndexKeys (state : MaterializedState) (target : ObjectId) (key : Bytes) (replacement : Option Bytes) : Prop :=
  ∀ oldRow parent, state.relational.select target key = some oldRow → state.catalog.relation target = some parent →
    ∀ childId child, state.catalog.relation childId = some child →
      ∀ foreignKey ∈ child.foreignKeys, foreignKey.referencedRelation = target →
        ∀ indexId index, foreignKey.referencedIndex = some indexId →
          state.catalog.object indexId = some (.secondaryIndex index) →
          ∀ childKey row tuple indexKey projection, ¬(childId = target ∧ childKey = key) →
            state.relational.select childId childKey = some row → decodeTuple row = .ok tuple →
            foreignKeyOf codec child parent tuple (foreignKey.columns.zip foreignKey.referencedColumns) =
              .ok (indexKey, false) →
            secondaryIndexProjection codec state.catalog index oldRow = .ok projection → projection.key = indexKey →
            ∃ newRow newProjection, replacement = some newRow ∧
              secondaryIndexProjection codec state.catalog index newRow = .ok newProjection ∧
              newProjection.key = indexKey

/-- What replay does not check of a mutation. -/
def Careful (state : MaterializedState) (mutation : Mutation) : Prop :=
  ∀ target, mutation.target = some target →
    match mutation.opcode with
    | .createTable => ∀ definition, decodeRelationCreation codec target mutation = .ok definition →
        ∀ foreignKey ∈ definition.foreignKeys, foreignKey.referencedIndex = none →
          ∀ parent key row, state.catalog.relation foreignKey.referencedRelation = some parent →
            state.relational.select foreignKey.referencedRelation key = some row → Keyed codec parent key row
    | .insertRow => WritesKeyed codec state target mutation.key mutation.value
    | .updateRow => WritesKeyed codec state target mutation.key mutation.value ∧
        KeepsIndexKeys codec state target mutation.key (some mutation.value)
    | .deleteRow => KeepsIndexKeys codec state target mutation.key none
    | _ => True

/-! ## The invariant -/

/-- The parent has a row with this key, stored under `primaryKey`. -/
def ProvidesAt (relational : RelationState) (parent : RelationDefinition) (foreignKey : ForeignKeyDefinition)
    (key primaryKey : Bytes) : Prop :=
  ∃ row tuple containsNull, relational.select foreignKey.referencedRelation primaryKey = some row ∧
    decodeTuple row = .ok tuple ∧
    projectColumns codec parent tuple foreignKey.referencedColumns = .ok (key, containsNull) ∧
    (foreignKey.referencedIndex = none → primaryKey = key)

/-- A child row has a parent, by its key. -/
def HasParentKey (state : MaterializedState) (child : RelationDefinition) (foreignKey : ForeignKeyDefinition)
    (row : Bytes) : Prop :=
  ∃ parent tuple key containsNull, state.catalog.relation foreignKey.referencedRelation = some parent ∧
    decodeTuple row = .ok tuple ∧
    foreignKeyOf codec child parent tuple (foreignKey.columns.zip foreignKey.referencedColumns) =
      .ok (key, containsNull) ∧
    (containsNull = false → ∃ primaryKey, ProvidesAt codec state.relational parent foreignKey key primaryKey)

/-- The objects that a foreign key needs are there. -/
structure Declared (catalog : CatalogState) (foreignKey : ForeignKeyDefinition) : Prop where
  length_eq : foreignKey.columns.length = foreignKey.referencedColumns.length
  parent : ∃ parent, catalog.relation foreignKey.referencedRelation = some parent ∧
    (foreignKey.referencedIndex = none → foreignKey.referencedColumns = parent.primaryKey)
  index : ∀ id, foreignKey.referencedIndex = some id → ∃ index, catalog.object id = some (.secondaryIndex index) ∧
    index.relation = foreignKey.referencedRelation ∧ index.columns = foreignKey.referencedColumns

structure Inv (state : MaterializedState) : Prop where
  ids : ∀ id object, state.catalog.object id = some object → object.header.id = id
  indexed : ∀ id, (state.relational.indexes.get id).isSome →
    ∃ definition, state.catalog.object id = some (.secondaryIndex definition)
  /-- Every index entry is the entry of a live row. -/
  sound : ∀ id definition, state.catalog.object id = some (.secondaryIndex definition) →
    ∀ indexKey primaryKey, state.relational.Entry id indexKey primaryKey →
      ∃ row projection, state.relational.select definition.relation primaryKey = some row ∧
        secondaryIndexProjection codec state.catalog definition row = .ok projection ∧ projection.key = indexKey
  declared : ∀ id child, state.catalog.relation id = some child → ∀ foreignKey ∈ child.foreignKeys,
    Declared state.catalog foreignKey
  keyed : ∀ id child, state.catalog.relation id = some child → ∀ foreignKey ∈ child.foreignKeys,
    foreignKey.referencedIndex = none → ∀ parent key row,
      state.catalog.relation foreignKey.referencedRelation = some parent →
      state.relational.select foreignKey.referencedRelation key = some row → Keyed codec parent key row
  parents : ∀ id child, state.catalog.relation id = some child → ∀ foreignKey ∈ child.foreignKeys,
    ∀ key row, state.relational.select id key = some row → HasParentKey codec state child foreignKey row

variable {codec}

theorem Inv.empty : Inv codec .empty where
  ids id object h := by cases h
  indexed id h := by cases h
  sound id definition h := by cases h
  declared id child h := by cases h
  keyed id child h := by cases h
  parents id child h := by cases h

/-- Equal keys are equal columns, so a parent by its key is a parent. -/
theorem Inv.integrity (inv : Inv codec state) : ReferentialIntegrity codec state := by
  intro id child hchild foreignKey hforeignKey key row hrow
  obtain ⟨parent, tuple, childKey, containsNull, hparent, htuple, hkey, hprovides⟩ :=
    inv.parents id child hchild foreignKey hforeignKey key row hrow
  refine ⟨parent, tuple, hparent, htuple, ?_⟩
  intro hstored
  cases containsNull with
  | true =>
    obtain ⟨column, hmem, hnull⟩ := exists_null_of_key hkey
    exact absurd hnull (hstored column hmem)
  | false =>
    obtain ⟨primaryKey, parentRow, parentTuple, null, hselect, hdecode, hproject, -⟩ := hprovides rfl
    have hlength := (inv.declared id child hchild foreignKey hforeignKey).length_eq
    exact ⟨primaryKey, parentRow, parentTuple, hselect, hdecode, sameColumns_of_key hlength hkey hproject⟩

/-! ## What the checks establish -/

theorem secondaryIndexProjection_ok {projection : SecondaryIndexProjection}
    (h : secondaryIndexProjection codec catalog definition row = .ok projection) :
    projection.index = definition.header.id ∧ ∃ relation tuple, catalog.relation definition.relation = some relation ∧
      decodeTuple row = .ok tuple ∧
      projectColumns codec relation tuple definition.columns = .ok (projection.key, projection.containsNull) := by
  simp only [secondaryIndexProjection, bind_eq_ok, okOr_eq_ok, ok.injEq, Prod.exists] at h
  obtain ⟨relation, hrelation, tuple, htuple, -, -, key, containsNull, hproject, rfl⟩ := h
  exact ⟨rfl, relation, tuple, hrelation, htuple, hproject⟩

/-- A projection looks at the definition of its relation only. -/
theorem secondaryIndexProjection_congr {catalog' : CatalogState}
    (h : catalog'.relation definition.relation = catalog.relation definition.relation) (row : Bytes) :
    secondaryIndexProjection codec catalog' definition row = secondaryIndexProjection codec catalog definition row := by
  simp only [secondaryIndexProjection, h]

theorem parentExists_index {relational : RelationState} (hindex : foreignKey.referencedIndex = some id)
    (h : parentExists relational foreignKey key = true) : ∃ primaryKey, relational.Entry id key primaryKey := by
  simp only [parentExists, hindex, any_eq_true, bind_eq_some_iff, decide_eq_true_eq] at h
  obtain ⟨keys, ⟨index, hget, hkeys⟩, hne⟩ := h
  obtain ⟨⟨primaryKey, ⟨⟩⟩, hmem⟩ := List.exists_mem_of_ne_nil _ hne
  refine ⟨primaryKey, index, hget, ?_⟩
  rw [SecondaryIndexState.keys, hkeys, getD_some, ← mem_entries]
  exact hmem

theorem parentExists_row {relational : RelationState} (hindex : foreignKey.referencedIndex = none)
    (h : parentExists relational foreignKey key = true) :
    ∃ row, relational.select foreignKey.referencedRelation key = some row := by
  simp only [parentExists, hindex] at h
  exact isSome_iff_exists.mp h

theorem validateRelationForeignKeys_ok {target : ObjectId}
    (h : validateRelationForeignKeys codec state target row = .ok ())
    (hchild : state.catalog.relation target = some child) (hmem : foreignKey ∈ child.foreignKeys) :
    ∃ parent tuple key containsNull, state.catalog.relation foreignKey.referencedRelation = some parent ∧
      decodeTuple row = .ok tuple ∧
      foreignKeyOf codec child parent tuple (foreignKey.columns.zip foreignKey.referencedColumns) =
        .ok (key, containsNull) ∧
      (containsNull = false → parentExists state.relational foreignKey key = true) := by
  simp only [validateRelationForeignKeys, hchild, okOr, ok_bind] at h
  rw [if_neg (List.ne_nil_of_mem hmem)] at h
  simp only [bind_eq_ok, forM_eq_ok] at h
  obtain ⟨tuple, htuple, hall⟩ := h
  have hone := hall foreignKey hmem
  simp only [validateForeignKey, bind_eq_ok, okOr_eq_ok, failIf_eq_ok, Prod.exists, not_and, Bool.not_eq_false] at hone
  obtain ⟨parent, hparent, key, containsNull, hkey, hexists⟩ := hone
  exact ⟨parent, tuple, key, containsNull, hparent, htuple, hkey, hexists⟩

theorem validateParentNotReferencedState_ok {target : ObjectId}
    (h : validateParentNotReferencedState codec state target key = .ok ())
    (hparent : state.catalog.relation target = some parent) (hchild : state.catalog.object id = some (.relation child))
    (hid : child.header.id = id) (hmem : foreignKey ∈ child.foreignKeys)
    (htarget : foreignKey.referencedRelation = target) {childKey : Bytes}
    (hrow : state.relational.select id childKey = some row) (htuple : decodeTuple row = .ok tuple) :
    foreignKeyOf codec child parent tuple (foreignKey.columns.zip foreignKey.referencedColumns) ≠ .ok (key, false) := by
  intro hkey
  simp only [validateParentNotReferencedState, hparent, okOr, ok_bind, forM_eq_ok] at h
  have hobject := h (.relation child) (mem_values.mpr ⟨id, hchild⟩)
  simp only [forM_eq_ok] at hobject
  have hone := hobject foreignKey hmem
  rw [if_neg (not_not_intro htarget), hid] at hone
  simp only [select, bind_eq_some_iff] at hrow
  obtain ⟨rows, hrows, hget⟩ := hrow
  simp only [hrows, forM_eq_ok] at hone
  have hlast := hone row (mem_values.mpr ⟨childKey, hget⟩)
  simp [validateNoReference, htuple, hkey] at hlast

theorem mem_indexesOn {relation : ObjectId} :
    definition ∈ CatalogState.indexesOn catalog relation ↔
      definition.relation = relation ∧ ∃ id, catalog.object id = some (.secondaryIndex definition) := by
  simp only [CatalogState.indexesOn, List.mem_filterMap, mem_values]
  constructor
  · rintro ⟨object, ⟨id, hget⟩, hobject⟩
    cases object with
    | secondaryIndex found =>
      by_cases hrelation : found.relation = relation
      · simp only [hrelation, if_true, some.injEq] at hobject
        subst hobject
        exact ⟨hrelation, id, hget⟩
      · simp [hrelation] at hobject
    | relation | other => cases hobject
  · rintro ⟨hrelation, id, hget⟩
    exact ⟨.secondaryIndex definition, ⟨id, hget⟩, by simp [hrelation]⟩

/-! ## Writing and removing rows -/

section Rows

variable {after : MaterializedState} {target : ObjectId} {relational : RelationState}

/-- The rows are those of the state, and no index has an entry for the row under `key`. -/
structure Cleared (state : MaterializedState) (target : ObjectId) (key : Bytes) (relational : RelationState) :
    Prop where
  tables : relational.tables = state.relational.tables
  indexes : ∀ id, (relational.indexes.get id).isSome ↔ (state.relational.indexes.get id).isSome
  entries : ∀ id indexKey primaryKey, relational.Entry id indexKey primaryKey →
    state.relational.Entry id indexKey primaryKey
  cleared : ∀ id definition, state.catalog.object id = some (.secondaryIndex definition) →
    definition.relation = target → ∀ indexKey, ¬relational.Entry id indexKey key

/-- Where there is no row, there is no entry. -/
theorem Inv.cleared_of_none (inv : Inv codec state) (h : state.relational.select target key = none) :
    Cleared state target key state.relational where
  tables := rfl
  indexes := fun _ => Iff.rfl
  entries := fun _ _ _ h => h
  cleared := by
    intro id definition hobject hrelation indexKey hentry
    obtain ⟨row, projection, hselect, -, -⟩ := inv.sound id definition hobject indexKey key hentry
    rw [hrelation, h] at hselect
    cases hselect

/-- The entries of the row that is there are found by its projections, all of them. -/
theorem Inv.cleared_of_withoutEntries (inv : Inv codec state) {mutation : Mutation}
    (h : withoutEntries codec state target mutation = .ok relational) :
    Cleared state target mutation.key relational ∧ ∃ oldRow,
      state.relational.select target mutation.key = some oldRow ∧
      ∀ id definition, state.catalog.object id = some (.secondaryIndex definition) → definition.relation = target →
        ∃ projection, secondaryIndexProjection codec state.catalog definition oldRow = .ok projection := by
  simp only [withoutEntries, bind_eq_ok, okOr_eq_ok] at h
  obtain ⟨oldRow, hold, projections, hprojections, hremove⟩ := h
  obtain ⟨htables, hindexes, hentries⟩ := removeSecondaryIndexProjections_ok hremove
  have hall := mem_of_mapM_eq_ok hprojections
  have hprojected : ∀ id definition, state.catalog.object id = some (.secondaryIndex definition) →
      definition.relation = target →
      ∃ projection ∈ projections, secondaryIndexProjection codec state.catalog definition oldRow = .ok projection := by
    intro id definition hobject hrelation
    have hmem := mem_indexesOn.mpr ⟨hrelation, id, hobject⟩
    exact hall.1 definition hmem
  refine ⟨⟨htables, hindexes, fun id indexKey primaryKey h => ((hentries _ _ _).mp h).1, ?_⟩, oldRow, hold, ?_⟩
  · intro id definition hobject hrelation indexKey hentry
    obtain ⟨hentry, hkept⟩ := (hentries _ _ _).mp hentry
    obtain ⟨row, projection, hselect, hproject, hkey⟩ := inv.sound id definition hobject indexKey _ hentry
    obtain ⟨projection', hmem, hproject'⟩ := hprojected id definition hobject hrelation
    rw [hrelation, hold] at hselect
    cases hselect
    rw [hproject] at hproject'
    cases hproject'
    refine hkept ⟨rfl, projection, hmem, ?_, hkey⟩
    rw [(secondaryIndexProjection_ok hproject).1]
    exact inv.ids id _ hobject
  · intro id definition hobject hrelation
    obtain ⟨projection, -, hproject⟩ := hprojected id definition hobject hrelation
    exact ⟨projection, hproject⟩

/-- The row under `key` is replaced, together with its index entries. -/
structure RowChange (codec : Codec) (state after : MaterializedState) (target : ObjectId) (key : Bytes)
    (replacement : Option Bytes) : Prop where
  catalog : after.catalog = state.catalog
  select : ∀ id key', after.relational.select id key' =
    if id = target ∧ key' = key then replacement else state.relational.select id key'
  indexes : ∀ id, (after.relational.indexes.get id).isSome ↔ (state.relational.indexes.get id).isSome
  entries : ∀ id definition, state.catalog.object id = some (.secondaryIndex definition) →
    ∀ indexKey primaryKey, after.relational.Entry id indexKey primaryKey →
      (state.relational.Entry id indexKey primaryKey ∧ ¬(definition.relation = target ∧ primaryKey = key)) ∨
      (definition.relation = target ∧ primaryKey = key ∧ ∃ row projection, replacement = some row ∧
        secondaryIndexProjection codec state.catalog definition row = .ok projection ∧ projection.key = indexKey)

theorem RowChange.select_of_ne (change : RowChange codec state after target key replacement) {key' : Bytes}
    (h : ¬(id = target ∧ key' = key)) : after.relational.select id key' = state.relational.select id key' := by
  rw [change.select, if_neg h]

theorem RowChange.select_self (change : RowChange codec state after target key replacement) :
    after.relational.select target key = replacement := by
  rw [change.select, if_pos ⟨rfl, rfl⟩]

/-- Put a row where the entries are cleared, and enter it into the indexes. -/
theorem Inv.rowChange_put (inv : Inv codec state) (hcleared : Cleared state target key relational)
    {stored indexed : RelationState} {projections : List SecondaryIndexProjection}
    (hindexes : stored.indexes = relational.indexes)
    (hselect : ∀ id key', stored.select id key' = if id = target ∧
      key' = key then some row else relational.select id key')
    (hprojections : secondaryIndexProjections codec state.catalog target row = .ok projections)
    (hinsert : insertSecondaryIndexProjections key projections stored = .ok indexed) :
    RowChange codec state { state with relational := indexed } target key (some row) := by
  obtain ⟨htables, hsome, hentries⟩ := insertSecondaryIndexProjections_ok hinsert
  have hall := mem_of_mapM_eq_ok hprojections
  refine ⟨rfl, ?_, ?_, ?_⟩
  · intro id key'
    have hrows : relational.select id key' = state.relational.select id key' := by
      rw [select, hcleared.tables, select]
    rw [← hrows, ← hselect, select, htables, select]
  · intro id
    rw [hsome, hindexes, hcleared.indexes]
  · intro id definition hobject indexKey primaryKey hentry
    rcases (hentries id indexKey primaryKey).mp hentry with hold | ⟨rfl, projection, hmem, hindex, hkey⟩
    · have hold : relational.Entry id indexKey primaryKey := by
        rwa [RelationState.Entry, hindexes] at hold
      refine .inl ⟨hcleared.entries _ _ _ hold, ?_⟩
      rintro ⟨hrelation, rfl⟩
      exact hcleared.cleared id definition hobject hrelation indexKey hold
    · -- the projection is that of the index with this identity
      obtain ⟨definition', hmem', hproject⟩ := hall.2 projection hmem
      obtain ⟨hrelation, id', hobject'⟩ := mem_indexesOn.mp hmem'
      have hid : id' = id := by
        rw [← hindex, (secondaryIndexProjection_ok hproject).1]
        exact (inv.ids id' _ hobject').symm
      subst hid
      rw [hobject] at hobject'
      cases hobject'
      exact .inr ⟨hrelation, rfl, row, projection, rfl, hproject, hkey⟩

/-- A new row has its parents: they were there before, or it is its own parent. -/
theorem Inv.parents_of_checked (inv : Inv codec state) (hcleared : Cleared state target key relational)
    (change : RowChange codec state after target key (some row))
    (hchecked : validateRelationForeignKeys codec { state with relational } target row = .ok ())
    (hkeyed : WritesKeyed codec state target key row) (hchild : state.catalog.relation target = some child)
    (hmem : foreignKey ∈ child.foreignKeys) : HasParentKey codec after child foreignKey row := by
  obtain ⟨parent, tuple, childKey, containsNull, hparent, htuple, hkey, hexists⟩ :=
    validateRelationForeignKeys_ok hchecked hchild hmem
  refine ⟨parent, tuple, childKey, containsNull, by rw [change.catalog]; exact hparent, htuple, hkey, ?_⟩
  intro hnull
  have hdeclared := inv.declared target child hchild foreignKey hmem
  cases hindex : foreignKey.referencedIndex with
  | none =>
    obtain ⟨parent', hparent', hcolumns⟩ := hdeclared.parent
    obtain rfl := mem_unique hparent hparent'
    have hcolumns := hcolumns hindex
    by_cases hself : foreignKey.referencedRelation = target ∧ childKey = key
    · -- the row refers to itself
      obtain ⟨hrelation, rfl⟩ := hself
      have hparentTarget : state.catalog.relation target = some parent := by rw [← hrelation]; exact hparent
      obtain ⟨newTuple, null, hdecode, hproject⟩ :=
        hkeyed ⟨target, child, hchild, foreignKey, hmem, hrelation, hindex⟩ parent hparentTarget
      refine ⟨childKey, row, newTuple, null, ?_, hdecode, ?_, fun _ => rfl⟩
      · rw [hrelation]
        exact change.select_self
      · rw [hcolumns]
        exact hproject
    · obtain ⟨parentRow, hrow⟩ := parentExists_row hindex (hexists hnull)
      rw [select, hcleared.tables] at hrow
      obtain ⟨parentTuple, null, hdecode, hproject⟩ :=
        inv.keyed target child hchild foreignKey hmem hindex parent childKey parentRow hparent hrow
      refine ⟨childKey, parentRow, parentTuple, null, ?_, hdecode, ?_, fun _ => rfl⟩
      · rw [change.select_of_ne hself]
        exact hrow
      · rw [hcolumns]
        exact hproject
  | some id =>
    obtain ⟨primaryKey, hentry⟩ := parentExists_index hindex (hexists hnull)
    obtain ⟨index, hobject, hrelation, hcolumns⟩ := hdeclared.index id hindex
    obtain ⟨parentRow, projection, hrow, hproject, hprojected⟩ :=
      inv.sound id index hobject childKey primaryKey (hcleared.entries _ _ _ hentry)
    obtain ⟨-, parent', parentTuple, hparent', hdecode, hcolumnsOf⟩ := secondaryIndexProjection_ok hproject
    rw [hrelation] at hparent' hrow
    obtain rfl := mem_unique hparent hparent'
    refine ⟨primaryKey, parentRow, parentTuple, projection.containsNull, ?_, hdecode, ?_, ?_⟩
    · rw [change.select_of_ne]
      · exact hrow
      · rintro ⟨htarget, rfl⟩
        exact hcleared.cleared id index hobject (hrelation.trans htarget) childKey hentry
    · rw [← hcolumns, ← hprojected]
      exact hcolumnsOf
    · intro hnone
      rw [hindex] at hnone
      cases hnone

/-- The rows that refer to the changed one still find a parent. -/
def KeepsReferences (codec : Codec) (state after : MaterializedState) (target : ObjectId) (key : Bytes) : Prop :=
  ∀ id child, state.catalog.relation id = some child → ∀ foreignKey ∈ child.foreignKeys,
    foreignKey.referencedRelation = target → ∀ parent, state.catalog.relation target = some parent →
      ∀ childKey row tuple foreign, ¬(id = target ∧ childKey = key) → state.relational.select id childKey = some row →
        decodeTuple row = .ok tuple →
        foreignKeyOf codec child parent tuple (foreignKey.columns.zip foreignKey.referencedColumns) =
          .ok (foreign, false) →
        ProvidesAt codec state.relational parent foreignKey foreign key →
        ∃ primaryKey, ProvidesAt codec after.relational parent foreignKey foreign primaryKey

theorem Inv.rowChange (inv : Inv codec state) (change : RowChange codec state after target key replacement)
    (hkeyed : ∀ row, replacement = some row → WritesKeyed codec state target key row)
    (hparents : ∀ row, replacement = some row → ∀ child, state.catalog.relation target = some child →
      ∀ foreignKey ∈ child.foreignKeys, HasParentKey codec after child foreignKey row)
    (hkeeps : KeepsReferences codec state after target key) : Inv codec after where
  ids := by
    rw [change.catalog]
    exact inv.ids
  indexed := by
    intro id hsome
    rw [change.catalog]
    exact inv.indexed id ((change.indexes id).mp hsome)
  sound := by
    rw [change.catalog]
    intro id definition hobject indexKey primaryKey hentry
    rcases change.entries id definition hobject indexKey primaryKey hentry with
      ⟨hold, hother⟩ | ⟨hrelation, rfl, row, projection, rfl, hproject, hkey⟩
    · obtain ⟨row, projection, hselect, hproject, hkey⟩ := inv.sound id definition hobject indexKey primaryKey hold
      exact ⟨row, projection, by rw [change.select_of_ne hother, hselect], hproject, hkey⟩
    · exact ⟨row, projection, by rw [hrelation, change.select_self], hproject, hkey⟩
  declared := by
    rw [change.catalog]
    exact inv.declared
  keyed := by
    rw [change.catalog]
    intro id child hchild foreignKey hmem hindex parent key' row' hparent hselect
    by_cases hself : foreignKey.referencedRelation = target ∧ key' = key
    · obtain ⟨hrelation, rfl⟩ := hself
      rw [hrelation, change.select_self] at hselect
      rw [hrelation] at hparent
      exact hkeyed row' hselect ⟨id, child, hchild, foreignKey, hmem, hrelation, hindex⟩ parent hparent
    · rw [change.select_of_ne hself] at hselect
      exact inv.keyed id child hchild foreignKey hmem hindex parent key' row' hparent hselect
  parents := by
    rw [change.catalog]
    intro id child hchild foreignKey hmem key' row' hselect
    by_cases hself : id = target ∧ key' = key
    · obtain ⟨rfl, rfl⟩ := hself
      rw [change.select_self] at hselect
      exact hparents row' hselect child hchild foreignKey hmem
    · rw [change.select_of_ne hself] at hselect
      obtain ⟨parent, tuple, foreign, containsNull, hparent, htuple, hkey, hprovides⟩ :=
        inv.parents id child hchild foreignKey hmem key' row' hselect
      refine ⟨parent, tuple, foreign, containsNull, by rw [change.catalog]; exact hparent, htuple, hkey, ?_⟩
      rintro rfl
      obtain ⟨primaryKey, hat⟩ := hprovides rfl
      by_cases hrow : foreignKey.referencedRelation = target ∧ primaryKey = key
      · obtain ⟨hrelation, rfl⟩ := hrow
        rw [hrelation] at hparent
        exact hkeeps id child hchild foreignKey hmem hrelation parent hparent key' row' tuple foreign hself hselect
          htuple hkey hat
      · obtain ⟨parentRow, parentTuple, null, hparentRow, hrest⟩ := hat
        exact ⟨primaryKey, parentRow, parentTuple, null, by rw [change.select_of_ne hrow, hparentRow], hrest⟩

/-! ## Row mutations -/

variable {mutation : Mutation}

/-- A row that is referenced through an index makes way only for a row with the same index key. -/
theorem Inv.replacement_of_reference (inv : Inv codec state)
    (hkeeps : KeepsIndexKeys codec state target key replacement) {oldRow : Bytes}
    (hold : state.relational.select target key = some oldRow)
    (hprojected : ∀ id definition, state.catalog.object id = some (.secondaryIndex definition) →
      definition.relation = target →
      ∃ projection, secondaryIndexProjection codec state.catalog definition oldRow = .ok projection)
    {indexId : ObjectId} (hchild : state.catalog.relation id = some child)
    (hmem : foreignKey ∈ child.foreignKeys) (hindex : foreignKey.referencedIndex = some indexId)
    (hrelation : foreignKey.referencedRelation = target) (hparent : state.catalog.relation target = some parent)
    {childKey foreign : Bytes} (hother : ¬(id = target ∧ childKey = key))
    (hrow : state.relational.select id childKey = some row) (htuple : decodeTuple row = .ok tuple)
    (hkey : foreignKeyOf codec child parent tuple (foreignKey.columns.zip foreignKey.referencedColumns) =
      .ok (foreign, false))
    (hat : ProvidesAt codec state.relational parent foreignKey foreign key) :
    ∃ newRow newTuple containsNull, replacement = some newRow ∧ decodeTuple newRow = .ok newTuple ∧
      projectColumns codec parent newTuple foreignKey.referencedColumns = .ok (foreign, containsNull) := by
  obtain ⟨oldRow', oldTuple, null, hold', hdecode, hproject, -⟩ := hat
  obtain ⟨index, hobject, hindexRelation, hcolumns⟩ :=
    (inv.declared id child hchild foreignKey hmem).index indexId hindex
  rw [hrelation, hold] at hold'
  cases hold'
  obtain ⟨projection, hprojection⟩ := hprojected indexId index hobject (hindexRelation.trans hrelation)
  obtain ⟨-, parent', oldTuple', hparent', hdecode', hcolumnsOf⟩ := secondaryIndexProjection_ok hprojection
  rw [hindexRelation, hrelation, hparent] at hparent'
  cases hparent'
  rw [hdecode] at hdecode'
  cases hdecode'
  rw [hcolumns, hproject] at hcolumnsOf
  obtain ⟨hsame, -⟩ := Prod.mk.inj (ok.inj hcolumnsOf)
  obtain ⟨newRow, newProjection, hnew, hnewProjection, hnewKey⟩ :=
    hkeeps oldRow parent hold hparent id child hchild foreignKey hmem hrelation indexId index hindex hobject childKey
      row tuple foreign projection hother hrow htuple hkey hprojection hsame.symm
  obtain ⟨-, parent', newTuple, hparent', hnewDecode, hnewColumns⟩ := secondaryIndexProjection_ok hnewProjection
  rw [hindexRelation, hrelation, hparent] at hparent'
  cases hparent'
  rw [hcolumns, hnewKey] at hnewColumns
  exact ⟨newRow, newTuple, newProjection.containsNull, hnew, hnewDecode, hnewColumns⟩

theorem Inv.applyInsert (inv : Inv codec state) (hkeyed : WritesKeyed codec state target mutation.key mutation.value)
    (h : Relational.applyInsert codec state target mutation = .ok after) : Inv codec after := by
  simp only [Relational.applyInsert, bind_eq_ok, mapError_eq_ok, ok.injEq] at h
  obtain ⟨_, -, _, -, ⟨⟩, hchecked, projections, hprojections, stored, hstored, indexed, hindexed, rfl⟩ := h
  obtain ⟨hfree, hindexes, hselect⟩ := insert_ok hstored
  have hcleared := inv.cleared_of_none hfree
  have change := inv.rowChange_put hcleared hindexes hselect hprojections hindexed
  refine inv.rowChange change ?_ ?_ ?_
  · rintro row ⟨⟩
    exact hkeyed
  · rintro row ⟨⟩ child hchild foreignKey hmem
    exact inv.parents_of_checked hcleared change hchecked hkeyed hchild hmem
  · -- nothing refers to a row that is not there
    rintro id child - foreignKey - hrelation parent - childKey row tuple foreign - - - - ⟨row', -, -, hrow', -⟩
    rw [hrelation, hfree] at hrow'
    cases hrow'

theorem Inv.applyUpdate (inv : Inv codec state) (hkeyed : WritesKeyed codec state target mutation.key mutation.value)
    (hkeeps : KeepsIndexKeys codec state target mutation.key (some mutation.value))
    (h : Relational.applyUpdate codec state target mutation = .ok after) : Inv codec after := by
  simp only [Relational.applyUpdate, bind_eq_ok, mapError_eq_ok, ok.injEq] at h
  obtain ⟨_, -, relational, hwithout, _, -, ⟨⟩, hchecked, projections, hprojections, stored, hstored, indexed, hindexed,
    rfl⟩ := h
  obtain ⟨hindexes, hselect⟩ := update_ok hstored
  obtain ⟨hcleared, oldRow, hold, hprojected⟩ := inv.cleared_of_withoutEntries hwithout
  have change := inv.rowChange_put hcleared hindexes hselect hprojections hindexed
  refine inv.rowChange change ?_ ?_ ?_
  · rintro row ⟨⟩
    exact hkeyed
  · rintro row ⟨⟩ child hchild foreignKey hmem
    exact inv.parents_of_checked hcleared change hchecked hkeyed hchild hmem
  · intro id child hchild foreignKey hmem hrelation parent hparent childKey row tuple foreign hother hrow htuple hkey
      hat
    cases hindex : foreignKey.referencedIndex with
    | none =>
      -- the new row is stored under the key that the child refers to
      obtain ⟨-, -, -, -, -, -, hprimary⟩ := hat
      obtain rfl := hprimary hindex
      obtain ⟨newTuple, null, hdecode, hproject⟩ :=
        hkeyed ⟨id, child, hchild, foreignKey, hmem, hrelation, hindex⟩ parent hparent
      obtain ⟨parent', hparent', hcolumns⟩ := (inv.declared id child hchild foreignKey hmem).parent
      rw [hrelation, hparent] at hparent'
      cases hparent'
      refine ⟨_, mutation.value, newTuple, null, ?_, hdecode, ?_, fun _ => rfl⟩
      · rw [hrelation]
        exact change.select_self
      · rw [hcolumns hindex]
        exact hproject
    | some indexId =>
      obtain ⟨newRow, newTuple, null, hnew, hdecode, hproject⟩ :=
        inv.replacement_of_reference hkeeps hold hprojected hchild hmem hindex hrelation hparent hother hrow htuple hkey
          hat
      refine ⟨mutation.key, newRow, newTuple, null, ?_, hdecode, hproject, ?_⟩
      · rw [hrelation, ← hnew]
        exact change.select_self
      · intro hnone
        rw [hindex] at hnone
        cases hnone

theorem Inv.applyDelete (inv : Inv codec state) (hkeeps : KeepsIndexKeys codec state target mutation.key none)
    (h : Relational.applyDelete codec state target mutation = .ok after) : Inv codec after := by
  simp only [Relational.applyDelete, bind_eq_ok, mapError_eq_ok, ok.injEq] at h
  obtain ⟨_, -, ⟨⟩, hchecked, relational, hwithout, _, -, stored, hstored, rfl⟩ := h
  obtain ⟨hindexes, hselect⟩ := delete_ok hstored
  obtain ⟨hcleared, oldRow, hold, hprojected⟩ := inv.cleared_of_withoutEntries hwithout
  have change : RowChange codec state { state with relational := stored } target mutation.key none := by
    refine ⟨rfl, ?_, ?_, ?_⟩
    · intro id key'
      rw [hselect, select, hcleared.tables, select]
    · intro id
      rw [hindexes, hcleared.indexes]
    · intro id definition hobject indexKey primaryKey hentry
      rw [RelationState.Entry, hindexes] at hentry
      refine .inl ⟨hcleared.entries _ _ _ hentry, ?_⟩
      rintro ⟨hrelation, rfl⟩
      exact hcleared.cleared id definition hobject hrelation indexKey hentry
  refine inv.rowChange change ?_ ?_ ?_
  · rintro row ⟨⟩
  · rintro row ⟨⟩
  · intro id child hchild foreignKey hmem hrelation parent hparent childKey row tuple foreign hother hrow htuple hkey
      hat
    cases hindex : foreignKey.referencedIndex with
    | none =>
      -- the check compares the child's key with the primary key, and here they are the same thing
      obtain ⟨-, -, -, -, -, -, hprimary⟩ := hat
      obtain rfl := hprimary hindex
      have hobject := CatalogState.relation_eq_some.mp hchild
      exact absurd hkey (validateParentNotReferencedState_ok hchecked hparent hobject
        (inv.ids id _ hobject) hmem hrelation hrow htuple)
    | some indexId =>
      obtain ⟨newRow, -, -, hnew, -⟩ :=
        inv.replacement_of_reference hkeeps hold hprojected hchild hmem hindex hrelation hparent hother hrow htuple hkey
          hat
      cases hnew

end Rows

end Hyphae.Relational
