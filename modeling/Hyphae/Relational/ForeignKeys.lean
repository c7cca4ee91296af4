import Hyphae.Relational.Entries
import Hyphae.Types.OrderedCompare

/-!
# What a foreign key says

A child row and a parent row agree on a foreign key when the values in its columns are
equal, pair by pair. The code compares keys instead: the ordered components of the
columns, one after the other. Since no component is the beginning of another one, equal
keys have equal columns.
-/

namespace Hyphae

open Lib Hyphae.Types Except

namespace Types

variable {logicalType : LogicalType} {value : ScalarValue} {json : JsonLibrary} {encoded : Bytes}

/-- A stored value is never null: null has no payload. -/
theorem decodePrimitiveStorage_isNull (h : decodePrimitiveStorage json encoded logicalType = .ok value) :
    value.isNull = false := by
  cases logicalType <;> simp only [decodePrimitiveStorage] at h
  case boolean =>
    split at h
    · cases h
      rfl
    · split at h
      · cases h
        rfl
      · cases h
  case uuid =>
    split at h
    · cases h
      rfl
    · cases h
  all_goals
    simp only [bind_eq_ok, ok.injEq, reduceCtorEq] at h
    try obtain ⟨_, -, rfl⟩ := h
    try obtain ⟨_, -, _, -, rfl⟩ := h
    try obtain rfl := h
    try rfl

theorem decodeStorage_isNull (h : decodeStorage json logicalType encoded = .ok value) : value.isNull = false := by
  cases logicalType <;> simp only [decodeStorage, bind_eq_ok, ok.injEq] at h
  case array | map =>
    obtain ⟨_, -, _, -, rfl⟩ := h
    rfl
  all_goals
    obtain ⟨_, -, h⟩ := h
    exact decodePrimitiveStorage_isNull h

/-- Null equals nothing but null. -/
theorem logicalCompare_null_ne_eq (h : value.isNull = false) : logicalCompare logicalType value .null ≠ .eq := by
  have hnull : ScalarValue.null.isNull = true := rfl
  cases logicalType <;> simp [logicalCompare, nullsFirst, h, hnull]

end Types

namespace Relational

open Catalog Records
open Mvcc (ObjectId)

variable (codec : Codec)

variable {containsNull : Bool}

/-! ## Equal columns -/

/-- Both columns hold a value, and the two are equal as values of the parent's column. -/
def SameColumn (child parent : RelationDefinition) (tuple parentTuple : RowTupleView) (childId parentId : ColumnId) :
    Prop :=
  ∃ column, parent.column parentId = some column ∧
    ∃ stored parentStored, columnBytes child tuple childId = .ok (some stored) ∧
      columnBytes parent parentTuple parentId = .ok (some parentStored) ∧
      ∃ value parentValue, decodeColumn codec column.logicalType stored = .ok value ∧
        decodeColumn codec column.logicalType parentStored = .ok parentValue ∧
        logicalCompare column.logicalType value parentValue = .eq

/-- A row that is there has a parent: unless one of its columns is null, some row of the parent agrees with it on all
of them. -/
def HasParent (state : MaterializedState) (child : RelationDefinition) (foreignKey : ForeignKeyDefinition)
    (row : Bytes) : Prop :=
  ∃ parent tuple, state.catalog.relation foreignKey.referencedRelation = some parent ∧ decodeTuple row = .ok tuple ∧
    ((∀ column ∈ foreignKey.columns, columnBytes child tuple column ≠ .ok none) →
      ∃ key parentRow parentTuple, state.relational.select foreignKey.referencedRelation key = some parentRow ∧
        decodeTuple parentRow = .ok parentTuple ∧
        List.Forall₂ (SameColumn codec child parent tuple parentTuple) foreignKey.columns foreignKey.referencedColumns)

/-- Every live row has a parent under every foreign key of its table. -/
def ReferentialIntegrity (state : MaterializedState) : Prop :=
  ∀ id child, state.catalog.relation id = some child → ∀ foreignKey ∈ child.foreignKeys,
    ∀ key row, state.relational.select id key = some row → HasParent codec state child foreignKey row

/-! ## Equal keys -/

section Keys

variable {codec} {child parent : RelationDefinition} {tuple parentTuple : RowTupleView} {key : Bytes}

theorem foreignKeyOf_cons_ok {childId parentId : ColumnId} {columns : List (ColumnId × ColumnId)}
    (h : foreignKeyOf codec child parent tuple ((childId, parentId) :: columns) = .ok (key, containsNull)) :
    ∃ column, parent.column parentId = some column ∧
      ((columnBytes child tuple childId = .ok none ∧ key = [] ∧ containsNull = true) ∨
        ∃ stored value component rest, columnBytes child tuple childId = .ok (some stored) ∧
          decodeColumn codec column.logicalType stored = .ok value ∧
          orderedColumn column.logicalType value = .ok component ∧
          foreignKeyOf codec child parent tuple columns = .ok (rest, containsNull) ∧ key = component ++ rest) := by
  simp only [foreignKeyOf, bind_eq_ok, okOr_eq_ok] at h
  obtain ⟨column, hcolumn, bytes, hbytes, h⟩ := h
  refine ⟨column, hcolumn, ?_⟩
  cases bytes with
  | none =>
    cases h
    exact .inl ⟨hbytes, rfl, rfl⟩
  | some stored =>
    simp only [bind_eq_ok, ok.injEq, Prod.mk.injEq, Prod.exists] at h
    obtain ⟨value, hvalue, component, hcomponent, rest, null, hrest, rfl, rfl⟩ := h
    exact .inr ⟨stored, value, component, rest, hbytes, hvalue, hcomponent, hrest, rfl⟩

theorem projectColumns_cons_ok {columnId : ColumnId} {columns : List ColumnId}
    (h : projectColumns codec parent parentTuple (columnId :: columns) = .ok (key, containsNull)) :
    ∃ column value component rest null, parent.column columnId = some column ∧
      ((columnBytes parent parentTuple columnId = .ok none ∧ value = .null) ∨
        ∃ stored, columnBytes parent parentTuple columnId = .ok (some stored) ∧
          decodeColumn codec column.logicalType stored = .ok value) ∧
      orderedColumn column.logicalType value = .ok component ∧
      projectColumns codec parent parentTuple columns = .ok (rest, null) ∧ key = component ++ rest := by
  simp only [projectColumns, bind_eq_ok, okOr_eq_ok] at h
  obtain ⟨column, hcolumn, bytes, hbytes, h⟩ := h
  cases bytes with
  | none =>
    simp only [ok_bind, bind_eq_ok, ok.injEq, Prod.mk.injEq, Prod.exists] at h
    obtain ⟨component, hcomponent, rest, null, hrest, rfl, -⟩ := h
    exact ⟨column, .null, component, rest, null, hcolumn, .inl ⟨hbytes, rfl⟩, hcomponent, hrest, rfl⟩
  | some stored =>
    simp only [bind_eq_ok, map_eq_ok, ok.injEq, Prod.mk.injEq, Prod.exists] at h
    obtain ⟨value, isNull, ⟨decoded, hvalue, rfl, -⟩, component, hcomponent, rest, null, hrest, rfl, -⟩ := h
    exact ⟨column, decoded, component, rest, null, hcolumn, .inr ⟨stored, hbytes, hvalue⟩, hcomponent, hrest, rfl⟩

/-- Two components of one type at the beginning of the same bytes are equal, and so are the values. -/
theorem component_unique {logicalType : LogicalType} {a b : ScalarValue} {x y s t : Bytes}
    (hx : orderedColumn logicalType a = .ok x) (hy : orderedColumn logicalType b = .ok y) (h : x ++ s = y ++ t) :
    logicalCompare logicalType a b = .eq ∧ s = t := by
  simp only [orderedColumn, mapError_eq_ok] at hx hy
  have hcode := orders_orderedComponent logicalType
  have heq : x = y := by
    rcases List.prefix_or_prefix_of_prefix (List.prefix_append x s) (h ▸ List.prefix_append y t) with hxy | hyx
    · exact hcode.eq_of_isPrefix hx hy hxy
    · exact (hcode.eq_of_isPrefix hy hx hyx).symm
  subst heq
  refine ⟨?_, List.append_cancel_left h⟩
  rw [← hcode.compare_eq hx hy, compareBytes_self]

theorem sameColumns_of_key {childIds parentIds : List ColumnId} (hlength : childIds.length = parentIds.length)
    (hchild : foreignKeyOf codec child parent tuple (childIds.zip parentIds) = .ok (key, false))
    (hparent : projectColumns codec parent parentTuple parentIds = .ok (key, containsNull)) :
    List.Forall₂ (SameColumn codec child parent tuple parentTuple) childIds parentIds := by
  induction childIds generalizing parentIds key containsNull with
  | nil =>
    cases parentIds with
    | nil => exact .nil
    | cons => cases hlength
  | cons childId childIds ih =>
    cases parentIds with
    | nil => cases hlength
    | cons parentId parentIds =>
      obtain ⟨column, hcolumn, hnull | hstored⟩ := foreignKeyOf_cons_ok hchild
      · cases hnull.2.2
      · obtain ⟨stored, value, component, rest, hbytes, hvalue, hcomponent, hrest, rfl⟩ := hstored
        obtain ⟨column', value', component', rest', null, hcolumn', hread, hcomponent', hrest', hkey⟩ :=
          projectColumns_cons_ok hparent
        obtain rfl := Option.mem_unique hcolumn hcolumn'
        obtain ⟨hcompare, rfl⟩ := component_unique hcomponent hcomponent' hkey
        refine .cons ?_ (ih (Nat.succ.inj hlength) hrest hrest')
        rcases hread with ⟨-, rfl⟩ | ⟨stored', hbytes', hvalue'⟩
        · -- the child's value was stored, so it is not null
          simp only [decodeColumn, mapError_eq_ok] at hvalue
          exact absurd hcompare (logicalCompare_null_ne_eq (decodeStorage_isNull hvalue))
        · exact ⟨column, hcolumn, stored, stored', hbytes, hbytes', value, value', hvalue, hvalue', hcompare⟩

/-- Where the key stops at a null, a column is null. -/
theorem exists_null_of_key {childIds parentIds : List ColumnId}
    (hchild : foreignKeyOf codec child parent tuple (childIds.zip parentIds) = .ok (key, true)) :
    ∃ column ∈ childIds, columnBytes child tuple column = .ok none := by
  induction childIds generalizing parentIds key with
  | nil => cases hchild
  | cons childId childIds ih =>
    cases parentIds with
    | nil => cases hchild
    | cons parentId parentIds =>
      obtain ⟨column, -, hnull | ⟨stored, value, component, rest, -, -, -, hrest, -⟩⟩ := foreignKeyOf_cons_ok hchild
      · exact ⟨childId, List.mem_cons_self, hnull.1⟩
      · obtain ⟨null, hmem, hnull⟩ := ih hrest
        exact ⟨null, List.mem_cons_of_mem _ hmem, hnull⟩

end Keys

end Relational

end Hyphae
