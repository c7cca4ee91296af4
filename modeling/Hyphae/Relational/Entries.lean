import Hyphae.Relational.Apply

/-!
# What the operations leave behind

One lemma for every operation on the catalog, the rows and the index entries: which
objects, which rows and which entries are there afterwards.
-/

namespace Hyphae.Relational

open Lib Hyphae.Types OrderedMap Except Option

open Catalog Records
open Mvcc (ObjectId)

variable {projections : List SecondaryIndexProjection}

/-! ## The catalog -/

namespace CatalogState

variable {catalog after : CatalogState} {id : ObjectId} {definition : RelationDefinition}

theorem relation_eq_some : catalog.relation id = some definition ↔ catalog.object id = some (.relation definition) := by
  unfold relation
  split <;> simp_all

/-- The catalog has one more object. -/
structure Gains (catalog after : CatalogState) (object : CatalogObject) (id : ObjectId) : Prop where
  self : object.header.id = id
  fresh : catalog.object id = none
  object : ∀ id', after.object id' = if id' = id then some object else catalog.object id'

theorem create_ok {json : JsonLibrary} {object : CatalogObject} (h : catalog.create json object = .ok after)
    (hid : object.header.id = id) : catalog.validateReferences object = .ok () ∧ Gains catalog after object id := by
  simp only [create, bind_eq_ok, mapError_eq_ok, failIf_eq_ok, ok.injEq, not_or] at h
  obtain ⟨_, -, _, ⟨hfresh, -⟩, _, -, _, hreferences, rfl⟩ := h
  subst hid
  refine ⟨hreferences, rfl, not_isSome_iff_eq_none.mp hfresh, ?_⟩
  intro id'
  rw [CatalogState.object, get_insert, CatalogState.object]
  by_cases hid : id' = object.header.id <;> simp [hid]

section Gains

variable {object old : CatalogObject} {id' : ObjectId} (h : Gains catalog after object id)
include h

theorem Gains.ne (hold : catalog.object id' = some old) : id' ≠ id := by
  rintro rfl
  rw [h.fresh] at hold
  cases hold

theorem Gains.keeps (hold : catalog.object id' = some old) : after.object id' = some old := by
  rw [h.object, if_neg (h.ne hold), hold]

theorem Gains.relation_of_ne (hne : id' ≠ id) : after.relation id' = catalog.relation id' := by
  rw [relation, h.object, if_neg hne, relation]

theorem Gains.ids (hids : ∀ id object, catalog.object id = some object → object.header.id = id)
    (hget : after.object id' = some old) : old.header.id = id' := by
  rw [h.object] at hget
  split at hget
  · next heq =>
    cases hget
    rw [h.self, heq]
  · exact hids id' old hget

end Gains

theorem remove_ok (h : catalog.remove id = .ok after) :
    ¬catalog.hasDependents id ∧ ∀ id', after.object id' = if id' = id then none else catalog.object id' := by
  simp only [remove, bind_eq_ok, failIf_eq_ok, ok.injEq] at h
  obtain ⟨-, -, -, hfree, rfl⟩ := h
  refine ⟨hfree, ?_⟩
  intro id'
  rw [CatalogState.object, get_erase, CatalogState.object]
  by_cases hid : id' = id <;> simp [hid]

end CatalogState

namespace RelationState

variable {state after : RelationState} {id table : ObjectId} {key row indexKey primaryKey : Bytes} {containsNull : Bool}

/-- The index has this primary key under this index key. -/
def Entry (state : RelationState) (id : ObjectId) (indexKey primaryKey : Bytes) : Prop :=
  ∃ index, state.indexes.get id = some index ∧ (index.keys indexKey).get primaryKey = some ()

/-! ## Rows -/

/-- One row of one table is written or removed. -/
theorem select_withRows {rows rows' : OrderedMap Bytes Bytes} {value : Option Bytes}
    (hrows : state.tables.get table = some rows)
    (hwrite : ∀ key', rows'.get key' = if key' = key then value else rows.get key') (id' : ObjectId) (key' : Bytes) :
    select { state with tables := state.tables.insert table rows' } id' key' =
      if id' = table ∧ key' = key then value else state.select id' key' := by
  rw [select, get_insert]
  by_cases hid : id' = table
  · subst hid
    rw [if_pos rfl, bind_some, hwrite, select, hrows, bind_some]
    by_cases hkey : key' = key <;> simp [hkey]
  · rw [if_neg hid, if_neg fun h => hid h.1, select]

theorem insert_ok (h : state.insert table key row = .ok after) :
    state.select table key = none ∧ after.indexes = state.indexes ∧
      ∀ id' key', after.select id' key' = if id' = table ∧ key' = key then some row else state.select id' key' := by
  simp only [insert, bind_eq_ok, okOr_eq_ok, failIf_eq_ok, ok.injEq] at h
  obtain ⟨rows, hrows, -, hfree, rfl⟩ := h
  exact ⟨by simpa [select, hrows] using hfree, rfl, select_withRows hrows fun _ => by convert get_insert ..⟩

theorem update_ok (h : state.update table key row = .ok after) :
    after.indexes = state.indexes ∧
      ∀ id' key', after.select id' key' = if id' = table ∧ key' = key then some row else state.select id' key' := by
  simp only [update, bind_eq_ok, okOr_eq_ok, failIf_eq_ok, ok.injEq] at h
  obtain ⟨rows, hrows, -, -, rfl⟩ := h
  exact ⟨rfl, select_withRows hrows fun _ => by convert get_insert ..⟩

theorem delete_ok (h : state.delete table key = .ok after) :
    after.indexes = state.indexes ∧
      ∀ id' key', after.select id' key' = if id' = table ∧ key' = key then none else state.select id' key' := by
  simp only [delete, bind_eq_ok, okOr_eq_ok, failIf_eq_ok, ok.injEq] at h
  obtain ⟨rows, hrows, -, -, rfl⟩ := h
  exact ⟨rfl, select_withRows hrows fun _ => by convert get_erase ..⟩

theorem createTable_ok (h : state.createTable id = .ok after) :
    after.indexes = state.indexes ∧
      ∀ id' key', after.select id' key' = if id' = id then none else state.select id' key' := by
  simp only [createTable, bind_eq_ok, failIf_eq_ok, ok.injEq] at h
  obtain ⟨-, -, rfl⟩ := h
  refine ⟨rfl, ?_⟩
  intro id' key'
  rw [select, get_insert]
  split
  · rfl
  · rfl

theorem dropTable_ok (h : state.dropTable id = .ok after) :
    after.indexes = state.indexes ∧
      ∀ id' key', after.select id' key' = if id' = id then none else state.select id' key' := by
  simp only [dropTable, bind_eq_ok, failIf_eq_ok, ok.injEq] at h
  obtain ⟨-, -, -, -, rfl⟩ := h
  refine ⟨rfl, ?_⟩
  intro id' key'
  rw [select, get_erase]
  split
  · rfl
  · rfl

/-! ## Entries -/

theorem createSecondaryIndex_ok {relation : ObjectId} {unique nullsDistinct : Bool}
    (h : state.createSecondaryIndex id relation unique nullsDistinct = .ok after) :
    after.tables = state.tables ∧ state.indexes.get id = none ∧
      (∀ id', (after.indexes.get id').isSome ↔ id' = id ∨ (state.indexes.get id').isSome) ∧
      ∀ id' k pk, after.Entry id' k pk ↔ state.Entry id' k pk := by
  simp only [createSecondaryIndex, bind_eq_ok, failIf_eq_ok, ok.injEq] at h
  obtain ⟨-, -, -, hfree, rfl⟩ := h
  have hnone : state.indexes.get id = none := not_isSome_iff_eq_none.mp hfree
  refine ⟨rfl, hnone, ?_, ?_⟩
  · intro id'
    rw [get_insert]
    by_cases hid : id' = id
    · simp [hid]
    · simp [hid]
  · intro id' k pk
    unfold Entry
    simp only [get_insert]
    by_cases hid : id' = id
    · -- a new index has no entries
      subst hid
      simp [hnone, SecondaryIndexState.keys]
    · simp [hid]

theorem dropSecondaryIndex_ok (h : state.dropSecondaryIndex id = .ok after) :
    after.tables = state.tables ∧
      (∀ id', after.indexes.get id' = if id' = id then none else state.indexes.get id') := by
  simp only [dropSecondaryIndex, bind_eq_ok, failIf_eq_ok, ok.injEq] at h
  obtain ⟨-, -, rfl⟩ := h
  refine ⟨rfl, ?_⟩
  intro id'
  rw [get_erase]
  by_cases hid : id' = id <;> simp [hid]

/-- The primary keys under one index key of one index are replaced. -/
theorem withIndex_ok {index written : SecondaryIndexState} {keys : KeySet} (hindex : state.indexes.get id = some index)
    (hwrite : ∀ k, written.keys k = if k = indexKey then keys else index.keys k) :
    (∀ id', ((state.indexes.insert id written).get id').isSome ↔ (state.indexes.get id').isSome) ∧
      ∀ id' k pk, Entry { state with indexes := state.indexes.insert id written } id' k pk ↔
        if id' = id ∧ k = indexKey then keys.get pk = some () else state.Entry id' k pk := by
  constructor
  · intro id'
    rw [get_insert]
    by_cases hid : id' = id
    · simp [hid, hindex]
    · simp [hid]
  · intro id' k pk
    unfold Entry
    simp only [get_insert]
    by_cases hid : id' = id
    · subst hid
      simp only [if_true, some.injEq, exists_eq_left', hindex, hwrite, true_and]
      by_cases hk : k = indexKey <;> simp [hk]
    · simp [hid]

theorem entry_iff {index : SecondaryIndexState} (hindex : state.indexes.get id = some index) :
    state.Entry id indexKey primaryKey ↔ (index.keys indexKey).get primaryKey = some () := by
  simp [Entry, hindex]

theorem keys_insert (index : SecondaryIndexState) (indexKey : Bytes) (keys : KeySet) (k : Bytes) :
    SecondaryIndexState.keys { index with entries := index.entries.insert indexKey keys } k =
      if k = indexKey then keys else index.keys k := by
  rw [SecondaryIndexState.keys, get_insert]
  split <;> rfl

theorem insertSecondaryIndex_ok (h : state.insertSecondaryIndex id indexKey primaryKey containsNull = .ok after) :
    after.tables = state.tables ∧ (∀ id', (after.indexes.get id').isSome ↔ (state.indexes.get id').isSome) ∧
      ∀ id' k pk, after.Entry id' k pk ↔ state.Entry id' k pk ∨ (id' = id ∧ k = indexKey ∧ pk = primaryKey) := by
  simp only [insertSecondaryIndex, bind_eq_ok, okOr_eq_ok, ok.injEq] at h
  obtain ⟨index, hindex, -, -, rfl⟩ := h
  obtain ⟨hindexes, hentries⟩ := withIndex_ok hindex (keys_insert index indexKey _)
  refine ⟨rfl, hindexes, ?_⟩
  intro id' k pk
  rw [hentries]
  by_cases hsame : id' = id ∧ k = indexKey
  · obtain ⟨rfl, rfl⟩ := hsame
    rw [entry_iff hindex, get_insert]
    by_cases hpk : pk = primaryKey <;> simp [hpk]
  · simp [hsame, ← and_assoc]

/-- An index key without primary keys is not kept, and reads as the empty set all the same. -/
theorem keys_withKeys (index : SecondaryIndexState) (indexKey : Bytes) (keys : KeySet) (k : Bytes) :
    SecondaryIndexState.keys { index with
        entries := if keys.entries = [] then index.entries.erase indexKey else index.entries.insert indexKey keys } k =
      if k = indexKey then keys else index.keys k := by
  by_cases hempty : keys.entries = []
  · have hkeys : keys = OrderedMap.empty := ext_entries hempty
    rw [if_pos hempty, hkeys]
    simp only [SecondaryIndexState.keys, get_erase]
    by_cases hk : k = indexKey <;> simp [hk]
  · rw [if_neg hempty, keys_insert]

theorem removeSecondaryIndex_ok (h : state.removeSecondaryIndex id indexKey primaryKey = .ok after) :
    after.tables = state.tables ∧ (∀ id', (after.indexes.get id').isSome ↔ (state.indexes.get id').isSome) ∧
      ∀ id' k pk, after.Entry id' k pk ↔ state.Entry id' k pk ∧ ¬(id' = id ∧ k = indexKey ∧ pk = primaryKey) := by
  simp only [removeSecondaryIndex, bind_eq_ok, okOr_eq_ok, failIf_eq_ok, ok.injEq] at h
  obtain ⟨index, hindex, -, -, rfl⟩ := h
  obtain ⟨hindexes, hentries⟩ := withIndex_ok hindex (keys_withKeys index indexKey _)
  refine ⟨rfl, hindexes, ?_⟩
  intro id' k pk
  rw [hentries]
  by_cases hsame : id' = id ∧ k = indexKey
  · obtain ⟨rfl, rfl⟩ := hsame
    rw [entry_iff hindex, get_erase]
    by_cases hpk : pk = primaryKey <;> simp [hpk]
  · simp [hsame, ← and_assoc]

end RelationState

/-! ## Lists of entries -/

open RelationState

/-- An entry of a list is the first one or a later one. -/
theorem listed_cons {projection : SecondaryIndexProjection} {id : ObjectId} {k pk primaryKey : Bytes} :
    (id = projection.index ∧ k = projection.key ∧ pk = primaryKey) ∨
        (pk = primaryKey ∧ ∃ p ∈ projections, p.index = id ∧ p.key = k) ↔
      pk = primaryKey ∧ ∃ p ∈ projection :: projections, p.index = id ∧ p.key = k := by
  simp only [List.mem_cons, exists_eq_or_imp]
  constructor
  · rintro (⟨rfl, rfl, rfl⟩ | ⟨rfl, hlater⟩)
    · exact ⟨rfl, .inl ⟨rfl, rfl⟩⟩
    · exact ⟨rfl, .inr hlater⟩
  · rintro ⟨rfl, ⟨rfl, rfl⟩ | hlater⟩
    · exact .inl ⟨rfl, rfl, rfl⟩
    · exact .inr ⟨rfl, hlater⟩

theorem insertSecondaryIndexProjections_ok {primaryKey : Bytes} {state after : RelationState}
    (h : insertSecondaryIndexProjections primaryKey projections state = .ok after) :
    after.tables = state.tables ∧ (∀ id, (after.indexes.get id).isSome ↔ (state.indexes.get id).isSome) ∧
      ∀ id k pk, after.Entry id k pk ↔ state.Entry id k pk ∨
        (pk = primaryKey ∧ ∃ projection ∈ projections, projection.index = id ∧ projection.key = k) := by
  induction projections generalizing state with
  | nil =>
    cases h
    simp
  | cons projection projections ih =>
    simp only [insertSecondaryIndexProjections, bind_eq_ok, mapError_eq_ok] at h
    obtain ⟨middle, hfirst, hrest⟩ := h
    obtain ⟨htables, hindexes, hentries⟩ := insertSecondaryIndex_ok hfirst
    obtain ⟨htables', hindexes', hentries'⟩ := ih hrest
    refine ⟨htables'.trans htables, fun id => (hindexes' id).trans (hindexes id), ?_⟩
    intro id k pk
    rw [hentries', hentries, ← listed_cons]
    exact or_assoc

theorem removeSecondaryIndexProjections_ok {primaryKey : Bytes} {state after : RelationState}
    (h : removeSecondaryIndexProjections primaryKey projections state = .ok after) :
    after.tables = state.tables ∧ (∀ id, (after.indexes.get id).isSome ↔ (state.indexes.get id).isSome) ∧
      ∀ id k pk, after.Entry id k pk ↔ state.Entry id k pk ∧
        ¬(pk = primaryKey ∧ ∃ projection ∈ projections, projection.index = id ∧ projection.key = k) := by
  induction projections generalizing state with
  | nil =>
    cases h
    simp
  | cons projection projections ih =>
    simp only [removeSecondaryIndexProjections, bind_eq_ok, mapError_eq_ok] at h
    obtain ⟨middle, hfirst, hrest⟩ := h
    obtain ⟨htables, hindexes, hentries⟩ := removeSecondaryIndex_ok hfirst
    obtain ⟨htables', hindexes', hentries'⟩ := ih hrest
    refine ⟨htables'.trans htables, fun id => (hindexes' id).trans (hindexes id), ?_⟩
    intro id k pk
    rw [hentries', hentries, and_assoc, ← not_or, listed_cons]

end Hyphae.Relational
