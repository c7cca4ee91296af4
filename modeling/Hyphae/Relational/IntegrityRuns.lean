import Hyphae.Relational.Integrity
import Hyphae.Types.StorageRoundTrip

/-!
# Integrity of whole runs

The mutations that change tables and indexes, and the invariant along a run. Without
the condition on updates and deletes, a parent that is referenced through a unique index
can be deleted under its children.
-/

namespace Hyphae.Relational

open Lib Hyphae.Types Except Option List OrderedMap

open Catalog Records CatalogState RelationState
open Mvcc (ObjectId)
open Hyphae.Runtime (Mutation Opcode)

variable {codec : Codec}

variable {catalog : CatalogState} {definition : RelationDefinition}

/-! ## Tables and indexes -/

section Objects

variable {state after : MaterializedState} {target : ObjectId} {mutation : Mutation} {foreignKey : ForeignKeyDefinition}
  {catalog' : CatalogState}

/-- The rows are the same ones, and so are the parents of every relation that has some. -/
structure KeepsRows (state after : MaterializedState) : Prop where
  rows : ∀ id child, after.catalog.relation id = some child → ∀ key row, after.relational.select id key = some row →
    state.catalog.relation id = some child ∧ state.relational.select id key = some row
  parents : ∀ id child, state.catalog.relation id = some child → after.catalog.relation id = some child →
    ∀ foreignKey ∈ child.foreignKeys,
      after.catalog.relation foreignKey.referencedRelation = state.catalog.relation foreignKey.referencedRelation ∧
      ∀ key, after.relational.select foreignKey.referencedRelation key =
        state.relational.select foreignKey.referencedRelation key

theorem Inv.parents_of_keepsRows (inv : Inv codec state) (keeps : KeepsRows state after) (id : ObjectId)
    (child : RelationDefinition) (hchild : after.catalog.relation id = some child) (foreignKey : ForeignKeyDefinition)
    (hmem : foreignKey ∈ child.foreignKeys) (key row : Bytes) (hrow : after.relational.select id key = some row) :
    HasParentKey codec after child foreignKey row := by
  obtain ⟨hold, hselect⟩ := keeps.rows id child hchild key row hrow
  obtain ⟨hrelation, hrows⟩ := keeps.parents id child hold hchild foreignKey hmem
  obtain ⟨parent, tuple, foreign, containsNull, hparent, htuple, hkey, hprovides⟩ :=
    inv.parents id child hold foreignKey hmem key row hselect
  refine ⟨parent, tuple, foreign, containsNull, hrelation.trans hparent, htuple, hkey, ?_⟩
  intro hnull
  obtain ⟨primaryKey, parentRow, parentTuple, null, hparentRow, hrest⟩ := hprovides hnull
  exact ⟨primaryKey, parentRow, parentTuple, null, (hrows primaryKey).trans hparentRow, hrest⟩

/-- A declaration reads the objects that the foreign key names. -/
theorem Declared.mono (h : Declared catalog foreignKey)
    (hobjects : ∀ id object, foreignKey.referencedRelation = id ∨ foreignKey.referencedIndex = some id →
      catalog.object id = some object → catalog'.object id = some object) :
    Declared catalog' foreignKey where
  length_eq := h.length_eq
  parent := by
    obtain ⟨parent, hparent, hcolumns⟩ := h.parent
    exact ⟨parent, relation_eq_some.mpr (hobjects _ _ (.inl rfl) (relation_eq_some.mp hparent)), hcolumns⟩
  index := by
    intro id hindex
    obtain ⟨index, hobject, hrest⟩ := h.index id hindex
    exact ⟨index, hobjects _ _ (.inr hindex) hobject, hrest⟩

theorem decodeRelationCreation_id (h : decodeRelationCreation codec target mutation = .ok definition) :
    definition.header.id = target := by
  simp only [decodeRelationCreation, bind_eq_ok] at h
  obtain ⟨object, -, h⟩ := h
  cases object with
  | relation found =>
    simp only [bind_eq_ok, failIf_eq_ok, ok.injEq, not_not] at h
    obtain ⟨_, hid, _, -, _, -, rfl⟩ := h
    exact hid
  | secondaryIndex found | other header prerequisites => cases h

theorem decodeSecondaryIndexCreation_id {definition : SecondaryIndexDefinition}
    (h : decodeSecondaryIndexCreation codec target mutation = .ok definition) : definition.header.id = target := by
  simp only [decodeSecondaryIndexCreation, bind_eq_ok] at h
  obtain ⟨_, -, object, -, h⟩ := h
  cases object with
  | secondaryIndex found =>
    simp only [bind_eq_ok, failIf_eq_ok, ok.injEq, not_not] at h
    obtain ⟨_, hid, _, -, rfl⟩ := h
    exact hid
  | relation found | other header prerequisites => cases h

/-- The relation that a foreign key of a new table refers to, with the key it has there. -/
theorem validateReferences_relation (h : catalog.validateReferences (.relation definition) = .ok ())
    (hmem : foreignKey ∈ definition.foreignKeys) :
    foreignKey.columns.length = foreignKey.referencedColumns.length ∧
      ∃ parent, catalog.foreignKeyParent definition foreignKey = some parent ∧
        (foreignKey.referencedIndex = none → foreignKey.referencedColumns = parent.primaryKey) := by
  simp only [validateReferences, forM_eq_ok] at h
  have hone := h foreignKey hmem
  simp only [bind_eq_ok, okOr_eq_ok, mapError_eq_ok, ForeignKeyDefinition.validateRelations,
    failIf_eq_ok, not_or, not_and, not_not] at hone
  obtain ⟨parent, hparent, _, ⟨-, hlength, hcolumns⟩, -⟩ := hone
  exact ⟨hlength, parent, hparent, hcolumns⟩

theorem Inv.applyTableCreation (inv : Inv codec state) (hdeclares : Declares codec state mutation)
    (hopcode : mutation.opcode = .createTable)
    (hkeyed : ∀ definition, decodeRelationCreation codec target mutation = .ok definition →
      ∀ foreignKey ∈ definition.foreignKeys, foreignKey.referencedIndex = none →
        ∀ parent key row, state.catalog.relation foreignKey.referencedRelation = some parent →
          state.relational.select foreignKey.referencedRelation key = some row → Keyed codec parent key row)
    (h : Relational.applyTableCreation codec state target mutation = .ok after) : Inv codec after := by
  simp only [Relational.applyTableCreation, bind_eq_ok, mapError_eq_ok, ok.injEq] at h
  obtain ⟨definition, hdecode, catalog, hcatalog, relational, hrelational, rfl⟩ := h
  obtain ⟨hreferences, hgains⟩ := create_ok hcatalog (decodeRelationCreation_id hdecode)
  obtain ⟨hindexes, hselect⟩ := createTable_ok hrelational
  have hentry : ∀ id k pk, relational.Entry id k pk ↔ state.relational.Entry id k pk := by
    intro id k pk
    rw [RelationState.Entry, RelationState.Entry, hindexes]
  have hnew : catalog.relation target = some definition := by
    rw [relation_eq_some, hgains.object, if_pos rfl]
  have hold : ∀ id child, state.catalog.relation id = some child → id ≠ target := by
    intro id child hchild
    exact hgains.ne (relation_eq_some.mp hchild)
  -- a relation that is there afterwards is the new one or one of the old ones
  have hcases : ∀ id child, catalog.relation id = some child →
      (id = target ∧ child = definition) ∨ (id ≠ target ∧ state.catalog.relation id = some child) := by
    intro id child hchild
    by_cases hid : id = target
    · subst hid
      rw [hnew] at hchild
      exact .inl ⟨rfl, (some.inj hchild).symm⟩
    · exact .inr ⟨hid, by rw [← hgains.relation_of_ne hid, hchild]⟩
  have hreferenced : ∀ id child, state.catalog.relation id = some child → ∀ foreignKey ∈ child.foreignKeys,
      foreignKey.referencedRelation ≠ target := by
    intro id child hchild foreignKey hmem
    obtain ⟨parent, hparent, -⟩ := (inv.declared id child hchild foreignKey hmem).parent
    exact hold _ parent hparent
  refine ⟨?_, ?_, ?_, ?_, ?_, ?_⟩
  · exact fun _ _ => hgains.ids inv.ids
  · intro id hsome
    rw [hindexes] at hsome
    obtain ⟨index, hindex⟩ := inv.indexed id hsome
    exact ⟨index, hgains.keeps hindex⟩
  · intro id index hget indexKey primaryKey hentry'
    rw [hgains.object] at hget
    split at hget
    · cases hget
    · obtain ⟨row, projection, hrow, hproject, hkey⟩ :=
        inv.sound id index hget indexKey primaryKey ((hentry _ _ _).mp hentry')
      obtain ⟨-, relation, -, hindexed, -⟩ := secondaryIndexProjection_ok hproject
      have hne := hold _ _ hindexed
      refine ⟨row, projection, ?_, ?_, hkey⟩
      · rw [hselect, if_neg hne, hrow]
      · rw [secondaryIndexProjection_congr (hgains.relation_of_ne hne), hproject]
  · intro id child hchild foreignKey hmem
    rcases hcases id child hchild with ⟨rfl, rfl⟩ | ⟨-, hchild⟩
    · obtain ⟨hlength, parent, hparent, hcolumns⟩ := validateReferences_relation hreferences hmem
      refine ⟨hlength, ⟨parent, ?_, hcolumns⟩, ?_⟩
      · rw [foreignKeyParent] at hparent
        split at hparent
        · next heq =>
          rw [heq]
          exact hgains.self ▸ hnew.trans hparent
        · next hne =>
          rw [hgains.relation_of_ne (hold _ _ hparent), hparent]
      · intro indexId hindex
        obtain ⟨index, hget, -, hrest⟩ := hdeclares.2 _ child hopcode hdecode foreignKey hmem indexId hindex
        exact ⟨index, hgains.keeps hget, hrest⟩
    · exact (inv.declared id child hchild foreignKey hmem).mono fun _ _ _ => hgains.keeps
  · intro id child hchild foreignKey hmem hindex parent key row hparent hrow
    have hne : foreignKey.referencedRelation ≠ target := by
      intro heq
      rw [hselect, if_pos heq] at hrow
      cases hrow
    rw [hgains.relation_of_ne hne] at hparent
    rw [hselect, if_neg hne] at hrow
    rcases hcases id child hchild with ⟨rfl, rfl⟩ | ⟨-, hchild⟩
    · exact hkeyed child hdecode foreignKey hmem hindex parent key row hparent hrow
    · exact inv.keyed id child hchild foreignKey hmem hindex parent key row hparent hrow
  · refine inv.parents_of_keepsRows ⟨?_, ?_⟩
    · intro id child hchild key row hrow
      rw [hselect] at hrow
      split at hrow
      · cases hrow
      · next hne =>
        exact ⟨by rw [← hgains.relation_of_ne hne, hchild], hrow⟩
    · intro id child hchild _ foreignKey hmem
      have hne := hreferenced id child hchild foreignKey hmem
      exact ⟨hgains.relation_of_ne hne, fun key => by rw [hselect, if_neg hne]⟩

theorem indexRows_ok {definition : SecondaryIndexDefinition} {rows : List (Bytes × Bytes)}
    {relational indexed : RelationState} (h : indexRows codec catalog definition rows relational = .ok indexed) :
    indexed.tables = relational.tables ∧ (∀ id, (indexed.indexes.get id).isSome ↔ (relational.indexes.get id).isSome) ∧
      ∀ id k pk, indexed.Entry id k pk → relational.Entry id k pk ∨ (id = definition.header.id ∧
        ∃ row projection, (pk, row) ∈ rows ∧ secondaryIndexProjection codec catalog definition row = .ok projection ∧
          projection.key = k) := by
  induction rows generalizing relational with
  | nil =>
    cases h
    simp
  | cons entry rows ih =>
    obtain ⟨primaryKey, row⟩ := entry
    simp only [indexRows, bind_eq_ok, mapError_eq_ok] at h
    obtain ⟨projection, hproject, middle, hinsert, hrest⟩ := h
    obtain ⟨htables, hindexes, hentries⟩ := insertSecondaryIndex_ok hinsert
    obtain ⟨htables', hindexes', hentries'⟩ := ih hrest
    refine ⟨htables'.trans htables, fun id => (hindexes' id).trans (hindexes id), ?_⟩
    intro id k pk hentry
    rcases hentries' id k pk hentry with hold | ⟨hid, row', projection', hmem, hrest⟩
    · rcases (hentries id k pk).mp hold with hold | ⟨rfl, rfl, rfl⟩
      · exact .inl hold
      · exact .inr ⟨rfl, row, projection, mem_cons_self, hproject, rfl⟩
    · exact .inr ⟨hid, row', projection', mem_cons_of_mem _ hmem, hrest⟩

theorem Inv.applySecondaryIndexCreation (inv : Inv codec state)
    (h : Relational.applySecondaryIndexCreation codec state target mutation = .ok after) : Inv codec after := by
  simp only [Relational.applySecondaryIndexCreation, bind_eq_ok, mapError_eq_ok, okOr_eq_ok, ok.injEq] at h
  obtain ⟨definition, hdecode, catalog, hcatalog, created, hcreated, rows, hrows, relational, hindexed, rfl⟩ := h
  obtain ⟨-, hgains⟩ := create_ok hcatalog (decodeSecondaryIndexCreation_id hdecode)
  obtain ⟨htables, hnone, hsome, hentries⟩ := createSecondaryIndex_ok hcreated
  obtain ⟨htables', hsome', hentries'⟩ := indexRows_ok hindexed
  have hselect : ∀ id key, relational.select id key = state.relational.select id key := by
    intro id key
    rw [select, htables', htables, select]
  have hrelation : ∀ id, catalog.relation id = state.catalog.relation id := by
    intro id
    by_cases hid : id = target
    · rw [relation, hgains.object, if_pos hid, relation, hid, hgains.fresh]
    · exact hgains.relation_of_ne hid
  refine ⟨?_, ?_, ?_, ?_, ?_, ?_⟩
  · exact fun _ _ => hgains.ids inv.ids
  · intro id hget
    rw [hsome', hsome] at hget
    rcases hget with rfl | hget
    · exact ⟨definition, by rw [hgains.object, if_pos rfl]⟩
    · obtain ⟨index, hindex⟩ := inv.indexed id hget
      exact ⟨index, hgains.keeps hindex⟩
  · intro id index hget indexKey primaryKey hentry
    rcases hentries' id indexKey primaryKey hentry with hold | ⟨rfl, row, projection, hmem, hproject, hkey⟩
    · have hold := (hentries id indexKey primaryKey).mp hold
      have hne : id ≠ target := by
        rintro rfl
        obtain ⟨found, hfound, -⟩ := hold
        rw [hnone] at hfound
        cases hfound
      rw [hgains.object, if_neg hne] at hget
      obtain ⟨row, projection, hrow, hproject, hkey⟩ := inv.sound id index hget indexKey primaryKey hold
      exact ⟨row, projection, by rw [hselect, hrow], by rw [secondaryIndexProjection_congr (hrelation _), hproject],
        hkey⟩
    · have hself : definition.header.id = target := hgains.self
      rw [hgains.object, if_pos hself] at hget
      cases hget
      refine ⟨row, projection, ?_, hproject, hkey⟩
      rw [hselect, select, ← htables, hrows, bind_some, ← mem_entries]
      exact hmem
  · intro id child hchild foreignKey hmem
    rw [hrelation] at hchild
    exact (inv.declared id child hchild foreignKey hmem).mono fun _ _ _ => hgains.keeps
  · intro id child hchild foreignKey hmem hindex parent key row hparent hrow
    rw [hrelation] at hchild hparent
    rw [hselect] at hrow
    exact inv.keyed id child hchild foreignKey hmem hindex parent key row hparent hrow
  · refine inv.parents_of_keepsRows ⟨?_, ?_⟩
    · intro id child hchild key row hrow
      exact ⟨by rw [← hrelation, hchild], by rw [← hselect, hrow]⟩
    · intro id child hchild _ foreignKey hmem
      exact ⟨hrelation _, hselect _⟩

theorem not_mem_prerequisites {id id' : ObjectId} {object : CatalogObject} (h : ¬catalog.hasDependents id)
    (hobject : catalog.object id' = some object) : id ∉ object.prerequisites := by
  intro hmem
  exact h (.inl ⟨object, mem_values.mpr ⟨id', hobject⟩, hmem⟩)

/-- An object that nothing depends on is no parent of another relation, and no index that a foreign key names. -/
theorem Inv.not_referenced (inv : Inv codec state) (h : ¬state.catalog.hasDependents target) {id : ObjectId}
    {child : RelationDefinition} (hchild : state.catalog.relation id = some child) (hne : id ≠ target)
    (hmem : foreignKey ∈ child.foreignKeys) :
    foreignKey.referencedRelation ≠ target ∧ foreignKey.referencedIndex ≠ some target := by
  have hobject := relation_eq_some.mp hchild
  have hid : child.header.id = id := inv.ids id _ hobject
  have hnot := not_mem_prerequisites h hobject
  simp only [CatalogObject.prerequisites, mem_flatMap, mem_append, mem_toList, not_exists, not_and, not_or] at hnot
  obtain ⟨hrelation, hindex⟩ := hnot foreignKey hmem
  refine ⟨?_, hindex⟩
  rintro rfl
  rw [hid, if_pos (Ne.symm hne)] at hrelation
  exact hrelation (mem_singleton.mpr rfl)

/-- Remove an object that nothing depends on, with the rows or the entries it has. -/
theorem Inv.remove (inv : Inv codec state) (hfree : ¬state.catalog.hasDependents target)
    (hobject : ∀ id, after.catalog.object id = if id = target then none else state.catalog.object id)
    (hselect : ∀ id key, id ≠ target → after.relational.select id key = state.relational.select id key)
    (hindexes : ∀ id index, after.relational.indexes.get id = some index →
      id ≠ target ∧ state.relational.indexes.get id = some index) : Inv codec after := by
  have hget : ∀ id object, after.catalog.object id = some object →
      id ≠ target ∧ state.catalog.object id = some object := by
    intro id object h
    rw [hobject] at h
    split at h
    · cases h
    · next hne => exact ⟨hne, h⟩
  have hrelation : ∀ id, id ≠ target → after.catalog.relation id = state.catalog.relation id := by
    intro id hne
    rw [relation, hobject, if_neg hne, relation]
  have hold : ∀ id child, after.catalog.relation id = some child →
      id ≠ target ∧ state.catalog.relation id = some child := by
    intro id child h
    obtain ⟨hne, h⟩ := hget id _ (relation_eq_some.mp h)
    exact ⟨hne, relation_eq_some.mpr h⟩
  refine ⟨?_, ?_, ?_, ?_, ?_, ?_⟩
  · intro id object h
    exact inv.ids id object (hget id object h).2
  · intro id hsome
    obtain ⟨index, hindex⟩ := isSome_iff_exists.mp hsome
    obtain ⟨hne, hindex⟩ := hindexes id index hindex
    obtain ⟨definition, hdefinition⟩ := inv.indexed id (isSome_iff_exists.mpr ⟨index, hindex⟩)
    exact ⟨definition, by rw [hobject, if_neg hne, hdefinition]⟩
  · rintro id definition h indexKey primaryKey ⟨index, hindex, hkeys⟩
    obtain ⟨-, h⟩ := hget id _ h
    obtain ⟨row, projection, hrow, hproject, hkey⟩ :=
      inv.sound id definition h indexKey primaryKey ⟨index, (hindexes id index hindex).2, hkeys⟩
    have hne : definition.relation ≠ target := by
      rintro rfl
      exact not_mem_prerequisites hfree h (mem_singleton.mpr rfl)
    refine ⟨row, projection, ?_, ?_, hkey⟩
    · rw [hselect _ _ hne, hrow]
    · rw [secondaryIndexProjection_congr (hrelation _ hne), hproject]
  · intro id child hchild foreignKey hmem
    obtain ⟨hne, hchild⟩ := hold id child hchild
    obtain ⟨hparent, hindex⟩ := inv.not_referenced hfree hchild hne hmem
    refine (inv.declared id child hchild foreignKey hmem).mono fun id object hnamed h => ?_
    rw [hobject, if_neg, h]
    rintro rfl
    exact hnamed.elim hparent hindex
  · intro id child hchild foreignKey hmem hindex parent key row hparent hrow
    obtain ⟨hne, hchild⟩ := hold id child hchild
    obtain ⟨hother, -⟩ := inv.not_referenced hfree hchild hne hmem
    rw [hrelation _ hother] at hparent
    rw [hselect _ _ hother] at hrow
    exact inv.keyed id child hchild foreignKey hmem hindex parent key row hparent hrow
  · refine inv.parents_of_keepsRows ⟨?_, ?_⟩
    · intro id child hchild key row hrow
      obtain ⟨hne, hchild⟩ := hold id child hchild
      rw [hselect _ _ hne] at hrow
      exact ⟨hchild, hrow⟩
    · intro id child _ hchild foreignKey hmem
      obtain ⟨hne, hchild⟩ := hold id child hchild
      obtain ⟨hother, -⟩ := inv.not_referenced hfree hchild hne hmem
      exact ⟨hrelation _ hother, fun key => hselect _ _ hother⟩

theorem Inv.applyTableDrop (inv : Inv codec state) (h : Relational.applyTableDrop state target mutation = .ok after) :
    Inv codec after := by
  simp only [Relational.applyTableDrop, bind_eq_ok, mapError_eq_ok, failIf_eq_ok, ok.injEq] at h
  obtain ⟨_, -, _, hsome, relational, hrelational, catalog, hcatalog, rfl⟩ := h
  obtain ⟨hindexes, hselect⟩ := dropTable_ok hrelational
  obtain ⟨hfree, hobject⟩ := remove_ok hcatalog
  refine inv.remove hfree hobject ?_ ?_
  · intro id key hne
    rw [hselect, if_neg hne]
  · intro id index hindex
    rw [hindexes] at hindex
    refine ⟨?_, hindex⟩
    -- what has entries is an index, and not the table
    rintro rfl
    obtain ⟨definition, hdefinition⟩ := inv.indexed id (isSome_iff_exists.mpr ⟨index, hindex⟩)
    simp [relation, hdefinition] at hsome

theorem Inv.applySecondaryIndexDrop (inv : Inv codec state)
    (h : Relational.applySecondaryIndexDrop state target mutation = .ok after) : Inv codec after := by
  simp only [Relational.applySecondaryIndexDrop, bind_eq_ok] at h
  obtain ⟨_, -, h⟩ := h
  split at h
  · next definition hdefinition =>
    simp only [bind_eq_ok, mapError_eq_ok, ok.injEq] at h
    obtain ⟨relational, hrelational, catalog, hcatalog, rfl⟩ := h
    obtain ⟨htables, hindexes⟩ := dropSecondaryIndex_ok hrelational
    obtain ⟨hfree, hobject⟩ := remove_ok hcatalog
    refine inv.remove hfree hobject ?_ ?_
    · intro id key _
      rw [select, htables, select]
    · intro id index hindex
      rw [hindexes] at hindex
      split at hindex
      · cases hindex
      · next hne => exact ⟨hne, hindex⟩
  · cases h

end Objects

/-! ## Every run -/

theorem Inv.applyRelationalMutation {state after : MaterializedState} {mutation : Mutation} (inv : Inv codec state)
    (hdeclares : Declares codec state mutation) (hcareful : Careful codec state mutation)
    (h : Relational.applyRelationalMutation codec state mutation = .ok after) : Inv codec after := by
  simp only [Relational.applyRelationalMutation, bind_eq_ok, okOr_eq_ok] at h
  obtain ⟨target, htarget, h⟩ := h
  have hcareful := hcareful target htarget
  cases hopcode : mutation.opcode <;> simp only [hopcode] at h hcareful
  case createTable => exact inv.applyTableCreation hdeclares hopcode hcareful h
  case insertRow => exact inv.applyInsert hcareful h
  case updateRow => exact inv.applyUpdate hcareful.1 hcareful.2 h
  case deleteRow => exact inv.applyDelete hcareful h
  case renameTable => exact absurd hopcode hdeclares.1
  case dropTable => exact inv.applyTableDrop h
  case dropSecondaryIndex => exact inv.applySecondaryIndexDrop h
  case createSecondaryIndex => exact inv.applySecondaryIndexCreation h
  all_goals cases h

theorem careful_runs_keep_integrity (codec : Codec) (state : MaterializedState)
    (h : Reached codec (fun state mutation => Declares codec state mutation ∧ Careful codec state mutation) state) :
    ReferentialIntegrity codec state := by
  apply Inv.integrity
  induction h with
  | empty => exact .empty
  | step _ hallowed happly ih => exact ih.applyRelationalMutation hallowed.1 hallowed.2 happly

theorem Reached.mono {allowed allowed' : MaterializedState → Mutation → Prop} {state : MaterializedState}
    (h : Reached codec allowed state) (himp : ∀ state mutation, allowed state mutation → allowed' state mutation) :
    Reached codec allowed' state := by
  induction h with
  | empty => exact .empty
  | step _ hallowed happly ih => exact .step ih (himp _ _ hallowed) happly

/-- One more mutation, after a run of which every outcome is known. -/
theorem Reached.snoc {allowed : MaterializedState → Mutation → Prop} (mutations : List Mutation) {mutation : Mutation}
    (h : ∀ state, applyRelationalMutations codec .empty mutations = .ok state →
      Reached codec allowed state ∧ allowed state mutation)
    {after : MaterializedState} (hrun : applyRelationalMutations codec .empty (mutations ++ [mutation]) = .ok after) :
    Reached codec allowed after := by
  simp only [applyRelationalMutations, foldlM_append, foldlM_cons, foldlM_nil, bind_eq_ok, pure_eq_ok, ok.injEq] at hrun
  obtain ⟨state, hstate, after, happly, rfl⟩ := hrun
  obtain ⟨hreached, hallowed⟩ := h state hstate
  exact hreached.step hallowed happly

/-! ## A parent deleted under its child -/

namespace Dangling

variable {state : MaterializedState} {target : ObjectId}

def name (object : UInt8) : QualifiedName where
  database := ⟨[0x6d, 0x61, 0x69, 0x6e], [0x6d, 0x61, 0x69, 0x6e]⟩
  schema := ⟨[0x70, 0x75, 0x62, 0x6c, 0x69, 0x63], [0x70, 0x75, 0x62, 0x6c, 0x69, 0x63]⟩
  object := ⟨[object], [object]⟩

/-- A boolean primary key and a boolean. -/
def columns : List ColumnDefinition := [
  { id := .ofSucc 0, name := ⟨[0x61], [0x61]⟩, logicalType := .boolean, nullable := false },
  { id := .ofSucc 1, name := ⟨[0x62], [0x62]⟩, logicalType := .boolean, nullable := true }]

def parentId : ObjectId := .ofSucc 0

def indexId : ObjectId := .ofSucc 1

def childId : ObjectId := .ofSucc 2

def parent : RelationDefinition where
  header := { id := parentId, owner := .relational, name := name 0x70 }
  columns := columns
  primaryKey := [.ofSucc 0]
  checks := []
  foreignKeys := []

/-- A unique index on the second column of the parent. -/
def index : SecondaryIndexDefinition where
  header := { id := indexId, owner := .relational, name := name 0x69 }
  relation := parentId
  columns := [.ofSucc 1]
  unique := true
  nullsDistinct := true

def foreignKey : ForeignKeyDefinition where
  name := none
  columns := [.ofSucc 1]
  referencedRelation := parentId
  referencedColumns := [.ofSucc 1]
  referencedIndex := some indexId

def child : RelationDefinition where
  header := { id := childId, owner := .relational, name := name 0x63 }
  columns := columns
  primaryKey := [.ofSucc 0]
  checks := []
  foreignKeys := [foreignKey]

def definitionBytes (id : UInt8) : Bytes := definitionMagicV1 ++ [id]

/-- A codec for the three definitions. -/
def danglingCodec : Codec where
  json := .none
  decodeDefinition bytes :=
    if bytes = definitionBytes 1 then .ok (.relation parent)
    else if bytes = definitionBytes 2 then .ok (.secondaryIndex index)
    else if bytes = definitionBytes 3 then .ok (.relation child)
    else .error .invalidDefinitionEncoding

def mutation (opcode : Opcode) (target : ObjectId) (key value : Bytes) : Mutation where
  engine := .relational
  opcode := opcode
  target := some target
  key := key
  value := value
  expiresAtMicros := none

def identity (object : UInt8) : Bytes := ((catalogNameIdentity (name object)).toOption).getD []

def row (a b : UInt8) : Bytes := ((encodeRowTuple [some [a], some [b]]).toOption).getD []

def createParent : Mutation := mutation .createTable parentId (identity 0x70) (definitionBytes 1)

def createIndex : Mutation := mutation .createSecondaryIndex indexId (identity 0x69) (definitionBytes 2)

def createChild : Mutation := mutation .createTable childId (identity 0x63) (definitionBytes 3)

/-- Every row is stored under its own primary key. -/
def insertParent : Mutation := mutation .insertRow parentId [1, 0] (row 0 1)

def insertChild : Mutation := mutation .insertRow childId [1, 1] (row 1 1)

def deleteParent : Mutation := mutation .deleteRow parentId [1, 0] []

/-- The parent has no rows, and the child has one. -/
def dangles (state : MaterializedState) : Bool :=
  (state.relational.tables.get parentId).all (·.entries = []) &&
    state.relational.select childId [1, 1] = some (row 1 1) &&
    (state.catalog.relation childId).any fun definition =>
      definition.foreignKeys = [foreignKey] ∧ definition.columns = columns

theorem not_integrity_of_dangles (h : dangles state = true) : ¬ReferentialIntegrity danglingCodec state := by
  simp only [dangles, Bool.and_eq_true, decide_eq_true_eq, Option.any_eq_true] at h
  obtain ⟨⟨hempty, hrow⟩, definition, hchild, hforeignKeys, hcolumns⟩ := h
  intro hintegrity
  obtain ⟨_, tuple, -, htuple, hparent⟩ :=
    hintegrity childId definition hchild foreignKey (by simp [hforeignKeys]) [1, 1] (row 1 1) hrow
  obtain rfl : ⟨row 1 1, 2, 17⟩ = tuple := ok.inj htuple
  have hstored : ∀ column ∈ foreignKey.columns, columnBytes definition ⟨row 1 1, 2, 17⟩ column ≠ .ok none := by
    intro column hmem
    obtain rfl : column = .ofSucc 1 := by simpa [foreignKey] using hmem
    rw [columnBytes, RelationDefinition.position, hcolumns]
    decide +kernel
  obtain ⟨key, parentRow, -, hselect, -⟩ := hparent hstored
  simp only [select, bind_eq_some_iff] at hselect
  obtain ⟨rows, hrows, hget⟩ := hselect
  have hrows : state.relational.tables.get parentId = some rows := hrows
  have hnone : rows.entries = [] := by
    rw [hrows] at hempty
    simpa using hempty
  have hmem := mem_entries.mpr hget
  rw [hnone] at hmem
  cases hmem

theorem declares_of_opcode {mutation : Mutation} (hrename : mutation.opcode ≠ .renameTable)
    (hcreate : mutation.opcode ≠ .createTable) : Declares codec state mutation :=
  ⟨hrename, fun _ _ h => absurd h hcreate⟩

theorem decodeRelationCreation_eq_ok {mutation : Mutation} {created : RelationDefinition}
    (hobject : decodeCreatedObject codec target mutation = .ok (.relation created))
    (h : decodeRelationCreation codec target mutation = .ok definition) : definition = created := by
  simp only [decodeRelationCreation, hobject, ok_bind, bind_eq_ok, ok.injEq] at h
  obtain ⟨_, -, _, -, _, -, rfl⟩ := h
  rfl

theorem createParent_allowed (state : MaterializedState) :
    Declares danglingCodec state createParent ∧ Careful danglingCodec state createParent := by
  refine ⟨⟨by decide, ?_⟩, ?_⟩
  · intro target definition _ hdecode foreignKey hmem
    rw [decodeRelationCreation_eq_ok rfl hdecode] at hmem
    cases hmem
  · intro target _ definition hdecode foreignKey hmem
    rw [decodeRelationCreation_eq_ok rfl hdecode] at hmem
    cases hmem

/-- The state has the index. -/
def hasIndex (state : MaterializedState) : Bool :=
  match state.catalog.object indexId with
  | some (.secondaryIndex definition) => definition = index
  | _ => false

theorem createChild_allowed (h : hasIndex state = true) :
    Declares danglingCodec state createChild ∧ Careful danglingCodec state createChild := by
  have hnames : ∀ declared ∈ child.foreignKeys, declared = foreignKey := by simp [child]
  refine ⟨⟨by decide, ?_⟩, ?_⟩
  · intro target definition _ hdecode declared hmem id hid
    rw [decodeRelationCreation_eq_ok rfl hdecode] at hmem
    obtain rfl := hnames declared hmem
    obtain rfl : indexId = id := some.inj hid
    unfold hasIndex at h
    split at h
    · next definition hobject =>
      obtain rfl := of_decide_eq_true h
      exact ⟨index, hobject, rfl, rfl, rfl⟩
    · cases h
  · intro target _ definition hdecode declared hmem hnone
    rw [decodeRelationCreation_eq_ok rfl hdecode] at hmem
    rw [hnames declared hmem] at hnone
    cases hnone

/-- The row of the mutation is stored under its own key. -/
def writesKeyed (target : ObjectId) (mutation : Mutation) (state : MaterializedState) : Bool :=
  match state.catalog.relation target, decodeTuple mutation.value with
  | some definition, .ok tuple =>
    (projectColumns danglingCodec definition tuple definition.primaryKey).toOption = some (mutation.key, false)
  | _, _ => false

theorem insert_allowed {key value : Bytes}
    (h : writesKeyed target (mutation .insertRow target key value) state = true) :
    Declares danglingCodec state (mutation .insertRow target key value) ∧
      Careful danglingCodec state (mutation .insertRow target key value) := by
  refine ⟨declares_of_opcode (by simp [mutation]) (by simp [mutation]), ?_⟩
  rintro target' ⟨⟩ - relation hrelation
  unfold writesKeyed at h
  split at h
  · next definition tuple hdefinition htuple =>
    rw [hrelation] at hdefinition
    cases hdefinition
    cases hproject : projectColumns danglingCodec relation tuple relation.primaryKey with
    | error error => simp [hproject, Except.toOption] at h
    | ok result =>
      simp only [hproject, Except.toOption, decide_eq_true_eq, some.injEq] at h
      subst h
      exact ⟨tuple, false, htuple, hproject⟩
  · cases h

def schema : List Mutation := [createParent, createIndex]

/-- Both tables, and a row in each. -/
theorem reached_rows (state : MaterializedState)
    (hrun : applyRelationalMutations danglingCodec .empty (schema ++ [createChild] ++ [insertParent] ++ [insertChild]) =
      .ok state) :
    Reached danglingCodec (fun state mutation => Declares danglingCodec state mutation ∧
      Careful danglingCodec state mutation) state := by
  refine Reached.snoc _ (fun state hstate => ⟨?_, insert_allowed ?_⟩) hrun
  · refine Reached.snoc _ (fun state hstate => ⟨?_, insert_allowed ?_⟩) hstate
    · refine Reached.snoc _ (fun state hstate => ⟨?_, createChild_allowed ?_⟩) hstate
      · refine Reached.snoc [createParent] (fun state hstate => ⟨?_, ?_⟩) hstate
        · refine Reached.snoc [] (fun state hstate => ⟨?_, createParent_allowed state⟩) hstate
          cases hstate
          exact .empty
        · refine ⟨declares_of_opcode (by decide) (by decide), ?_⟩
          intro target _
          trivial
      · exact of_all hasIndex (by decide +kernel) state hstate
    · exact of_all (writesKeyed parentId insertParent) (by decide +kernel) state hstate
  · exact of_all (writesKeyed childId insertChild) (by decide +kernel) state hstate

end Dangling

open Dangling in
/-- A run that ends with a row that refers to another one through the unique index. -/
theorem careful_runs_keep_integrity_rows :
    ∃ state, Reached danglingCodec (fun state mutation => Declares danglingCodec state mutation ∧
        Careful danglingCodec state mutation) state ∧
      state.relational.select childId [1, 1] = some (row 1 1) ∧ ReferentialIntegrity danglingCodec state := by
  obtain ⟨state, hrun, hrow⟩ := exists_of_any
    (x := applyRelationalMutations danglingCodec .empty (schema ++ [createChild] ++ [insertParent] ++ [insertChild]))
    (fun state => state.relational.select childId [1, 1] = some (row 1 1)) (by decide +kernel)
  have hreached := reached_rows state hrun
  exact ⟨state, hreached, of_decide_eq_true hrow, careful_runs_keep_integrity danglingCodec state hreached⟩

open Dangling in
/-- The check for the delete compares the child's key with the parent's primary key, and finds nothing. -/
theorem parent_deleted_under_child :
    ∃ state, Reached danglingCodec (Declares danglingCodec) state ∧ ¬ReferentialIntegrity danglingCodec state := by
  obtain ⟨state, hrun, hdangles⟩ := exists_of_any
    (x := applyRelationalMutations danglingCodec .empty
      (schema ++ [createChild] ++ [insertParent] ++ [insertChild] ++ [deleteParent]))
    dangles (by decide +kernel)
  refine ⟨state, ?_, not_integrity_of_dangles hdangles⟩
  refine Reached.snoc _ (fun state hstate => ⟨?_, declares_of_opcode (by decide) (by decide)⟩) hrun
  exact (reached_rows state hstate).mono fun _ _ h => h.1

end Hyphae.Relational
