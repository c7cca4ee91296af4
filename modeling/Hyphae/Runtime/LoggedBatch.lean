import Hyphae.Runtime.GroupCommit
import Hyphae.Runtime.Staging

/-!
# What a batch leaves in the log

A batch is logged as its mutations, with large values replaced by references, and one
marker for every vector index it changed point by point. The keys that recovery reads
off these records are among those the batch wrote and validated: a marker or a fence
stands for every index whose points the batch changed, so recovery never takes such a
change for one of the index as a whole.
-/

namespace Hyphae.Runtime

open Lib List

open Mvcc Except
open Blobs (BlobReference)
open Wal (Hashes Digest)

variable {mutations : List Mutation} {mutation staged : Mutation} {index : ObjectId}

/-! ## Point publications -/

/-- A fence of an absent vector writes nothing. -/
def isPhysicalPointOperation : Opcode → Bool
  | .upsertVector | .deleteVector => true
  | _ => false

def pointMutationsOf (index : ObjectId) (mutations : List Mutation) : List Mutation :=
  mutations.filter fun mutation => isPointOperation mutation.opcode && decide (mutation.target = some index)

/-- How often a batch writes a point of the index. -/
def physicalOperationCount (index : ObjectId) (mutations : List Mutation) : Nat :=
  ((pointMutationsOf index mutations).filter (isPhysicalPointOperation ·.opcode)).length

section Logged

variable (publish : ObjectId → List Mutation → RuntimeM AnnDeltaAuthorityV2)

/-- The authority one index publishes, as `publish` reads it off the index. An index that was only given fences
publishes none. -/
def planPointPublication (mutations : List Mutation) (index : ObjectId) : RuntimeM (Option AnnDeltaAuthorityV2) := do
  let authority ← publish index (pointMutationsOf index mutations)
  .ok (if physicalOperationCount index mutations = 0 then none
    else some { authority with index, operationCount := physicalOperationCount index mutations })

def planPointPublications (batch : NativeWriteBatch) : RuntimeM (List AnnDeltaAuthorityV2) := do
  let planned ← (writeBatchPointIndexes batch).mapM (planPointPublication publish batch.mutations)
  .ok planned.reduceOption

variable (hashes : Hashes) (references : OrderedMap Digest BlobReference) (analyze : Bytes → Option Nat)

/-- The mutations of a batch as they are logged. -/
def loggedMutations (batch : NativeWriteBatch) : RuntimeM (List Mutation) := do
  let authorities ← planPointPublications publish batch
  walMutations hashes references analyze batch.mutations authorities

end Logged

/-! ## Keys of logged mutations -/

def namesPointIndex : Opcode → Bool
  | .annDeltaAuthorityV2 | .fenceVectorAbsence => true
  | _ => false

/-- The vector indexes that logged mutations change point by point. -/
def loggedPointIndexes (mutations : List Mutation) : List ObjectId :=
  (mutations.filter (namesPointIndex ·.opcode)).filterMap (·.target)

/-- The keys recovery takes logged mutations to have written. -/
def mutationWriteKeys (mutations : List Mutation) : List WriteKey :=
  mutationConflictKeysWithPoints mutations true (loggedPointIndexes mutations)

theorem mem_loggedPointIndexes (hmem : mutation ∈ mutations) (hnames : namesPointIndex mutation.opcode = true)
    (htarget : mutation.target = some index) : index ∈ loggedPointIndexes mutations :=
  mem_filterMap.mpr ⟨mutation, mem_filter.mpr ⟨hmem, hnames⟩, htarget⟩

section Keys

variable {publish : ObjectId → List Mutation → RuntimeM AnnDeltaAuthorityV2} {hashes : Hashes}
  {references : OrderedMap Digest BlobReference} {analyze : Bytes → Option Nat} {batch : NativeWriteBatch}
  {logged : List Mutation}

/-- An index whose points the batch changed publishes an authority of its own. -/
theorem planPointPublication_some {planned : Option AnnDeltaAuthorityV2}
    (h : planPointPublication publish mutations index = .ok planned) (hmem : mutation ∈ mutations)
    (hphysical : isPhysicalPointOperation mutation.opcode = true) (htarget : mutation.target = some index) :
    ∃ authority, planned = some authority ∧ authority.index = index := by
  have hpoint : isPointOperation mutation.opcode = true := by
    cases hop : mutation.opcode <;> rw [hop] at hphysical <;> first | rfl | cases hphysical
  have hcounted : mutation ∈ (pointMutationsOf index mutations).filter (isPhysicalPointOperation ·.opcode) := by
    simp [pointMutationsOf, hmem, hpoint, htarget, hphysical]
  have hcount : physicalOperationCount index mutations ≠ 0 := (length_pos_of_mem hcounted).ne'
  unfold planPointPublication at h
  obtain ⟨authority, -, h⟩ := bind_eq_ok.mp h
  rw [if_neg hcount] at h
  cases h
  exact ⟨_, rfl, rfl⟩

theorem planPointPublication_index {authority : AnnDeltaAuthorityV2}
    (h : planPointPublication publish mutations index = .ok (some authority)) : authority.index = index := by
  unfold planPointPublication at h
  obtain ⟨read, -, h⟩ := bind_eq_ok.mp h
  split at h
  · cases h
  · cases h
    rfl

/-- A value is replaced only where no key depends on it. -/
theorem walMutation_eq (h : walMutation hashes references analyze staged = .ok mutation) :
    ∃ value, mutation = { staged with value } ∧ (createsCatalogObject staged.opcode = true → value = staged.value) := by
  unfold walMutation at h
  obtain ⟨value, hvalue, rfl⟩ := map_eq_ok.mp h
  refine ⟨value, rfl, ?_⟩
  intro hcreates
  unfold storedValue at hvalue
  cases hop : staged.opcode <;> rw [hop] at hcreates hvalue <;> first | cases hcreates; done | skip
  all_goals
    cases hengine : staged.engine <;> rw [hengine] at hvalue <;> cases hvalue <;> rfl

theorem conflictKeysOf_walMutation (h : walMutation hashes references analyze staged = .ok mutation)
    (publishAnnAuthority : Bool) (pointIndexes : List ObjectId) :
    conflictKeysOf publishAnnAuthority pointIndexes mutation =
      conflictKeysOf publishAnnAuthority pointIndexes staged := by
  obtain ⟨value, rfl, hvalue⟩ := walMutation_eq h
  by_cases hcreates : createsCatalogObject staged.opcode = true
  · rw [hvalue hcreates]
  · unfold conflictKeysOf
    dsimp only
    split
    · rfl
    · rfl
    · simp only [hcreates]
      rfl

/-- The more indexes are known to change point by point, the fewer keys are written. -/
theorem conflictKeysOf_anti {known fewer : List ObjectId}
    (h : isPhysicalPointOperation mutation.opcode = true → ∀ index ∈ mutation.target, index ∈ fewer → index ∈ known) :
    conflictKeysOf true known mutation ⊆ conflictKeysOf true fewer mutation := by
  have hpublishes : publishesAnnAuthority known mutation = true → publishesAnnAuthority fewer mutation = true := by
    intro hknown
    unfold publishesAnnAuthority at hknown ⊢
    cases hop : mutation.opcode <;> rw [hop] at hknown h <;> first | rfl | cases hknown | skip
    · obtain ⟨index, htarget, hnot⟩ := of_decide_eq_true hknown
      exact decide_eq_true ⟨index, htarget, fun hfewer => hnot (h rfl index htarget hfewer)⟩
    · have hnone := of_decide_eq_true hknown
      exact decide_eq_true fun index htarget hfewer => hnone index htarget (h rfl index htarget hfewer)
  unfold conflictKeysOf
  split
  · exact fun key hkey => hkey
  · exact fun key hkey => hkey
  · intro key hkey
    simp only [mem_append] at hkey ⊢
    rcases hkey with ((hidentity | hlifecycle) | hauthority) | hcatalog
    · exact .inl (.inl (.inl hidentity))
    · exact .inl (.inl (.inr hlifecycle))
    · split at hauthority
      next hwritten =>
        have hfewer : True ∧ publishesAnnAuthority fewer mutation = true := ⟨trivial, hpublishes hwritten.2⟩
        exact .inl (.inr (by rwa [if_pos hfewer]))
      next => cases hauthority
    · exact .inr hcatalog

section

variable (h : loggedMutations publish hashes references analyze batch = .ok logged)
include h

/-- A logged mutation is one of the batch with its value replaced, or the marker of an index changed point by point. -/
theorem mem_loggedMutations (hmem : mutation ∈ logged) :
    (∃ staged ∈ batch.mutations, walMutation hashes references analyze staged = .ok mutation) ∨
      ∃ authority, authority.index ∈ writeBatchPointIndexes batch ∧ mutation = annDeltaAuthorityMarkerV2 authority := by
  unfold loggedMutations planPointPublications walMutations at h
  simp only [bind_eq_ok, ok.injEq] at h
  obtain ⟨authorities, ⟨planned, hplanned, rfl⟩, stored, hstored, rfl⟩ := h
  rcases mem_append.mp hmem with hstaged | hmarker
  · exact .inl ((mem_of_mapM_eq_ok hstored).2 mutation hstaged)
  · obtain ⟨authority, hauthority, rfl⟩ := mem_map.mp hmarker
    rw [reduceOption_mem_iff] at hauthority
    obtain ⟨index, hindex, hplan⟩ := (mem_of_mapM_eq_ok hplanned).2 _ hauthority
    exact .inr ⟨authority, by rwa [planPointPublication_index hplan], rfl⟩

/-- Every index whose points the batch changed has its marker in the log. -/
theorem point_index_logged (hmem : staged ∈ batch.mutations) (hphysical : isPhysicalPointOperation staged.opcode = true)
    (htarget : staged.target = some index) (hpoint : index ∈ writeBatchPointIndexes batch) :
    index ∈ loggedPointIndexes logged := by
  unfold loggedMutations planPointPublications walMutations at h
  simp only [bind_eq_ok, ok.injEq] at h
  obtain ⟨authorities, ⟨planned, hplanned, rfl⟩, stored, hstored, rfl⟩ := h
  obtain ⟨plan, hplan, hread⟩ := (mem_of_mapM_eq_ok hplanned).1 index hpoint
  obtain ⟨authority, rfl, rfl⟩ := planPointPublication_some hread hmem hphysical htarget
  have hauthority := reduceOption_mem_iff.mpr hplan
  exact mem_loggedPointIndexes (mem_append_right _ (mem_map_of_mem hauthority)) rfl rfl

/-- What recovery takes a batch to have written, the batch wrote. -/
theorem mutationWriteKeys_subset : mutationWriteKeys logged ⊆ writeBatchWriteKeys batch := by
  intro key hkey
  obtain ⟨mutation, hmem, hkey⟩ := mem_flatMap.mp hkey
  rcases mem_loggedMutations h hmem with ⟨staged, hstaged, hwal⟩ | ⟨authority, -, rfl⟩
  · rw [conflictKeysOf_walMutation hwal] at hkey
    refine mem_append_left _ (mem_flatMap.mpr ⟨staged, hstaged, conflictKeysOf_anti ?_ hkey⟩)
    exact fun hphysical index htarget => point_index_logged h hstaged hphysical htarget
  · cases hkey

/-- What recovery validates of a batch, the batch validated. -/
theorem mutationValidationKeys_subset : mutationValidationKeys logged ⊆ writeBatchValidationKeys batch := by
  intro key hkey
  unfold mutationValidationKeys at hkey
  unfold writeBatchValidationKeys mutationValidationKeys
  simp only [mem_append] at hkey ⊢
  rcases hkey with ((hidentity | hauthority) | hlifecycle) | hdepends
  · obtain ⟨mutation, hmem, hkey⟩ := mem_flatMap.mp hidentity
    rcases mem_loggedMutations h hmem with ⟨staged, hstaged, hwal⟩ | ⟨authority, -, rfl⟩
    · rw [conflictKeysOf_walMutation hwal] at hkey
      exact .inl (.inl (.inl (.inl (.inl (mem_flatMap.mpr ⟨staged, hstaged, hkey⟩)))))
    · cases hkey
  · obtain ⟨index, hindex, rfl⟩ := mem_map.mp hauthority
    obtain ⟨mutation, hfiltered, htarget⟩ := mem_filterMap.mp hindex
    obtain ⟨hmem, hvalidates⟩ := mem_filter.mp hfiltered
    rcases mem_loggedMutations h hmem with ⟨staged, hstaged, hwal⟩ | ⟨authority, hpoint, rfl⟩
    · obtain ⟨value, rfl, -⟩ := walMutation_eq hwal
      refine .inl (.inl (.inl (.inl (.inr (mem_map_of_mem ?_)))))
      exact mem_filterMap.mpr ⟨staged, mem_filter.mpr ⟨hstaged, hvalidates⟩, htarget⟩
    · -- the batch validates the authority of every index it changes point by point
      cases htarget
      exact .inl (.inr (mem_map_of_mem hpoint))
  · obtain ⟨index, hindex, rfl⟩ := mem_map.mp hlifecycle
    obtain ⟨mutation, hfiltered, htarget⟩ := mem_filterMap.mp hindex
    obtain ⟨hmem, hfence⟩ := mem_filter.mp hfiltered
    rcases mem_loggedMutations h hmem with ⟨staged, hstaged, hwal⟩ | ⟨authority, -, rfl⟩
    · obtain ⟨value, rfl, -⟩ := walMutation_eq hwal
      refine .inl (.inl (.inl (.inr (mem_map_of_mem ?_))))
      exact mem_filterMap.mpr ⟨staged, mem_filter.mpr ⟨hstaged, hfence⟩, htarget⟩
    · cases hfence
  · obtain ⟨mutation, hmem, hkey⟩ := mem_flatMap.mp hdepends
    rcases mem_loggedMutations h hmem with ⟨staged, hstaged, hwal⟩ | ⟨authority, -, rfl⟩
    · obtain ⟨value, rfl, -⟩ := walMutation_eq hwal
      exact .inl (.inl (.inr (mem_flatMap.mpr ⟨staged, hstaged, hkey⟩)))
    · cases hkey

end

end Keys

/-! ## Building pages and records -/

/-- What the engines built for one batch. -/
structure BuiltPages where
  roots : Fin 4 → PageId
  blobGeneration : BitVec 64
  references : OrderedMap Digest BlobReference
  logicalTimeMicros : BitVec 64

/-- The engines' part of a commit: their pages, the tokens of a text, and what a vector index says of a point
publication. -/
structure PageBuilder (hashes : Hashes) (σ state : Type) where
  build : PageInput hashes state → EStateM NativeRuntimeError σ BuiltPages
  analyze : Bytes → Option Nat
  publish : PageInput hashes state → ObjectId → List Mutation → RuntimeM AnnDeltaAuthorityV2

def rootSlots : Fin 4 → RootSlot :=
  ![{ engine := .kernel, partition := 0 }, { engine := .relational, partition := 0 },
    { engine := .structure, partition := 0 }, { engine := .search, partition := 0 }]

namespace PageBuilder

variable {hashes : Hashes} {σ state cohort : Type} (builder : PageBuilder hashes σ state)

/-- The transaction that is logged for a batch. -/
def plan (input : PageInput hashes state) (built : BuiltPages) : RuntimeM TransactionPlan := do
  let mutations ← loggedMutations (builder.publish input) hashes built.references builder.analyze input.batch
  .ok {
    transactionId := input.transactionId
    readCsn := input.batch.readCsn
    catalogVersion := input.catalogVersion
    logicalTimeMicros := built.logicalTimeMicros
    durability := input.batch.durability
    mutations
    commitCsn := input.commitCsn
    roots := built.roots
    blobGeneration := built.blobGeneration
    pageGeneration := input.base.pageGeneration
    retentionFloorCsn := input.base.retentionFloorCsn.getD first }

/-- Build the pages of a batch and encode its records. -/
def commitPages (input : PageInput hashes state) : EStateM NativeRuntimeError σ PageCommit := do
  let built ← builder.build input
  let plan ← .ofExcept (builder.plan input built)
  let pending ← .ofExcept ((encodeTransaction hashes plan).mapError fun _ => .walSemantic)
  return { roots := List.ofFn fun i => (rootSlots i, built.roots i), blobGeneration := built.blobGeneration, pending }

/-- The engines of a single commit that build pages this way. -/
def engines (checks : Engines hashes σ state) : Engines hashes σ state :=
    { checks with commitPages := builder.commitPages }

/-- The engines of a cohort that build pages this way. -/
def groupEngines (checks : GroupEngines hashes σ state cohort) : GroupEngines hashes σ state cohort :=
  { checks with commitPages := builder.commitPages, stagePages := builder.commitPages }

/-- The batch, committed at this sequence, is logged as this transaction. -/
def Plans (batch : NativeWriteBatch) (commitCsn : Csn) (plan : TransactionPlan) : Prop :=
  ∃ input built, input.batch = batch ∧ input.commitCsn = commitCsn ∧ builder.plan input built = .ok plan

variable {builder}

/-- The records of built pages are those of a transaction. -/
theorem commitPages_ok {input : PageInput hashes state} {before after : σ} {pages : PageCommit}
    (h : builder.commitPages input before = .ok pages after) :
    ∃ plan, builder.Plans input.batch input.commitCsn plan ∧ encodeTransaction hashes plan = .ok pages.pending := by
  unfold commitPages at h
  obtain ⟨built, _, -, h⟩ := EStateM.bind_eq_ok.mp h
  obtain ⟨plan, _, hplan, h⟩ := EStateM.bind_eq_ok.mp h
  obtain ⟨pending, _, hpending, h⟩ := EStateM.bind_eq_ok.mp h
  cases h
  have hencoded := mapError_eq_ok.mp (EStateM.ofExcept_eq_ok.mp hpending).1
  exact ⟨plan, ⟨input, built, rfl, rfl, (EStateM.ofExcept_eq_ok.mp hplan).1⟩, hencoded⟩

theorem Plans.spec {batch : NativeWriteBatch} {commitCsn : Csn} {plan : TransactionPlan}
    (h : builder.Plans batch commitCsn plan) :
    plan.readCsn = batch.readCsn ∧ plan.commitCsn = commitCsn ∧
      mutationWriteKeys plan.mutations ⊆ writeBatchWriteKeys batch ∧
      mutationValidationKeys plan.mutations ⊆ writeBatchValidationKeys batch := by
  obtain ⟨input, built, rfl, rfl, hplan⟩ := h
  unfold PageBuilder.plan at hplan
  obtain ⟨mutations, hlogged, hplan⟩ := bind_eq_ok.mp hplan
  cases hplan
  exact ⟨rfl, rfl, mutationWriteKeys_subset hlogged, mutationValidationKeys_subset hlogged⟩

end PageBuilder

end Hyphae.Runtime
