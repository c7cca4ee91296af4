import Hyphae.Access.Mutations

/-!
# What the audit of the catalog says

`validate` walks over the maps and stops at the first defect. Here is what a catalog
without a defect looks like, map by map: who may be referred to, how the keys of a
rotation point at each other, and what the legacy bearer, a pending recovery and the
owner require. The parts name only the maps they speak about, so that a change to one
map leaves the others alone.
-/

namespace Hyphae.Access

open Lib Except OrderedMap Option List

open AccessControlLimits

abbrev Principals := OrderedMap SecurityId SecurityPrincipalRecord

abbrev Assignments := OrderedMap SecurityId BuiltInRoleAssignment

abbrev CustomRoles := OrderedMap SecurityId CustomRoleRecord

abbrev CustomAssignments := OrderedMap SecurityId CustomRoleAssignment

abbrev Keys := OrderedMap ApiKeyId ApiKeyRecord

/-! ## Principals and roles -/

/-- The principals, and the roles assigned to them. -/
structure DirectoryOk (principals : Principals) (assignments : Assignments) (customRoles : CustomRoles)
    (customAssignments : CustomAssignments) : Prop where
  principals_le : principals.entries.length ≤ AccessControlLimits.v1.principals
  customRoles_le : customRoles.entries.length ≤ AccessControlLimits.v1.customRoles
  assigned : ∀ id assignment, assignments.get id = some assignment → (principals.get assignment.principalId).isSome
  customAssigned : ∀ id assignment, customAssignments.get id = some assignment →
    (principals.get assignment.principalId).isSome ∧ (customRoles.get assignment.roleId).isSome
  named : ∀ id principal, principals.get id = some principal → validateDisplayName principal.displayName = .ok ()
  assignments_le : ∀ id principal, principals.get id = some principal →
    assignments.count (fun assignment => assignment.principalId = id) +
      customAssignments.count (fun assignment => assignment.principalId = id) ≤
        AccessControlLimits.v1.assignmentsPerPrincipal
  roles : ∀ id role, customRoles.get id = some role → AccessControlCatalog.validateCustomRole role = .ok ()
  apart : ∀ id assignment, assignments.get id = some assignment → customAssignments.get id = none

/-- There is one owner, at the whole instance, and it is enabled. -/
def OwnerOk (principals : Principals) (assignments : Assignments) : Prop :=
  principals.entries ≠ [] → ∃ id owner, assignments.get id = some owner ∧ owner.role = .owner ∧
    owner.scope = .instance_ ∧ (∃ principal, principals.get owner.principalId = some principal ∧ principal.enabled) ∧
    ∀ id' assignment, assignments.get id' = some assignment → assignment.role = .owner → id' = id

/-! ## Keys -/

/-- What a key says by itself. -/
structure KeyRecordOk (customRoles : CustomRoles) (epoch : AuthorizationEpoch) (id : ApiKeyId) (key : ApiKeyRecord) :
    Prop where
  named : validateDisplayName key.label = .ok ()
  id_eq : key.id = id
  verifier_id : key.verifier.id = key.id
  some_role : key.roles ≠ [] ∨ key.customRoles ≠ []
  roles_sorted : strictlySorted key.roles
  customRoles_sorted : strictlySorted key.customRoles
  scopes_ne_nil : key.scopeCeiling ≠ []
  scopes_le : key.scopeCeiling.length ≤ AccessControlLimits.v1.assignmentsPerPrincipal
  scopes_sorted : strictlySorted key.scopeCeiling
  instance_alone : .instance_ ∈ key.scopeCeiling → key.scopeCeiling.length = 1
  customRoles_exist : ∀ roleId ∈ key.customRoles, (customRoles.get roleId).isSome
  expiry : ∀ expiry, key.expiresAtMicros = some expiry → key.createdAtMicros < expiry
  published_ne : key.publishedEpoch ≠ AuthorizationEpoch.unmanaged
  published_le : key.publishedEpoch ≤ epoch
  overlap_le : ∀ overlap, key.rotationOverlapMicros = some overlap →
    overlap ≤ AccessControlLimits.v1.maximumRotationOverlapSeconds * 1000000

/-- The second key is the first one's successor and has its authority. -/
structure Rotates (predecessor key : ApiKeyRecord) : Prop where
  successor : predecessor.successorId = some key.id
  principal : predecessor.principalId = key.principalId
  overlap : key.rotationOverlapMicros ≠ none
  roles : predecessor.roles = key.roles
  customRoles : predecessor.customRoles = key.customRoles
  permissionCeiling : predecessor.permissionCeiling = key.permissionCeiling
  scopeCeiling : predecessor.scopeCeiling = key.scopeCeiling
  created_le : predecessor.createdAtMicros ≤ key.createdAtMicros
  active : predecessor.overlapUntilMicros.isSome = key.active

/-- The walk back from the key ends. -/
inductive Rooted (keys : Keys) : ApiKeyId → Prop
  | root {id : ApiKeyId} {key : ApiKeyRecord} (hget : keys.get id = some key) (hroot : key.predecessorId = none) :
    Rooted keys id
  | step {id predecessorId : ApiKeyId} {key : ApiKeyRecord} (hget : keys.get id = some key)
    (hpredecessor : key.predecessorId = some predecessorId) (hrest : Rooted keys predecessorId) : Rooted keys id

/-- The keys, each by itself and linked by their rotations. -/
structure KeysOk (principals : Principals) (customRoles : CustomRoles) (epoch : AuthorizationEpoch) (keys : Keys) :
    Prop where
  owned : ∀ id key, keys.get id = some key → (principals.get key.principalId).isSome
  count_le : ∀ id principal, principals.get id = some principal →
    keys.count (fun key => key.principalId = id) ≤ AccessControlLimits.v1.keysPerPrincipal
  record : ∀ id key, keys.get id = some key → KeyRecordOk customRoles epoch id key
  predecessor : ∀ id key, keys.get id = some key → ∀ predecessorId, key.predecessorId = some predecessorId →
    ∃ predecessor, keys.get predecessorId = some predecessor ∧ Rotates predecessor key
  first : ∀ id key, keys.get id = some key → key.predecessorId = none → key.rotationOverlapMicros = none
  successor : ∀ id key, keys.get id = some key → ∀ successorId, key.successorId = some successorId →
    ∃ successor, keys.get successorId = some successor ∧ successor.predecessorId = some id
  last : ∀ id key, keys.get id = some key → key.successorId = none → key.overlapUntilMicros = none
  rooted : ∀ id key, keys.get id = some key → Rooted keys id

/-! ## The owner's reserve -/

/-- An inactive owner key that no rotation links. -/
def isSpare (key : ApiKeyRecord) : Bool :=
  !key.active && !key.revoked && key.roles = [.owner] && key.permissionCeiling = .all &&
    key.scopeCeiling = [.instance_] && key.predecessorId.isNone && key.successorId.isNone

/-- An owner with every key it may have keeps one of them for its recovery. -/
def ReserveOk (assignments : Assignments) (keys : Keys) : Prop :=
  ∀ id owner, assignments.get id = some owner → owner.role = .owner →
    keys.count (fun key => key.principalId = owner.principalId) = AccessControlLimits.v1.keysPerPrincipal →
      keys.count (fun key => isSpare key && key.principalId = owner.principalId) = 1

/-! ## The legacy bearer and a pending recovery -/

/-- The migration is that of this key of the owner, which is active once the migration is. -/
structure Migrates (assignments : Assignments) (epoch : AuthorizationEpoch) (pending : Bool)
    (migration : LegacyBearerMigration) (key : ApiKeyRecord) : Prop where
  epoch_ne : migration.authorizationEpoch ≠ AuthorizationEpoch.unmanaged
  epoch_le : migration.authorizationEpoch ≤ epoch
  created : migration.createdAtMicros = key.createdAtMicros
  owner : ∃ id assignment, assignments.get id = some assignment ∧ assignment.principalId = key.principalId ∧
    assignment.role = .owner ∧ assignment.scope = .instance_
  notRevoked : key.revoked = false
  roles : key.roles = [.owner]
  permissionCeiling : key.permissionCeiling = .all
  scopeCeiling : key.scopeCeiling = [.instance_]
  active : key.active = !pending

def LegacyOk (keys : Keys) (assignments : Assignments) (epoch : AuthorizationEpoch) :
    LegacyBearerState → Option LegacyBearerMigration → Prop
  | .neverEnabled, none => True
  | .migrationPending, some migration =>
    ∃ key, keys.get migration.keyId = some key ∧ Migrates assignments epoch true migration key
  | .dualWindow, some migration =>
    ∃ key, keys.get migration.keyId = some key ∧ Migrates assignments epoch false migration key
  | .revoked, some migration =>
    migration.authorizationEpoch ≠ AuthorizationEpoch.unmanaged ∧ migration.authorizationEpoch ≤ epoch
  | _, _ => False

/-- The recovery waits for the activation of this key. -/
structure Recovers (epoch : AuthorizationEpoch) (pending : PendingOwnerRecovery) (key : ApiKeyRecord) : Prop where
  epoch_ne : pending.authorizationEpoch ≠ AuthorizationEpoch.unmanaged
  epoch_eq : pending.authorizationEpoch = epoch
  inactive : key.active = false
  notRevoked : key.revoked = false
  published : key.publishedEpoch = pending.authorizationEpoch
  created : key.createdAtMicros = pending.createdAtMicros
  roles : key.roles = [.owner]
  customRoles : key.customRoles = []
  permissionCeiling : key.permissionCeiling = .all
  scopeCeiling : key.scopeCeiling = [.instance_]
  first : key.predecessorId = none
  last : key.successorId = none

def RecoveryOk (keys : Keys) (epoch : AuthorizationEpoch) (pending : Option PendingOwnerRecovery) : Prop :=
  ∀ recovery, pending = some recovery → ∃ key, keys.get recovery.keyId = some key ∧ Recovers epoch recovery key

/-! ## The audit index -/

structure AuditOk (auditIndex : List SecurityAuditIndexEntry) : Prop where
  length_le : auditIndex.length ≤ AccessControlLimits.v1.retainedAuditEvents
  sorted : strictlySorted (auditIndex.map SecurityAuditIndexEntry.commitCsn)
  committed : ∀ event ∈ auditIndex, event.commitCsn ≠ 0
  nodup : (auditIndex.map SecurityAuditIndexEntry.id).Nodup

/-! ## The whole catalog -/

/-- A catalog without principals has nothing else. -/
structure Unmanaged (catalog : AccessControlCatalog) : Prop where
  epoch : catalog.epoch = AuthorizationEpoch.unmanaged
  assignments : catalog.assignments.entries = []
  customRoles : catalog.customRoles.entries = []
  customAssignments : catalog.customAssignments.entries = []
  keys : catalog.keys.entries = []
  auditIndex : catalog.auditIndex = []
  state : catalog.legacyBearerState = .neverEnabled
  migration : catalog.legacyBearerMigration = none
  verifier : catalog.legacyBearerVerifier = none

/-- The catalog has no defect. -/
structure WellFormed (catalog : AccessControlCatalog) : Prop where
  directory : DirectoryOk catalog.principals catalog.assignments catalog.customRoles catalog.customAssignments
  keys : KeysOk catalog.principals catalog.customRoles catalog.epoch catalog.keys
  legacy : LegacyOk catalog.keys catalog.assignments catalog.epoch catalog.legacyBearerState
    catalog.legacyBearerMigration
  verifier : catalog.legacyBearerState.isEnabled = catalog.legacyBearerVerifier.isSome
  recovery : RecoveryOk catalog.keys catalog.epoch catalog.pendingOwnerRecovery
  owner : OwnerOk catalog.principals catalog.assignments
  reserve : ReserveOk catalog.assignments catalog.keys
  audit : AuditOk catalog.auditIndex
  unmanaged : catalog.principals.entries = [] → Unmanaged catalog
  managed : catalog.principals.entries ≠ [] → catalog.epoch ≠ AuthorizationEpoch.unmanaged

/-! ## The walk back from a key -/

/-- The walk back from the key ends after so many steps. -/
inductive RootedAt (keys : Keys) : Nat → ApiKeyId → Prop
  | root {id : ApiKeyId} {key : ApiKeyRecord} (hget : keys.get id = some key) (hroot : key.predecessorId = none) :
    RootedAt keys 0 id
  | step {id predecessorId : ApiKeyId} {key : ApiKeyRecord} {depth : Nat} (hget : keys.get id = some key)
    (hpredecessor : key.predecessorId = some predecessorId) (hrest : RootedAt keys depth predecessorId) :
    RootedAt keys (depth + 1) id

section Walks

variable {keys : Keys} {id : ApiKeyId} {depth : Nat}

theorem Rooted.exists_depth (h : Rooted keys id) : ∃ depth, RootedAt keys depth id := by
  induction h with
  | root hget hroot => exact ⟨0, .root hget hroot⟩
  | step hget hpredecessor _ ih =>
    obtain ⟨depth, hdepth⟩ := ih
    exact ⟨depth + 1, .step hget hpredecessor hdepth⟩

theorem RootedAt.isSome (h : RootedAt keys depth id) : ∃ key, keys.get id = some key := by
  cases h with
  | root hget _ | step hget _ _ => exact ⟨_, hget⟩

theorem RootedAt.unique (h : RootedAt keys depth id) {depth' : Nat} (h' : RootedAt keys depth' id) :
    depth' = depth := by
  induction h generalizing depth' with
  | root hget hroot =>
    cases h' with
    | root _ _ => rfl
    | step hget' hpredecessor _ =>
      obtain rfl := mem_unique hget hget'
      rw [hroot] at hpredecessor
      cases hpredecessor
  | step hget hpredecessor _ ih =>
    cases h' with
    | root hget' hroot =>
      obtain rfl := mem_unique hget hget'
      rw [hroot] at hpredecessor
      cases hpredecessor
    | step hget' hpredecessor' hrest' =>
      obtain rfl := mem_unique hget hget'
      obtain rfl := mem_unique hpredecessor hpredecessor'
      rw [ih hrest']

/-- The keys on the walk are different from each other. -/
theorem RootedAt.exists_path (h : RootedAt keys depth id) :
    ∃ path : List ApiKeyId, path.length = depth + 1 ∧ path.Nodup ∧ ∀ v ∈ path, ∃ d ≤ depth, RootedAt keys d v := by
  induction h with
  | root hget hroot => exact ⟨[_], rfl, nodup_singleton _, by simpa using RootedAt.root hget hroot⟩
  | @step id predecessorId key depth hget hpredecessor hrest ih =>
    obtain ⟨path, hlength, hnodup, hpath⟩ := ih
    have hself : RootedAt keys (depth + 1) id := .step hget hpredecessor hrest
    refine ⟨id :: path, by simp [hlength], nodup_cons.mpr ⟨?_, hnodup⟩, ?_⟩
    · intro hmem
      obtain ⟨d, hd, hat⟩ := hpath id hmem
      have := hself.unique hat
      omega
    · intro v hv
      rcases mem_cons.mp hv with rfl | hv
      · exact ⟨depth + 1, le_refl _, hself⟩
      · obtain ⟨d, hd, hat⟩ := hpath v hv
        exact ⟨d, by omega, hat⟩

theorem RootedAt.lt_length (h : RootedAt keys depth id) : depth < keys.entries.length := by
  obtain ⟨path, hlength, hnodup, hpath⟩ := h.exists_path
  have hsubset : path ⊆ keys.entries.map Prod.fst := by
    intro v hv
    obtain ⟨d, -, hat⟩ := hpath v hv
    obtain ⟨key, hget⟩ := hat.isSome
    exact mem_map.mpr ⟨(v, key), mem_entries.mpr hget, rfl⟩
  have hle := (hnodup.subperm hsubset).length_le
  rw [length_map] at hle
  omega

/-- No key precedes itself: the walk back from it would not end. -/
theorem Rooted.ne_self (h : Rooted keys id) {key : ApiKeyRecord} (hget : keys.get id = some key) :
    key.predecessorId ≠ some id := by
  intro hself
  obtain ⟨depth, hdepth⟩ := h.exists_depth
  have hagain := hdepth.unique (.step hget hself hdepth)
  omega

end Walks

namespace AccessControlCatalog

variable {catalog : AccessControlCatalog}

variable {id : ApiKeyId} {u : Unit} {key : ApiKeyRecord} {visited : List ApiKeyId}

theorem rooted_of_followPredecessors {bound : Nat} (h : catalog.followPredecessors bound visited id = .ok u) :
    Rooted catalog.keys id := by
  induction bound generalizing visited id with
  | zero => cases h
  | succ bound ih =>
    simp only [followPredecessors, bind_eq_ok, okOr_eq_ok] at h
    obtain ⟨-, -, key, hget, hrest⟩ := h
    cases hpredecessor : key.predecessorId with
    | none => exact .root hget hpredecessor
    | some predecessorId =>
      rw [hpredecessor] at hrest
      exact .step hget hpredecessor (ih hrest)

theorem followPredecessors_of_rootedAt {bound depth : Nat} (h : RootedAt catalog.keys depth id) (hbound : depth < bound)
    (hvisited : ∀ v ∈ visited, ∀ d, RootedAt catalog.keys d v → depth < d) :
    catalog.followPredecessors bound visited id = .ok () := by
  induction h generalizing bound visited with
  | @root id key hget hroot =>
    obtain ⟨bound, rfl⟩ := Nat.exists_eq_add_one_of_ne_zero hbound.ne_bot
    have hfresh : id ∉ visited := fun hmem => absurd (hvisited id hmem 0 (.root hget hroot)) (lt_irrefl _)
    simp [followPredecessors, failIf_of_not hfresh, hget, okOr, hroot]
  | @step id predecessorId key depth hget hpredecessor hrest ih =>
    obtain ⟨bound, rfl⟩ := Nat.exists_eq_add_one_of_ne_zero (Nat.ne_zero_of_lt hbound)
    have hself : RootedAt catalog.keys (depth + 1) id := .step hget hpredecessor hrest
    have hfresh : id ∉ visited := fun hmem => absurd (hvisited id hmem _ hself) (lt_irrefl _)
    have hseen : ∀ v ∈ id :: visited, ∀ d, RootedAt catalog.keys d v → depth < d := by
      intro v hv d hd
      rcases mem_cons.mp hv with rfl | hv
      · have := hself.unique hd
        omega
      · have := hvisited v hv d hd
        omega
    have hnext := ih (Nat.lt_of_succ_lt_succ hbound) hseen
    simp [followPredecessors, failIf_of_not hfresh, hget, okOr, hpredecessor, hnext]

theorem validateRotationAcyclic_eq_ok :
    catalog.validateRotationAcyclic = .ok u ↔ ∀ id key, catalog.keys.get id = some key → Rooted catalog.keys id := by
  rw [validateRotationAcyclic, forM_eq_ok, forall_mem_keys]
  refine forall₃_congr fun id key hget => ⟨rooted_of_followPredecessors, fun h => ?_⟩
  obtain ⟨depth, hdepth⟩ := h.exists_depth
  exact followPredecessors_of_rootedAt hdepth (Nat.lt_succ_of_lt hdepth.lt_length) (by simp)

/-! ## The audit, part by part -/

theorem validateReferences_eq_ok :
    catalog.validateReferences = .ok u ↔
      catalog.principals.entries.length ≤ v1.principals ∧
        catalog.customRoles.entries.length ≤ v1.customRoles ∧
        catalog.auditIndex.length ≤ v1.retainedAuditEvents ∧
        (∀ id key, catalog.keys.get id = some key → (catalog.principals.get key.principalId).isSome) ∧
        (∀ id assignment, catalog.assignments.get id = some assignment →
          (catalog.principals.get assignment.principalId).isSome) ∧
        ∀ id assignment, catalog.customAssignments.get id = some assignment →
          (catalog.principals.get assignment.principalId).isSome ∧
            (catalog.customRoles.get assignment.roleId).isSome := by
  have hvalid : v1.isValid = true := by decide
  simp only [validateReferences, failIf_eq_ok, not_or, hvalid, not_true_eq_false, not_false_iff, true_and, not_lt,
    List.any_eq_true, mem_values, not_exists, not_and, Bool.or_eq_true, isNone_iff_eq_none,
    isSome_iff_ne_none, ne_eq, forall_exists_index, gt_iff_lt]
  refine and_congr_right fun _ => and_congr_right fun _ => and_congr_right fun _ => and_congr ?_ (and_congr ?_ ?_)
  · exact forall_comm
  · exact forall_comm
  · exact forall_comm

theorem validatePrincipals_eq_ok :
    catalog.principals.values.forM catalog.validatePrincipal = .ok u ↔
      ∀ id principal, catalog.principals.get id = some principal → validateDisplayName principal.displayName = .ok () ∧
        catalog.assignmentCount id ≤ v1.assignmentsPerPrincipal ∧
        catalog.keyCount id ≤ v1.keysPerPrincipal := by
  rw [forM_eq_ok, forall_mem_values]
  refine forall₃_congr fun id principal hget => ?_
  obtain rfl := catalog.principals_keyed.of_get hget
  simp only [validatePrincipal, bind_eq_ok, failIf_eq_ok, not_or, not_lt, gt_iff_lt]
  constructor
  · rintro ⟨_, hname, hle⟩
    exact ⟨hname, hle⟩
  · rintro ⟨hname, hle⟩
    exact ⟨(), hname, hle⟩

theorem isInstanceOwner_iff {principalId : SecurityId} :
    catalog.isInstanceOwner principalId ↔ ∃ id assignment, catalog.assignments.get id = some assignment ∧
      assignment.principalId = principalId ∧ assignment.role = .owner ∧ assignment.scope = .instance_ := by
  simp only [isInstanceOwner, List.any_eq_true, mem_values, Bool.and_eq_true, decide_eq_true_eq]
  constructor
  · rintro ⟨assignment, ⟨id, hget⟩, ⟨hprincipal, hrole⟩, hscope⟩
    exact ⟨id, assignment, hget, hprincipal, hrole, hscope⟩
  · rintro ⟨id, assignment, hget, hprincipal, hrole, hscope⟩
    exact ⟨assignment, ⟨id, hget⟩, ⟨hprincipal, hrole⟩, hscope⟩

theorem validateMigration_eq_ok {migration : LegacyBearerMigration} :
    validateLegacyBearer.validateMigration catalog migration = .ok u ↔
      ∃ key, catalog.keys.get migration.keyId = some key ∧
        Migrates catalog.assignments catalog.epoch (catalog.legacyBearerState = .migrationPending) migration key := by
  simp only [validateLegacyBearer.validateMigration, bind_eq_ok, okOr_eq_ok, failIf_eq_ok, not_or]
  refine exists_congr fun key => and_congr_right fun _ => ?_
  change (_ ∧ _ ∧ _ ∧ ¬¬(catalog.isInstanceOwner key.principalId = true) ∧ _) ↔ _
  simp only [ne_eq, not_not, isInstanceOwner_iff]
  constructor
  · rintro ⟨hne, hle, hcreated, howner, hrevoked, hroles, hceiling, hscope, hactive⟩
    refine ⟨hne, not_lt.mp hle, hcreated, howner, by simpa using hrevoked, hroles, hceiling, hscope, ?_⟩
    revert hactive
    generalize decide (catalog.legacyBearerState = .migrationPending) = pending
    cases key.active <;> cases pending <;> simp
  · rintro ⟨hne, hle, hcreated, howner, hrevoked, hroles, hceiling, hscope, hactive⟩
    refine ⟨hne, not_lt.mpr hle, hcreated, howner, by simp [hrevoked], hroles, hceiling, hscope, ?_⟩
    rw [hactive]
    generalize decide (catalog.legacyBearerState = .migrationPending) = pending
    cases pending <;> simp

theorem validateLegacyBearer_eq_ok :
    catalog.validateLegacyBearer = .ok u ↔
      LegacyOk catalog.keys catalog.assignments catalog.epoch catalog.legacyBearerState
        catalog.legacyBearerMigration := by
  have hmigration := fun migration => @validateMigration_eq_ok catalog u migration
  unfold validateLegacyBearer
  cases hstate : catalog.legacyBearerState <;> cases hmigrated : catalog.legacyBearerMigration <;>
    simp [LegacyOk, hmigration, hstate]

theorem validateApart_eq_ok :
    ¬((catalog.assignments.entries.map Prod.fst).any fun id => (catalog.customAssignments.get id).isSome) ↔
      ∀ id assignment, catalog.assignments.get id = some assignment → catalog.customAssignments.get id = none := by
  simp only [List.any_eq_true, not_exists, not_and, forall_mem_keys, not_isSome_iff_eq_none]

theorem validateKeyRecord_eq_ok :
    catalog.validateKeyRecord id key = .ok u ↔
      KeyRecordOk catalog.customRoles catalog.epoch id key ∧ key.predecessorId ≠ some key.id ∧
        key.successorId ≠ some key.id := by
  have hlimit : min (v1.maximumRotationOverlapSeconds * 1000000) (2 ^ 64 - 1) =
      v1.maximumRotationOverlapSeconds * 1000000 := by decide
  have hsorted : ∀ {α : Type} [LinearOrder α] (values : List α),
      ¬(values ≠ [] ∧ ¬(strictlySorted values = true)) ↔ strictlySorted values = true := by
    intro α _ values
    by_cases hnil : values = []
    · simp [hnil, strictlySorted]
    · simp [hnil]
  simp only [validateKeyRecord, bind_eq_ok, failIf_eq_ok, not_or, hlimit, hsorted]
  simp only [ne_eq, not_not, not_lt, gt_iff_lt, not_and, List.any_eq_true, not_exists, Option.any_eq_true,
    decide_eq_true_eq, not_le, isNone_iff_eq_none]
  constructor
  · rintro ⟨_, hname, hid, hverifier, hrole, hroles, hcustom, hscopes, hlen, hsort, halone, hexist, hexpiry, hne, hle,
      hpredecessor, hsuccessor, hoverlap⟩
    refine ⟨⟨hname, hid.symm, hverifier, ?_, hroles, hcustom, hscopes, hlen, hsort, halone, ?_, hexpiry, hne, hle,
      hoverlap⟩, hpredecessor, hsuccessor⟩
    · exact or_iff_not_imp_left.mpr fun h => hrole (not_not.mp h)
    · exact fun roleId hmem => isSome_iff_ne_none.mpr (hexist roleId hmem)
  · rintro ⟨h, hpredecessor, hsuccessor⟩
    refine ⟨(), h.named, h.id_eq.symm, h.verifier_id, ?_, h.roles_sorted, h.customRoles_sorted, h.scopes_ne_nil,
      h.scopes_le, h.scopes_sorted, h.instance_alone, ?_, h.expiry, h.published_ne, h.published_le, hpredecessor,
      hsuccessor, h.overlap_le⟩
    · intro hnil
      exact h.some_role.resolve_left fun hne => hne hnil
    · exact fun roleId hmem => isSome_iff_ne_none.mp (h.customRoles_exist roleId hmem)

theorem validatePredecessor_eq_ok :
    catalog.validatePredecessor key = .ok u ↔
      (∀ predecessorId, key.predecessorId = some predecessorId →
        ∃ predecessor, catalog.keys.get predecessorId = some predecessor ∧ Rotates predecessor key) ∧
      (key.predecessorId = none → key.rotationOverlapMicros = none) := by
  unfold validatePredecessor
  cases key.predecessorId with
  | none => simp
  | some predecessorId =>
    simp only [bind_eq_ok, okOr_eq_ok, failIf_eq_ok, not_or, ne_eq, not_not, not_lt, gt_iff_lt,
      some.injEq, forall_eq', reduceCtorEq, false_imp_iff, and_true]
    refine exists_congr fun predecessor => and_congr_right fun _ => ?_
    constructor <;>
      · rintro ⟨h1, h2, h3, h4, h5, h6, h7, h8, h9⟩
        exact ⟨h1, h2, h3, h4, h5, h6, h7, h8, h9⟩

theorem validateSuccessor_eq_ok :
    catalog.validateSuccessor key = .ok u ↔
      (∀ successorId, key.successorId = some successorId →
        ∃ successor, catalog.keys.get successorId = some successor ∧ successor.predecessorId = some key.id ∧
          successor.principalId = key.principalId ∧ key.overlapUntilMicros.isSome = successor.active) ∧
      (key.successorId = none → key.overlapUntilMicros = none) := by
  unfold validateSuccessor
  cases key.successorId with
  | none => simp
  | some successorId =>
    simp only [bind_eq_ok, okOr_eq_ok, failIf_eq_ok, not_or, ne_eq, not_not, some.injEq,
      forall_eq', reduceCtorEq, false_imp_iff, and_true]

/-- The keys pass one by one, and every walk ends. -/
theorem validateKeys_eq_ok :
    catalog.keys.entries.forM catalog.validateKey = .ok () ∧ catalog.validateRotationAcyclic = .ok () ∧
        (∀ id key, catalog.keys.get id = some key → (catalog.principals.get key.principalId).isSome) ∧
        (∀ id principal, catalog.principals.get id = some principal →
          catalog.keyCount id ≤ v1.keysPerPrincipal) ↔
      KeysOk catalog.principals catalog.customRoles catalog.epoch catalog.keys := by
  rw [forM_eq_ok, validateRotationAcyclic_eq_ok]
  simp only [validateKey, bind_eq_ok, validateKeyRecord_eq_ok, validatePredecessor_eq_ok, validateSuccessor_eq_ok]
  constructor
  · rintro ⟨hkeys, hrooted, howned, hcount⟩
    have hkey : ∀ id key, catalog.keys.get id = some key → _ := fun id key hget =>
      hkeys (id, key) (mem_entries.mpr hget)
    refine ⟨howned, hcount, fun id key hget => ?_, fun id key hget => ?_, fun id key hget => ?_, fun id key hget => ?_,
      fun id key hget => ?_, hrooted⟩
    · obtain ⟨_, ⟨hrecord, -⟩, -⟩ := hkey id key hget
      exact hrecord
    · obtain ⟨_, -, _, ⟨hpredecessor, -⟩, -⟩ := hkey id key hget
      exact hpredecessor
    · obtain ⟨_, -, _, ⟨-, hfirst⟩, -⟩ := hkey id key hget
      exact hfirst
    · obtain ⟨_, ⟨hrecord, -⟩, _, -, hsuccessor, -⟩ := hkey id key hget
      intro successorId hid
      obtain ⟨successor, hsuccessor, hback, -⟩ := hsuccessor successorId hid
      exact ⟨successor, hsuccessor, hback.trans (congrArg some hrecord.id_eq)⟩
    · obtain ⟨_, -, _, -, -, hlast⟩ := hkey id key hget
      exact hlast
  · intro h
    refine ⟨?_, h.rooted, h.owned, h.count_le⟩
    rintro ⟨id, key⟩ hmem
    have hget := mem_entries.mp hmem
    have hrecord := h.record id key hget
    have hself : key.predecessorId ≠ some id := (h.rooted id key hget).ne_self hget
    refine ⟨(), ⟨hrecord, ?_, ?_⟩, (), ⟨h.predecessor id key hget, h.first id key hget⟩, ?_, h.last id key hget⟩
    · simpa only [hrecord.id_eq] using hself
    · intro hsuccessor
      obtain ⟨successor, hsuccessor, hback⟩ := h.successor id key hget _ hsuccessor
      simp only [hrecord.id_eq] at hsuccessor
      rw [hget, some.injEq] at hsuccessor
      exact hself (hsuccessor ▸ hback)
    · intro successorId hid
      obtain ⟨successor, hsuccessor, hback⟩ := h.successor id key hget successorId hid
      obtain ⟨predecessor, hpredecessor, hrotates⟩ := h.predecessor successorId successor hsuccessor id hback
      obtain rfl := mem_unique hget hpredecessor
      exact ⟨successor, hsuccessor, hrecord.id_eq.symm ▸ hback, hrotates.principal.symm, hrotates.active⟩

theorem validatePendingOwnerRecovery_eq_ok :
    catalog.validatePendingOwnerRecovery = .ok u ↔
      RecoveryOk catalog.keys catalog.epoch catalog.pendingOwnerRecovery := by
  unfold validatePendingOwnerRecovery RecoveryOk
  cases catalog.pendingOwnerRecovery with
  | none => simp
  | some pending =>
    simp only [bind_eq_ok, okOr_eq_ok, failIf_eq_ok, not_or, ne_eq, not_not, Bool.not_eq_true,
      isSome_eq_false_iff, isNone_iff_eq_none, some.injEq, forall_eq']
    refine exists_congr fun key => and_congr_right fun _ => ?_
    constructor <;>
      · rintro ⟨h1, h2, h3, h4, h5, h6, h7, h8, h9, h10, h11, h12⟩
        exact ⟨h1, h2, h3, h4, h5, h6, h7, h8, h9, h10, h11, h12⟩

/-- The owner assignments are a list of one when there is one owner. -/
theorem ownerAssignments_eq_singleton {owner : BuiltInRoleAssignment} :
    catalog.ownerAssignments = [owner] ↔ ∃ id, catalog.assignments.get id = some owner ∧ owner.role = .owner ∧
      ∀ id' assignment, catalog.assignments.get id' = some assignment → assignment.role = .owner → id' = id := by
  have hmem : ∀ assignment, assignment ∈ catalog.ownerAssignments ↔
      (∃ id, catalog.assignments.get id = some assignment) ∧ assignment.role = .owner := by
    intro assignment
    simp only [ownerAssignments, mem_filter, mem_values, decide_eq_true_eq]
  constructor
  · intro h
    have howner := (hmem owner).mp (by simp [h])
    obtain ⟨⟨id, hget⟩, hrole⟩ := howner
    refine ⟨id, hget, hrole, fun id' assignment hget' hrole' => ?_⟩
    have hsame : assignment = owner := by simpa [h] using (hmem assignment).mpr ⟨⟨id', hget'⟩, hrole'⟩
    subst hsame
    rw [← catalog.assignments_keyed.of_get hget, ← catalog.assignments_keyed.of_get hget']
  · rintro ⟨id, hget, hrole, hunique⟩
    have hone : catalog.assignments.count (fun assignment => assignment.role = .owner) = 1 := by
      rw [count_erase hget, if_pos (by simpa using hrole)]
      have hzero : (catalog.assignments.erase id).count (fun assignment => assignment.role = .owner) = 0 := by
        refine count_eq_zero.mpr fun id' assignment hget' => decide_eq_false fun hrole' => ?_
        obtain ⟨hne, hget'⟩ := get_erase_eq_some.mp hget'
        exact hne (hunique id' assignment hget' hrole')
      rw [hzero]
    obtain ⟨assignment, hsingle⟩ := length_eq_one_iff.mp hone
    have howner := (hmem owner).mpr ⟨⟨id, hget⟩, hrole⟩
    change catalog.ownerAssignments = [assignment] at hsingle
    rw [hsingle, mem_singleton] at howner
    rw [hsingle, howner]

theorem validateOwner_eq_ok : catalog.validateOwner = .ok u ↔ OwnerOk catalog.principals catalog.assignments := by
  rw [validateOwner, failIf_eq_ok, OwnerOk]
  by_cases hnil : catalog.principals.entries = []
  · simp [hnil]
  simp only [ne_eq, hnil, not_false_iff, true_and, true_imp_iff, not_or, not_not]
  constructor
  · rintro ⟨hlength, hhead⟩
    obtain ⟨owner, hsingle⟩ := length_eq_one_iff.mp hlength
    obtain ⟨id, hget, hrole, hunique⟩ := ownerAssignments_eq_singleton.mp hsingle
    simp only [hsingle, head?_cons, any_some, Bool.or_eq_true, bne_iff_ne, ne_eq, Bool.not_eq_true',
      not_or, not_not, Bool.not_eq_false, Option.any_eq_true] at hhead
    exact ⟨id, owner, hget, hrole, hhead.1, hhead.2, hunique⟩
  · rintro ⟨id, owner, hget, hrole, hscope, henabled, hunique⟩
    have hsingle := ownerAssignments_eq_singleton.mpr ⟨id, hget, hrole, hunique⟩
    refine ⟨by rw [hsingle]; rfl, ?_⟩
    simp only [hsingle, head?_cons, any_some, Bool.or_eq_true, bne_iff_ne, ne_eq, Bool.not_eq_true',
      not_or, not_not, Bool.not_eq_false, Option.any_eq_true]
    exact ⟨hscope, henabled⟩

/-- With one owner, the first of the owner assignments is the only one. -/
theorem validateOwnerKeys_eq_ok (howner : OwnerOk catalog.principals catalog.assignments)
    (hempty : catalog.principals.entries = [] → catalog.assignments.entries = []) :
    catalog.validateOwnerKeys = .ok () ↔ ReserveOk catalog.assignments catalog.keys := by
  by_cases hnil : catalog.principals.entries = []
  · have hnone := entries_eq_nil.mp (hempty hnil)
    have hlist : catalog.ownerAssignments = [] := by simp [ownerAssignments, values, hempty hnil]
    simp [validateOwnerKeys, hlist, ReserveOk, hnone]
  obtain ⟨id, owner, hget, hrole, -, -, hunique⟩ := howner hnil
  have hsingle := ownerAssignments_eq_singleton.mpr ⟨id, hget, hrole, hunique⟩
  rw [validateOwnerKeys, hsingle]
  simp only [head?_cons, failIf_eq_ok, List.filter_filter]
  change ¬(catalog.keys.count (fun key => key.principalId = owner.principalId) = _ ∧
    catalog.keys.count (fun key => isSpare key && key.principalId = owner.principalId) ≠ 1) ↔ _
  rw [not_and, not_not]
  constructor
  · intro h id' owner' hget' hrole'
    obtain rfl := hunique id' owner' hget' hrole'
    obtain rfl := mem_unique hget hget'
    exact h
  · intro h
    exact h id owner hget hrole

theorem validateAuditIndex_eq_ok :
    catalog.auditIndex.length ≤ v1.retainedAuditEvents ∧ catalog.validateAuditIndex = .ok () ↔
      AuditOk catalog.auditIndex := by
  simp only [validateAuditIndex, failIf_eq_ok, not_or, not_not, List.any_eq_true, decide_eq_true_eq, not_exists,
    not_and]
  constructor <;> rintro ⟨h1, h2, h3, h4⟩ <;> exact ⟨h1, h2, h3, h4⟩

theorem validateManaged_eq_ok :
    catalog.validateManaged = .ok u ↔
      (catalog.principals.entries = [] → Unmanaged catalog) ∧
        (catalog.principals.entries ≠ [] → catalog.epoch ≠ AuthorizationEpoch.unmanaged) := by
  unfold validateManaged
  by_cases hnil : catalog.principals.entries = []
  · simp only [hnil, if_true, failIf_eq_ok, not_or, ne_eq, not_not, true_imp_iff, not_true_eq_false, false_imp_iff,
      and_true, not_isSome_iff_eq_none]
    constructor <;> rintro ⟨h1, h2, h3, h4, h5, h6, h7, h8, h9⟩ <;> exact ⟨h1, h2, h3, h4, h5, h6, h7, h8, h9⟩
  · simp [hnil]

/-- The audit accepts a catalog exactly when it has no defect. -/
theorem validate_eq_ok : catalog.validate = .ok () ↔ WellFormed catalog := by
  simp only [validate, bind_eq_ok, validateReferences_eq_ok, validatePrincipals_eq_ok, validateLegacyBearer_eq_ok,
    failIf_eq_ok, validateApart_eq_ok, validatePendingOwnerRecovery_eq_ok,
    validateOwner_eq_ok, validateManaged_eq_ok]
  constructor
  · rintro ⟨_, ⟨hprincipals, hroles, haudit, howned, hassigned, hcustom⟩, _, hprincipal, _, hlegacy, _, hverifier, _,
      hrole, _, hapart, _, hkeys, _, hrecovery, _, hacyclic, _, howner, _, hreserve, _, hindex, hunmanaged, hmanaged⟩
    have hreserve := (validateOwnerKeys_eq_ok howner fun h => (hunmanaged h).assignments).mp hreserve
    exact ⟨⟨hprincipals, hroles, hassigned, hcustom, fun id principal hget => (hprincipal id principal hget).1,
        fun id principal hget => (hprincipal id principal hget).2.1, forall_mem_values.mp (forM_eq_ok.mp hrole),
          hapart⟩,
      validateKeys_eq_ok.mp ⟨hkeys, hacyclic, howned, fun id principal hget => (hprincipal id principal hget).2.2⟩,
      hlegacy, not_not.mp hverifier, hrecovery, howner, hreserve, validateAuditIndex_eq_ok.mp ⟨haudit, hindex⟩,
      hunmanaged, hmanaged⟩
  · intro h
    obtain ⟨hkeys, hacyclic, howned, hcount⟩ := validateKeys_eq_ok.mpr h.keys
    obtain ⟨haudit, hindex⟩ := validateAuditIndex_eq_ok.mpr h.audit
    have hreserve := (validateOwnerKeys_eq_ok h.owner fun hnil => (h.unmanaged hnil).assignments).mpr h.reserve
    exact ⟨(), ⟨h.directory.principals_le, h.directory.customRoles_le, haudit, howned, h.directory.assigned,
        h.directory.customAssigned⟩, (),
      fun id principal hget => ⟨h.directory.named id principal hget, h.directory.assignments_le id principal hget,
        hcount id principal hget⟩, (), h.legacy, (), not_not.mpr h.verifier, (),
      forM_eq_ok.mpr (forall_mem_values.mpr h.directory.roles), (), h.directory.apart, (), hkeys, (), h.recovery, (),
        hacyclic, (), h.owner, (), hreserve, (), hindex, h.unmanaged, h.managed⟩

end AccessControlCatalog

end Hyphae.Access
