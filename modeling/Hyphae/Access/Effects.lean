import Hyphae.Access.KeyMaps

/-!
# What each mutation of the access-control catalog leaves

One lemma for each method: what it has checked when it succeeds, and the catalog it
leaves. The later developments argue over these and do not look at the methods again.
-/

namespace Hyphae.Access

open Lib Except Option List OrderedMap

open Wal (Digest)

namespace AccessControlCatalog

open AccessControlLimits
open Bool (and_eq_true not_eq_true)

variable {catalog after : AccessControlCatalog}

variable {epoch expected : AuthorizationEpoch} {displayName label keyLabel : List Char}
  {createdAtMicros nowMicros : Int} {issue : Option ApiKeyVerifier} {id keyId : ApiKeyId}
  {result : SecurityId × AuthorizationEpoch} {draw operationDraw : Option SecurityId} {principalId : SecurityId}
  {ids : List ApiKeyId} {key : ApiKeyRecord} {owner : SecurityId × ApiKeyId} {requestDigest : Digest}

theorem nextEpoch_eq_ok : catalog.nextEpoch = .ok epoch ↔ catalog.epoch + 1 < 2 ^ 64 ∧ epoch = catalog.epoch + 1 := by
  simp [nextEpoch, AuthorizationEpoch.checkedNext]

/-- The next generation of the catalog, with these keys. -/
def rekeyed (catalog : AccessControlCatalog) (keys : Keys) : AccessControlCatalog :=
  { catalog with keys := keys, epoch := catalog.epoch + 1 }

/-! ## The first owner -/

/-- The catalog of a new instance with one owner, who has one key. -/
def ownedBy (catalog : AccessControlCatalog) (principalId assignmentId : SecurityId) (displayName : List Char)
    (key : ApiKeyRecord) : AccessControlCatalog :=
  (((catalog.putPrincipal ⟨principalId, displayName, true⟩).putAssignment
    ⟨assignmentId, principalId, .owner, .instance_⟩).putKey key.id key).atEpoch AuthorizationEpoch.initial

theorem bootstrapOwner_ok {principalDraw assignmentDraw : Option SecurityId}
    (h : bootstrapOwner displayName keyLabel createdAtMicros principalDraw assignmentDraw issue catalog =
      .ok owner after) :
    ∃ assignmentId verifier, catalog.unbootstrapped = true ∧ validateDisplayName displayName = .ok () ∧
      validateDisplayName keyLabel = .ok () ∧ principalDraw = some owner.1 ∧ assignmentDraw = some assignmentId ∧
      issue = some verifier ∧ owner.2 = verifier.id ∧
      after = catalog.ownedBy owner.1 assignmentId displayName
        (pendingOwnerKeyRecord verifier owner.1 keyLabel createdAtMicros AuthorizationEpoch.initial) := by
  simp only [bootstrapOwner, atomically_eq_ok, bind_eq_ok, failIf_eq_ok, okOr_eq_ok, ok.injEq,
    Prod.mk.injEq, Bool.not_eq_false] at h
  obtain ⟨-, hempty, _, hname, _, hlabel, principalId, hprincipal, assignmentId, hassignment, verifier, hissue,
    rfl, rfl⟩ := h
  exact ⟨assignmentId, verifier, hempty, hname, hlabel, hprincipal, hassignment, hissue, rfl, rfl⟩

/-! ## The legacy bearer -/

theorem replaceLegacyBearerMigration_ok {bearer : Digest}
    (h : replaceLegacyBearerMigration keyLabel createdAtMicros requestDigest bearer operationDraw issue catalog =
      .ok owner after) :
    ∃ migration previous verifier operationId, catalog.legacyBearerMigration = some migration ∧
      catalog.keys.get migration.keyId = some previous ∧ previous.active = false ∧ previous.revoked = false ∧
      catalog.keys.get verifier.id = none ∧ owner = (previous.principalId, verifier.id) ∧
      after =
        { catalog.rekeyed ((catalog.keys.eraseAll [migration.keyId]).insert verifier.id
            (pendingOwnerKeyRecord verifier previous.principalId keyLabel createdAtMicros (catalog.epoch + 1))) with
          legacyBearerMigration :=
            some ⟨operationId, verifier.id, catalog.epoch + 1, createdAtMicros, requestDigest⟩
          legacyBearerVerifier := some bearer } := by
  simp only [replaceLegacyBearerMigration, atomically_eq_ok, bind_eq_ok, failIf_eq_ok, okOr_eq_ok,
    ok.injEq, Prod.mk.injEq, nextEpoch_eq_ok, filter_eq_some_iff, and_eq_true, Bool.not_eq_true',
    not_isSome_iff_eq_none] at h
  obtain ⟨migration, hmigration, -, -, -, -, previous, ⟨hprevious, hinactive, hlive⟩, verifier, -, -, hfresh, epoch,
    ⟨-, rfl⟩, operationId, -, rfl, rfl⟩ := h
  exact ⟨migration, previous, verifier, operationId, hmigration, hprevious, hinactive, hlive, hfresh, rfl, rfl⟩

/-- A key as its activation leaves it. -/
abbrev activated (catalog : AccessControlCatalog) (key : ApiKeyRecord) : ApiKeyRecord :=
  { key with active := true, publishedEpoch := catalog.epoch + 1 }

theorem activateKey_ok (h : activateKey id catalog = .ok epoch after) :
    ∃ key, catalog.keys.get id = some key ∧ key.predecessorId = none ∧ key.active = false ∧ key.revoked = false ∧
      epoch = catalog.epoch + 1 ∧
      after = catalog.rekeyed (catalog.keys.insert id (catalog.activated key)) := by
  simp only [activateKey, atomically_eq_ok, bind_eq_ok, failIf_eq_ok, okOr_eq_ok, ok.injEq,
    Prod.mk.injEq, nextEpoch_eq_ok, not_or, not_eq_true, isSome_eq_false_iff,
    isNone_iff_eq_none] at h
  obtain ⟨key, hget, -, hfirst, epoch, ⟨-, rfl⟩, -, ⟨hinactive, hlive⟩, rfl, rfl⟩ := h
  exact ⟨key, hget, hfirst, hinactive, hlive, rfl, rfl⟩

theorem activateLegacyBearerMigration_ok
    (h : activateLegacyBearerMigration keyId expected requestDigest catalog = .ok result after) :
    ∃ migration key, catalog.legacyBearerMigration = some migration ∧ catalog.legacyBearerState = .migrationPending ∧
      migration.keyId = keyId ∧ catalog.keys.get keyId = some key ∧ key.predecessorId = none ∧ key.active = false ∧
      key.revoked = false ∧ result = (migration.operationId, catalog.epoch + 1) ∧
      after =
        { catalog.rekeyed (catalog.keys.insert keyId (catalog.activated key)) with
          legacyBearerState := .dualWindow } := by
  simp only [activateLegacyBearerMigration, EStateM.bind_eq_ok, atomically_eq_ok, bind_eq_ok, okOr_eq_ok,
    failIf_eq_ok, ok.injEq, Prod.mk.injEq, not_or, ne_eq, not_not] at h
  obtain ⟨_, _, ⟨migration, hmigration, -, ⟨hstate, hkey, -⟩, rfl, rfl⟩, epoch, _, hactivated, rfl, rfl⟩ := h
  obtain ⟨key, hget, hfirst, hinactive, hlive, rfl, rfl⟩ := activateKey_ok hactivated
  exact ⟨migration, key, hmigration, hstate, hkey, hget, hfirst, hinactive, hlive, rfl, rfl⟩

theorem revokeLegacyBearer_ok (h : revokeLegacyBearer catalog = .ok epoch after) :
    catalog.legacyBearerState = .revoked ∧ after = catalog ∨
      catalog.legacyBearerState.isEnabled = true ∧
        after = { catalog.atEpoch (catalog.epoch + 1) with
          legacyBearerState := .revoked, legacyBearerVerifier := none } := by
  rw [revokeLegacyBearer, atomically_eq_ok] at h
  split at h
  · simp only [ok.injEq, Prod.mk.injEq] at h
    exact .inl ⟨‹_›, h.2.symm⟩
  iterate 2
    · simp only [bind_eq_ok, nextEpoch_eq_ok, ok.injEq, Prod.mk.injEq] at h
      obtain ⟨_, ⟨-, rfl⟩, -, rfl⟩ := h
      rename_i hstate
      exact .inr ⟨by rw [hstate]; rfl, rfl⟩
  · cases h

/-! ## Principals and roles -/

theorem createPrincipal_ok (h : createPrincipal displayName draw catalog = .ok result after) :
    validateDisplayName displayName = .ok () ∧
      catalog.principals.entries.length < v1.principals ∧
      catalog.principals.get result.1 = none ∧ result.2 = catalog.epoch + 1 ∧
      after = (catalog.putPrincipal ⟨result.1, displayName, false⟩).atEpoch (catalog.epoch + 1) := by
  simp only [createPrincipal, atomically_eq_ok, bind_eq_ok, failIf_eq_ok, okOr_eq_ok, ok.injEq,
    Prod.mk.injEq, nextEpoch_eq_ok, not_le, ge_iff_le, not_isSome_iff_eq_none] at h
  obtain ⟨_, hname, -, hlimit, id, -, -, hfresh, epoch, ⟨-, rfl⟩, rfl, rfl⟩ := h
  exact ⟨hname, hlimit, hfresh, rfl, rfl⟩

theorem hasOwnerRole_iff :
    catalog.hasOwnerRole principalId ↔ ∃ id assignment, catalog.assignments.get id = some assignment ∧
      assignment.principalId = principalId ∧ assignment.role = .owner := by
  simp only [hasOwnerRole, List.any_eq_true, mem_values, and_eq_true, decide_eq_true_eq]
  exact ⟨fun ⟨assignment, ⟨id, hget⟩, hsame⟩ => ⟨id, assignment, hget, hsame⟩,
    fun ⟨id, assignment, hget, hsame⟩ => ⟨assignment, ⟨id, hget⟩, hsame⟩⟩

theorem setPrincipalEnabled_ok {enabled : Bool}
    (h : setPrincipalEnabled principalId enabled catalog = .ok epoch after) :
    ∃ principal, catalog.hasOwnerRole principalId = false ∧ catalog.principals.get principalId = some principal ∧
      epoch = catalog.epoch + 1 ∧
      after = (catalog.putPrincipal { principal with enabled := enabled }).atEpoch (catalog.epoch + 1) := by
  simp only [setPrincipalEnabled, atomically_eq_ok, bind_eq_ok, failIf_eq_ok, okOr_eq_ok,
    ok.injEq, Prod.mk.injEq, nextEpoch_eq_ok, not_eq_true] at h
  obtain ⟨-, howner, principal, hget, -, -, epoch, ⟨-, rfl⟩, rfl, rfl⟩ := h
  exact ⟨principal, howner, hget, rfl, rfl⟩

theorem assignBuiltInRole_ok {role : BuiltInRole} {scope : ProductScope}
    (h : assignBuiltInRole principalId role scope draw catalog = .ok result after) :
    role ≠ .owner ∧ (catalog.principals.get principalId).isSome ∧
      catalog.assignmentCount principalId < v1.assignmentsPerPrincipal ∧
      catalog.assignments.get result.1 = none ∧ catalog.customAssignments.get result.1 = none ∧
      result.2 = catalog.epoch + 1 ∧
      after = (catalog.putAssignment ⟨result.1, principalId, role, scope⟩).atEpoch (catalog.epoch + 1) := by
  simp only [assignBuiltInRole, atomically_eq_ok, bind_eq_ok, failIf_eq_ok, okOr_eq_ok,
    ok.injEq, Prod.mk.injEq, nextEpoch_eq_ok, not_or, not_le, ge_iff_le, not_isSome_iff_eq_none,
    isNone_iff_eq_none] at h
  obtain ⟨-, hrole, -, hprincipal, -, hlimit, -, -, id, -, -, ⟨hfresh, hapart⟩, epoch, ⟨-, rfl⟩, rfl, rfl⟩ := h
  exact ⟨hrole, isSome_iff_ne_none.mpr hprincipal, hlimit, hfresh, hapart, rfl, rfl⟩

theorem createCustomRole_ok {grants : List CustomRoleGrant}
    (h : createCustomRole displayName grants draw catalog = .ok result after) :
    validateDisplayName displayName = .ok () ∧ BuiltInRole.parse (displayName.map Char.toLower) = none ∧
      catalog.customRoles.entries.length < v1.customRoles ∧ collectSet grants ≠ [] ∧
      (collectSet grants).length ≤ v1.grantsPerRole ∧
      (∀ grant ∈ collectSet grants, grant.permission ≠ .ownershipManage ∧
        grant.permission.supportsScope grant.scope = true) ∧
      catalog.customRoles.get result.1 = none ∧ result.2 = catalog.epoch + 1 ∧
      after = (catalog.putCustomRole ⟨result.1, displayName, collectSet grants⟩).atEpoch (catalog.epoch + 1) := by
  simp only [createCustomRole, atomically_eq_ok, bind_eq_ok, failIf_eq_ok, okOr_eq_ok,
    ok.injEq, Prod.mk.injEq, nextEpoch_eq_ok, not_or, not_le, ge_iff_le, gt_iff_lt, not_lt, not_eq_true,
    isSome_eq_false_iff, isNone_iff_eq_none, List.any_eq_false, Bool.or_eq_false_iff,
    decide_eq_false_iff_not, Bool.not_eq_false'] at h
  obtain ⟨_, hname, -, ⟨hother, -⟩, -, hlimit, -, ⟨hsome, hgrants⟩, -, hallowed, id, -, -, hfresh, epoch, ⟨-, rfl⟩, rfl,
    rfl⟩ := h
  exact ⟨hname, hother, hlimit, hsome, hgrants, hallowed, hfresh, rfl, rfl⟩

theorem assignCustomRole_ok {roleId : SecurityId}
    (h : assignCustomRole principalId roleId draw catalog = .ok result after) :
    (catalog.principals.get principalId).isSome ∧ (catalog.customRoles.get roleId).isSome ∧
      catalog.assignmentCount principalId < v1.assignmentsPerPrincipal ∧
      catalog.customAssignments.get result.1 = none ∧ catalog.assignments.get result.1 = none ∧
      result.2 = catalog.epoch + 1 ∧
      after = (catalog.putCustomAssignment ⟨result.1, principalId, roleId⟩).atEpoch (catalog.epoch + 1) := by
  simp only [assignCustomRole, atomically_eq_ok, bind_eq_ok, failIf_eq_ok, okOr_eq_ok,
    ok.injEq, Prod.mk.injEq, nextEpoch_eq_ok, not_or, not_le, ge_iff_le, not_isSome_iff_eq_none,
    isNone_iff_eq_none] at h
  obtain ⟨-, ⟨hprincipal, hrole⟩, -, hlimit, -, -, id, -, -, ⟨hfresh, hapart⟩, epoch, ⟨-, rfl⟩, rfl, rfl⟩ := h
  exact ⟨isSome_iff_ne_none.mpr hprincipal, isSome_iff_ne_none.mpr hrole, hlimit, hfresh, hapart, rfl, rfl⟩

theorem revokeAssignment_ok {assignmentId : SecurityId} (h : revokeAssignment assignmentId catalog = .ok result after) :
    (∃ assignment, catalog.assignments.get assignmentId = some assignment ∧ assignment.role ≠ .owner ∧
        after = (catalog.removeAssignment assignmentId).atEpoch (catalog.epoch + 1)) ∨
      ∃ assignment, catalog.customAssignments.get assignmentId = some assignment ∧
        after = (catalog.removeCustomAssignment assignmentId).atEpoch (catalog.epoch + 1) := by
  rw [revokeAssignment, atomically_eq_ok] at h
  split at h
  · rename_i assignment hget
    simp only [bind_eq_ok, failIf_eq_ok, nextEpoch_eq_ok, ok.injEq, Prod.mk.injEq] at h
    obtain ⟨-, hrole, epoch, ⟨-, rfl⟩, -, rfl⟩ := h
    exact .inl ⟨assignment, hget, hrole, rfl⟩
  · simp only [bind_eq_ok, okOr_eq_ok, nextEpoch_eq_ok, ok.injEq, Prod.mk.injEq] at h
    obtain ⟨assignment, hget, epoch, ⟨-, rfl⟩, -, rfl⟩ := h
    exact .inr ⟨assignment, hget, rfl⟩

/-! ## Issuing keys -/

/-- What an accepted key issue has checked. -/
structure KeyIssued (catalog : AccessControlCatalog) (request : KeyIssue) (verifier : ApiKeyVerifier)
    (retired : List (Int × ApiKeyId)) : Prop where
  named : validateDisplayName request.label = .ok ()
  principal : (catalog.principals.get request.principalId).isSome
  expiry : ∀ expiry, request.expiresAtMicros = some expiry → request.createdAtMicros < expiry
  room : catalog.retiredUnlinkedKeysForCapacity request.principalId request.createdAtMicros
    (catalog.keyCount request.principalId) (catalog.ordinaryKeyLimit request.principalId) = .ok retired
  some_role : collectSet request.roles ≠ [] ∨ collectSet request.customRoles ≠ []
  scopes_ne_nil : collectSet request.scopeCeiling ≠ []
  scopes_le : (collectSet request.scopeCeiling).length ≤ AccessControlLimits.v1.assignmentsPerPrincipal
  roles : request.roles ⊆ catalog.assignedRoles request.principalId
  customRoles : request.customRoles ⊆ catalog.assignedCustomRoles request.principalId
  fresh : catalog.keys.get verifier.id = none

/-- The keys once a key has been issued. -/
abbrev afterIssue (catalog : AccessControlCatalog) (request : KeyIssue) (verifier : ApiKeyVerifier)
    (retired : List (Int × ApiKeyId)) : Keys :=
  (catalog.keys.eraseAll (retired.map Prod.snd)).insert verifier.id (request.record verifier (catalog.epoch + 1))

theorem beginKeyIssue_ok {request : KeyIssue} {result : ApiKeyId × AuthorizationEpoch × List ApiKeyId}
    (h : beginKeyIssueWithRolesAndPruning request issue catalog = .ok result after) :
    ∃ verifier retired, KeyIssued catalog request verifier retired ∧ issue = some verifier ∧
      result = (verifier.id, catalog.epoch + 1, retired.map Prod.snd) ∧
      after = catalog.rekeyed (catalog.afterIssue request verifier retired) := by
  simp only [beginKeyIssueWithRolesAndPruning, atomically_eq_ok, bind_eq_ok, failIf_eq_ok,
    okOr_eq_ok, ok.injEq, Prod.mk.injEq, nextEpoch_eq_ok, not_or, not_not, not_lt, gt_iff_lt,
    isNone_iff_eq_none, not_eq_true, isSome_eq_false_iff, Option.any_eq_true, decide_eq_true_eq,
    not_exists, not_and, not_le] at h
  obtain ⟨_, hnamed, -, hprincipal, -, hexpiry, -, -, retired, hroom, -, hrole, -, ⟨hscopes, hscopesLe⟩, -, hroles, -,
    hcustom, verifier, hissue, -, hfresh, epoch, ⟨-, rfl⟩, rfl, rfl⟩ := h
  refine ⟨verifier, retired, ⟨hnamed, isSome_iff_ne_none.mpr hprincipal, hexpiry, hroom, ?_, hscopes, hscopesLe,
    hroles, hcustom, hfresh⟩, hissue, rfl, rfl⟩
  exact or_iff_not_imp_left.mpr fun hnil => hrole (not_not.mp hnil)

/-- Creation times decide the order only. -/
theorem sortByCreation_perm (keys : List ApiKeyRecord) :
    ((sortByCreation keys).map Prod.snd).Perm (keys.map ApiKeyRecord.id) := by
  have hperm := perm_insertionSort (· ≤ ·) (keys.map fun key => toLex (key.createdAtMicros, key.id))
  have hids := hperm.map fun pair => (ofLex pair).2
  simpa [sortByCreation, Function.comp_def] using hids

theorem ids_eq (h : WellFormed catalog) :
    catalog.keys.values.map ApiKeyRecord.id = catalog.keys.entries.map Prod.fst := by
  rw [values, List.map_map]
  refine map_congr_left fun entry hentry => ?_
  exact (h.keys.record entry.1 entry.2 (mem_entries.mp hentry)).id_eq

/-- A selection of keys names each of them once. -/
theorem nodup_selection (h : WellFormed catalog) (p : ApiKeyRecord → Bool) :
    ((catalog.keys.values.filter p).map ApiKeyRecord.id).Nodup := by
  have hall : (catalog.keys.values.map ApiKeyRecord.id).Nodup := by
    rw [ids_eq h]
    exact catalog.keys.ascending.nodup_keys
  exact hall.sublist (filter_sublist.map _)

theorem mem_selection (h : WellFormed catalog) {p : ApiKeyRecord → Bool} :
    id ∈ (catalog.keys.values.filter p).map ApiKeyRecord.id ↔
      ∃ key, catalog.keys.get id = some key ∧ p key = true := by
  simp only [List.mem_map, mem_filter, mem_values]
  constructor
  · rintro ⟨key, ⟨⟨id', hget⟩, hp⟩, rfl⟩
    rw [← (h.keys.record id' key hget).id_eq] at hget
    exact ⟨key, hget, hp⟩
  · rintro ⟨key, hget, hp⟩
    exact ⟨key, ⟨⟨id, hget⟩, hp⟩, (h.keys.record id key hget).id_eq⟩

theorem retiredKeys_ok (h : WellFormed catalog) {currentKeys keyLimit : Nat} {retired : List (Int × ApiKeyId)}
    (hroom : catalog.retiredUnlinkedKeysForCapacity principalId nowMicros currentKeys keyLimit = .ok retired) :
    retired.length = currentKeys + 1 - keyLimit ∧ (retired.map Prod.snd).Nodup ∧
      ∀ id ∈ retired.map Prod.snd, ∃ key, catalog.keys.get id = some key ∧
        isRetired principalId nowMicros key = true := by
  simp only [retiredUnlinkedKeysForCapacity, bind_eq_ok, failIf_eq_ok, not_lt, ok.injEq] at hroom
  obtain ⟨-, hlength, rfl⟩ := hroom
  have hperm := sortByCreation_perm (catalog.keys.values.filter (isRetired principalId nowMicros))
  refine ⟨by rw [length_take, min_eq_left hlength], ?_, fun id hid => ?_⟩
  · rw [map_take]
    exact (hperm.nodup_iff.mpr (nodup_selection h _)).sublist (take_sublist _ _)
  · rw [map_take] at hid
    exact (mem_selection h).mp (hperm.subset (mem_of_mem_take hid))

/-! ## The life of a key -/

theorem revokeKey_ok (h : revokeKey id catalog = .ok epoch after) :
    ∃ key, catalog.keys.get id = some key ∧ key.active = true ∧
      (key.revoked = true ∧ after = catalog ∨
        key.revoked = false ∧ after = catalog.rekeyed (catalog.keys.insert id { key with revoked := true })) := by
  simp only [revokeKey, atomically_eq_ok, bind_eq_ok, okOr_eq_ok, failIf_eq_ok, not_not] at h
  obtain ⟨key, hget, -, hactive, h⟩ := h
  refine ⟨key, hget, hactive, ?_⟩
  split at h
  · simp only [ok.injEq, Prod.mk.injEq] at h
    exact .inl ⟨‹_›, h.2.symm⟩
  · simp only [bind_eq_ok, nextEpoch_eq_ok, ok.injEq, Prod.mk.injEq] at h
    obtain ⟨_, ⟨-, rfl⟩, -, rfl⟩ := h
    exact .inr ⟨not_eq_true _ ▸ ‹_›, rfl⟩

/-- What an accepted activation of a rotated key has checked. -/
structure RotatedKeyActivated (catalog : AccessControlCatalog) (id : ApiKeyId) (activatedAtMicros : Int)
    (key predecessor : ApiKeyRecord) (activation : RotationActivation) : Prop where
  get : catalog.keys.get id = some key
  inactive : key.active = false
  live : key.revoked = false
  predecessorId : key.predecessorId = some activation.predecessorId
  overlap : key.rotationOverlapMicros = some activation.overlapMicros
  deadline : overlapDeadline activatedAtMicros activation.overlapMicros = some activation.overlapUntilMicros
  predecessor : catalog.keys.get activation.predecessorId = some predecessor
  nextEpoch : activation.nextEpoch = catalog.epoch + 1

/-- The keys once a rotated key has been activated. -/
def afterActivation (catalog : AccessControlCatalog) (id : ApiKeyId) (key predecessor : ApiKeyRecord)
    (activation : RotationActivation) : Keys :=
  (catalog.keys.insert id { key with active := true, publishedEpoch := catalog.epoch + 1 }).insert
    activation.predecessorId
    { predecessor with
      revoked := predecessor.revoked || activation.overlapMicros = 0
      overlapUntilMicros := some activation.overlapUntilMicros }

/-- The predecessor is still there when it is looked up again. -/
theorem activateRotatedKey_cases (h : WellFormed catalog) (id : ApiKeyId) (activatedAtMicros : Int) :
    (∃ error, activateRotatedKey id activatedAtMicros catalog = .error error catalog) ∨
      ∃ key predecessor activation, RotatedKeyActivated catalog id activatedAtMicros key predecessor activation ∧
        activateRotatedKey id activatedAtMicros catalog =
          .ok (catalog.epoch + 1, activation.overlapUntilMicros)
            (catalog.rekeyed (catalog.afterActivation id key predecessor activation)) := by
  unfold activateRotatedKey
  rw [EStateM.bind_apply]
  split
  · rename_i activation middle hfirst
    simp only [atomically_eq_ok, bind_eq_ok, okOr_eq_ok, failIf_eq_ok, ok.injEq,
      Prod.mk.injEq, nextEpoch_eq_ok, not_or, not_eq_true] at hfirst
    obtain ⟨key, hget, -, ⟨hinactive, hlive, -, -⟩, predecessorId, hid, overlap, hoverlap, deadline, hdeadline,
      predecessor, hpredecessor, -, -, epoch, ⟨-, rfl⟩, rfl, rfl⟩ := hfirst
    have hne := h.keys.ne_predecessor hget hid
    refine .inr ⟨key, predecessor, ⟨predecessorId, overlap, deadline, catalog.epoch + 1⟩,
      ⟨hget, hinactive, hlive, hid, hoverlap, hdeadline, hpredecessor, rfl⟩, ?_⟩
    rw [atomically_eq_ok, putKey, get_insert, if_neg hne, hpredecessor]
    rfl
  · rename_i error middle hfirst
    rw [(atomically_eq_error.mp hfirst).2]
    exact .inl ⟨error, rfl⟩

theorem retiredRotationAncestors_ok (h : catalog.retiredRotationAncestors id nowMicros = .ok ids) :
    Ancestors catalog.keys id ids := by
  simp only [retiredRotationAncestors, bind_eq_ok, okOr_eq_ok] at h
  obtain ⟨key, hget, hwalk⟩ := h
  exact ancestors_of_retiredAncestorsFrom hget hwalk

/-- What an accepted rotation has checked. -/
structure RotationStarted (catalog : AccessControlCatalog) (predecessorId : ApiKeyId) (label : List Char)
    (overlapSeconds : Nat) (createdAtMicros : Int) (expiresAtMicros : Option Int) (start : RotationStart) : Prop where
  named : validateDisplayName label = .ok ()
  overlap_le : overlapSeconds ≤ AccessControlLimits.v1.maximumRotationOverlapSeconds
  expiry : ∀ expiry, expiresAtMicros = some expiry → createdAtMicros < expiry
  predecessor : catalog.keys.get predecessorId = some start.predecessor
  active : start.predecessor.active = true
  live : start.predecessor.revoked = false
  last : start.predecessor.successorId = none
  retired : catalog.retiredRotationAncestors predecessorId createdAtMicros = .ok start.retiredAncestors
  room : catalog.keyCount start.predecessor.principalId - start.retiredAncestors.length <
    catalog.ordinaryKeyLimit start.predecessor.principalId
  overlap : start.overlapMicros = overlapSeconds * 1000000
  fresh : catalog.keys.get start.verifier.id = none
  epoch : start.epoch = catalog.epoch + 1

theorem startKeyRotation_ok {predecessorId : ApiKeyId} {overlapSeconds : Nat} {expiresAtMicros : Option Int}
    {start : RotationStart}
    (h : catalog.startKeyRotation predecessorId label overlapSeconds createdAtMicros expiresAtMicros issue =
      .ok start) :
    RotationStarted catalog predecessorId label overlapSeconds createdAtMicros expiresAtMicros start := by
  simp only [startKeyRotation, bind_eq_ok, failIf_eq_ok, okOr_eq_ok, ok.injEq,
    nextEpoch_eq_ok, checkedMul_eq_some, filter_eq_some_iff, and_eq_true, Bool.not_eq_true',
    isNone_iff_eq_none, not_or, gt_iff_lt, ge_iff_le, not_lt, not_le, not_eq_true,
    isSome_eq_false_iff, Option.any_eq_true, decide_eq_true_eq, not_exists, not_and] at h
  obtain ⟨_, hnamed, -, ⟨hoverlap, hexpiry⟩, predecessor, ⟨hget, ⟨hactive, hlive⟩, hlast⟩, ids, hretired, -, hroom,
    overlap, ⟨-, rfl⟩, verifier, -, -, hfresh, epoch, ⟨-, rfl⟩, rfl⟩ := h
  exact ⟨hnamed, hoverlap, hexpiry, hget, hactive, hlive, hlast, hretired, hroom, rfl, hfresh, rfl⟩

/-- The key once its ancestors have gone. -/
def detachedKey (key : ApiKeyRecord) (ancestors : List ApiKeyId) : ApiKeyRecord :=
  if ancestors = [] then key else { key with predecessorId := none, rotationOverlapMicros := none }

/-- The keys once the ancestors of one of them have gone. -/
def detached (keys : Keys) (id : ApiKeyId) (key : ApiKeyRecord) (ancestors : List ApiKeyId) : Keys :=
  if ancestors = [] then keys
  else (keys.eraseAll ancestors).insert id { key with predecessorId := none, rotationOverlapMicros := none }

/-- The keys once a rotation has begun. -/
def afterRotation (catalog : AccessControlCatalog) (predecessorId : ApiKeyId) (label : List Char)
    (createdAtMicros : Int) (expiresAtMicros : Option Int) (start : RotationStart) : Keys :=
  ((detached catalog.keys predecessorId start.predecessor start.retiredAncestors).insert start.verifier.id
    (start.successor predecessorId label createdAtMicros expiresAtMicros)).insert predecessorId
      { detachedKey start.predecessor start.retiredAncestors with successorId := some start.verifier.id }

theorem detachAncestors_ok (hget : catalog.keys.get id = some key) (hancestors : Ancestors catalog.keys id ids) :
    detachAncestors id ids catalog = .ok () { catalog with keys := detached catalog.keys id key ids } := by
  have hkept : (catalog.keys.eraseAll ids).get id = some key := get_eraseAll_eq_some.mpr ⟨hancestors.not_mem, hget⟩
  rw [detachAncestors, EStateM.bind_apply, detached]
  change (if ids = [] then _ else _ : Mutating Unit) (catalog.removeKeys ids) = _
  split
  · rename_i hnil
    subst hnil
    rfl
  · rw [atomically_eq_ok, removeKeys, hkept]
    rfl

theorem get_detached {keys : Keys} (hget : keys.get id = some key) :
    (detached keys id key ids).get id = some (detachedKey key ids) := by
  unfold detached detachedKey
  split
  · exact hget
  · rw [get_insert, if_pos rfl]

theorem beginKeyRotation_cases (predecessorId : ApiKeyId) (label : List Char) (overlapSeconds : Nat)
    (createdAtMicros : Int) (expiresAtMicros : Option Int) (issue : Option ApiKeyVerifier) :
    (∃ error, beginKeyRotationWithPruning predecessorId label overlapSeconds createdAtMicros expiresAtMicros issue
        catalog = .error error catalog) ∨
      ∃ start, RotationStarted catalog predecessorId label overlapSeconds createdAtMicros expiresAtMicros start ∧
        beginKeyRotationWithPruning predecessorId label overlapSeconds createdAtMicros expiresAtMicros issue catalog =
          .ok (start.verifier.id, catalog.epoch + 1, start.retiredAncestors)
            (catalog.rekeyed (catalog.afterRotation predecessorId label createdAtMicros expiresAtMicros start)) := by
  unfold beginKeyRotationWithPruning
  rw [EStateM.bind_apply]
  split
  · rename_i start middle hfirst
    simp only [atomically_eq_ok, bind_eq_ok, ok.injEq, Prod.mk.injEq] at hfirst
    obtain ⟨start, hstart, rfl, rfl⟩ := hfirst
    have hstarted := startKeyRotation_ok hstart
    refine .inr ⟨start, hstarted, ?_⟩
    have hne := ne_of_get hstarted.predecessor hstarted.fresh
    have hdetached := detachAncestors_ok hstarted.predecessor (retiredRotationAncestors_ok hstarted.retired)
    rw [EStateM.bind_apply, hdetached]
    simp only [EStateM.bind_apply, EStateM.modify_apply]
    rw [atomically_eq_ok, putKey, get_insert, if_neg hne, get_detached hstarted.predecessor, hstarted.epoch]
    rfl
  · rename_i error middle hfirst
    rw [(atomically_eq_error.mp hfirst).2]
    exact .inl ⟨error, rfl⟩

/-- The successor of an aborted rotation, with its predecessor. -/
structure RotationAborted (catalog : AccessControlCatalog) (id predecessorId : ApiKeyId)
    (key predecessor : ApiKeyRecord) : Prop where
  get : catalog.keys.get id = some key
  inactive : key.active = false
  live : key.revoked = false
  rotated : key.predecessorId = some predecessorId
  last : key.successorId = none
  predecessor : catalog.keys.get predecessorId = some predecessor

theorem abortKeyRotation_cases (h : WellFormed catalog) (id : ApiKeyId) :
    (∃ error, abortKeyRotation id catalog = .error error catalog) ∨
      ∃ predecessorId key predecessor, RotationAborted catalog id predecessorId key predecessor ∧
        abortKeyRotation id catalog =
          .ok (catalog.epoch + 1) (catalog.rekeyed
            ((catalog.keys.eraseAll [id]).insert predecessorId { predecessor with successorId := none })) := by
  unfold abortKeyRotation
  rw [EStateM.bind_apply]
  split
  · rename_i plan middle hfirst
    simp only [atomically_eq_ok, bind_eq_ok, okOr_eq_ok, failIf_eq_ok, ok.injEq,
      Prod.mk.injEq, nextEpoch_eq_ok, not_or, filter_eq_some_iff, and_eq_true, Bool.not_eq_true',
      not_isSome_iff_eq_none] at hfirst
    obtain ⟨key, ⟨hget, hinactive, hlive⟩, predecessorId, hid, predecessor, hpredecessor, -, ⟨-, hlast⟩, epoch,
      ⟨-, rfl⟩, rfl, rfl⟩ := hfirst
    have hne : predecessorId ∉ [id] := mt mem_singleton.mp (h.keys.ne_predecessor hget hid)
    refine .inr ⟨predecessorId, key, predecessor, ⟨hget, hinactive, hlive, hid, hlast, hpredecessor⟩, ?_⟩
    rw [atomically_eq_ok, removeKeys, get_eraseAll_eq_some.mpr ⟨hne, hpredecessor⟩]
    rfl
  · rename_i error middle hfirst
    rw [(atomically_eq_error.mp hfirst).2]
    exact .inl ⟨error, rfl⟩

theorem isPendingIssue_iff :
    isPendingIssue principalId label key = true ↔ key.principalId = principalId ∧ key.label = label ∧
      key.active = false ∧ key.revoked = false ∧ key.predecessorId = none ∧ key.successorId = none ∧
        key.rotationOverlapMicros = none := by
  simp [isPendingIssue, and_assoc]

theorem abortPendingKeyIssue_ok {result : ApiKeyId × AuthorizationEpoch} (h : WellFormed catalog)
    (hrun : abortPendingKeyIssue principalId label catalog = .ok result after) :
    ∃ pending key, catalog.pendingKeyIssue principalId label = .ok pending ∧ pending.id = result.1 ∧
      catalog.keys.get result.1 = some key ∧ isPendingIssue principalId label key = true ∧
      result.2 = catalog.epoch + 1 ∧ after = catalog.rekeyed (catalog.keys.eraseAll [result.1]) := by
  simp only [abortPendingKeyIssue, atomically_eq_ok, bind_eq_ok, nextEpoch_eq_ok, ok.injEq, Prod.mk.injEq] at hrun
  obtain ⟨key, hissue, _, ⟨-, rfl⟩, rfl, rfl⟩ := hrun
  have hpending := hissue
  simp only [pendingKeyIssue, bind_eq_ok] at hpending
  obtain ⟨-, -, hpending⟩ := hpending
  split at hpending
  · cases hpending
  · rename_i pending hsingle
    obtain rfl := ok.inj hpending
    have hmem : pending.id ∈ (catalog.keys.values.filter (isPendingIssue principalId label)).map ApiKeyRecord.id := by
      simp [hsingle]
    obtain ⟨key, hget, hkey⟩ := (mem_selection h).mp hmem
    exact ⟨pending, key, hissue, rfl, hget, hkey, rfl, rfl⟩
  · cases hpending

/-! ## Recovery of the owner -/

/-- What an accepted recovery has checked. -/
structure RecoveryStarted (catalog : AccessControlCatalog) (label : List Char) (ownerPrincipal : SecurityId)
    (verifier : ApiKeyVerifier) : Prop where
  named : validateDisplayName label = .ok ()
  notPending : catalog.pendingOwnerRecovery = none
  owner : catalog.ownerPrincipals = [ownerPrincipal]
  room : catalog.keyCount ownerPrincipal - (catalog.removableKeys ownerPrincipal).length <
    AccessControlLimits.v1.keysPerPrincipal
  fresh : catalog.keys.get verifier.id = none

theorem beginOwnerRecovery_ok {result : SecurityId × SecurityId × ApiKeyId × AuthorizationEpoch × List ApiKeyId}
    (h : beginOwnerRecoveryWithRetired label createdAtMicros operationDraw issue catalog = .ok result after) :
    ∃ ownerPrincipal verifier operationId, RecoveryStarted catalog label ownerPrincipal verifier ∧
      after = supersedeMigration
        { catalog.rekeyed ((catalog.keys.eraseAll (catalog.removableKeys ownerPrincipal)).insert verifier.id
            (pendingOwnerKeyRecord verifier ownerPrincipal label createdAtMicros (catalog.epoch + 1))) with
          pendingOwnerRecovery := some ⟨operationId, verifier.id, catalog.epoch + 1, createdAtMicros⟩ } := by
  simp only [beginOwnerRecoveryWithRetired, atomically_eq_ok, bind_eq_ok, failIf_eq_ok, okOr_eq_ok,
    ok.injEq, Prod.mk.injEq, nextEpoch_eq_ok, ge_iff_le, not_le, ne_eq, not_not, not_isSome_iff_eq_none] at h
  obtain ⟨_, hnamed, -, hnone, -, hlength, ownerPrincipal, hhead, -, hroom, verifier, -, -, hfresh, epoch, ⟨-, rfl⟩,
    operationId, -, -, rfl⟩ := h
  have howner : catalog.ownerPrincipals = [ownerPrincipal] := by
    obtain ⟨principalId, hsingle⟩ := length_eq_one_iff.mp hlength
    rw [hsingle, head?_cons, some.injEq] at hhead
    rw [hsingle, hhead]
  exact ⟨ownerPrincipal, verifier, operationId, ⟨hnamed, hnone, howner, hroom, hfresh⟩, rfl⟩

theorem mem_removableKeys (h : WellFormed catalog) {ownerPrincipal : SecurityId} :
    id ∈ catalog.removableKeys ownerPrincipal ↔
      ∃ key, catalog.keys.get id = some key ∧ isRemovable ownerPrincipal key = true :=
  (sortByCreation_perm _).mem_iff.trans (mem_selection h)

theorem nodup_removableKeys (h : WellFormed catalog) (ownerPrincipal : SecurityId) :
    (catalog.removableKeys ownerPrincipal).Nodup :=
  (sortByCreation_perm _).nodup_iff.mpr (nodup_selection h _)

theorem mem_otherKeys (h : WellFormed catalog) {id' : ApiKeyId} :
    id' ∈ catalog.otherKeys principalId id ↔
      ∃ key, catalog.keys.get id' = some key ∧ key.principalId = principalId ∧ id' ≠ id := by
  rw [otherKeys, mem_selection h]
  refine exists_congr fun key => and_congr_right fun hget => ?_
  rw [and_eq_true, decide_eq_true_eq, decide_eq_true_eq, (h.keys.record id' key hget).id_eq]

/-- The recovered key, and its principal. -/
structure OwnerRecovered (catalog : AccessControlCatalog) (id : ApiKeyId) (key : ApiKeyRecord)
    (principal : SecurityPrincipalRecord) : Prop where
  pending : ∃ recovery, catalog.pendingOwnerRecovery = some recovery ∧ recovery.keyId = id
  get : catalog.keys.get id = some key
  owner : catalog.isInstanceOwner key.principalId = true
  principal : catalog.principals.get key.principalId = some principal

theorem activateRecoveredOwnerKey_cases (h : WellFormed catalog) (id : ApiKeyId) :
    (∃ error, activateRecoveredOwnerKeyWithRetired id catalog = .error error catalog) ∨
      ∃ key principal, OwnerRecovered catalog id key principal ∧
        activateRecoveredOwnerKeyWithRetired id catalog =
          .ok (catalog.epoch + 1, catalog.otherKeys key.principalId id)
            (revokeEnabledLegacyBearer
              { (catalog.putPrincipal { principal with enabled := true }).rekeyed
                  ((catalog.keys.eraseAll (catalog.otherKeys key.principalId id)).insert id
                    (catalog.activated key)) with
                pendingOwnerRecovery := none }) := by
  unfold activateRecoveredOwnerKeyWithRetired
  rw [EStateM.bind_apply]
  split
  · rename_i plan middle hfirst
    simp only [atomically_eq_ok, bind_eq_ok, okOr_eq_ok, failIf_eq_ok, ok.injEq,
      Prod.mk.injEq, nextEpoch_eq_ok, ne_eq, not_not, Bool.not_eq_false] at hfirst
    obtain ⟨pending, hpending, -, hid, key, hget, -, -, -, howner, epoch, ⟨-, rfl⟩, principal, hprincipal, rfl, rfl⟩ :=
      hfirst
    have hkept : id ∉ catalog.otherKeys key.principalId id := by
      rw [mem_otherKeys h]
      rintro ⟨_, _, _, hne⟩
      exact hne rfl
    refine .inr ⟨key, principal, ⟨⟨pending, hpending, hid⟩, hget, howner, hprincipal⟩, ?_⟩
    rw [atomically_eq_ok]
    change (okOr ((catalog.keys.eraseAll _).get id) _ >>= _) = _
    rw [get_eraseAll_eq_some.mpr ⟨hkept, hget⟩]
    rfl
  · rename_i error middle hfirst
    rw [(atomically_eq_error.mp hfirst).2]
    exact .inl ⟨error, rfl⟩

theorem abortOwnerRecovery_ok {result : PendingOwnerRecovery × AuthorizationEpoch}
    (h : abortOwnerRecovery keyId expected catalog = .ok result after) :
    ∃ pending, catalog.pendingOwnerRecovery = some pending ∧ pending.keyId = keyId ∧
      after = { catalog.rekeyed (catalog.keys.eraseAll [keyId]) with pendingOwnerRecovery := none } := by
  simp only [abortOwnerRecovery, atomically_eq_ok, bind_eq_ok, okOr_eq_ok, failIf_eq_ok,
    ok.injEq, Prod.mk.injEq, nextEpoch_eq_ok, not_or, ne_eq, not_not] at h
  obtain ⟨pending, hpending, -, ⟨hid, -⟩, key, -, -, -, epoch, ⟨-, rfl⟩, -, rfl⟩ := h
  exact ⟨pending, hpending, hid, rfl⟩

end AccessControlCatalog

end Hyphae.Access
