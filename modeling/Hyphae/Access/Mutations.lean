import Hyphae.Access.Catalog
import Hyphae.Lib.MapCounts

/-!
# The mutations of the access-control catalog

Each method changes the catalog in place and may return an error; what it has changed by
then stays changed. Identities and keys are drawn from the operating system: a draw is
an argument, and `none` is a draw that failed.
-/

namespace Hyphae.Access

open Lib OrderedMap

open Wal (Digest)

/-- A method on a catalog that is changed in place. -/
abbrev Mutating (α : Type) := EStateM AccessCatalogError AccessControlCatalog α

/-- A method, or a stretch of one, that has made all of its checks when it first changes the catalog. -/
def atomically {α : Type} (plan : AccessControlCatalog → AccessM (α × AccessControlCatalog)) :
    Mutating α := fun catalog =>
  match plan catalog with
  | .ok (result, after) => .ok result after
  | .error error => .error error catalog

section Atomically

variable {α : Type} {plan : AccessControlCatalog → AccessM (α × AccessControlCatalog)}
  {catalog after : AccessControlCatalog}

theorem atomically_eq_ok {result : α} :
    atomically plan catalog = .ok result after ↔ plan catalog = .ok (result, after) := by
  unfold atomically
  cases plan catalog <;> simp [Prod.ext_iff]

theorem atomically_eq_error {error : AccessCatalogError} :
    atomically plan catalog = .error error after ↔ plan catalog = .error error ∧ catalog = after := by
  unfold atomically
  cases plan catalog <;> simp

end Atomically

theorem Keyed.insert {κ ν : Type} [LinearOrder κ] {idOf : ν → κ} {records : OrderedMap κ ν} (h : Keyed idOf records)
    (record : ν) : Keyed idOf (records.insert (idOf record) record) := by
  rintro ⟨k, v⟩ hmem
  rw [mem_entries, get_insert] at hmem
  split at hmem
  · rename_i hk
    obtain rfl := Option.some.inj hmem
    exact hk.symm
  · exact h.of_get hmem

theorem Keyed.erase {κ ν : Type} [LinearOrder κ] {idOf : ν → κ} {records : OrderedMap κ ν} (h : Keyed idOf records)
    (k : κ) : Keyed idOf (records.erase k) := by
  rintro ⟨k', v⟩ hmem
  rw [mem_entries, get_erase_eq_some] at hmem
  exact h.of_get hmem.2

/-- The elements of a `BTreeSet`, in its order. -/
def collectSet {α : Type} [LinearOrder α] (items : List α) : List α := items.dedup.insertionSort (· ≤ ·)

theorem mem_collectSet {α : Type} [LinearOrder α] {items : List α} {a : α} : a ∈ collectSet items ↔ a ∈ items := by
  simp [collectSet]

namespace AuthorizationEpoch

def initial : AuthorizationEpoch := 1

/-- The next generation, unless the counter is exhausted. -/
def checkedNext (epoch : AuthorizationEpoch) : Option AuthorizationEpoch := checkedAdd epoch 1

end AuthorizationEpoch

namespace AccessControlCatalog

variable (catalog : AccessControlCatalog)

def nextEpoch : AccessM AuthorizationEpoch :=
  Except.okOr (AuthorizationEpoch.checkedNext catalog.epoch) .limitExceeded

/-! ## Single records -/

def putPrincipal (record : SecurityPrincipalRecord) : AccessControlCatalog :=
  { catalog with
    principals := catalog.principals.insert record.id record
    principals_keyed := catalog.principals_keyed.insert record }

def putAssignment (record : BuiltInRoleAssignment) : AccessControlCatalog :=
  { catalog with
    assignments := catalog.assignments.insert record.id record
    assignments_keyed := catalog.assignments_keyed.insert record }

def removeAssignment (id : SecurityId) : AccessControlCatalog :=
  { catalog with
    assignments := catalog.assignments.erase id
    assignments_keyed := catalog.assignments_keyed.erase id }

def putCustomRole (record : CustomRoleRecord) : AccessControlCatalog :=
  { catalog with
    customRoles := catalog.customRoles.insert record.id record
    customRoles_keyed := catalog.customRoles_keyed.insert record }

def putCustomAssignment (record : CustomRoleAssignment) : AccessControlCatalog :=
  { catalog with
    customAssignments := catalog.customAssignments.insert record.id record
    customAssignments_keyed := catalog.customAssignments_keyed.insert record }

def removeCustomAssignment (id : SecurityId) : AccessControlCatalog :=
  { catalog with
    customAssignments := catalog.customAssignments.erase id
    customAssignments_keyed := catalog.customAssignments_keyed.erase id }

def putKey (id : ApiKeyId) (record : ApiKeyRecord) : AccessControlCatalog :=
  { catalog with keys := catalog.keys.insert id record }

def removeKeys (ids : List ApiKeyId) : AccessControlCatalog :=
  { catalog with keys := catalog.keys.eraseAll ids }

def atEpoch (epoch : AuthorizationEpoch) : AccessControlCatalog :=
  { catalog with epoch := epoch }

/-- A new inactive key that no rotation links. -/
def pendingKeyRecord (verifier : ApiKeyVerifier) (principalId : SecurityId) (label : List Char)
    (roles : List BuiltInRole) (customRoles : List SecurityId) (permissionCeiling : ProductAuthorization)
    (scopeCeiling : List ProductScope) (createdAtMicros : Int) (expiresAtMicros : Option Int)
    (epoch : AuthorizationEpoch) : ApiKeyRecord where
  id := verifier.id
  principalId := principalId
  label := label
  verifier := verifier
  active := false
  roles := roles
  customRoles := customRoles
  permissionCeiling := permissionCeiling
  scopeCeiling := scopeCeiling
  createdAtMicros := createdAtMicros
  expiresAtMicros := expiresAtMicros
  revoked := false
  publishedEpoch := epoch
  predecessorId := none
  successorId := none
  overlapUntilMicros := none
  rotationOverlapMicros := none

/-- A new inactive key with everything the owner may do. -/
def pendingOwnerKeyRecord (verifier : ApiKeyVerifier) (principalId : SecurityId) (label : List Char)
    (createdAtMicros : Int) (epoch : AuthorizationEpoch) : ApiKeyRecord :=
  pendingKeyRecord verifier principalId label [.owner] [] .all [.instance_] createdAtMicros none epoch

/-! ## The first owner -/

/-- The catalog has no record at all. -/
def unbootstrapped : Bool :=
  catalog.principals.entries.isEmpty && catalog.assignments.entries.isEmpty && catalog.customRoles.entries.isEmpty &&
    catalog.customAssignments.entries.isEmpty && catalog.keys.entries.isEmpty && catalog.auditIndex.isEmpty

/-- Creates exactly one owner principal, assignment, and canonical key. -/
def bootstrapOwner (displayName keyLabel : List Char) (createdAtMicros : Int)
    (principalDraw assignmentDraw : Option SecurityId) (issue : Option ApiKeyVerifier) :
    Mutating (SecurityId × ApiKeyId) := atomically fun catalog => do
  Except.failIf (catalog.unbootstrapped = false) .alreadyBootstrapped
  validateDisplayName displayName
  validateDisplayName keyLabel
  let principalId ← Except.okOr principalDraw .entropy
  let assignmentId ← Except.okOr assignmentDraw .entropy
  let verifier ← Except.okOr issue .entropy
  .ok ((principalId, verifier.id),
    (((catalog.putPrincipal ⟨principalId, displayName, true⟩).putAssignment
      ⟨assignmentId, principalId, .owner, .instance_⟩).putKey verifier.id
        (pendingOwnerKeyRecord verifier principalId keyLabel createdAtMicros AuthorizationEpoch.initial)).atEpoch
          AuthorizationEpoch.initial)

/-! ## The legacy bearer -/

/-- The replacement of an undelivered migration key. -/
def replaceLegacyBearerMigration (keyLabel : List Char) (createdAtMicros : Int)
    (requestDigest legacyBearerVerifier : Digest)
    (operationDraw : Option SecurityId) (issue : Option ApiKeyVerifier) :
    Mutating (SecurityId × ApiKeyId) := atomically fun catalog => do
  let migration ← Except.okOr catalog.legacyBearerMigration .corruptCatalog
  Except.failIf (migration.requestDigest ≠ requestDigest) .conflict
  Except.failIf (catalog.legacyBearerVerifier ≠ some legacyBearerVerifier) .conflict
  let previous ← Except.okOr ((catalog.keys.get migration.keyId).filter fun key => !key.active && !key.revoked)
    .corruptCatalog
  let verifier ← Except.okOr issue .entropy
  Except.failIf (catalog.keys.get verifier.id).isSome .conflict
  let epoch ← catalog.nextEpoch
  let operationId ← Except.okOr operationDraw .entropy
  .ok ((previous.principalId, verifier.id),
    { ((catalog.removeKeys [migration.keyId]).putKey verifier.id
        (pendingOwnerKeyRecord verifier previous.principalId keyLabel createdAtMicros epoch)).atEpoch epoch with
      legacyBearerMigration := some ⟨operationId, verifier.id, epoch, createdAtMicros, requestDigest⟩
      legacyBearerVerifier := some legacyBearerVerifier })

/-- The first owner of a catalog that keeps accepting the legacy bearer. The last draw comes after the owner has been
created. -/
def startLegacyBearerMigration (displayName keyLabel : List Char) (createdAtMicros : Int)
    (requestDigest legacyBearerVerifier : Digest) (principalDraw assignmentDraw operationDraw : Option SecurityId)
    (issue : Option ApiKeyVerifier) : Mutating (SecurityId × ApiKeyId) := do
  let owner ← bootstrapOwner displayName keyLabel createdAtMicros principalDraw assignmentDraw issue
  atomically fun catalog => do
    let operationId ← Except.okOr operationDraw .entropy
    .ok (owner,
      { catalog with
        legacyBearerState := .migrationPending
        legacyBearerMigration := some ⟨operationId, owner.2, catalog.epoch, createdAtMicros, requestDigest⟩
        legacyBearerVerifier := some legacyBearerVerifier })

def beginLegacyBearerMigration (displayName keyLabel : List Char) (createdAtMicros : Int)
    (requestDigest legacyBearerVerifier : Digest) (principalDraw assignmentDraw operationDraw : Option SecurityId)
    (issue : Option ApiKeyVerifier) : Mutating (SecurityId × ApiKeyId) := do
  EStateM.ofExcept (validateDisplayName displayName)
  EStateM.ofExcept (validateDisplayName keyLabel)
  let catalog ← get
  if catalog.legacyBearerState = .migrationPending then
    replaceLegacyBearerMigration keyLabel createdAtMicros requestDigest legacyBearerVerifier operationDraw issue
  else do
    EStateM.ofExcept (Except.failIf
      (catalog.legacyBearerState ≠ .neverEnabled ∨ catalog.legacyBearerMigration.isSome) .conflict)
    startLegacyBearerMigration displayName keyLabel createdAtMicros requestDigest legacyBearerVerifier principalDraw
      assignmentDraw operationDraw issue

/-- Activates one pending key after its restricted output is durable. -/
def activateKey (id : ApiKeyId) : Mutating AuthorizationEpoch := atomically fun catalog => do
  let key ← Except.okOr (catalog.keys.get id) .notFound
  Except.failIf key.predecessorId.isSome .invalidRequest
  let nextEpoch ← catalog.nextEpoch
  Except.failIf (key.active ∨ key.revoked) .conflict
  .ok (nextEpoch, (catalog.putKey id { key with active := true, publishedEpoch := nextEpoch }).atEpoch nextEpoch)

def activateLegacyBearerMigration (keyId : ApiKeyId) (expectedAuthorizationEpoch : AuthorizationEpoch)
    (requestDigest : Digest) : Mutating (SecurityId × AuthorizationEpoch) := do
  let migration ← atomically fun catalog => do
    let migration ← Except.okOr catalog.legacyBearerMigration .notFound
    Except.failIf
      (catalog.legacyBearerState ≠ .migrationPending ∨ migration.keyId ≠ keyId ∨
        migration.authorizationEpoch ≠ expectedAuthorizationEpoch ∨ migration.requestDigest ≠ requestDigest ∨
        catalog.epoch ≠ expectedAuthorizationEpoch)
      .conflict
    .ok (migration, catalog)
  let epoch ← activateKey keyId
  atomically fun catalog => .ok ((migration.operationId, epoch), { catalog with legacyBearerState := .dualWindow })

/-- Ends the compatibility with the legacy bearer; it may be ended more than once. -/
def revokeLegacyBearer : Mutating AuthorizationEpoch := atomically fun catalog =>
  match catalog.legacyBearerState with
  | .revoked => .ok (catalog.epoch, catalog)
  | .migrationPending | .dualWindow => do
    let epoch ← catalog.nextEpoch
    .ok (epoch, { catalog.atEpoch epoch with legacyBearerState := .revoked, legacyBearerVerifier := none })
  | .neverEnabled => .error .conflict

/-! ## Principals and roles -/

/-- Creates one disabled-by-default durable principal record. -/
def createPrincipal (displayName : List Char) (draw : Option SecurityId) :
    Mutating (SecurityId × AuthorizationEpoch) := atomically fun catalog => do
  validateDisplayName displayName
  Except.failIf (catalog.principals.entries.length ≥ AccessControlLimits.v1.principals) .limitExceeded
  let id ← Except.okOr draw .entropy
  Except.failIf (catalog.principals.get id).isSome .conflict
  let epoch ← catalog.nextEpoch
  .ok ((id, epoch), (catalog.putPrincipal ⟨id, displayName, false⟩).atEpoch epoch)

/-- The principal owns the instance or a part of it. -/
def hasOwnerRole (principalId : SecurityId) : Bool :=
  catalog.assignments.values.any fun assignment => assignment.principalId = principalId && assignment.role = .owner

/-- Changes whether one principal may authenticate. -/
def setPrincipalEnabled (principalId : SecurityId) (enabled : Bool) :
    Mutating AuthorizationEpoch := atomically fun catalog => do
  Except.failIf (catalog.hasOwnerRole principalId) .invalidRequest
  let principal ← Except.okOr (catalog.principals.get principalId) .notFound
  Except.failIf (principal.enabled = enabled) .conflict
  let epoch ← catalog.nextEpoch
  .ok (epoch, (catalog.putPrincipal { principal with enabled := enabled }).atEpoch epoch)

/-- The roles of either kind assigned to the principal. -/
def assignmentCount (principalId : SecurityId) : Nat :=
  catalog.assignments.count (fun assignment => assignment.principalId = principalId) +
    catalog.customAssignments.count fun assignment => assignment.principalId = principalId

/-- Assigns one immutable built-in role at one stable scope. -/
def assignBuiltInRole (principalId : SecurityId) (role : BuiltInRole) (scope : ProductScope)
    (draw : Option SecurityId) : Mutating (SecurityId × AuthorizationEpoch) := atomically fun catalog => do
  Except.failIf (role = .owner) .invalidRequest
  Except.failIf (catalog.principals.get principalId).isNone .notFound
  Except.failIf (catalog.assignmentCount principalId ≥ AccessControlLimits.v1.assignmentsPerPrincipal) .limitExceeded
  Except.failIf
    (catalog.assignments.values.any fun assignment =>
      assignment.principalId = principalId && assignment.role = role && assignment.scope = scope)
    .conflict
  let id ← Except.okOr draw .entropy
  Except.failIf ((catalog.assignments.get id).isSome ∨ (catalog.customAssignments.get id).isSome) .conflict
  let epoch ← catalog.nextEpoch
  .ok ((id, epoch), (catalog.putAssignment ⟨id, principalId, role, scope⟩).atEpoch epoch)

/-- Creates one custom role containing canonical direct grants only. -/
def createCustomRole (displayName : List Char) (grants : List CustomRoleGrant) (draw : Option SecurityId) :
    Mutating (SecurityId × AuthorizationEpoch) := atomically fun catalog => do
  validateDisplayName displayName
  Except.failIf
    ((BuiltInRole.parse (displayName.map Char.toLower)).isSome ∨
      catalog.customRoles.values.any fun role => role.displayName.map Char.toLower = displayName.map Char.toLower)
    .conflict
  Except.failIf (catalog.customRoles.entries.length ≥ AccessControlLimits.v1.customRoles) .limitExceeded
  Except.failIf
    (collectSet grants = [] ∨ (collectSet grants).length > AccessControlLimits.v1.grantsPerRole) .invalidRequest
  Except.failIf
    ((collectSet grants).any fun grant =>
      grant.permission = .ownershipManage || !grant.permission.supportsScope grant.scope)
    .invalidRequest
  let id ← Except.okOr draw .entropy
  Except.failIf (catalog.customRoles.get id).isSome .conflict
  let epoch ← catalog.nextEpoch
  .ok ((id, epoch), (catalog.putCustomRole ⟨id, displayName, collectSet grants⟩).atEpoch epoch)

/-- Assigns one custom role directly to one principal. -/
def assignCustomRole (principalId roleId : SecurityId) (draw : Option SecurityId) :
    Mutating (SecurityId × AuthorizationEpoch) := atomically fun catalog => do
  Except.failIf ((catalog.principals.get principalId).isNone ∨ (catalog.customRoles.get roleId).isNone) .notFound
  Except.failIf (catalog.assignmentCount principalId ≥ AccessControlLimits.v1.assignmentsPerPrincipal) .limitExceeded
  Except.failIf
    (catalog.customAssignments.values.any fun assignment =>
      assignment.principalId = principalId && assignment.roleId = roleId)
    .conflict
  let id ← Except.okOr draw .entropy
  Except.failIf ((catalog.customAssignments.get id).isSome ∨ (catalog.assignments.get id).isSome) .conflict
  let epoch ← catalog.nextEpoch
  .ok ((id, epoch), (catalog.putCustomAssignment ⟨id, principalId, roleId⟩).atEpoch epoch)

/-- Revokes one direct non-owner role assignment. -/
def revokeAssignment (assignmentId : SecurityId) :
    Mutating (SecurityId × AuthorizationEpoch) := atomically fun catalog =>
  match catalog.assignments.get assignmentId with
  | some assignment => do
    Except.failIf (assignment.role = .owner) .invalidRequest
    let epoch ← catalog.nextEpoch
    .ok ((assignment.principalId, epoch), (catalog.removeAssignment assignmentId).atEpoch epoch)
  | none => do
    let assignment ← Except.okOr (catalog.customAssignments.get assignmentId) .notFound
    let epoch ← catalog.nextEpoch
    .ok ((assignment.principalId, epoch), (catalog.removeCustomAssignment assignmentId).atEpoch epoch)

/-! ## Issuing keys -/

/-- The number of keys of the principal. -/
def keyCount (principalId : SecurityId) : Nat :=
  catalog.keys.count fun key => key.principalId = principalId

/-- The principal is the owner of the instance. -/
def isInstanceOwner (principalId : SecurityId) : Bool :=
  catalog.assignments.values.any fun assignment =>
    assignment.principalId = principalId && assignment.role = .owner && assignment.scope = .instance_

/-- One key of the owner is kept back for its recovery. -/
def ordinaryKeyLimit (principalId : SecurityId) : Nat :=
  AccessControlLimits.v1.keysPerPrincipal - (catalog.isInstanceOwner principalId).toNat

/-- The key can be dropped: no rotation links it, and it is revoked or expired. -/
def isRetired (principalId : SecurityId) (nowMicros : Int) (key : ApiKeyRecord) : Bool :=
  key.principalId = principalId && key.predecessorId.isNone && key.successorId.isNone &&
    (key.revoked || key.expiresAtMicros.any fun deadline => deadline ≤ nowMicros)

/-- The keys of a list by creation time, then identity. -/
def sortByCreation (keys : List ApiKeyRecord) : List (Int × ApiKeyId) :=
  ((keys.map fun key => toLex (key.createdAtMicros, key.id)).insertionSort (· ≤ ·)).map ofLex

/-- The oldest keys to drop so that one more key fits. -/
def retiredUnlinkedKeysForCapacity (principalId : SecurityId) (nowMicros : Int)
    (currentKeys keyLimit : Nat) : AccessM (List (Int × ApiKeyId)) := do
  let required := currentKeys + 1 - keyLimit
  let retired := sortByCreation (catalog.keys.values.filter (isRetired principalId nowMicros))
  Except.failIf (retired.length < required) .limitExceeded
  .ok (retired.take required)

/-- The key waits for its activation and is not a rotation's successor. -/
def isPendingIssue (principalId : SecurityId) (label : List Char) (key : ApiKeyRecord) : Bool :=
  key.principalId = principalId && key.label = label && !key.active && !key.revoked && key.predecessorId.isNone &&
    key.successorId.isNone && key.rotationOverlapMicros.isNone

/-- The built-in roles of the principal. -/
def assignedRoles (principalId : SecurityId) : List BuiltInRole :=
  (catalog.assignments.values.filter
    fun assignment => assignment.principalId = principalId).map BuiltInRoleAssignment.role

/-- The custom roles of the principal. -/
def assignedCustomRoles (principalId : SecurityId) : List SecurityId :=
  (catalog.customAssignments.values.filter fun assignment => assignment.principalId = principalId).map
    CustomRoleAssignment.roleId

/-- What a key issue asks for. -/
structure KeyIssue where
  principalId : SecurityId
  label : List Char
  roles : List BuiltInRole
  customRoles : List SecurityId
  permissionCeiling : ProductAuthorization
  scopeCeiling : List ProductScope
  createdAtMicros : Int
  expiresAtMicros : Option Int

/-- The record of an issued key; the lists of the request are collected into sets. -/
def KeyIssue.record (request : KeyIssue) (verifier : ApiKeyVerifier) (epoch : AuthorizationEpoch) : ApiKeyRecord :=
  pendingKeyRecord verifier request.principalId request.label (collectSet request.roles)
    (collectSet request.customRoles)
    request.permissionCeiling (collectSet request.scopeCeiling) request.createdAtMicros request.expiresAtMicros epoch

/-- Begins one API-key issue as an inactive durable verifier; retired keys make room for it. -/
def beginKeyIssueWithRolesAndPruning (request : KeyIssue) (issue : Option ApiKeyVerifier) :
    Mutating (ApiKeyId × AuthorizationEpoch × List ApiKeyId) := atomically fun catalog => do
  validateDisplayName request.label
  Except.failIf (catalog.principals.get request.principalId).isNone .notFound
  Except.failIf (request.expiresAtMicros.any fun expiry => expiry ≤ request.createdAtMicros) .conflict
  Except.failIf (catalog.keys.values.any (isPendingIssue request.principalId request.label)) .conflict
  let retiredKeys ← catalog.retiredUnlinkedKeysForCapacity request.principalId request.createdAtMicros
    (catalog.keyCount request.principalId) (catalog.ordinaryKeyLimit request.principalId)
  Except.failIf (collectSet request.roles = [] ∧ collectSet request.customRoles = []) .invalidRequest
  Except.failIf
    (collectSet request.scopeCeiling = [] ∨
      (collectSet request.scopeCeiling).length > AccessControlLimits.v1.assignmentsPerPrincipal)
    .invalidRequest
  Except.failIf (¬request.roles ⊆ catalog.assignedRoles request.principalId) .conflict
  Except.failIf (¬request.customRoles ⊆ catalog.assignedCustomRoles request.principalId) .conflict
  let verifier ← Except.okOr issue .entropy
  Except.failIf (catalog.keys.get verifier.id).isSome .conflict
  let epoch ← catalog.nextEpoch
  .ok ((verifier.id, epoch, retiredKeys.map Prod.snd),
    ((catalog.removeKeys (retiredKeys.map Prod.snd)).putKey verifier.id (request.record verifier epoch)).atEpoch epoch)

/-! ## The life of a key -/

/-- Revokes one key and advances the global authorization epoch; a revoked key stays revoked. -/
def revokeKey (id : ApiKeyId) : Mutating AuthorizationEpoch := atomically fun catalog => do
  let key ← Except.okOr (catalog.keys.get id) .notFound
  Except.failIf (¬key.active) .conflict
  if key.revoked then .ok (catalog.epoch, catalog)
  else do
    let nextEpoch ← catalog.nextEpoch
    .ok (nextEpoch, (catalog.putKey id { key with revoked := true }).atEpoch nextEpoch)

/-- The greatest `i64`. -/
def maxMicros : Int := 2 ^ 63 - 1

/-- `i64::checked_add` of an unsigned overlap. -/
def overlapDeadline (activatedAtMicros : Int) (overlapMicros : Nat) : Option Int :=
  if (overlapMicros : Int) ≤ maxMicros ∧ activatedAtMicros + overlapMicros ≤ maxMicros then
    some (activatedAtMicros + overlapMicros)
  else none

/-- What an activation of a rotated key has settled before it first changes the catalog. -/
structure RotationActivation where
  predecessorId : ApiKeyId
  overlapMicros : Nat
  overlapUntilMicros : Int
  nextEpoch : AuthorizationEpoch

/-- Activates one rotated successor and starts overlap at activation time. The predecessor is looked up again in the
catalog in which the successor is active. -/
def activateRotatedKey (id : ApiKeyId) (activatedAtMicros : Int) : Mutating (AuthorizationEpoch × Int) := do
  let activation ← atomically fun catalog => do
    let successor ← Except.okOr (catalog.keys.get id) .notFound
    Except.failIf
      (successor.active ∨ successor.revoked ∨ activatedAtMicros < successor.createdAtMicros ∨
        successor.expiresAtMicros.any fun expiry => expiry ≤ activatedAtMicros)
      .conflict
    let predecessorId ← Except.okOr successor.predecessorId .invalidRequest
    let overlapMicros ← Except.okOr successor.rotationOverlapMicros .corruptCatalog
    let overlapUntilMicros ← Except.okOr (overlapDeadline activatedAtMicros overlapMicros) .limitExceeded
    let predecessor ← Except.okOr (catalog.keys.get predecessorId) .corruptCatalog
    Except.failIf
      (predecessor.successorId ≠ some id ∨ predecessor.principalId ≠ successor.principalId ∨
        predecessor.overlapUntilMicros.isSome)
      .corruptCatalog
    let nextEpoch ← catalog.nextEpoch
    .ok (RotationActivation.mk predecessorId overlapMicros overlapUntilMicros nextEpoch,
      catalog.putKey id { successor with active := true, publishedEpoch := nextEpoch })
  atomically fun catalog => do
    let predecessor ← Except.okOr (catalog.keys.get activation.predecessorId) .corruptCatalog
    .ok ((activation.nextEpoch, activation.overlapUntilMicros),
      (catalog.putKey activation.predecessorId
        { predecessor with
          revoked := predecessor.revoked || activation.overlapMicros = 0
          overlapUntilMicros := some activation.overlapUntilMicros }).atEpoch activation.nextEpoch)

/-- The key is over for the rotation that follows it. -/
def isRetiredAncestor (nowMicros : Int) (ancestor : ApiKeyRecord) : Bool :=
  ancestor.revoked || (ancestor.expiresAtMicros.any fun deadline => deadline ≤ nowMicros) ||
    ancestor.overlapUntilMicros.any fun deadline => deadline ≤ nowMicros

/-- The walk from one key to its ancestors, all of which have to be over. The bound is the number of keys the walk can
visit. -/
def retiredAncestorsFrom (catalog : AccessControlCatalog) (nowMicros : Int) :
    Nat → List ApiKeyId → ApiKeyId → Option ApiKeyId → AccessM (List ApiKeyId)
  | _, _, _, none => .ok []
  | 0, _, _, some _ => .error .corruptCatalog
  | bound + 1, visited, childId, some ancestorId => do
    Except.failIf (ancestorId ∈ visited) .corruptCatalog
    let ancestor ← Except.okOr (catalog.keys.get ancestorId) .corruptCatalog
    Except.failIf (ancestor.successorId ≠ some childId) .corruptCatalog
    Except.failIf (isRetiredAncestor nowMicros ancestor = false) .conflict
    let rest ← catalog.retiredAncestorsFrom nowMicros bound (ancestorId :: visited) ancestorId ancestor.predecessorId
    .ok (ancestorId :: rest)

def retiredRotationAncestors (keyId : ApiKeyId) (nowMicros : Int) : AccessM (List ApiKeyId) := do
  let key ← Except.okOr (catalog.keys.get keyId) .notFound
  catalog.retiredAncestorsFrom nowMicros (catalog.keys.entries.length + 1) [] keyId key.predecessorId

/-- What a rotation has settled before it first changes the catalog. -/
structure RotationStart where
  predecessor : ApiKeyRecord
  retiredAncestors : List ApiKeyId
  overlapMicros : Nat
  verifier : ApiKeyVerifier
  epoch : AuthorizationEpoch

/-- The successor of a rotation has the authority of its predecessor. -/
def RotationStart.successor (start : RotationStart) (predecessorId : ApiKeyId) (label : List Char)
    (createdAtMicros : Int) (expiresAtMicros : Option Int) : ApiKeyRecord :=
  { pendingKeyRecord start.verifier start.predecessor.principalId label start.predecessor.roles
      start.predecessor.customRoles start.predecessor.permissionCeiling start.predecessor.scopeCeiling createdAtMicros
      expiresAtMicros start.epoch with
    predecessorId := some predecessorId
    rotationOverlapMicros := some start.overlapMicros }

/-- Everything a rotation checks. -/
def startKeyRotation (predecessorId : ApiKeyId) (label : List Char)
    (overlapSeconds : Nat) (createdAtMicros : Int) (expiresAtMicros : Option Int) (issue : Option ApiKeyVerifier) :
    AccessM RotationStart := do
  validateDisplayName label
  Except.failIf
    (overlapSeconds > AccessControlLimits.v1.maximumRotationOverlapSeconds ∨
      expiresAtMicros.any fun expiry => expiry ≤ createdAtMicros)
    .invalidRequest
  let predecessor ← Except.okOr
    ((catalog.keys.get predecessorId).filter fun key => key.active && !key.revoked && key.successorId.isNone) .conflict
  let retiredAncestors ← catalog.retiredRotationAncestors predecessorId createdAtMicros
  Except.failIf
    (catalog.keyCount predecessor.principalId - retiredAncestors.length ≥
      catalog.ordinaryKeyLimit predecessor.principalId)
    .limitExceeded
  let overlapMicros ← Except.okOr (checkedMul overlapSeconds 1000000) .limitExceeded
  let verifier ← Except.okOr issue .entropy
  Except.failIf (catalog.keys.get verifier.id).isSome .conflict
  let epoch ← catalog.nextEpoch
  .ok ⟨predecessor, retiredAncestors, overlapMicros, verifier, epoch⟩

/-- A rotation of a rotated key drops its ancestors, so that the key becomes the first of its line. -/
def detachAncestors (predecessorId : ApiKeyId) (retiredAncestors : List ApiKeyId) : Mutating Unit := do
  atomically fun catalog => .ok ((), catalog.removeKeys retiredAncestors)
  if retiredAncestors = [] then pure ()
  else
    atomically fun catalog => do
      let current ← Except.okOr (catalog.keys.get predecessorId) .corruptCatalog
      .ok ((), catalog.putKey predecessorId { current with predecessorId := none, rotationOverlapMicros := none })

/-- Begins one successor key and links exactly one immediate predecessor. -/
def beginKeyRotationWithPruning (predecessorId : ApiKeyId) (label : List Char) (overlapSeconds : Nat)
    (createdAtMicros : Int) (expiresAtMicros : Option Int) (issue : Option ApiKeyVerifier) :
    Mutating (ApiKeyId × AuthorizationEpoch × List ApiKeyId) := do
  let start ← atomically fun catalog => do
    let start ← catalog.startKeyRotation predecessorId label overlapSeconds createdAtMicros expiresAtMicros issue
    .ok (start, catalog)
  detachAncestors predecessorId start.retiredAncestors
  modify fun catalog => catalog.putKey start.verifier.id
    (start.successor predecessorId label createdAtMicros expiresAtMicros)
  atomically fun catalog => do
    let current ← Except.okOr (catalog.keys.get predecessorId) .corruptCatalog
    .ok ((start.verifier.id, start.epoch, start.retiredAncestors),
      (catalog.putKey predecessorId { current with successorId := some start.verifier.id }).atEpoch start.epoch)

/-- Aborts the inactive successor linked from one predecessor. -/
def abortKeyRotation (successorId : ApiKeyId) : Mutating AuthorizationEpoch := do
  let plan ← atomically fun catalog => do
    let successor ← Except.okOr ((catalog.keys.get successorId).filter fun key => !key.active && !key.revoked) .conflict
    let predecessorId ← Except.okOr successor.predecessorId .invalidRequest
    let predecessor ← Except.okOr (catalog.keys.get predecessorId) .corruptCatalog
    Except.failIf (predecessor.successorId ≠ some successorId ∨ successor.successorId.isSome) .conflict
    let nextEpoch ← catalog.nextEpoch
    .ok ((predecessorId, nextEpoch), catalog.removeKeys [successorId])
  atomically fun catalog => do
    let current ← Except.okOr (catalog.keys.get plan.1) .corruptCatalog
    .ok (plan.2, (catalog.putKey plan.1 { current with successorId := none }).atEpoch plan.2)

/-- The one pending issue of the principal with this label. -/
def pendingKeyIssue (principalId : SecurityId) (label : List Char) : AccessM ApiKeyRecord := do
  validateDisplayName label
  match catalog.keys.values.filter (isPendingIssue principalId label) with
  | [] => .error .notFound
  | [pending] => .ok pending
  | _ :: _ :: _ => .error .conflict

/-- Aborts one uniquely identified inactive issued key. -/
def abortPendingKeyIssue (principalId : SecurityId) (label : List Char) :
    Mutating (ApiKeyId × AuthorizationEpoch) := atomically fun catalog => do
  let pending ← catalog.pendingKeyIssue principalId label
  let nextEpoch ← catalog.nextEpoch
  .ok ((pending.id, nextEpoch), (catalog.removeKeys [pending.id]).atEpoch nextEpoch)

/-! ## Offline recovery of the owner -/

/-- The owner's key can be dropped for its recovery: no rotation links it, and it does not work. -/
def isRemovable (ownerPrincipal : SecurityId) (key : ApiKeyRecord) : Bool :=
  key.principalId = ownerPrincipal && (!key.active || key.revoked) && key.predecessorId.isNone && key.successorId.isNone

/-- The principals that own the instance. -/
def ownerPrincipals : List SecurityId :=
  collectSet ((catalog.assignments.values.filter fun assignment =>
    assignment.role = .owner && assignment.scope = .instance_).map BuiltInRoleAssignment.principalId)

/-- The owner's keys to drop for its recovery. -/
def removableKeys (ownerPrincipal : SecurityId) : List ApiKeyId :=
  (sortByCreation (catalog.keys.values.filter (isRemovable ownerPrincipal))).map Prod.snd

/-- Recovery supersedes an undelivered migration key in the same catalog generation. -/
def supersedeMigration : AccessControlCatalog :=
  if catalog.legacyBearerState = .migrationPending then
    { catalog with legacyBearerState := .revoked, legacyBearerVerifier := none }
  else catalog

/-- Begins one replacement owner key without disabling current recovery. -/
def beginOwnerRecoveryWithRetired (label : List Char) (createdAtMicros : Int) (operationDraw : Option SecurityId)
    (issue : Option ApiKeyVerifier) :
    Mutating (SecurityId × SecurityId × ApiKeyId × AuthorizationEpoch × List ApiKeyId) := atomically fun catalog => do
  validateDisplayName label
  Except.failIf catalog.pendingOwnerRecovery.isSome .conflict
  Except.failIf (catalog.ownerPrincipals.length ≠ 1) .corruptCatalog
  let ownerPrincipal ← Except.okOr catalog.ownerPrincipals.head? .corruptCatalog
  Except.failIf
    (catalog.keyCount ownerPrincipal - (catalog.removableKeys ownerPrincipal).length ≥
      AccessControlLimits.v1.keysPerPrincipal)
    .limitExceeded
  let verifier ← Except.okOr issue .entropy
  Except.failIf (catalog.keys.get verifier.id).isSome .conflict
  let epoch ← catalog.nextEpoch
  let operationId ← Except.okOr operationDraw .entropy
  .ok ((ownerPrincipal, operationId, verifier.id, epoch, catalog.removableKeys ownerPrincipal),
    supersedeMigration
      { ((catalog.removeKeys (catalog.removableKeys ownerPrincipal)).putKey verifier.id
          (pendingOwnerKeyRecord verifier ownerPrincipal label createdAtMicros epoch)).atEpoch epoch with
        pendingOwnerRecovery := some ⟨operationId, verifier.id, epoch, createdAtMicros⟩ })

/-- The legacy bearer is over once an owner key has been recovered. -/
def revokeEnabledLegacyBearer : AccessControlCatalog :=
  if catalog.legacyBearerState.isEnabled then
    { catalog with legacyBearerState := .revoked, legacyBearerVerifier := none }
  else catalog

/-- The other keys of the principal. -/
def otherKeys (principalId : SecurityId) (id : ApiKeyId) : List ApiKeyId :=
  (catalog.keys.values.filter fun key => key.principalId = principalId && key.id ≠ id).map ApiKeyRecord.id

/-- Atomically activates one recovery key and drops the prior owner keys. -/
def activateRecoveredOwnerKeyWithRetired (id : ApiKeyId) : Mutating (AuthorizationEpoch × List ApiKeyId) := do
  let plan ← atomically fun catalog => do
    let pending ← Except.okOr catalog.pendingOwnerRecovery .notFound
    Except.failIf (pending.keyId ≠ id) .conflict
    let replacement ← Except.okOr (catalog.keys.get id) .corruptCatalog
    Except.failIf
      (replacement.active ∨ replacement.revoked ∨ replacement.roles ≠ [.owner] ∨ replacement.permissionCeiling ≠ .all)
      .conflict
    Except.failIf (catalog.isInstanceOwner replacement.principalId = false) .corruptCatalog
    let epoch ← catalog.nextEpoch
    let principal ← Except.okOr (catalog.principals.get replacement.principalId) .corruptCatalog
    .ok ((epoch, catalog.otherKeys replacement.principalId id),
      (catalog.putPrincipal { principal with enabled := true }).removeKeys
        (catalog.otherKeys replacement.principalId id))
  atomically fun catalog => do
    let replacement ← Except.okOr (catalog.keys.get id) .corruptCatalog
    .ok (plan, revokeEnabledLegacyBearer
      { (catalog.putKey id { replacement with active := true, publishedEpoch := plan.1 }).atEpoch plan.1 with
        pendingOwnerRecovery := none })

def abortOwnerRecovery (keyId : ApiKeyId) (expectedEpoch : AuthorizationEpoch) :
    Mutating (PendingOwnerRecovery × AuthorizationEpoch) := atomically fun catalog => do
  let pending ← Except.okOr catalog.pendingOwnerRecovery .notFound
  Except.failIf
    (pending.keyId ≠ keyId ∨ pending.authorizationEpoch ≠ expectedEpoch ∨ catalog.epoch ≠ expectedEpoch) .conflict
  let key ← Except.okOr (catalog.keys.get keyId) .corruptCatalog
  Except.failIf (key.active ∨ key.revoked) .corruptCatalog
  let epoch ← catalog.nextEpoch
  .ok ((pending, epoch), { (catalog.removeKeys [keyId]).atEpoch epoch with pendingOwnerRecovery := none })

end AccessControlCatalog

end Hyphae.Access
