import Hyphae.Access.Permissions

/-!
# The access-control catalog

The durable security state: principals, the roles assigned to them, custom roles with
their grants, and the API keys with their ceilings and their place in a rotation. The
maps are keyed by the identity of their records. `validate` is the audit every stored
catalog has passed; the digest behind the keys is an arbitrary function.
-/

namespace Hyphae.Access

open Lib

open Wal (Digest zeros)

/-! ## Limits and errors -/

/-- Maximum UTF-8 bytes in a security display name or credential label. -/
def maxSecurityDisplayNameBytes : Nat := 128

/-- Finite Native access-control v1 authority limits. -/
structure AccessControlLimits where
  principals : Nat
  customRoles : Nat
  grantsPerRole : Nat
  assignmentsPerPrincipal : Nat
  keysPerPrincipal : Nat
  displayNameBytes : Nat
  auditEventBytes : Nat
  retainedAuditEvents : Nat
  auditResultRows : Nat
  securityResultRows : Nat
  maximumRotationOverlapSeconds : Nat
  authenticationVerifiersPerRequest : Nat
  authorizationCacheEntries : Nat

namespace AccessControlLimits

def v1 : AccessControlLimits where
  principals := 4096
  customRoles := 1024
  grantsPerRole := 256
  assignmentsPerPrincipal := 128
  keysPerPrincipal := 64
  displayNameBytes := maxSecurityDisplayNameBytes
  auditEventBytes := 4096
  retainedAuditEvents := 100000
  auditResultRows := 1000
  securityResultRows := 1000
  maximumRotationOverlapSeconds := 604800
  authenticationVerifiersPerRequest := 1
  authorizationCacheEntries := 4096

/-- Whether every bound remains finite and positive. -/
def isValid (limits : AccessControlLimits) : Bool :=
  limits.principals > 0 && limits.customRoles > 0 && limits.grantsPerRole > 0 && limits.assignmentsPerPrincipal > 0 &&
    limits.keysPerPrincipal > 0 && limits.displayNameBytes > 0 && limits.auditEventBytes > 0 &&
    limits.retainedAuditEvents > 0 && limits.auditResultRows > 0 && limits.securityResultRows > 0 &&
    limits.maximumRotationOverlapSeconds > 0 && limits.authenticationVerifiersPerRequest == 1 &&
    limits.authorizationCacheEntries > 0

end AccessControlLimits

/-- Failure of one identity or API key. -/
inductive AccessControlError
  | entropyUnavailable
  | invalidIdentity
  | invalidApiKey
  deriving DecidableEq

/-- Failure of the access-control catalog. -/
inductive AccessCatalogError
  | alreadyBootstrapped
  | invalidDisplayName
  | invalidRequest
  | entropy
  | limitExceeded
  | notFound
  | cursorExpired
  | conflict
  | unauthorized
  | corruptCatalog
  deriving DecidableEq

/-- An operation on the access-control catalog that may be refused. -/
abbrev AccessM := Except AccessCatalogError

/-! ## Identities and API keys -/

/-- One nonzero 128-bit identity for durable security state. -/
abbrev SecurityId := NonZeroUInt 128

/-- One lowercase hexadecimal digit. -/
def hexDigit (nibble : Nat) : Char := if nibble < 10 then Char.ofNat (48 + nibble) else Char.ofNat (87 + nibble)

/-- The identity as 32 lowercase hexadecimal digits. -/
def securityIdToString (id : SecurityId) : List Char :=
  (List.range 32).map fun position => hexDigit (id.get / 16 ^ (31 - position) % 16)

/-- Length in UTF-8. -/
def textLen (value : List Char) : Nat := (value.map Char.utf8Size).sum

/-- Stable public identity of one API key. -/
structure ApiKeyId where
  bytes : Bytes
  length_eq : bytes.length = 16

theorem ApiKeyId.bytes_injective : Function.Injective ApiKeyId.bytes := by
  rintro ⟨a, ha⟩ ⟨b, hb⟩ rfl
  rfl

instance : DecidableEq ApiKeyId := ApiKeyId.bytes_injective.decidableEq

instance : LinearOrder ApiKeyId := LinearOrder.lift' ApiKeyId.bytes ApiKeyId.bytes_injective

def isLowerHex (value : UInt8) : Bool := (48 ≤ value && value ≤ 57) || (97 ≤ value && value ≤ 102)

def decodeLowerNibble (value : UInt8) : UInt8 :=
  if 48 ≤ value && value ≤ 57 then value - 48 else if 97 ≤ value && value ≤ 102 then value - 97 + 10 else 0

/-- One byte for each two digits. -/
def decodePairs : Bytes → Bytes
  | high :: low :: rest => ((decodeLowerNibble high <<< 4) ||| decodeLowerNibble low) :: decodePairs rest
  | _ => []

theorem length_decodePairs (input : Bytes) : (decodePairs input).length = input.length / 2 := by
  induction input using decodePairs.induct with
  | case1 high low rest ih => simp only [decodePairs, List.length_cons, ih]; omega
  | case2 input h =>
    match input, h with
    | [], _ => rfl
    | [_], _ => simp [decodePairs]
    | high :: low :: rest, h => exact absurd rfl (h high low rest)

def decodeLowerHex (n : Nat) (input : Bytes) : Except AccessControlError { output : Bytes // output.length = n } :=
  if h : input.length = n * 2 ∧ input.all isLowerHex then
    .ok ⟨decodePairs input, by rw [length_decodePairs, h.1]; omega⟩
  else .error .invalidApiKey

/-- `hyp1_` -/
def apiKeyPrefixBytes : Bytes := [104, 121, 112, 49, 95]

def apiKeySeparatorIndex : Nat := 37

def apiKeyBytes : Nat := 102

/-- The identity and the secret of one key in its exact canonical form. -/
def parseApiKey (bytes : Bytes) : Except AccessControlError (ApiKeyId × Bytes) := do
  Except.failIf
    (bytes.length ≠ apiKeyBytes ∨ ¬apiKeyPrefixBytes.isPrefixOf bytes ∨ bytes.getD apiKeySeparatorIndex 0 ≠ 95)
    .invalidApiKey
  let id ← decodeLowerHex 16 (slice bytes 5 apiKeySeparatorIndex)
  Except.failIf (id.val.all (· == 0)) .invalidApiKey
  let secret ← decodeLowerHex 32 (bytes.drop (apiKeySeparatorIndex + 1))
  .ok (⟨id.val, id.property⟩, secret.val)

/-- Durable verifier for one API key. -/
structure ApiKeyVerifier where
  id : ApiKeyId
  digest : Digest
  deriving DecidableEq

/-- `hyphae-api-key-v1` and a zero byte. -/
def apiKeyVerifierDomain : Bytes := [104, 121, 112, 104, 97, 101, 45, 97, 112, 105, 45, 107, 101, 121, 45, 118, 49, 0]

section Digests

variable (blake3 : Bytes → Digest)

def keyDigest (id : ApiKeyId) (secret : Bytes) : Digest := blake3 (apiKeyVerifierDomain ++ id.bytes ++ secret)

def ApiKeyVerifier.candidateId (candidate : Bytes) : Option ApiKeyId :=
  match parseApiKey candidate with
  | .ok (id, _) => some id
  | .error _ => none

/-- Verifies one canonical candidate after strict parsing. -/
def ApiKeyVerifier.verifies (verifier : ApiKeyVerifier) (candidate : Bytes) : Bool :=
  match parseApiKey candidate with
  | .ok (id, secret) => verifier.id == id && verifier.digest == keyDigest blake3 id secret
  | .error _ => false

end Digests

/-! ## Records -/

/-- Monotonic durable generation used to invalidate cached authorization. -/
abbrev AuthorizationEpoch := Nat

def AuthorizationEpoch.unmanaged : AuthorizationEpoch := 0

/-- Durable principal metadata. -/
structure SecurityPrincipalRecord where
  id : SecurityId
  displayName : List Char
  enabled : Bool
  deriving DecidableEq

/-- One direct immutable built-in role assignment. -/
structure BuiltInRoleAssignment where
  id : SecurityId
  principalId : SecurityId
  role : BuiltInRole
  scope : ProductScope
  deriving DecidableEq

/-- One direct custom-role permission grant at one stable scope. -/
structure CustomRoleGrant where
  permission : ProductPermission
  scope : ProductScope
  deriving DecidableEq

/-- Position in the derived order: the permission, then the scope. -/
def CustomRoleGrant.rank (grant : CustomRoleGrant) : ProductPermission ×ₗ ProductScope :=
  toLex (grant.permission, grant.scope)

theorem CustomRoleGrant.rank_injective : Function.Injective CustomRoleGrant.rank := by
  rintro ⟨permission, scope⟩ ⟨permission', scope'⟩ h
  simp only [rank, EmbeddingLike.apply_eq_iff_eq, Prod.mk.injEq] at h
  rw [h.1, h.2]

instance : LinearOrder CustomRoleGrant := LinearOrder.lift' CustomRoleGrant.rank CustomRoleGrant.rank_injective

/-- One immutable custom role containing canonical direct grants only. -/
structure CustomRoleRecord where
  id : SecurityId
  displayName : List Char
  grants : List CustomRoleGrant
  deriving DecidableEq

/-- One direct custom-role assignment. -/
structure CustomRoleAssignment where
  id : SecurityId
  principalId : SecurityId
  roleId : SecurityId
  deriving DecidableEq

/-- Durable API-key metadata. -/
structure ApiKeyRecord where
  id : ApiKeyId
  principalId : SecurityId
  label : List Char
  verifier : ApiKeyVerifier
  active : Bool
  roles : List BuiltInRole
  customRoles : List SecurityId
  permissionCeiling : ProductAuthorization
  scopeCeiling : List ProductScope
  createdAtMicros : Int
  expiresAtMicros : Option Int
  revoked : Bool
  publishedEpoch : AuthorizationEpoch
  predecessorId : Option ApiKeyId
  successorId : Option ApiKeyId
  overlapUntilMicros : Option Int
  rotationOverlapMicros : Option Nat
  deriving DecidableEq

/-- Durable terminal-aware state of legacy-bearer compatibility. -/
inductive LegacyBearerState
  | neverEnabled
  | migrationPending
  | dualWindow
  | revoked
  deriving DecidableEq

def LegacyBearerState.isEnabled : LegacyBearerState → Bool
  | migrationPending | dualWindow => true
  | neverEnabled | revoked => false

structure LegacyBearerMigration where
  operationId : SecurityId
  keyId : ApiKeyId
  authorizationEpoch : AuthorizationEpoch
  createdAtMicros : Int
  requestDigest : Digest
  deriving DecidableEq

/-- Durable provenance for one and only one pending offline owner recovery. -/
structure PendingOwnerRecovery where
  operationId : SecurityId
  keyId : ApiKeyId
  authorizationEpoch : AuthorizationEpoch
  createdAtMicros : Int
  deriving DecidableEq

structure SecurityAuditIndexEntry where
  id : SecurityId
  commitCsn : Nat
  deriving DecidableEq

/-! ## The catalog -/

/-- Every record is stored under its own identity. -/
def Keyed {κ ν : Type} [LinearOrder κ] (idOf : ν → κ) (records : OrderedMap κ ν) : Prop :=
  ∀ entry ∈ records.entries, idOf entry.2 = entry.1

instance {κ ν : Type} [LinearOrder κ] (idOf : ν → κ) (records : OrderedMap κ ν) : Decidable (Keyed idOf records) :=
  inferInstanceAs (Decidable (∀ entry ∈ records.entries, idOf entry.2 = entry.1))

theorem Keyed.of_get {κ ν : Type} [LinearOrder κ] {idOf : ν → κ} {records : OrderedMap κ ν} (h : Keyed idOf records)
    {id : κ} {record : ν} (hget : records.get id = some record) : idOf record = id :=
  h (id, record) (OrderedMap.mem_entries.mpr hget)

/-- Canonical bounded access-control catalog. -/
structure AccessControlCatalog where
  epoch : AuthorizationEpoch
  principals : OrderedMap SecurityId SecurityPrincipalRecord
  assignments : OrderedMap SecurityId BuiltInRoleAssignment
  customRoles : OrderedMap SecurityId CustomRoleRecord
  customAssignments : OrderedMap SecurityId CustomRoleAssignment
  keys : OrderedMap ApiKeyId ApiKeyRecord
  auditIndex : List SecurityAuditIndexEntry
  pendingOwnerRecovery : Option PendingOwnerRecovery
  legacyBearerState : LegacyBearerState
  legacyBearerMigration : Option LegacyBearerMigration
  legacyBearerVerifier : Option Digest
  principals_keyed : Keyed SecurityPrincipalRecord.id principals
  assignments_keyed : Keyed BuiltInRoleAssignment.id assignments
  customRoles_keyed : Keyed CustomRoleRecord.id customRoles
  customAssignments_keyed : Keyed CustomRoleAssignment.id customAssignments

/-- `char::is_control`: the C0 and C1 controls and DEL. -/
def isControl (c : Char) : Bool := c.toNat < 32 || (127 ≤ c.toNat && c.toNat < 160)

def validateDisplayName (value : List Char) : AccessM Unit :=
  Except.failIf (value = [] ∨ textLen value > AccessControlLimits.v1.displayNameBytes ∨ value.any isControl)
    .invalidDisplayName

def strictlySorted {α : Type} [LinearOrder α] (values : List α) : Bool := decide (Ascending values)

namespace AccessControlCatalog

variable (catalog : AccessControlCatalog)

/-- The counts and the references of the maps to each other. -/
def validateReferences : AccessM Unit :=
  let limits := AccessControlLimits.v1
  Except.failIf
    (¬limits.isValid ∨ catalog.principals.entries.length > limits.principals ∨
      catalog.customRoles.entries.length > limits.customRoles ∨
      catalog.auditIndex.length > limits.retainedAuditEvents ∨
      (catalog.keys.values.any fun key => (catalog.principals.get key.principalId).isNone) ∨
      (catalog.assignments.values.any fun assignment => (catalog.principals.get assignment.principalId).isNone) ∨
      (catalog.customAssignments.values.any fun assignment =>
        (catalog.principals.get assignment.principalId).isNone || (catalog.customRoles.get assignment.roleId).isNone))
    .corruptCatalog

def validatePrincipal (principal : SecurityPrincipalRecord) : AccessM Unit := do
  let limits := AccessControlLimits.v1
  validateDisplayName principal.displayName
  let assignments :=
    (catalog.assignments.values.filter fun assignment => assignment.principalId = principal.id).length +
      (catalog.customAssignments.values.filter fun assignment => assignment.principalId = principal.id).length
  let keys := (catalog.keys.values.filter fun key => key.principalId = principal.id).length
  Except.failIf (assignments > limits.assignmentsPerPrincipal ∨ keys > limits.keysPerPrincipal) .limitExceeded

def validateLegacyBearer : AccessM Unit :=
  match catalog.legacyBearerState, catalog.legacyBearerMigration with
  | .neverEnabled, none => .ok ()
  | .migrationPending, some migration => validateMigration migration
  | .dualWindow, some migration => validateMigration migration
  | .revoked, some migration =>
    Except.failIf
      (migration.authorizationEpoch = AuthorizationEpoch.unmanaged ∨ migration.authorizationEpoch > catalog.epoch)
      .corruptCatalog
  | _, _ => .error .corruptCatalog
where
  /-- A migration that is not over names a key of the owner. -/
  validateMigration (migration : LegacyBearerMigration) : AccessM Unit := do
    let key ← Except.okOr (catalog.keys.get migration.keyId) .corruptCatalog
    let isOwner := catalog.assignments.values.any fun assignment =>
      assignment.principalId = key.principalId && assignment.role = .owner && assignment.scope = .instance_
    let pending := decide (catalog.legacyBearerState = .migrationPending)
    Except.failIf
      (migration.authorizationEpoch = AuthorizationEpoch.unmanaged ∨ migration.authorizationEpoch > catalog.epoch ∨
        migration.createdAtMicros ≠ key.createdAtMicros ∨ ¬isOwner ∨ key.revoked ∨ key.roles ≠ [.owner] ∨
        key.permissionCeiling ≠ .all ∨ key.scopeCeiling ≠ [.instance_] ∨ key.active = pending)
      .corruptCatalog

def validateCustomRole (role : CustomRoleRecord) : AccessM Unit := do
  validateDisplayName role.displayName
  Except.failIf
    ((BuiltInRole.parse (role.displayName.map Char.toLower)).isSome ∨ role.grants = [] ∨
      role.grants.length > AccessControlLimits.v1.grantsPerRole ∨ ¬strictlySorted role.grants ∨
      (role.grants.any fun grant =>
        grant.permission = .ownershipManage || !grant.permission.supportsScope grant.scope))
    .corruptCatalog

/-- The key by itself, and the custom roles it names. -/
def validateKeyRecord (mapId : ApiKeyId) (key : ApiKeyRecord) : AccessM Unit := do
  let limits := AccessControlLimits.v1
  validateDisplayName key.label
  Except.failIf
    (mapId ≠ key.id ∨ key.verifier.id ≠ key.id ∨ (key.roles = [] ∧ key.customRoles = []) ∨
      (key.roles ≠ [] ∧ ¬strictlySorted key.roles) ∨ (key.customRoles ≠ [] ∧ ¬strictlySorted key.customRoles) ∨
      key.scopeCeiling = [] ∨ key.scopeCeiling.length > limits.assignmentsPerPrincipal ∨
      ¬strictlySorted key.scopeCeiling ∨ (.instance_ ∈ key.scopeCeiling ∧ key.scopeCeiling.length ≠ 1) ∨
      (key.customRoles.any fun roleId => (catalog.customRoles.get roleId).isNone) ∨
      (key.expiresAtMicros.any fun expiry => expiry ≤ key.createdAtMicros) ∨
      key.publishedEpoch = AuthorizationEpoch.unmanaged ∨ key.publishedEpoch > catalog.epoch ∨
      key.predecessorId = some key.id ∨ key.successorId = some key.id ∨
      (key.rotationOverlapMicros.any fun overlap =>
        overlap > min (limits.maximumRotationOverlapSeconds * 1000000) (2 ^ 64 - 1)))
    .corruptCatalog

/-- The predecessor of a rotated key points back at it and has the same authority. -/
def validatePredecessor (key : ApiKeyRecord) : AccessM Unit :=
  match key.predecessorId with
  | some predecessorId => do
    let predecessor ← Except.okOr (catalog.keys.get predecessorId) .corruptCatalog
    Except.failIf
      (predecessor.successorId ≠ some key.id ∨ predecessor.principalId ≠ key.principalId ∨
        key.rotationOverlapMicros = none ∨ predecessor.roles ≠ key.roles ∨ predecessor.customRoles ≠ key.customRoles ∨
        predecessor.permissionCeiling ≠ key.permissionCeiling ∨ predecessor.scopeCeiling ≠ key.scopeCeiling ∨
        predecessor.createdAtMicros > key.createdAtMicros ∨ predecessor.overlapUntilMicros.isSome ≠ key.active)
      .corruptCatalog
  | none => Except.failIf key.rotationOverlapMicros.isSome .corruptCatalog

/-- The successor points back at the key; the overlap has a deadline once the successor is active. -/
def validateSuccessor (key : ApiKeyRecord) : AccessM Unit :=
  match key.successorId with
  | some successorId => do
    let successor ← Except.okOr (catalog.keys.get successorId) .corruptCatalog
    Except.failIf
      (successor.predecessorId ≠ some key.id ∨ successor.principalId ≠ key.principalId ∨
        key.overlapUntilMicros.isSome ≠ successor.active)
      .corruptCatalog
  | none => Except.failIf key.overlapUntilMicros.isSome .corruptCatalog

def validateKey (entry : ApiKeyId × ApiKeyRecord) : AccessM Unit := do
  catalog.validateKeyRecord entry.1 entry.2
  catalog.validatePredecessor entry.2
  catalog.validateSuccessor entry.2

def validatePendingOwnerRecovery : AccessM Unit :=
  match catalog.pendingOwnerRecovery with
  | some pending => do
    let key ← Except.okOr (catalog.keys.get pending.keyId) .corruptCatalog
    Except.failIf
      (pending.authorizationEpoch = AuthorizationEpoch.unmanaged ∨ pending.authorizationEpoch ≠ catalog.epoch ∨
        key.active ∨ key.revoked ∨ key.publishedEpoch ≠ pending.authorizationEpoch ∨
        key.createdAtMicros ≠ pending.createdAtMicros ∨ key.roles ≠ [.owner] ∨ key.customRoles ≠ [] ∨
        key.permissionCeiling ≠ .all ∨ key.scopeCeiling ≠ [.instance_] ∨ key.predecessorId.isSome ∨
        key.successorId.isSome)
      .corruptCatalog
  | none => .ok ()

/-- Walk back from one key. The walk ends, finds no key, or comes back to a visited key; the bound is the number of
keys it can visit and one more. -/
def followPredecessors (catalog : AccessControlCatalog) :
    Nat → List ApiKeyId → ApiKeyId → AccessM Unit
  | 0, _, _ => .error .corruptCatalog
  | bound + 1, visited, keyId => do
    Except.failIf (keyId ∈ visited) .corruptCatalog
    let key ← Except.okOr (catalog.keys.get keyId) .corruptCatalog
    match key.predecessorId with
    | some predecessorId => catalog.followPredecessors bound (keyId :: visited) predecessorId
    | none => .ok ()

def validateRotationAcyclic : AccessM Unit :=
  (catalog.keys.entries.map Prod.fst).forM (catalog.followPredecessors (catalog.keys.entries.length + 1) [])

def ownerAssignments : List BuiltInRoleAssignment :=
  catalog.assignments.values.filter fun assignment => assignment.role = .owner

/-- There is exactly one owner, at the whole instance, and it is enabled. -/
def validateOwner : AccessM Unit :=
  Except.failIf
    (catalog.principals.entries ≠ [] ∧
      (catalog.ownerAssignments.length ≠ 1 ∨
        (catalog.ownerAssignments.head?.any fun owner =>
          owner.scope != .instance_ ||
            !((catalog.principals.get owner.principalId).any SecurityPrincipalRecord.enabled))))
    .corruptCatalog

/-- An owner that has every key it may have keeps one of them for its recovery. -/
def validateOwnerKeys : AccessM Unit :=
  match catalog.ownerAssignments.head? with
  | some owner =>
    let ownerKeys := catalog.keys.values.filter fun key => key.principalId = owner.principalId
    let pendingRecoveryKeys := ownerKeys.filter fun key =>
      !key.active && !key.revoked && key.roles = [.owner] && key.permissionCeiling = .all &&
        key.scopeCeiling = [.instance_] && key.predecessorId.isNone && key.successorId.isNone
    Except.failIf
      (ownerKeys.length = AccessControlLimits.v1.keysPerPrincipal ∧ pendingRecoveryKeys.length ≠ 1) .corruptCatalog
  | none => .ok ()

def validateAuditIndex : AccessM Unit :=
  Except.failIf
    (¬strictlySorted (catalog.auditIndex.map SecurityAuditIndexEntry.commitCsn) ∨
      (catalog.auditIndex.any fun event => event.commitCsn = 0) ∨
      ¬(catalog.auditIndex.map SecurityAuditIndexEntry.id).Nodup)
    .corruptCatalog

/-- A catalog without principals is empty; one with principals has an epoch. -/
def validateManaged : AccessM Unit :=
  if catalog.principals.entries = [] then
    Except.failIf
      (catalog.epoch ≠ AuthorizationEpoch.unmanaged ∨ catalog.assignments.entries ≠ [] ∨
        catalog.customRoles.entries ≠ [] ∨ catalog.customAssignments.entries ≠ [] ∨ catalog.keys.entries ≠ [] ∨
        catalog.auditIndex ≠ [] ∨ catalog.legacyBearerState ≠ .neverEnabled ∨ catalog.legacyBearerMigration.isSome ∨
        catalog.legacyBearerVerifier.isSome)
      .corruptCatalog
  else Except.failIf (catalog.epoch = AuthorizationEpoch.unmanaged) .corruptCatalog

/-- The audit of the cross-record invariants. -/
def validate : AccessM Unit := do
  catalog.validateReferences
  catalog.principals.values.forM catalog.validatePrincipal
  catalog.validateLegacyBearer
  Except.failIf (catalog.legacyBearerState.isEnabled ≠ catalog.legacyBearerVerifier.isSome) .corruptCatalog
  catalog.customRoles.values.forM validateCustomRole
  Except.failIf ((catalog.assignments.entries.map Prod.fst).any fun id => (catalog.customAssignments.get id).isSome)
    .corruptCatalog
  catalog.keys.entries.forM catalog.validateKey
  catalog.validatePendingOwnerRecovery
  catalog.validateRotationAcyclic
  catalog.validateOwner
  catalog.validateOwnerKeys
  catalog.validateAuditIndex
  catalog.validateManaged

end AccessControlCatalog

end Hyphae.Access
