import Hyphae.Access.WellFormed

/-!
# Authentication

A candidate is resolved to a key of the catalog, the key to its principal, and the
roles that the key names and the principal still has to permissions at scopes. The
deadline of the authority is a plain minimum of two fields of the key; that it is the
moment from which the key is refused rests on the audit of the catalog.
-/

namespace Hyphae.Access

open Lib Except List OrderedMap

open AccessControlCatalog

open Mvcc (ObjectId)
open Wal (Digest zeros)

variable {scope scope' : ProductScope} {permission : ProductPermission} {principal : SecurityPrincipalRecord}
  {key : ApiKeyRecord} {time : Int} {byScope : OrderedMap ProductScope ProductAuthorization}
  {authorization : ProductAuthorization} {grant : CustomRoleGrant}

/-! ## Effective scopes -/

/-- One effective permission set at one stable scope. -/
structure ScopedAuthorization where
  scope : ProductScope
  authorization : ProductAuthorization
  deriving DecidableEq

/-- Adds permissions at a scope; an empty set leaves no entry. -/
def addScope (byScope : OrderedMap ProductScope ProductAuthorization) (scope : ProductScope)
    (authorization : ProductAuthorization) : OrderedMap ProductScope ProductAuthorization :=
  if authorization = .none then byScope
  else
    match byScope.get scope with
    | some current => byScope.insert scope (current.union authorization)
    | none => byScope.insert scope authorization

def effectiveScopes (assignments : List BuiltInRoleAssignment) (customGrants : List CustomRoleGrant)
    (permissionCeiling : ProductAuthorization) : List ScopedAuthorization :=
  let byScope := assignments.foldl
    (fun byScope assignment => addScope byScope assignment.scope
      ((assignment.role.authorization.forScope assignment.scope).intersect permissionCeiling))
    OrderedMap.empty
  let byScope := customGrants.foldl
    (fun byScope grant => addScope byScope grant.scope
      (((ProductAuthorization.fromPermissions [grant.permission]).forScope grant.scope).intersect permissionCeiling))
    byScope
  byScope.entries.map fun entry => ⟨entry.1, entry.2⟩

/-- The map allows the permission at the scope. -/
def AllowsAt (byScope : OrderedMap ProductScope ProductAuthorization) (scope : ProductScope)
    (permission : ProductPermission) : Prop :=
  ∃ authorization, byScope.get scope = some authorization ∧ authorization.allows permission

theorem allowsAt_insert :
    AllowsAt (byScope.insert scope authorization) scope' permission ↔
      if scope' = scope then authorization.allows permission = true else AllowsAt byScope scope' permission := by
  unfold AllowsAt
  rw [get_insert]
  split <;> simp

theorem allowsAt_addScope :
    AllowsAt (addScope byScope scope authorization) scope' permission ↔
      AllowsAt byScope scope' permission ∨ (scope = scope' ∧ authorization.allows permission) := by
  unfold addScope
  by_cases hnone : authorization = .none
  · simp [hnone]
  rw [if_neg hnone]
  by_cases hscope : scope' = scope
  · subst hscope
    cases hget : byScope.get scope' with
    | none =>
      have habsent : ¬AllowsAt byScope scope' permission := by simp [AllowsAt, hget]
      simp [allowsAt_insert, habsent]
    | some current =>
      have hpresent : AllowsAt byScope scope' permission ↔ current.allows permission := by simp [AllowsAt, hget]
      simp [allowsAt_insert, hpresent]
  · cases hget : byScope.get scope with
    | none | some current => simp [allowsAt_insert, hscope, Ne.symm hscope]

theorem allowsAt_foldl {α : Type} (scopeOf : α → ProductScope) (authorizationOf : α → ProductAuthorization)
    (items : List α) (byScope : OrderedMap ProductScope ProductAuthorization) :
    AllowsAt (items.foldl (fun byScope item => addScope byScope (scopeOf item) (authorizationOf item)) byScope) scope
        permission ↔
      AllowsAt byScope scope permission ∨ ∃ item ∈ items, scopeOf item = scope ∧
        (authorizationOf item).allows permission := by
  induction items generalizing byScope with
  | nil => simp
  | cons item items ih =>
    rw [foldl_cons, ih, allowsAt_addScope, or_assoc]
    simp only [mem_cons, exists_eq_or_imp]

/-- What the effective scopes allow is what the assignments and the grants give under the ceiling. -/
theorem exists_mem_effectiveScopes {assignments : List BuiltInRoleAssignment} {customGrants : List CustomRoleGrant}
    {permissionCeiling : ProductAuthorization} :
    (∃ held ∈ effectiveScopes assignments customGrants permissionCeiling,
        held.scope = scope ∧ held.authorization.allows permission) ↔
      permissionCeiling.allows permission ∧ permission.supportsScope scope ∧
        ((∃ assignment ∈ assignments, assignment.scope = scope ∧ assignment.role.authorization.allows permission) ∨
          ∃ grant ∈ customGrants, grant.scope = scope ∧ grant.permission = permission) := by
  have hmem : ∀ byScope : OrderedMap ProductScope ProductAuthorization,
      (∃ held ∈ byScope.entries.map fun entry => (⟨entry.1, entry.2⟩ : ScopedAuthorization),
          held.scope = scope ∧ held.authorization.allows permission) ↔ AllowsAt byScope scope permission := by
    intro byScope
    constructor
    · rintro ⟨held, hheld, rfl, hallows⟩
      obtain ⟨entry, hentry, rfl⟩ := mem_map.mp hheld
      exact ⟨entry.2, mem_entries.mp hentry, hallows⟩
    · rintro ⟨authorization, hget, hallows⟩
      exact ⟨⟨scope, authorization⟩, mem_map.mpr ⟨(scope, authorization), mem_entries.mpr hget, rfl⟩, rfl, hallows⟩
  have hempty : ¬AllowsAt empty scope permission := by
    rintro ⟨authorization, hget, -⟩
    exact absurd hget (by simp)
  rw [effectiveScopes, hmem, allowsAt_foldl CustomRoleGrant.scope, allowsAt_foldl BuiltInRoleAssignment.scope]
  simp only [hempty, false_or, ProductAuthorization.allows_intersect, ProductAuthorization.allows_forScope,
    ProductAuthorization.allows_fromPermissions, mem_singleton, Bool.and_eq_true, decide_eq_true_eq]
  constructor
  · rintro (⟨assignment, hassignment, rfl, ⟨hallows, hsupports⟩, hceiling⟩ | ⟨grant, hgrant, rfl, ⟨rfl, hsupports⟩,
      hceiling⟩)
    · exact ⟨hceiling, hsupports, .inl ⟨assignment, hassignment, rfl, hallows⟩⟩
    · exact ⟨hceiling, hsupports, .inr ⟨grant, hgrant, rfl, rfl⟩⟩
  · rintro ⟨hceiling, hsupports, ⟨assignment, hassignment, rfl, hallows⟩ | ⟨grant, hgrant, rfl, rfl⟩⟩
    · exact .inl ⟨assignment, hassignment, rfl, ⟨hallows, hsupports⟩, hceiling⟩
    · exact .inr ⟨grant, hgrant, rfl, ⟨rfl, hsupports⟩, hceiling⟩

/-! ## The authority of a key -/

def maxProductPrincipalBytes : Nat := 256

/-- Authenticated caller identity. -/
structure ProductPrincipal where
  identity : List Char
  deriving DecidableEq

def ProductPrincipal.new (identity : List Char) : Option ProductPrincipal :=
  if identity ≠ [] ∧ textLen identity ≤ maxProductPrincipalBytes then some ⟨identity⟩ else none

/-- Authenticated product authority resolved from current durable state. -/
structure AuthenticatedAuthority where
  principalId : SecurityId
  keyId : ApiKeyId
  principal : ProductPrincipal
  authorization : ProductAuthorization
  authorizationEpoch : AuthorizationEpoch
  directoryLineage : Bytes
  terminalReplayOnly : Bool
  validUntilMicros : Option Int
  effectiveRoles : List BuiltInRole
  effectiveCustomRoles : List SecurityId
  scopeCeiling : List ProductScope
  scopedAuthorization : List ScopedAuthorization
  catalogCursorKey : Digest

variable {authority : AuthenticatedAuthority}

namespace AuthenticatedAuthority

def allowsInstance (authority : AuthenticatedAuthority) (permission : ProductPermission) : Bool :=
  authority.scopeCeiling.contains .instance_ &&
    authority.scopedAuthorization.any fun held => held.scope = .instance_ && held.authorization.allows permission

/-- Whether both the current principal grant and the credential ceiling authorize `permission` for one object. -/
def allowsObject (authority : AuthenticatedAuthority) (permission : ProductPermission) (target : ObjectId)
    (isDescendant : ObjectId → ObjectId → Bool) : Bool :=
  if !permission.supportsScope (.catalogObject target) then false
  else
    (authority.scopeCeiling.any fun scope => scope.coversObject target isDescendant) &&
      authority.scopedAuthorization.any fun held =>
        held.authorization.allows permission && held.scope.coversObject target isDescendant

theorem allowsObject_iff {target : ObjectId} {isDescendant : ObjectId → ObjectId → Bool} :
    authority.allowsObject permission target isDescendant ↔ permission.supportsScope (.catalogObject target) ∧
      (∃ scope ∈ authority.scopeCeiling, scope.coversObject target isDescendant) ∧
      ∃ held ∈ authority.scopedAuthorization, held.authorization.allows permission ∧
        held.scope.coversObject target isDescendant := by
  unfold allowsObject
  cases permission.supportsScope (.catalogObject target) <;> simp

end AuthenticatedAuthority

/-- `hyphae-catalog-visible-cursor-key-v1` and a zero byte. -/
def catalogCursorKeyDomain : Bytes :=
  [104, 121, 112, 104, 97, 101, 45, 99, 97, 116, 97, 108, 111, 103, 45, 118, 105, 115, 105, 98, 108, 101, 45, 99, 117,
    114, 115, 111, 114, 45, 107, 101, 121, 45, 118, 49, 0]

/-- The expiry and the end of the overlap, as far as the key has them. -/
def deadlines (key : ApiKeyRecord) : List Int := [key.expiresAtMicros, key.overlapUntilMicros].filterMap id

namespace AccessControlCatalog

variable (catalog : AccessControlCatalog)

/-- The built-in roles the key names and the principal has. -/
def matchingAssignments (principal : SecurityPrincipalRecord) (key : ApiKeyRecord) : List BuiltInRoleAssignment :=
  catalog.assignments.values.filter fun assignment =>
    assignment.principalId = principal.id && key.roles.contains assignment.role

/-- The custom roles the key names and the principal has. -/
def effectiveCustomRoles (principal : SecurityPrincipalRecord) (key : ApiKeyRecord) : List SecurityId :=
  collectSet ((catalog.customAssignments.values.filter fun assignment =>
    assignment.principalId = principal.id && key.customRoles.contains assignment.roleId &&
      (catalog.customRoles.get assignment.roleId).isSome).map CustomRoleAssignment.roleId)

def customGrants (roleIds : List SecurityId) : List CustomRoleGrant :=
  (roleIds.filterMap catalog.customRoles.get).flatMap CustomRoleRecord.grants

def scopedAuthorization (principal : SecurityPrincipalRecord) (key : ApiKeyRecord) : List ScopedAuthorization :=
  effectiveScopes (catalog.matchingAssignments principal key)
    (catalog.customGrants (catalog.effectiveCustomRoles principal key)) key.permissionCeiling

/-- The union of what the key allows at any scope. -/
def effectiveAuthorization (principal : SecurityPrincipalRecord) (key : ApiKeyRecord) : ProductAuthorization :=
  (catalog.scopedAuthorization principal key).foldl (fun current held => current.union held.authorization) .none

/-- A rotated key is over once its active successor's overlap has passed. -/
def pastOverlap (key : ApiKeyRecord) (logicalTimeMicros : Int) : Bool :=
  match key.successorId, key.overlapUntilMicros with
  | some successorId, some overlapUntil =>
    (catalog.keys.get successorId).any ApiKeyRecord.active && decide (overlapUntil ≤ logicalTimeMicros)
  | _, _ => false

section Digests

variable (blake3 : Bytes → Digest)

def catalogCursorKey (key : ApiKeyRecord) (directoryLineage : Bytes) : Digest :=
  blake3 (catalogCursorKeyDomain ++ directoryLineage ++ key.id.bytes ++ key.verifier.digest.bytes)

/-- The authority of a key whose principal is known. -/
def resolvedAuthority (catalog : AccessControlCatalog) (keyId : ApiKeyId) (key : ApiKeyRecord)
    (principal : SecurityPrincipalRecord) (productPrincipal : ProductPrincipal) (directoryLineage : Bytes) :
    AuthenticatedAuthority where
  principalId := principal.id
  keyId := keyId
  principal := productPrincipal
  authorization := catalog.effectiveAuthorization principal key
  authorizationEpoch := catalog.epoch
  directoryLineage := directoryLineage
  terminalReplayOnly := false
  validUntilMicros := (deadlines key).min?
  effectiveRoles := collectSet ((catalog.matchingAssignments principal key).map BuiltInRoleAssignment.role)
  effectiveCustomRoles := catalog.effectiveCustomRoles principal key
  scopeCeiling := key.scopeCeiling
  scopedAuthorization := catalog.scopedAuthorization principal key
  catalogCursorKey := catalogCursorKey blake3 key directoryLineage

def authorityForKeyLifecycle (catalog : AccessControlCatalog) (keyId : ApiKeyId) (logicalTimeMicros : Int)
    (directoryLineage : Bytes) (requireLive : Bool) : AccessM AuthenticatedAuthority := do
  Except.failIf (directoryLineage = zeros 24) .corruptCatalog
  let key ← Except.okOr (catalog.keys.get keyId) .unauthorized
  Except.failIf
    (requireLive ∧ (¬key.active ∨ key.revoked ∨ key.expiresAtMicros.any fun expiry => expiry ≤ logicalTimeMicros))
    .unauthorized
  Except.failIf (¬requireLive ∧ key.expiresAtMicros.any fun expiry => expiry ≤ logicalTimeMicros) .unauthorized
  Except.failIf (requireLive ∧ catalog.pastOverlap key logicalTimeMicros) .unauthorized
  let principal ← Except.okOr ((catalog.principals.get key.principalId).filter SecurityPrincipalRecord.enabled)
    .unauthorized
  Except.failIf (catalog.effectiveAuthorization principal key = .none) .unauthorized
  let productPrincipal ← Except.okOr (ProductPrincipal.new (securityIdToString principal.id)) .corruptCatalog
  .ok (catalog.resolvedAuthority blake3 keyId key principal productPrincipal directoryLineage)

def authorityForKey (catalog : AccessControlCatalog) (keyId : ApiKeyId) (logicalTimeMicros : Int)
    (directoryLineage : Bytes) : AccessM AuthenticatedAuthority :=
  catalog.authorityForKeyLifecycle blake3 keyId logicalTimeMicros directoryLineage true

def authenticateForLineage (catalog : AccessControlCatalog) (candidate : Bytes) (logicalTimeMicros : Int)
    (directoryLineage : Bytes) : AccessM AuthenticatedAuthority := do
  let keyId ← Except.okOr (ApiKeyVerifier.candidateId candidate) .unauthorized
  let key ← Except.okOr (catalog.keys.get keyId) .unauthorized
  Except.failIf (¬key.verifier.verifies blake3 candidate) .unauthorized
  catalog.authorityForKey blake3 keyId logicalTimeMicros directoryLineage

/-- Authenticates one canonical key against current durable authority. -/
def authenticate (catalog : AccessControlCatalog) (candidate : Bytes) (logicalTimeMicros : Int) :
    AccessM AuthenticatedAuthority :=
  catalog.authenticateForLineage blake3 candidate logicalTimeMicros (List.replicate 24 255)

end Digests

end AccessControlCatalog

/-! ## What a key may do -/

/-- The permission is granted at the scope by a role that the key names and its principal currently has. A built-in role
grants what it holds at the scope it is assigned at, as far as that can be granted there; a custom role says its scopes
itself. -/
def GrantedAt (catalog : AccessControlCatalog) (key : ApiKeyRecord) (permission : ProductPermission)
    (scope : ProductScope) : Prop :=
  (∃ assignment ∈ catalog.assignments.values, assignment.principalId = key.principalId ∧ assignment.role ∈ key.roles ∧
      assignment.scope = scope ∧ assignment.role.authorization.allows permission ∧ permission.supportsScope scope) ∨
    ∃ assignment ∈ catalog.customAssignments.values, assignment.principalId = key.principalId ∧
      assignment.roleId ∈ key.customRoles ∧ ∃ role, catalog.customRoles.get assignment.roleId = some role ∧
        (⟨permission, scope⟩ : CustomRoleGrant) ∈ role.grants

/-- The key is active, not revoked, not expired and not past its rotation overlap. -/
structure Live (key : ApiKeyRecord) (time : Int) : Prop where
  active : key.active
  notRevoked : ¬key.revoked
  notExpired : ∀ expiry, key.expiresAtMicros = some expiry → time < expiry
  inOverlap : ∀ overlapUntil, key.overlapUntilMicros = some overlapUntil → time < overlapUntil

/-- The candidate is the secret of this key of the catalog. -/
structure Presents (blake3 : Bytes → Digest) (catalog : AccessControlCatalog) (candidate : Bytes) (key : ApiKeyRecord) :
    Prop where
  id : ApiKeyVerifier.candidateId candidate = some key.id
  stored : catalog.keys.get key.id = some key
  verified : key.verifier.verifies blake3 candidate

/-- The principal of the key is enabled. -/
def PrincipalEnabled (catalog : AccessControlCatalog) (key : ApiKeyRecord) : Prop :=
  ∃ principal, catalog.principals.get key.principalId = some principal ∧ principal.enabled

/-! ## What the audit says -/

namespace AccessControlCatalog

variable {catalog : AccessControlCatalog}

variable {id : ApiKeyId}

section

variable (h : catalog.validate = .ok ()) {role : CustomRoleRecord}
include h

/-- Every grant of a custom role can be made at its scope. -/
theorem supportsScope_of_validate {id : SecurityId} (hget : catalog.customRoles.get id = some role)
    (hgrant : grant ∈ role.grants) :
    grant.permission.supportsScope grant.scope := by
  have hrole := (validate_eq_ok.mp h).directory.roles id role hget
  simp only [validateCustomRole, bind_eq_ok, failIf_eq_ok, not_or] at hrole
  obtain ⟨_, -, -, -, -, -, hgrants⟩ := hrole
  simp only [any_eq_true, not_exists, not_and, Bool.or_eq_true, not_or] at hgrants
  simpa using (hgrants grant hgrant).2

/-- A key has a deadline for its overlap exactly when its successor is active. -/
theorem pastOverlap_of_validate (hget : catalog.keys.get id = some key) (time : Int) :
    catalog.pastOverlap key time ↔ ∃ overlapUntil, key.overlapUntilMicros = some overlapUntil ∧
      overlapUntil ≤ time := by
  have hkeys := (validate_eq_ok.mp h).keys
  unfold pastOverlap
  cases hid : key.successorId with
  | none => simp [hkeys.last id key hget hid]
  | some successorId =>
    obtain ⟨successor, hsuccessor, hback⟩ := hkeys.successor id key hget successorId hid
    obtain ⟨predecessor, hpredecessor, hrotates⟩ := hkeys.predecessor successorId successor hsuccessor id hback
    obtain rfl := Option.mem_unique hget hpredecessor
    have hactive := hrotates.active
    cases hoverlap : key.overlapUntilMicros with
    | none => simp
    | some overlapUntil =>
      rw [hoverlap] at hactive
      simp [hsuccessor, ← hactive]

end

end AccessControlCatalog

/-! ## Authentication, exactly -/

theorem productPrincipal_new_isSome (id : SecurityId) :
    ∃ principal, ProductPrincipal.new (securityIdToString id) = some principal := by
  have hlen : textLen (securityIdToString id) ≤ maxProductPrincipalBytes := by
    have hsum : textLen (securityIdToString id) ≤ ((securityIdToString id).map Char.utf8Size).length • 4 := by
      apply sum_le_card_nsmul
      intro size hsize
      obtain ⟨c, -, rfl⟩ := mem_map.mp hsize
      exact c.utf8Size_le_four
    simp only [securityIdToString, length_map, length_range] at hsum
    exact hsum.trans (by decide)
  refine ⟨⟨securityIdToString id⟩, if_pos ⟨?_, hlen⟩⟩
  simp [securityIdToString]

theorem mem_matchingAssignments {catalog : AccessControlCatalog} {assignment : BuiltInRoleAssignment} :
    assignment ∈ catalog.matchingAssignments principal key ↔
      assignment ∈ catalog.assignments.values ∧ assignment.principalId = principal.id ∧
        assignment.role ∈ key.roles := by
  simp [matchingAssignments]

theorem mem_customGrants {catalog : AccessControlCatalog} :
    grant ∈ catalog.customGrants (catalog.effectiveCustomRoles principal key) ↔
      ∃ assignment ∈ catalog.customAssignments.values, assignment.principalId = principal.id ∧
        assignment.roleId ∈ key.customRoles ∧
        ∃ role, catalog.customRoles.get assignment.roleId = some role ∧ grant ∈ role.grants := by
  simp only [customGrants, effectiveCustomRoles, mem_flatMap,
    mem_filterMap, mem_collectSet, mem_map, mem_filter, Bool.and_eq_true, decide_eq_true_eq,
    contains_iff_mem]
  constructor
  · rintro ⟨role, ⟨_, ⟨assignment, ⟨hassignment, ⟨hprincipal, hnamed⟩, -⟩, rfl⟩, hrole⟩, hgrant⟩
    exact ⟨assignment, hassignment, hprincipal, hnamed, role, hrole, hgrant⟩
  · rintro ⟨assignment, hassignment, hprincipal, hnamed, role, hrole, hgrant⟩
    exact ⟨role, ⟨assignment.roleId, ⟨assignment, ⟨hassignment, ⟨hprincipal, hnamed⟩, by rw [hrole]; rfl⟩, rfl⟩, hrole⟩,
      hgrant⟩

section Authentication

variable {catalog : AccessControlCatalog} (hvalid : catalog.validate = .ok ()) {candidate : Bytes} {keyId : ApiKeyId}

include hvalid

/-- What the key's scoped authorizations allow is what is granted to it under its permission ceiling. -/
theorem exists_mem_scopedAuthorization (hprincipal : catalog.principals.get key.principalId = some principal) :
    (∃ held ∈ catalog.scopedAuthorization principal key, held.scope = scope ∧ held.authorization.allows permission) ↔
      key.permissionCeiling.allows permission ∧ GrantedAt catalog key permission scope := by
  have hid : principal.id = key.principalId := catalog.principals_keyed.of_get hprincipal
  rw [scopedAuthorization, exists_mem_effectiveScopes]
  refine and_congr_right fun _ => ?_
  simp only [mem_matchingAssignments, mem_customGrants, hid]
  constructor
  · rintro ⟨hsupports, ⟨assignment, ⟨hassignment, hof, hnamed⟩, hscope, hallows⟩ |
      ⟨grant, ⟨assignment, hassignment, hof, hnamed, role, hrole, hgrant⟩, rfl, rfl⟩⟩
    · exact .inl ⟨assignment, hassignment, hof, hnamed, hscope, hallows, hsupports⟩
    · exact .inr ⟨assignment, hassignment, hof, hnamed, role, hrole, hgrant⟩
  · rintro (⟨assignment, hassignment, hof, hnamed, hscope, hallows, hsupports⟩ |
      ⟨assignment, hassignment, hof, hnamed, role, hrole, hgrant⟩)
    · exact ⟨hsupports, .inl ⟨assignment, ⟨hassignment, hof, hnamed⟩, hscope, hallows⟩⟩
    · have hsupports := supportsScope_of_validate hvalid hrole hgrant
      exact ⟨hsupports, .inr ⟨_, ⟨assignment, hassignment, hof, hnamed, role, hrole, hgrant⟩, rfl, rfl⟩⟩

omit hvalid in
theorem effectiveAuthorization_allows :
    (catalog.effectiveAuthorization principal key).allows permission ↔
      ∃ held ∈ catalog.scopedAuthorization principal key, held.authorization.allows permission := by
  rw [effectiveAuthorization, ProductAuthorization.allows_foldl_union,
    ProductAuthorization.allows_none, Bool.false_or, any_eq_true]

theorem effectiveAuthorization_ne_none (hprincipal : catalog.principals.get key.principalId = some principal) :
    catalog.effectiveAuthorization principal key ≠ .none ↔
      ∃ permission scope, key.permissionCeiling.allows permission ∧ GrantedAt catalog key permission scope := by
  rw [ProductAuthorization.ne_none_iff]
  refine exists_congr fun permission => effectiveAuthorization_allows.trans ?_
  constructor
  · rintro ⟨held, hheld, hallows⟩
    exact ⟨held.scope, (exists_mem_scopedAuthorization hvalid hprincipal).mp ⟨held, hheld, rfl, hallows⟩⟩
  · rintro ⟨scope, hgranted⟩
    obtain ⟨held, hheld, -, hallows⟩ := (exists_mem_scopedAuthorization hvalid hprincipal).mpr hgranted
    exact ⟨held, hheld, hallows⟩

omit hvalid in
theorem mem_deadlines {deadline : Int} :
    deadline ∈ deadlines key ↔ key.expiresAtMicros = some deadline ∨ key.overlapUntilMicros = some deadline := by
  simp [deadlines, eq_comm]

omit hvalid in
/-- A key is live until the first of its deadlines. -/
theorem live_iff :
    Live key time ↔ key.active ∧ ¬key.revoked ∧
      ∀ deadline, (deadlines key).min? = some deadline → time < deadline := by
  constructor
  · rintro ⟨hactive, hrevoked, hexpired, hoverlap⟩
    refine ⟨hactive, hrevoked, fun deadline hdeadline => ?_⟩
    have hmem := min?_mem hdeadline
    rcases mem_deadlines.mp hmem with h | h
    · exact hexpired deadline h
    · exact hoverlap deadline h
  · rintro ⟨hactive, hrevoked, hdeadline⟩
    have hbefore : ∀ deadline ∈ deadlines key, time < deadline := by
      intro deadline hmem
      cases hmin : (deadlines key).min? with
      | none => exact absurd hmem (by simp [min?_eq_none_iff.mp hmin])
      | some least =>
        have hle : least ≤ deadline := (min?_eq_some_iff.mp hmin).2 deadline hmem
        exact (hdeadline least hmin).trans_le hle
    exact ⟨hactive, hrevoked, fun expiry h => hbefore expiry (mem_deadlines.mpr (.inl h)),
      fun overlapUntil h => hbefore overlapUntil (mem_deadlines.mpr (.inr h))⟩

variable (blake3 : Bytes → Digest) {lineage : Bytes}

omit hvalid in
/-- The authority of a key in any catalog: the overlap is checked behind an active successor only. -/
theorem authorityForKey_iff :
    catalog.authorityForKey blake3 keyId time lineage = .ok authority ↔ lineage ≠ zeros 24 ∧
      ∃ key, catalog.keys.get keyId = some key ∧
        (key.active ∧ ¬key.revoked ∧ (∀ expiry, key.expiresAtMicros = some expiry → time < expiry) ∧
          ¬catalog.pastOverlap key time) ∧
        ∃ principal productPrincipal, catalog.principals.get key.principalId = some principal ∧ principal.enabled ∧
        catalog.effectiveAuthorization principal key ≠ .none ∧
        ProductPrincipal.new (securityIdToString principal.id) = some productPrincipal ∧
        authority = catalog.resolvedAuthority blake3 keyId key principal productPrincipal lineage := by
  simp only [authorityForKey, authorityForKeyLifecycle, bind_eq_ok,
    failIf_eq_ok, okOr_eq_ok, Option.filter_eq_some_iff, ok.injEq, true_and, not_or,
    Option.any_eq_true, not_exists, not_and, decide_eq_true_eq, not_le, not_not]
  constructor
  · rintro ⟨_, hlineage, key, hkey, _, ⟨hactive, hrevoked, hexpiry⟩, _, -, _, hover, principal, ⟨hprincipal, henabled⟩,
      _, hsome, productPrincipal, hproduct, rfl⟩
    exact ⟨hlineage, key, hkey, ⟨hactive, hrevoked, hexpiry, hover⟩, principal, productPrincipal, hprincipal, henabled,
      hsome, hproduct, rfl⟩
  · rintro ⟨hlineage, key, hkey, ⟨hactive, hrevoked, hexpiry, hover⟩, principal, productPrincipal, hprincipal, henabled,
      hsome, hproduct, rfl⟩
    exact ⟨(), hlineage, key, hkey, (), ⟨hactive, hrevoked, hexpiry⟩, (), by simp, (), hover, principal,
      ⟨hprincipal, henabled⟩, (), hsome, productPrincipal, hproduct, rfl⟩

/-- The authority is that of the key, whose principal is enabled and still has a permission. -/
def Resolves (catalog : AccessControlCatalog) (lineage : Bytes) (keyId : ApiKeyId) (key : ApiKeyRecord)
    (authority : AuthenticatedAuthority) : Prop :=
  ∃ principal productPrincipal, catalog.principals.get key.principalId = some principal ∧ principal.enabled ∧
    (∃ permission scope, key.permissionCeiling.allows permission ∧ GrantedAt catalog key permission scope) ∧
    ProductPrincipal.new (securityIdToString principal.id) = some productPrincipal ∧
    authority = catalog.resolvedAuthority blake3 keyId key principal productPrincipal lineage

variable (hlineage : lineage ≠ zeros 24)

include hlineage

theorem authorityForKey_eq_ok :
    catalog.authorityForKey blake3 keyId time lineage = .ok authority ↔
      ∃ key, catalog.keys.get keyId = some key ∧ Live key time ∧
        Resolves blake3 catalog lineage keyId key authority := by
  rw [authorityForKey_iff, and_iff_right hlineage]
  refine exists_congr fun key => and_congr_right fun hkey => and_congr ?_ (exists₂_congr fun principal _ =>
    and_congr_right fun hprincipal => and_congr_right fun _ => and_congr_left fun _ =>
      effectiveAuthorization_ne_none hvalid hprincipal)
  rw [pastOverlap_of_validate hvalid hkey, not_exists]
  constructor
  · rintro ⟨hactive, hrevoked, hexpiry, hover⟩
    exact ⟨hactive, hrevoked, hexpiry, fun deadline h => not_le.mp fun hle => hover deadline ⟨h, hle⟩⟩
  · rintro ⟨hactive, hrevoked, hexpiry, hover⟩
    exact ⟨hactive, hrevoked, hexpiry, fun deadline h => absurd h.2 (not_le.mpr (hover deadline h.1))⟩

/-- Authentication, without the check order: the key of the candidate, and the authority of that key. -/
theorem authenticateForLineage_eq_ok :
    catalog.authenticateForLineage blake3 candidate time lineage = .ok authority ↔
      ∃ key, Presents blake3 catalog candidate key ∧ Live key time ∧
        Resolves blake3 catalog lineage key.id key authority := by
  simp only [authenticateForLineage, bind_eq_ok, okOr_eq_ok, failIf_eq_ok,
    authorityForKey_eq_ok hvalid blake3 hlineage, not_not]
  constructor
  · rintro ⟨keyId, hid, key, hkey, _, hverified, key', hkey', hlive, hresolves⟩
    obtain rfl : key = key' := Option.some.inj (hkey ▸ hkey')
    obtain rfl := ((validate_eq_ok.mp hvalid).keys.record keyId key hkey).id_eq
    exact ⟨key, ⟨hid, hkey, hverified⟩, hlive, hresolves⟩
  · rintro ⟨key, ⟨hid, hkey, hverified⟩, hlive, hresolves⟩
    exact ⟨key.id, hid, key, hkey, (), hverified, key, hkey, hlive, hresolves⟩

omit hvalid hlineage in
theorem Presents.unique {key' : ApiKeyRecord} (h : Presents blake3 catalog candidate key)
    (h' : Presents blake3 catalog candidate key') : key = key' := by
  have hid : key.id = key'.id := Option.some.inj (h.id ▸ h'.id)
  exact Option.some.inj (h.stored ▸ hid ▸ h'.stored)

/-- Authentication succeeds for the live keys of enabled principals that still have a permission. -/
theorem authenticateForLineage_isOk :
    (∃ authority, catalog.authenticateForLineage blake3 candidate time lineage = .ok authority) ↔
      ∃ key, Presents blake3 catalog candidate key ∧ Live key time ∧ PrincipalEnabled catalog key ∧
        ∃ permission scope, key.permissionCeiling.allows permission ∧ GrantedAt catalog key permission scope := by
  simp only [authenticateForLineage_eq_ok hvalid blake3 hlineage]
  constructor
  · rintro ⟨authority, key, hkey, hlive, principal, _, hprincipal, henabled, hgranted, -, -⟩
    exact ⟨key, hkey, hlive, ⟨principal, hprincipal, henabled⟩, hgranted⟩
  · rintro ⟨key, hkey, hlive, ⟨principal, hprincipal, henabled⟩, hgranted⟩
    obtain ⟨productPrincipal, hproduct⟩ := productPrincipal_new_isSome principal.id
    exact ⟨_, key, hkey, hlive, principal, productPrincipal, hprincipal, henabled, hgranted, hproduct, rfl⟩

omit hlineage in
/-- What the authority of a key allows on an object. -/
theorem allowsObject_resolvedAuthority {productPrincipal : ProductPrincipal}
    (hprincipal : catalog.principals.get key.principalId = some principal) {target : ObjectId}
    {isDescendant : ObjectId → ObjectId → Bool} :
    (catalog.resolvedAuthority blake3 key.id key principal productPrincipal lineage).allowsObject permission target
        isDescendant ↔
      permission.supportsScope (.catalogObject target) ∧ key.permissionCeiling.allows permission ∧
        (∃ scope, GrantedAt catalog key permission scope ∧ scope.coversObject target isDescendant) ∧
        ∃ scope ∈ key.scopeCeiling, scope.coversObject target isDescendant := by
  refine AuthenticatedAuthority.allowsObject_iff.trans (and_congr_right fun _ => ?_)
  constructor
  · rintro ⟨hceiling, held, hheld, hallows, hcovers⟩
    obtain ⟨hpermission, hgranted⟩ := (exists_mem_scopedAuthorization hvalid hprincipal).mp ⟨held, hheld, rfl, hallows⟩
    exact ⟨hpermission, ⟨held.scope, hgranted, hcovers⟩, hceiling⟩
  · rintro ⟨hpermission, ⟨scope, hgranted, hcovers⟩, hceiling⟩
    obtain ⟨held, hheld, rfl, hallows⟩ := (exists_mem_scopedAuthorization hvalid hprincipal).mpr ⟨hpermission, hgranted⟩
    exact ⟨hceiling, held, hheld, hallows, hcovers⟩

/-- The key of the candidate decides; its authority is as stated, is the same until its deadline, and is refused from
the deadline on. -/
theorem authentication_exact (candidate : Bytes) (time : Int) :
    ((∃ authority, catalog.authenticateForLineage blake3 candidate time lineage = .ok authority) ↔
      ∃ key, Presents blake3 catalog candidate key ∧ Live key time ∧ PrincipalEnabled catalog key ∧
        ∃ permission scope, key.permissionCeiling.allows permission ∧ GrantedAt catalog key permission scope) ∧
    ∀ authority, catalog.authenticateForLineage blake3 candidate time lineage = .ok authority →
      (∀ key, Presents blake3 catalog candidate key → ∀ permission target isDescendant,
        authority.allowsObject permission target isDescendant ↔
          permission.supportsScope (.catalogObject target) ∧ key.permissionCeiling.allows permission ∧
            (∃ scope, GrantedAt catalog key permission scope ∧ scope.coversObject target isDescendant) ∧
            ∃ scope ∈ key.scopeCeiling, scope.coversObject target isDescendant) ∧
      (∀ later, time ≤ later → (∀ deadline, authority.validUntilMicros = some deadline → later < deadline) →
        catalog.authenticateForLineage blake3 candidate later lineage = .ok authority) ∧
      ∀ deadline, authority.validUntilMicros = some deadline → ∀ later, deadline ≤ later →
        ∀ authority', catalog.authenticateForLineage blake3 candidate later lineage ≠ .ok authority' := by
  refine ⟨authenticateForLineage_isOk hvalid blake3 hlineage, fun authority hok => ?_⟩
  obtain ⟨key, hkey, hlive, principal, productPrincipal, hprincipal, henabled, hgranted, hproduct, rfl⟩ :=
    (authenticateForLineage_eq_ok hvalid blake3 hlineage).mp hok
  have huntil : (catalog.resolvedAuthority blake3 key.id key principal productPrincipal lineage).validUntilMicros =
      (deadlines key).min? := rfl
  refine ⟨fun key' hkey' permission target isDescendant => ?_, fun later _ hbefore => ?_,
    fun deadline hdeadline later hle authority' hok' => ?_⟩
  · obtain rfl := hkey.unique blake3 hkey'
    exact allowsObject_resolvedAuthority hvalid blake3 hprincipal
  · obtain ⟨hactive, hrevoked, -⟩ := live_iff.mp hlive
    have hlater : Live key later := live_iff.mpr ⟨hactive, hrevoked,
      fun deadline h => hbefore deadline (huntil.trans h)⟩
    exact (authenticateForLineage_eq_ok hvalid blake3 hlineage).mpr
      ⟨key, hkey, hlater, principal, productPrincipal, hprincipal, henabled, hgranted, hproduct, rfl⟩
  · obtain ⟨key', hkey', hlive', -⟩ := (authenticateForLineage_eq_ok hvalid blake3 hlineage).mp hok'
    obtain rfl := hkey.unique blake3 hkey'
    obtain ⟨-, -, hbefore⟩ := live_iff.mp hlive'
    exact absurd (hbefore deadline (huntil ▸ hdeadline)) (not_lt.mpr hle)

end Authentication

/-! ## A key in its rotation overlap -/

namespace Rotated

def ownerId : SecurityId := .ofSucc 0

def assignmentId : SecurityId := ⟨2, by norm_num, by norm_num⟩

/-- The key whose bytes are all `b`. -/
def keyId (b : UInt8) : ApiKeyId := ⟨List.replicate 16 b, length_replicate⟩

def principals : OrderedMap SecurityId SecurityPrincipalRecord :=
  OrderedMap.empty.insert ownerId ⟨ownerId, ['o', 'p', 's'], true⟩

def assignments : OrderedMap SecurityId BuiltInRoleAssignment :=
  OrderedMap.empty.insert assignmentId ⟨assignmentId, ownerId, .owner, .instance_⟩

/-- An owner's key before any rotation. -/
def ownerKey (b : UInt8) : ApiKeyRecord where
  id := keyId b
  principalId := ownerId
  label := ['k']
  verifier := ⟨keyId b, Digest.zero⟩
  active := true
  roles := [.owner]
  customRoles := []
  permissionCeiling := .all
  scopeCeiling := [.instance_]
  createdAtMicros := 0
  expiresAtMicros := none
  revoked := false
  publishedEpoch := 1
  predecessorId := none
  successorId := none
  overlapUntilMicros := none
  rotationOverlapMicros := none

/-- The first key has been rotated; both keys work until the fiftieth microsecond. -/
def catalog : AccessControlCatalog where
  epoch := 1
  principals := principals
  assignments := assignments
  customRoles := OrderedMap.empty
  customAssignments := OrderedMap.empty
  keys := (OrderedMap.empty.insert (keyId 17)
      { ownerKey 17 with successorId := some (keyId 34), overlapUntilMicros := some 50 }).insert (keyId 34)
    { ownerKey 34 with predecessorId := some (keyId 17), rotationOverlapMicros := some 40 }
  auditIndex := []
  pendingOwnerRecovery := none
  legacyBearerState := .neverEnabled
  legacyBearerMigration := none
  legacyBearerVerifier := none
  principals_keyed := by decide +kernel
  assignments_keyed := by decide +kernel
  customRoles_keyed := by decide +kernel
  customAssignments_keyed := by decide +kernel

/-- `hyp1_1111…_0000…`, the secret of the first key. -/
def candidate : Bytes := apiKeyPrefixBytes ++ List.replicate 32 49 ++ [95] ++ List.replicate 64 48

def noDigest : Bytes → Digest := fun _ => Digest.zero

theorem validate_catalog : catalog.validate = .ok () := by decide +kernel

end Rotated

open Rotated in
/-- The first key reads every object until its overlap ends. -/
theorem authentication_exact_rotated :
    (∃ authority, catalog.authenticate noDigest candidate 10 = .ok authority ∧ authority.validUntilMicros = some 50 ∧
      ∀ target isDescendant, authority.allowsObject .dataRead target isDescendant ∧
        ¬authority.allowsObject .observe target isDescendant) ∧
      ∀ later, 50 ≤ later → ∀ authority, catalog.authenticate noDigest candidate later ≠ .ok authority := by
  have hok : ((catalog.authenticate noDigest candidate 10).toOption.any fun authority =>
      authority.validUntilMicros = some 50) = true := by
    decide +kernel
  obtain ⟨authority, hauthority, huntil⟩ := exists_of_any _ hok
  have huntil := of_decide_eq_true huntil
  obtain ⟨-, hfacts⟩ :=
    authentication_exact validate_catalog noDigest (by decide : List.replicate 24 255 ≠ zeros 24) candidate 10
  obtain ⟨hallows, -, hrefused⟩ := hfacts authority hauthority
  have hpresents : Presents noDigest catalog candidate
      { ownerKey 17 with successorId := some (keyId 34), overlapUntilMicros := some 50 } :=
    ⟨by decide +kernel, by decide +kernel, by decide +kernel⟩
  refine ⟨⟨authority, hauthority, huntil, fun target isDescendant => ⟨?_, fun hobserve => ?_⟩⟩, hrefused 50 huntil⟩
  · have hgranted : GrantedAt catalog (ownerKey 17) .dataRead .instance_ :=
      .inl ⟨⟨assignmentId, ownerId, .owner, .instance_⟩, by decide +kernel⟩
    exact (hallows _ hpresents ..).mpr
      ⟨rfl, rfl, ⟨.instance_, hgranted, rfl⟩, .instance_, mem_singleton.mpr rfl, rfl⟩
  · exact absurd ((hallows _ hpresents ..).mp hobserve).1 nofun

end Hyphae.Access
