import Hyphae.Access.Validity

/-!
# Keys that a key issues for its own principal

The check of a self-managed issue compares names of roles, the union of the permissions
and scopes by pairs. What the keys may do is a relation between permissions and objects,
and the new key's part of it stays within the acting key's: both read the same
assignments, so only the ceilings have to be compared.
-/

namespace Hyphae.Access

open Lib List Except OrderedMap

open AccessControlCatalog

open Mvcc (ObjectId)
open Wal (Digest zeros)

variable {permission : ProductPermission} {target : ObjectId} {actingId newId : ApiKeyId} {acting : ApiKeyRecord}
  {authority : AuthenticatedAuthority}

/-- The error codes that the check tells apart; the remaining ones are `other`. -/
inductive ProductErrorCode
  | authorizationDenied
  | io
  | unavailable
  | corruption
  | other
  deriving DecidableEq

/-! ## Ancestry -/

/-- The objects of a catalog snapshot with their parents, and the reads that fail. -/
structure CatalogObjects where
  parents : OrderedMap ObjectId (Option ObjectId)
  unreadable : ObjectId → Option ProductErrorCode

variable {objects : CatalogObjects}

namespace CatalogObjects

variable (objects : CatalogObjects)

def catalogDescribe (id : ObjectId) : Except ProductErrorCode (Option (Option ObjectId)) :=
  match objects.unreadable id with
  | some code => .error code
  | none => .ok (objects.parents.get id)

/-- The walk from an object to the root. A walk that exceeds the bound has met an ancestor twice. -/
def ancestorsFrom : Nat → List ObjectId → ObjectId → Except ProductErrorCode (List ObjectId)
  | 0, _, _ => .error .corruption
  | bound + 1, ancestors, current => do
    match ← objects.catalogDescribe current with
    | some (some parent) => do
      Except.failIf (parent ∈ ancestors) .corruption
      let rest ← ancestorsFrom bound (parent :: ancestors) parent
      .ok (parent :: rest)
    | _ => .ok []

def ancestors (id : ObjectId) : Except ProductErrorCode (List ObjectId) :=
  objects.ancestorsFrom (objects.parents.entries.length + 2) [] id

def isDescendant (candidate ancestor : ObjectId) : Bool :=
  match objects.ancestors candidate with
  | .ok ancestors => decide (ancestor ∈ ancestors)
  | .error _ => false

def Parent (child parent : ObjectId) : Prop := objects.parents.get child = some (some parent)

variable {objects}

theorem catalogDescribe_ok {id : ObjectId} {found : Option (Option ObjectId)}
    (h : objects.catalogDescribe id = .ok found) : found = objects.parents.get id := by
  unfold catalogDescribe at h
  split at h
  · cases h
  · exact (ok.inj h).symm

/-- A walk that ends has visited exactly the ancestors. -/
theorem mem_ancestorsFrom {bound : Nat} {visited : List ObjectId} {current : ObjectId} {found : List ObjectId}
    (h : objects.ancestorsFrom bound visited current = .ok found) (id : ObjectId) :
    id ∈ found ↔ Relation.TransGen objects.Parent current id := by
  induction bound generalizing visited current found with
  | zero => cases h
  | succ bound ih =>
    obtain ⟨described, hdescribed, h⟩ := bind_eq_ok.mp h
    have hget := catalogDescribe_ok hdescribed
    rw [Relation.TransGen.head'_iff]
    split at h
    · rename_i parent
      simp only [bind_eq_ok, ok.injEq] at h
      obtain ⟨-, -, rest, hrest, rfl⟩ := h
      have hparent : ∀ next, objects.Parent current next ↔ next = parent := by
        intro next
        rw [Parent, ← hget]
        simp [eq_comm]
      simp only [hparent, exists_eq_left, Relation.reflTransGen_iff_eq_or_transGen, mem_cons, ih hrest]
    · rename_i hnone
      obtain rfl := ok.inj h
      have hroot : ∀ next, ¬objects.Parent current next := fun next hnext => hnone next (hget.trans hnext)
      simp [hroot]

theorem isDescendant_trans {id middle ancestor : ObjectId} (hmiddle : objects.isDescendant id middle)
    (hancestor : objects.isDescendant middle ancestor) : objects.isDescendant id ancestor := by
  unfold isDescendant at *
  split at hancestor
  · rename_i above habove
    split at hmiddle
    · rename_i found hfound
      simp only [decide_eq_true_eq] at *
      rw [mem_ancestorsFrom hfound] at hmiddle ⊢
      exact hmiddle.trans ((mem_ancestorsFrom habove ancestor).mp hancestor)
    · cases hmiddle
  · cases hancestor

end CatalogObjects

/-! ## The check -/

def scopeCoversScope (available requested : ProductScope) (isDescendant : ObjectId → ObjectId → Bool) : Bool :=
  match available, requested with
  | .instance_, _ => true
  | _, .instance_ | .catalogObject _, .catalogSubtree _ => false
  | .catalogObject available, .catalogObject requested => available = requested
  | .catalogSubtree available, .catalogObject requested | .catalogSubtree available, .catalogSubtree requested =>
    available = requested || isDescendant requested available

/-- The permissions in turn, from the lowest tag. -/
def everyRequiredPermission (required : ProductAuthorization) (predicate : ProductPermission → Bool) : Bool :=
  (ProductPermission.all.filter required.allows).all predicate

def ProductAuthorization.isSubsetOf (authorization authority : ProductAuthorization) : Bool :=
  authority.bits &&& authorization.bits = authorization.bits

/-- The object that a scope names. -/
def ProductScope.object? : ProductScope → Option ObjectId
  | .instance_ => none
  | .catalogSubtree object | .catalogObject object => some object

namespace CatalogObjects

variable (objects : CatalogObjects)

/-- Every object has an ancestry; the first that does not exist ends the loop. -/
def allDescribed : List ObjectId → Except ProductErrorCode Bool
  | [] => .ok true
  | target :: rest => do
    let _ ← objects.ancestors target
    match ← objects.catalogDescribe target with
    | none => .ok false
    | some _ => allDescribed rest

end CatalogObjects

section Check

variable (snapshot : Except ProductErrorCode CatalogObjects) (actor : AuthenticatedAuthority)

def authorityCoversScopeCeiling (permissionCeiling : ProductAuthorization) (requested : List ProductScope) :
    Except ProductErrorCode Bool :=
  if requested = [] then .ok false
  else do
    let objects ← snapshot
    let described ← objects.allDescribed
      (collectSet ((requested ++ actor.scopeCeiling ++ actor.scopedAuthorization.map
        ScopedAuthorization.scope).filterMap
        ProductScope.object?))
    .ok (described && requested.all fun requestedScope => everyRequiredPermission permissionCeiling fun permission =>
      !permission.supportsScope requestedScope ||
        (actor.scopeCeiling.any fun ceiling => scopeCoversScope ceiling requestedScope objects.isDescendant) &&
          actor.scopedAuthorization.any fun held => held.authorization.allows permission &&
            scopeCoversScope held.scope requestedScope objects.isDescendant)

/-- A failure of the store stays what it is, everything else is a denial. -/
def deniedUnlessStorage : ProductErrorCode → ProductErrorCode
  | .io => .io
  | .unavailable => .unavailable
  | .corruption => .corruption
  | _ => .authorizationDenied

def authorizeKeyIssue (principalId : SecurityId) (requestedRoles : List BuiltInRole)
    (requestedCustomRoles : List SecurityId) (permissionCeiling : ProductAuthorization)
    (scopeCeiling : List ProductScope) : Except ProductErrorCode Unit := do
  Except.failIf (.owner ∈ requestedRoles ∧ ¬actor.allowsInstance .ownershipManage) .authorizationDenied
  if principalId ≠ actor.principalId then
    Except.failIf (¬actor.allowsInstance .securityManage) .authorizationDenied
  else do
    let scopesAreCovered ←
      (authorityCoversScopeCeiling snapshot actor permissionCeiling scopeCeiling).mapError deniedUnlessStorage
    Except.failIf
      (¬(actor.authorization.allows .credentialSelfManage ∧ requestedRoles ⊆ actor.effectiveRoles ∧
        requestedCustomRoles ⊆ actor.effectiveCustomRoles ∧ permissionCeiling.isSubsetOf actor.authorization ∧
        scopesAreCovered))
      .authorizationDenied

end Check

/-! ## What the check compares -/

theorem ProductAuthorization.allows_of_isSubsetOf {authorization authority : ProductAuthorization}
    (h : authorization.isSubsetOf authority) (hallows : authorization.allows permission) :
    authority.allows permission := by
  rw [allows_eq_getLsbD, ← of_decide_eq_true h, BitVec.getLsbD_and, Bool.and_eq_true] at hallows
  rw [allows_eq_getLsbD]
  exact hallows.1

/-- A scope that covers a scope covers its objects. -/
theorem coversObject_of_scopeCoversScope {available requested : ProductScope}
    (hscope : scopeCoversScope available requested objects.isDescendant)
    (htarget : requested.coversObject target objects.isDescendant) :
    available.coversObject target objects.isDescendant := by
  cases available with
  | instance_ => rfl
  | catalogObject object =>
    cases requested with
    | instance_ | catalogSubtree root => cases hscope
    | catalogObject requested =>
      obtain rfl := of_decide_eq_true hscope
      exact htarget
  | catalogSubtree root =>
    have hbelow : ∀ {requested}, (root = requested || objects.isDescendant requested root) = true →
        objects.isDescendant target requested → objects.isDescendant target root := by
      intro requested hroot hrequested
      rcases (Bool.or_eq_true _ _).mp hroot with heq | hroot
      · rwa [of_decide_eq_true heq]
      · exact CatalogObjects.isDescendant_trans hrequested hroot
    cases requested with
    | instance_ => cases hscope
    | catalogObject requested =>
      obtain rfl := of_decide_eq_true htarget
      exact hscope
    | catalogSubtree requested =>
      rcases (Bool.or_eq_true _ _).mp htarget with heq | htarget
      · obtain rfl := of_decide_eq_true heq
        exact hscope
      · exact (Bool.or_eq_true _ _).mpr (.inr (hbelow hscope htarget))

/-- Whatever the principal's roles, the key reaches no further than the acting key. -/
structure Narrower (objects : CatalogObjects) (key acting : ApiKeyRecord) : Prop where
  principalId : key.principalId = acting.principalId
  roles : key.roles ⊆ acting.roles
  customRoles : key.customRoles ⊆ acting.customRoles
  permissions : ∀ permission, key.permissionCeiling.allows permission → acting.permissionCeiling.allows permission
  scopes : ∀ permission, key.permissionCeiling.allows permission → ∀ scope ∈ key.scopeCeiling,
    permission.supportsScope scope → ∃ ceiling ∈ acting.scopeCeiling,
      scopeCoversScope ceiling scope objects.isDescendant

section Authority

variable {catalog : AccessControlCatalog} {principal : SecurityPrincipalRecord} {key : ApiKeyRecord}
  {scope : ProductScope}

theorem permissionCeiling_of_held {held : ScopedAuthorization}
    (hheld : held ∈ catalog.scopedAuthorization principal key)
    (hallows : held.authorization.allows permission) : key.permissionCeiling.allows permission :=
  (exists_mem_effectiveScopes.mp ⟨held, hheld, rfl, hallows⟩).1

theorem permissionCeiling_of_effectiveAuthorization
    (h : (catalog.effectiveAuthorization principal acting).allows permission) :
    acting.permissionCeiling.allows permission := by
  obtain ⟨held, hheld, hallows⟩ := effectiveAuthorization_allows.mp h
  exact permissionCeiling_of_held hheld hallows

theorem scopes_of_authorityCoversScopeCeiling {actor : AuthenticatedAuthority} {ceiling : ProductAuthorization}
    {requested : List ProductScope} (h : authorityCoversScopeCeiling (.ok objects) actor ceiling requested = .ok true)
    (hallows : ceiling.allows permission) (hscope : scope ∈ requested) (hsupports : permission.supportsScope scope) :
    ∃ available ∈ actor.scopeCeiling, scopeCoversScope available scope objects.isDescendant := by
  rw [authorityCoversScopeCeiling, if_neg (ne_nil_of_mem hscope)] at h
  simp only [bind_eq_ok, ok.injEq, exists_eq_left', Bool.and_eq_true, all_eq_true,
    everyRequiredPermission, mem_filter, Bool.or_eq_true, any_eq_true] at h
  obtain ⟨-, -, -, h⟩ := h
  rcases h scope hscope permission ⟨ProductPermission.mem_all permission, hallows⟩ with hno | ⟨hcovered, -⟩
  · rw [hsupports] at hno
    cases hno
  · exact hcovered

/-- The check of a self-managed issue, from what the acting key's authority is made of. -/
theorem narrower_of_authorizeKeyIssue {blake3 : Bytes → Digest} {productPrincipal : ProductPrincipal} {lineage : Bytes}
    {keyId : ApiKeyId} (hprincipal : principal.id = acting.principalId) (hself : key.principalId = principal.id)
    (h : authorizeKeyIssue (.ok objects) (catalog.resolvedAuthority blake3 keyId acting principal productPrincipal
      lineage) key.principalId key.roles key.customRoles key.permissionCeiling key.scopeCeiling = .ok ()) :
    Narrower objects key acting := by
  simp only [authorizeKeyIssue, bind_eq_ok] at h
  obtain ⟨_, -, h⟩ := h
  have hsame : ¬key.principalId ≠
      (catalog.resolvedAuthority blake3 keyId acting principal productPrincipal lineage).principalId :=
        not_not.mpr hself
  rw [if_neg hsame] at h
  simp only [bind_eq_ok, mapError_eq_ok, failIf_eq_ok, not_not] at h
  obtain ⟨covered, hcovered, -, hroles, hcustom, hceiling, rfl⟩ := h
  refine ⟨hself.trans hprincipal, fun role hrole => ?_, fun roleId hrole => ?_, fun permission hallows => ?_,
    fun permission hallows scope hscope hsupports =>
      scopes_of_authorityCoversScopeCeiling hcovered hallows hscope hsupports⟩
  · obtain ⟨assignment, hassignment, rfl⟩ := mem_map.mp (mem_collectSet.mp (hroles hrole))
    exact (mem_matchingAssignments.mp hassignment).2.2
  · have hmem := mem_collectSet.mp (hcustom hrole)
    simp only [mem_map, mem_filter, Bool.and_eq_true, contains_iff_mem] at hmem
    obtain ⟨assignment, ⟨-, ⟨-, hnamed⟩, -⟩, rfl⟩ := hmem
    exact hnamed
  · exact permissionCeiling_of_effectiveAuthorization (ProductAuthorization.allows_of_isSubsetOf hceiling hallows)

/-! ## What the keys may do -/

/-- Both keys read the same assignments. -/
theorem Narrower.held (h : Narrower objects key acting)
    (hheld : ∃ held ∈ catalog.scopedAuthorization principal key, held.scope = scope ∧
      held.authorization.allows permission) :
    ∃ held ∈ catalog.scopedAuthorization principal acting, held.scope = scope ∧
      held.authorization.allows permission := by
  simp only [scopedAuthorization, exists_mem_effectiveScopes, mem_matchingAssignments, mem_customGrants] at hheld ⊢
  obtain ⟨hceiling, hsupports, hrole⟩ := hheld
  refine ⟨h.permissions permission hceiling, hsupports, ?_⟩
  rcases hrole with ⟨assignment, ⟨hassignment, hof, hnamed⟩, hgrant⟩ |
    ⟨grant, ⟨assignment, hassignment, hof, hnamed, hrole⟩, hgrant⟩
  · exact .inl ⟨assignment, ⟨hassignment, hof, h.roles hnamed⟩, hgrant⟩
  · exact .inr ⟨grant, ⟨assignment, hassignment, hof, h.customRoles hnamed, hrole⟩, hgrant⟩

variable {blake3 : Bytes → Digest} {productPrincipal : ProductPrincipal} {lineage : Bytes} {keyId : ApiKeyId}

theorem Narrower.allowsObject (h : Narrower objects key acting)
    (hallows : (catalog.resolvedAuthority blake3 keyId key principal productPrincipal lineage).allowsObject permission
      target objects.isDescendant) :
    (catalog.resolvedAuthority blake3 actingId acting principal productPrincipal lineage).allowsObject permission target
      objects.isDescendant := by
  obtain ⟨hsupports, ⟨scope, hscope, hcovers⟩, held, hheld, hpermission, hgrant⟩ :=
    AuthenticatedAuthority.allowsObject_iff.mp hallows
  obtain ⟨ceiling, hceiling, hover⟩ := h.scopes permission (permissionCeiling_of_held hheld hpermission) scope hscope
    (permission.supportsScope_of_object hsupports scope)
  obtain ⟨held', hheld', hsame, hpermission'⟩ := h.held ⟨held, hheld, rfl, hpermission⟩
  exact AuthenticatedAuthority.allowsObject_iff.mpr ⟨hsupports,
    ⟨ceiling, hceiling, coversObject_of_scopeCoversScope hover hcovers⟩, held', hheld', hpermission', hsame ▸ hgrant⟩

theorem Narrower.allowsInstance (h : Narrower objects key acting)
    (hallows : (catalog.resolvedAuthority blake3 keyId key principal productPrincipal lineage).allowsInstance
      permission) :
    (catalog.resolvedAuthority blake3 actingId acting principal productPrincipal lineage).allowsInstance
      permission := by
  simp only [AuthenticatedAuthority.allowsInstance, resolvedAuthority, Bool.and_eq_true,
    any_eq_true, contains_iff_mem, decide_eq_true_eq] at hallows ⊢
  obtain ⟨hinstance, held, hheld, hscope, hpermission⟩ := hallows
  obtain ⟨ceiling, hceiling, hover⟩ :=
    h.scopes permission (permissionCeiling_of_held hheld hpermission) .instance_ hinstance rfl
  refine ⟨?_, h.held ⟨held, hheld, hscope, hpermission⟩⟩
  -- Only the instance covers the instance.
  cases ceiling with
  | instance_ => exact hceiling
  | catalogSubtree _ | catalogObject _ => cases hover

end Authority

/-! ## After the issue -/

namespace AccessControlCatalog

/-- Some moment at which the key authenticates with an authority that passes. -/
def Passes (catalog : AccessControlCatalog) (blake3 : Bytes → Digest) (lineage : Bytes) (keyId : ApiKeyId)
    (allowed : AuthenticatedAuthority → Bool) : Prop :=
  ∃ time authority, catalog.authorityForKey blake3 keyId time lineage = .ok authority ∧ allowed authority

end AccessControlCatalog

/-- The new key is activated, and roles are assigned and revoked. -/
def CatalogMutation.FollowsIssue (newId : ApiKeyId) : CatalogMutation → Prop
  | .activateKey id => id = newId
  | .assignBuiltInRole .. | .assignCustomRole .. | .revokeAssignment .. => True
  | _ => False

inductive AfterIssue (newId : ApiKeyId) (issued : AccessControlCatalog) : AccessControlCatalog → Prop
  | refl : AfterIssue newId issued issued
  | step {catalog after : AccessControlCatalog} {mutation : CatalogMutation} (h : AfterIssue newId issued catalog)
    (hfollows : mutation.FollowsIssue newId) (hrun : mutation.run catalog = .ok () after) :
      AfterIssue newId issued after

/-- The two keys as they were issued, up to the activation of the new one. -/
structure Standing (newId actingId : ApiKeyId) (objects : CatalogObjects) (acting : ApiKeyRecord)
    (principal : SecurityPrincipalRecord) (catalog : AccessControlCatalog) : Prop where
  actingStored : catalog.keys.get actingId = some acting
  newStored : ∃ key, catalog.keys.get newId = some key ∧ Narrower objects key acting
  principalStored : catalog.principals.get acting.principalId = some principal

theorem Standing.later (hne : actingId ≠ newId) {principal : SecurityPrincipalRecord}
    {issued later : AccessControlCatalog} (h : Standing newId actingId objects acting principal issued)
    (hlater : AfterIssue newId issued later) : Standing newId actingId objects acting principal later := by
  induction hlater with
  | refl => exact h
  | @step _ _ mutation _ hfollows hrun ih =>
    cases mutation with
    | activateKey id =>
      obtain rfl := hfollows
      obtain ⟨_, hrun⟩ := forget_eq_ok.mp hrun
      obtain ⟨key, hkey, -, -, -, -, rfl⟩ := activateKey_ok hrun
      obtain ⟨stored, hstored, hnarrow⟩ := ih.newStored
      obtain rfl := Option.mem_unique hkey hstored
      exact ⟨(get_insert_of_ne _ _ hne).trans ih.actingStored,
        ⟨_, get_insert_self .., { hnarrow with }⟩, ih.principalStored⟩
    | assignBuiltInRole =>
      obtain ⟨_, hrun⟩ := forget_eq_ok.mp hrun
      obtain ⟨-, -, -, -, -, -, rfl⟩ := assignBuiltInRole_ok hrun
      exact { ih with }
    | assignCustomRole =>
      obtain ⟨_, hrun⟩ := forget_eq_ok.mp hrun
      obtain ⟨-, -, -, -, -, -, rfl⟩ := assignCustomRole_ok hrun
      exact { ih with }
    | revokeAssignment =>
      obtain ⟨_, hrun⟩ := forget_eq_ok.mp hrun
      obtain ⟨_, -, -, rfl⟩ | ⟨_, -, rfl⟩ := revokeAssignment_ok hrun
      · exact { ih with }
      · exact { ih with }
    | _ => exact hfollows.elim

theorem held_of_allowsObject {isDescendant : ObjectId → ObjectId → Bool}
    (h : authority.allowsObject permission target isDescendant) :
    ∃ held ∈ authority.scopedAuthorization, held.authorization.allows permission := by
  obtain ⟨-, -, held, hheld, hallows, -⟩ := AuthenticatedAuthority.allowsObject_iff.mp h
  exact ⟨held, hheld, hallows⟩

theorem held_of_allowsInstance (h : authority.allowsInstance permission) :
    ∃ held ∈ authority.scopedAuthorization, held.authorization.allows permission := by
  simp only [AuthenticatedAuthority.allowsInstance, Bool.and_eq_true, any_eq_true] at h
  obtain ⟨-, held, hheld, -, hallows⟩ := h
  exact ⟨held, hheld, hallows⟩

/-- What passes for the new key passes for the acting key, at a moment at which that one is live. -/
theorem Standing.passes {principal : SecurityPrincipalRecord} {catalog : AccessControlCatalog} {blake3 : Bytes → Digest}
    {lineage : Bytes} {time : Int} {allowed : AuthenticatedAuthority → Bool}
    (h : Standing newId actingId objects acting principal catalog) (hlive : Live acting time)
    (hheld : ∀ authority, allowed authority →
      ∃ held ∈ authority.scopedAuthorization, held.authorization.allows permission)
    (hnarrower : ∀ key productPrincipal, Narrower objects key acting →
      allowed (catalog.resolvedAuthority blake3 newId key principal productPrincipal lineage) →
      allowed (catalog.resolvedAuthority blake3 actingId acting principal productPrincipal lineage))
    (hnew : catalog.Passes blake3 lineage newId allowed) : catalog.Passes blake3 lineage actingId allowed := by
  obtain ⟨_, _, hok, hallowed⟩ := hnew
  obtain ⟨hlineage, key, hkey, -, _, productPrincipal, hprincipal, henabled, -, hproduct, rfl⟩ :=
    (authorityForKey_iff blake3).mp hok
  obtain ⟨stored, hstored, hnarrow⟩ := h.newStored
  obtain rfl := Option.mem_unique hkey hstored
  rw [hnarrow.principalId] at hprincipal
  obtain rfl := Option.some.inj (h.principalStored.symm.trans hprincipal)
  have hacting := hnarrower key productPrincipal hnarrow hallowed
  obtain ⟨held, hmem, hallows⟩ := hheld _ hacting
  have hsome : catalog.effectiveAuthorization principal acting ≠ .none :=
    ProductAuthorization.ne_none_iff.mpr ⟨permission, effectiveAuthorization_allows.mpr ⟨held, hmem, hallows⟩⟩
  have hover : ¬catalog.pastOverlap acting time := by
    unfold pastOverlap
    split
    · rename_i hoverlap
      simp [hlive.inOverlap _ hoverlap]
    · simp
  exact ⟨time, _, (authorityForKey_iff blake3).mpr ⟨hlineage, acting, h.actingStored,
    ⟨hlive.active, hlive.notRevoked, hlive.notExpired, hover⟩, _, productPrincipal, hprincipal, henabled, hsome,
      hproduct, rfl⟩, hacting⟩

section Issue

variable {catalog : AccessControlCatalog} {request : AccessControlCatalog.KeyIssue}

/-- A live key is not among the retired ones. -/
theorem not_mem_retired (hvalid : catalog.validate = .ok ()) {verifier : ApiKeyVerifier}
    {retired : List (Int × ApiKeyId)} (hissued : AccessControlCatalog.KeyIssued catalog request verifier retired)
    (hacting : catalog.keys.get actingId = some acting) (hlive : Live acting request.createdAtMicros) :
    actingId ∉ retired.map Prod.snd := by
  intro hmem
  obtain ⟨-, -, hretired⟩ := retiredKeys_ok (validate_eq_ok.mp hvalid) hissued.room
  obtain ⟨key, hkey, hover⟩ := hretired actingId hmem
  obtain rfl := Option.mem_unique hkey hacting
  simp only [isRetired, Bool.and_eq_true, Bool.or_eq_true, Option.any_eq_true] at hover
  rcases hover.2 with hrevoked | ⟨expiry, hexpiry, hpassed⟩
  · exact hlive.notRevoked hrevoked
  · exact absurd (hlive.notExpired expiry hexpiry) (not_lt.mpr (of_decide_eq_true hpassed))

variable {blake3 : Bytes → Digest} {lineage : Bytes} {actor : AuthenticatedAuthority} {verifier : ApiKeyVerifier}
  {issued later : AccessControlCatalog}

/-- For every valid catalog, acting key and accepted issue for the acting key's own principal: whatever the new key is
allowed, once it is active and after any changes of roles, the acting key is allowed. -/
theorem self_issued_key_never_wider (hvalid : catalog.validate = .ok ())
    (hactor : catalog.authorityForKey blake3 actingId request.createdAtMicros lineage = .ok actor)
    (hself : request.principalId = actor.principalId)
    (haccepted : authorizeKeyIssue (.ok objects) actor request.principalId (collectSet request.roles)
      (collectSet request.customRoles) request.permissionCeiling (collectSet request.scopeCeiling) = .ok ())
    (hissue : (CatalogMutation.beginKeyIssue request (some verifier)).run catalog = .ok () issued)
    (hlater : AfterIssue verifier.id issued later) (permission : ProductPermission) :
    (∀ target, later.Passes blake3 lineage verifier.id (·.allowsObject permission target objects.isDescendant) →
        later.Passes blake3 lineage actingId (·.allowsObject permission target objects.isDescendant)) ∧
      (later.Passes blake3 lineage verifier.id (·.allowsInstance permission) →
        later.Passes blake3 lineage actingId (·.allowsInstance permission)) := by
  obtain ⟨hlineage, -⟩ := (authorityForKey_iff blake3).mp hactor
  obtain ⟨acting, hacting, hlive, principal, productPrincipal, hprincipal, henabled, -, -, rfl⟩ :=
    (authorityForKey_eq_ok hvalid blake3 hlineage).mp hactor
  obtain ⟨_, hissue⟩ := forget_eq_ok.mp hissue
  obtain ⟨_, dropped, hissued, ⟨rfl⟩, -, rfl⟩ := AccessControlCatalog.beginKeyIssue_ok hissue
  have hid : principal.id = acting.principalId := catalog.principals_keyed.of_get hprincipal
  have hne := ne_of_get hacting hissued.fresh
  have hkept := not_mem_retired hvalid hissued hacting hlive
  have hstanding : Standing verifier.id actingId objects acting principal
      (catalog.rekeyed (catalog.afterIssue request verifier dropped)) :=
    ⟨get_insert_eraseAll_eq_some.mpr (.inr ⟨hne, hkept, hacting⟩),
      ⟨_, get_insert_self .., narrower_of_authorizeKeyIssue hid hself haccepted⟩,
      hprincipal⟩
  have hends := hstanding.later hne hlater
  exact ⟨fun target => hends.passes hlive (fun _ => held_of_allowsObject) fun _ _ hnarrow => hnarrow.allowsObject,
    hends.passes hlive (fun _ => held_of_allowsInstance) fun _ _ hnarrow => hnarrow.allowsInstance⟩

end Issue

namespace Rotated

def object : ObjectId := .ofSucc 4

/-- The owner's second key issues one for a single object. -/
def ownIssue : AccessControlCatalog.KeyIssue := ⟨ownerId, ['n'], [.owner], [], .all, [.catalogObject object], 10, none⟩

def oneObject : CatalogObjects := ⟨OrderedMap.empty.insert object none, fun _ => none⟩

def lineage : Bytes := List.replicate 24 255

def ownVerifier : ApiKeyVerifier := ⟨keyId 51, Digest.zero⟩

def readerId : SecurityId := .ofSucc 6

/-- The owner becomes a reader of the object, too. -/
def roleChange : CatalogMutation := .assignBuiltInRole ownerId .reader (.catalogObject object) (some readerId)

end Rotated

open Rotated in
theorem self_issued_key_never_wider_owner : ∃ later : AccessControlCatalog, (later.assignments.get readerId).isSome ∧
    later.Passes noDigest lineage (keyId 51) (·.allowsObject .dataRead object oneObject.isDescendant) ∧
      later.Passes noDigest lineage (keyId 34) (·.allowsObject .dataRead object oneObject.isDescendant) := by
  have hactor : ((catalog.authorityForKey noDigest (keyId 34) 10 lineage).toOption.any fun actor =>
      decide (ownerId = actor.principalId ∧ authorizeKeyIssue (.ok oneObject) actor ownerId (collectSet [.owner])
        (collectSet []) .all (collectSet [.catalogObject object]) = .ok ())) = true := by
    decide +kernel
  obtain ⟨actor, hactor, hchecked⟩ := exists_of_any _ hactor
  obtain ⟨hself, haccepted⟩ := of_decide_eq_true hchecked
  have hissued : ((afterRun (.beginKeyIssue ownIssue (some ownVerifier)) catalog).toOption.any fun issued =>
      (afterRun (.activateKey (keyId 51)) issued).toOption.any fun active =>
        (afterRun roleChange active).toOption.any fun later => (later.assignments.get readerId).isSome &&
          (later.authorityForKey noDigest (keyId 51) 20 lineage).toOption.any
            (·.allowsObject .dataRead object oneObject.isDescendant)) = true := by
    decide +kernel
  obtain ⟨issued, hissue, hactive⟩ := exists_of_any _ hissued
  obtain ⟨active, hactivate, hlater⟩ := exists_of_any _ hactive
  obtain ⟨later, hchange, hnew⟩ := exists_of_any _ hlater
  obtain ⟨hreader, hnew⟩ := Bool.and_eq_true_iff.mp hnew
  obtain ⟨authority, hauthority, hallows⟩ := exists_of_any _ hnew
  have hfollows : (CatalogMutation.activateKey (keyId 51)).FollowsIssue ownVerifier.id ∧
      roleChange.FollowsIssue ownVerifier.id := ⟨rfl, trivial⟩
  have hreached : AfterIssue ownVerifier.id issued later :=
    .step (.step .refl hfollows.1 (run_of_afterRun hactivate)) hfollows.2 (run_of_afterRun hchange)
  have hpasses : later.Passes noDigest lineage (keyId 51) (·.allowsObject .dataRead object oneObject.isDescendant) :=
    ⟨20, authority, hauthority, hallows⟩
  exact ⟨later, hreader, hpasses,
    (self_issued_key_never_wider validate_catalog hactor hself haccepted (run_of_afterRun hissue) hreached .dataRead).1
      object hpasses⟩

end Hyphae.Access
