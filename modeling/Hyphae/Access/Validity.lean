import Hyphae.Access.Authenticate
import Hyphae.Access.Directory

/-!
# A mutation of a valid catalog

Every mutating method of the catalog, with any arguments, on any catalog that passes its
audit. A refused request leaves the catalog as it was, with one exception; an accepted
one moves it to its next generation, and the audit accepts that generation exactly under
a condition on the catalog before.
-/

namespace Hyphae.Access

open Lib

open EStateM List

open Wal (Digest)

variable {index : List SecurityAuditIndexEntry} {α : Type} {commitCsn : Nat}

/-! ## The audit index -/

theorem AuditOk.append (h : AuditOk index) {event : SecurityAuditIndexEntry} (hcommitted : event.commitCsn ≠ 0)
    (hlater : ∀ old ∈ index, old.commitCsn < event.commitCsn) (hfresh : ∀ old ∈ index, old.id ≠ event.id)
    (hroom : index.length < AccessControlLimits.v1.retainedAuditEvents) : AuditOk (index ++ [event]) where
  length_le := by
    rw [length_append]
    exact hroom
  sorted := by
    have hsorted := h.sorted
    rw [strictlySorted, decide_eq_true_eq, ascending_iff_pairwise] at hsorted ⊢
    simpa [pairwise_append] using ⟨hsorted, hlater⟩
  committed := by
    intro old hold
    rcases mem_append.mp hold with hold | hold
    · exact h.committed old hold
    · rw [mem_singleton.mp hold]
      exact hcommitted
  nodup := by simpa [nodup_append] using ⟨h.nodup, hfresh⟩

theorem AuditOk.sublist {kept : List SecurityAuditIndexEntry} (h : AuditOk index) (hsub : kept.Sublist index) :
    AuditOk kept where
  length_le := hsub.length_le.trans h.length_le
  sorted := by
    have hsorted := h.sorted
    rw [strictlySorted, decide_eq_true_eq, ascending_iff_pairwise] at hsorted ⊢
    exact hsorted.sublist (hsub.map _)
  committed := fun event hevent => h.committed event (hsub.subset hevent)
  nodup := h.nodup.sublist (hsub.map _)

/-- An audit index that is sorted ends with its latest event. -/
theorem AuditOk.lt_of_getLast (h : AuditOk index)
    (hlast : ∀ event, index.getLast? = some event → event.commitCsn < commitCsn) :
    ∀ event ∈ index, event.commitCsn < commitCsn := by
  have hsorted := h.sorted
  rw [strictlySorted, decide_eq_true_eq, ascending_iff_pairwise, pairwise_map] at hsorted
  intro event hevent
  obtain ⟨init, last, rfl⟩ := (eq_nil_or_concat' index).resolve_left (ne_nil_of_mem hevent)
  have hend := hlast last (by simp)
  rcases mem_append.mp hevent with hinit | hmem
  · exact ((pairwise_append.mp hsorted).2.2 event hinit last (by simp)).trans hend
  · rwa [mem_singleton.mp hmem]

namespace AccessControlCatalog

/-- Lists one committed event in the audit index; the oldest event makes room for it. The event enters by the length
of its encoding. -/
def appendAuditEvent (commitCsn : Nat) (draw : Option SecurityId) (encodedLength : SecurityId → AccessM Nat) :
    Mutating (SecurityAuditIndexEntry × Option SecurityAuditIndexEntry) := atomically fun catalog => do
  Except.failIf (commitCsn = 0) .invalidRequest
  let id ← Except.okOr draw .entropy
  Except.failIf
    ((catalog.auditIndex.any fun event => event.id = id) ∨
      catalog.auditIndex.getLast?.any fun event => commitCsn ≤ event.commitCsn)
    .conflict
  let length ← encodedLength id
  Except.failIf (length > AccessControlLimits.v1.auditEventBytes) .limitExceeded
  let full := catalog.auditIndex.length = AccessControlLimits.v1.retainedAuditEvents
  let kept := if full then catalog.auditIndex.tail else catalog.auditIndex
  .ok ((⟨id, commitCsn⟩, if full then catalog.auditIndex.head? else none),
    { catalog with auditIndex := kept ++ [⟨id, commitCsn⟩] })

variable {catalog after : AccessControlCatalog}

theorem appendAuditEvent_ok {draw : Option SecurityId} {encodedLength : SecurityId → AccessM Nat}
    {result : SecurityAuditIndexEntry × Option SecurityAuditIndexEntry} (h : WellFormed catalog)
    (hrun : appendAuditEvent commitCsn draw encodedLength catalog = .ok result after) :
    after.epoch = catalog.epoch ∧ (WellFormed after ↔ catalog.principals.entries ≠ []) := by
  simp only [appendAuditEvent, atomically_eq_ok, Except.bind_eq_ok, Except.failIf_eq_ok, Except.okOr_eq_ok,
    Except.ok.injEq, Prod.mk.injEq, not_or, Option.any_eq_true, not_exists, not_and, decide_eq_true_eq, not_le,
    any_eq_true] at hrun
  obtain ⟨-, hcommitted, id, -, -, ⟨hfresh, hlast⟩, _, -, -, -, -, rfl⟩ := hrun
  refine ⟨rfl, ?_⟩
  constructor
  · intro h' hnil
    exact absurd (h'.unmanaged hnil).auditIndex (by simp)
  · intro hsome
    refine { h with audit := ?_, unmanaged := fun hnil => absurd hnil hsome }
    have hlater := h.audit.lt_of_getLast hlast
    change AuditOk ((if _ then _ else _) ++ _)
    split
    · rename_i hfull
      have hsub : catalog.auditIndex.tail.Sublist catalog.auditIndex := tail_sublist _
      refine (h.audit.sublist hsub).append hcommitted (fun old hold => hlater old (hsub.subset hold))
        (fun old hold => hfresh old (hsub.subset hold)) ?_
      rw [length_tail, hfull]
      decide
    · rename_i hfull
      exact h.audit.append hcommitted hlater hfresh (lt_of_le_of_ne h.audit.length_le hfull)

end AccessControlCatalog

/-! ## Every mutation -/

/-- One call of a mutating method, with what it draws from the operating system. -/
inductive CatalogMutation
  | bootstrapOwner (displayName keyLabel : List Char) (createdAtMicros : Int)
    (principalDraw assignmentDraw : Option SecurityId) (issue : Option ApiKeyVerifier)
  | beginLegacyBearerMigration (displayName keyLabel : List Char) (createdAtMicros : Int)
      (requestDigest bearer : Digest)
    (principalDraw assignmentDraw operationDraw : Option SecurityId) (issue : Option ApiKeyVerifier)
  | activateLegacyBearerMigration (keyId : ApiKeyId) (expected : AuthorizationEpoch) (requestDigest : Digest)
  | revokeLegacyBearer
  | createPrincipal (displayName : List Char) (draw : Option SecurityId)
  | setPrincipalEnabled (principalId : SecurityId) (enabled : Bool)
  | assignBuiltInRole (principalId : SecurityId) (role : BuiltInRole) (scope : ProductScope) (draw : Option SecurityId)
  | createCustomRole (displayName : List Char) (grants : List CustomRoleGrant) (draw : Option SecurityId)
  | assignCustomRole (principalId roleId : SecurityId) (draw : Option SecurityId)
  | revokeAssignment (assignmentId : SecurityId)
  | beginKeyIssue (request : AccessControlCatalog.KeyIssue) (issue : Option ApiKeyVerifier)
  | revokeKey (id : ApiKeyId)
  | activateKey (id : ApiKeyId)
  | activateRotatedKey (id : ApiKeyId) (activatedAtMicros : Int)
  | beginKeyRotation (predecessorId : ApiKeyId) (label : List Char) (overlapSeconds : Nat) (createdAtMicros : Int)
    (expiresAtMicros : Option Int) (issue : Option ApiKeyVerifier)
  | abortKeyRotation (id : ApiKeyId)
  | abortPendingKeyIssue (principalId : SecurityId) (label : List Char)
  | beginOwnerRecovery (label : List Char) (createdAtMicros : Int) (operationDraw : Option SecurityId)
    (issue : Option ApiKeyVerifier)
  | activateRecoveredOwnerKey (id : ApiKeyId)
  | abortOwnerRecovery (keyId : ApiKeyId) (expected : AuthorizationEpoch)
  | appendAuditEvent (commitCsn : Nat) (draw : Option SecurityId)
    (encodedLength : SecurityId → AccessM Nat)

/-- The method without its result. -/
def forget {α : Type} (method : Mutating α) : Mutating Unit := do
  let _ ← method
  pure ()

theorem forget_eq_ok {method : Mutating α} {catalog after : AccessControlCatalog} {u : Unit} :
    forget method catalog = .ok u after ↔ ∃ result, method catalog = .ok result after := by
  rw [forget, bind_eq_ok]
  simp

theorem forget_eq_error {method : Mutating α} {catalog after : AccessControlCatalog} {error : AccessCatalogError} :
    forget method catalog = .error error after ↔ method catalog = .error error after := by
  rw [forget, bind_eq_error]
  simp

namespace CatalogMutation

open AccessControlCatalog

variable {error : AccessCatalogError} {requestDigest bearer : Digest} {displayName keyLabel : List Char} {created : Int}
  {principalDraw assignmentDraw operationDraw : Option SecurityId} {issue : Option ApiKeyVerifier}
  {mutation : CatalogMutation} {owner : SecurityId × ApiKeyId} {accepted : Prop}

def run : CatalogMutation → Mutating Unit
  | .bootstrapOwner displayName keyLabel created principalDraw assignmentDraw issue =>
    forget (AccessControlCatalog.bootstrapOwner displayName keyLabel created principalDraw assignmentDraw issue)
  | .beginLegacyBearerMigration displayName keyLabel created requestDigest bearer principalDraw assignmentDraw
      operationDraw issue =>
    forget (AccessControlCatalog.beginLegacyBearerMigration displayName keyLabel created requestDigest bearer
      principalDraw assignmentDraw operationDraw issue)
  | .activateLegacyBearerMigration keyId expected requestDigest =>
    forget (AccessControlCatalog.activateLegacyBearerMigration keyId expected requestDigest)
  | .revokeLegacyBearer => forget AccessControlCatalog.revokeLegacyBearer
  | .createPrincipal displayName draw => forget (AccessControlCatalog.createPrincipal displayName draw)
  | .setPrincipalEnabled principalId enabled => forget (AccessControlCatalog.setPrincipalEnabled principalId enabled)
  | .assignBuiltInRole principalId role scope draw =>
    forget (AccessControlCatalog.assignBuiltInRole principalId role scope draw)
  | .createCustomRole displayName grants draw => forget (AccessControlCatalog.createCustomRole displayName grants draw)
  | .assignCustomRole principalId roleId draw => forget (AccessControlCatalog.assignCustomRole principalId roleId draw)
  | .revokeAssignment assignmentId => forget (AccessControlCatalog.revokeAssignment assignmentId)
  | .beginKeyIssue request issue => forget (beginKeyIssueWithRolesAndPruning request issue)
  | .revokeKey id => forget (AccessControlCatalog.revokeKey id)
  | .activateKey id => forget (AccessControlCatalog.activateKey id)
  | .activateRotatedKey id activatedAt => forget (AccessControlCatalog.activateRotatedKey id activatedAt)
  | .beginKeyRotation predecessorId label overlap created expires issue =>
    forget (beginKeyRotationWithPruning predecessorId label overlap created expires issue)
  | .abortKeyRotation id => forget (AccessControlCatalog.abortKeyRotation id)
  | .abortPendingKeyIssue principalId label => forget (AccessControlCatalog.abortPendingKeyIssue principalId label)
  | .beginOwnerRecovery label created operationDraw issue =>
    forget (beginOwnerRecoveryWithRetired label created operationDraw issue)
  | .activateRecoveredOwnerKey id => forget (activateRecoveredOwnerKeyWithRetired id)
  | .abortOwnerRecovery keyId expected => forget (AccessControlCatalog.abortOwnerRecovery keyId expected)
  | .appendAuditEvent commitCsn draw encodedLength =>
    forget (AccessControlCatalog.appendAuditEvent commitCsn draw encodedLength)

/-- What is revoked already may be revoked again. -/
def Repeats (catalog : AccessControlCatalog) : CatalogMutation → Prop
  | .revokeLegacyBearer => catalog.legacyBearerState = .revoked
  | .revokeKey id => ∃ key, catalog.keys.get id = some key ∧ key.revoked = true
  | _ => False

/-- The generations that an accepted call moves the catalog on. -/
def generations : CatalogMutation → Nat
  | .appendAuditEvent .. => 0
  | _ => 1

/-- The catalogs on which an accepted call leaves a valid catalog. -/
def Keeps (catalog : AccessControlCatalog) : CatalogMutation → Prop
  | .bootstrapOwner .. | .beginOwnerRecovery .. | .activateRecoveredOwnerKey .. => True
  | .appendAuditEvent .. => catalog.principals.entries ≠ []
  | .abortOwnerRecovery keyId _ => catalog.migrationKey ≠ some keyId
  | .beginLegacyBearerMigration .. => catalog.legacyBearerState = .migrationPending →
    catalog.pendingOwnerRecovery = none ∧ ∀ id key, catalog.migrationKey = some id → catalog.keys.get id = some key →
      key.predecessorId = none ∧ key.successorId = none
  | .activateLegacyBearerMigration keyId _ _ =>
    catalog.pendingOwnerRecovery = none ∧ ∀ key, catalog.keys.get keyId = some key → ¬catalog.IsReserve key
  | .createPrincipal .. | .createCustomRole .. => catalog.pendingOwnerRecovery = none ∧ catalog.principals.entries ≠ []
  | .revokeLegacyBearer | .setPrincipalEnabled .. | .assignBuiltInRole .. | .assignCustomRole ..
      | .revokeAssignment .. =>
    catalog.pendingOwnerRecovery = none
  | .beginKeyIssue request _ => catalog.pendingOwnerRecovery = none ∧
    (.instance_ ∈ request.scopeCeiling → (collectSet request.scopeCeiling).length = 1) ∧
    ∀ retired, catalog.retiredUnlinkedKeysForCapacity request.principalId request.createdAtMicros
      (catalog.keyCount request.principalId) (catalog.ordinaryKeyLimit request.principalId) = .ok retired →
        ∀ id ∈ retired.map Prod.snd, catalog.migrationKey ≠ some id
  | .revokeKey id | .abortKeyRotation id => catalog.pendingOwnerRecovery = none ∧ catalog.migrationKey ≠ some id
  | .activateKey id => catalog.pendingOwnerRecovery = none ∧ catalog.migrationKey ≠ some id ∧
    ∀ key, catalog.keys.get id = some key → ¬catalog.IsReserve key
  | .activateRotatedKey id _ => catalog.pendingOwnerRecovery = none ∧ catalog.migrationKey ≠ some id ∧
    ∀ key, catalog.keys.get id = some key → key.rotationOverlapMicros = some 0 →
      ∀ predecessorId, key.predecessorId = some predecessorId → catalog.migrationKey ≠ some predecessorId
  | .beginKeyRotation predecessorId _ _ created _ _ => catalog.pendingOwnerRecovery = none ∧
    (∀ key, catalog.keys.get predecessorId = some key → key.createdAtMicros ≤ created) ∧
    ∀ ids, catalog.retiredRotationAncestors predecessorId created = .ok ids →
      ∀ id ∈ ids, catalog.migrationKey ≠ some id
  | .abortPendingKeyIssue principalId label => catalog.pendingOwnerRecovery = none ∧
    ∀ key, catalog.pendingKeyIssue principalId label = .ok key → catalog.migrationKey ≠ some key.id

variable {catalog after : AccessControlCatalog}

/-! ## Refused calls -/

theorem unchanged_of_atomically {plan : AccessControlCatalog → AccessM (α × AccessControlCatalog)}
    (h : forget (atomically plan) catalog = .error error after) : after = catalog :=
  (atomically_eq_error.mp (forget_eq_error.mp h)).2.symm

/-- A method that ends in one of two ways leaves the catalog alone when it is refused. -/
theorem unchanged_of_cases {method : Mutating α} (hcases : (∃ error, method catalog = .error error catalog) ∨ accepted)
    (haccepted : accepted → ∃ result after, method catalog = .ok result after)
    (h : forget method catalog = .error error after) : after = catalog := by
  rw [forget_eq_error] at h
  rcases hcases with ⟨_, hrefused⟩ | hok
  · rw [hrefused] at h
    cases h
    rfl
  · obtain ⟨_, _, hrun⟩ := haccepted hok
    rw [hrun] at h
    cases h

theorem accepted_of_cases {method : Mutating α} {result : α}
    (hcases : (∃ error, method catalog = .error error catalog) ∨ accepted) (h : method catalog = .ok result after) :
    accepted := by
  rcases hcases with ⟨_, hrefused⟩ | hok
  · cases hrefused.symm.trans h
  · exact hok

theorem activateLegacyBearerMigration_error {keyId : ApiKeyId} {expected : AuthorizationEpoch}
    (h : AccessControlCatalog.activateLegacyBearerMigration keyId expected requestDigest catalog = .error error after) :
    after = catalog := by
  rcases bind_eq_error.mp h with hfirst | ⟨migration, middle, hfirst, hrest⟩
  · exact (atomically_eq_error.mp hfirst).2.symm
  · simp only [atomically_eq_ok, Except.bind_eq_ok, Except.okOr_eq_ok, Except.ok.injEq, Prod.mk.injEq] at hfirst
    obtain ⟨_, -, _, -, -, rfl⟩ := hfirst
    rcases bind_eq_error.mp hrest with hactivate | ⟨_, _, -, hlast⟩
    · exact (atomically_eq_error.mp hactivate).2.symm
    · cases (atomically_eq_error.mp hlast).1

/-- The one call that can fail after it has changed the catalog. -/
theorem beginLegacyBearerMigration_error
    (h : AccessControlCatalog.beginLegacyBearerMigration displayName keyLabel created requestDigest bearer principalDraw
      assignmentDraw operationDraw issue catalog = .error error after) :
    after = catalog ∨ operationDraw = none ∧ error = .entropy ∧
      ∃ owner, AccessControlCatalog.bootstrapOwner displayName keyLabel created principalDraw assignmentDraw issue
        catalog = .ok owner after := by
  simp only [AccessControlCatalog.beginLegacyBearerMigration, bind_eq_error, ofExcept_eq_error,
    ofExcept_eq_ok, get_apply, reduceCtorEq, false_or, EStateM.Result.ok.injEq] at h
  rcases h with ⟨-, rfl⟩ | ⟨_, _, ⟨-, rfl⟩, ⟨-, rfl⟩ | ⟨_, _, ⟨-, rfl⟩, _, _, ⟨rfl, rfl⟩, h⟩⟩
  · exact .inl rfl
  · exact .inl rfl
  split at h
  · exact .inl (atomically_eq_error.mp h).2.symm
  · simp only [bind_eq_error, ofExcept_eq_error, ofExcept_eq_ok] at h
    rcases h with ⟨-, rfl⟩ | ⟨_, _, ⟨-, rfl⟩, h⟩
    · exact .inl rfl
    rcases bind_eq_error.mp h with hfirst | ⟨owner, middle, hfirst, hlast⟩
    · exact .inl (atomically_eq_error.mp hfirst).2.symm
    · simp only [atomically_eq_error, Except.bind_eq_error, Except.okOr_eq_error, reduceCtorEq, and_false, exists_false,
        or_false] at hlast
      obtain ⟨⟨hdraw, rfl⟩, rfl⟩ := hlast
      exact .inr ⟨hdraw, rfl, owner, hfirst⟩

theorem refused_unchanged (h : WellFormed catalog) (hrun : mutation.run catalog = .error error after) :
    after = catalog ∨ ∃ displayName keyLabel created requestDigest bearer principalDraw assignmentDraw issue owner,
      mutation = .beginLegacyBearerMigration displayName keyLabel created requestDigest bearer principalDraw
        assignmentDraw none issue ∧ error = .entropy ∧
      AccessControlCatalog.bootstrapOwner displayName keyLabel created principalDraw assignmentDraw issue catalog =
        .ok owner after := by
  cases mutation with
  | beginLegacyBearerMigration displayName keyLabel created requestDigest bearer principalDraw assignmentDraw
      operationDraw issue =>
    rcases beginLegacyBearerMigration_error (forget_eq_error.mp hrun) with hsame | ⟨rfl, rfl, owner, howner⟩
    · exact .inl hsame
    · exact .inr ⟨displayName, keyLabel, created, requestDigest, bearer, principalDraw, assignmentDraw, issue, owner,
        rfl, rfl, howner⟩
  | activateLegacyBearerMigration => exact .inl (activateLegacyBearerMigration_error (forget_eq_error.mp hrun))
  | activateRotatedKey id activatedAt =>
    exact .inl (unchanged_of_cases (activateRotatedKey_cases h id activatedAt)
      (fun ⟨_, _, _, _, hok⟩ => ⟨_, _, hok⟩) hrun)
  | beginKeyRotation predecessorId label overlap created expires issue =>
    exact .inl (unchanged_of_cases (beginKeyRotation_cases predecessorId label overlap created expires issue)
      (fun ⟨_, _, hok⟩ => ⟨_, _, hok⟩) hrun)
  | abortKeyRotation id =>
    exact .inl (unchanged_of_cases (abortKeyRotation_cases h id) (fun ⟨_, _, _, _, hok⟩ => ⟨_, _, hok⟩) hrun)
  | activateRecoveredOwnerKey id =>
    exact .inl (unchanged_of_cases (activateRecoveredOwnerKey_cases h id) (fun ⟨_, _, _, hok⟩ => ⟨_, _, hok⟩) hrun)
  | _ => exact .inl (unchanged_of_atomically hrun)

/-! ## Accepted calls -/

/-- What an accepted call leaves. -/
def Leaves (mutation : CatalogMutation) (catalog after : AccessControlCatalog) : Prop :=
  (mutation.Repeats catalog → after = catalog) ∧
    (¬mutation.Repeats catalog → after.epoch = catalog.epoch + mutation.generations ∧
      (WellFormed after ↔ mutation.Keeps catalog))

theorem leaves_of_iff (hrepeats : ¬mutation.Repeats catalog)
    (hepoch : after.epoch = catalog.epoch + mutation.generations) (hvalid : WellFormed after ↔ mutation.Keeps catalog) :
    mutation.Leaves catalog after :=
  ⟨fun h => absurd h hrepeats, fun _ => ⟨hepoch, hvalid⟩⟩

/-- A condition on the record that is there. -/
theorem forall_get_iff {κ ν : Type} [LinearOrder κ] {m : OrderedMap κ ν} {k : κ} {v : ν} {p : ν → Prop}
    (hget : m.get k = some v) : (∀ found, m.get k = some found → p found) ↔ p v := by
  simp [hget]

theorem bootstrapOwner_leaves (h : WellFormed catalog)
    (hrun : AccessControlCatalog.bootstrapOwner displayName keyLabel created principalDraw assignmentDraw issue
      catalog = .ok owner after) :
    ∃ assignmentId verifier, owner.2 = verifier.id ∧ catalog.unbootstrapped = true ∧
      validateDisplayName displayName = .ok () ∧ validateDisplayName keyLabel = .ok () ∧
      AuthorizationEpoch.initial = catalog.epoch + 1 ∧
      after = catalog.ownedBy owner.1 assignmentId displayName (firstKey verifier owner.1 keyLabel created) := by
  obtain ⟨assignmentId, verifier, hempty, hnamed, hlabel, -, -, -, hid, rfl⟩ := bootstrapOwner_ok hrun
  refine ⟨assignmentId, verifier, hid, hempty, hnamed, hlabel, ?_, rfl⟩
  rw [(h.unmanaged (principals_eq_nil hempty)).epoch]
  rfl

theorem beginLegacyBearerMigration_leaves (h : WellFormed catalog)
    (hrun : AccessControlCatalog.beginLegacyBearerMigration displayName keyLabel created requestDigest bearer
      principalDraw assignmentDraw operationDraw issue catalog = .ok owner after) :
    Leaves (.beginLegacyBearerMigration displayName keyLabel created requestDigest bearer principalDraw assignmentDraw
      operationDraw issue) catalog after := by
  simp only [AccessControlCatalog.beginLegacyBearerMigration, bind_eq_ok, ofExcept_eq_ok,
    get_apply, EStateM.Result.ok.injEq] at hrun
  obtain ⟨_, _, ⟨-, rfl⟩, _, _, ⟨hlabel, rfl⟩, _, _, ⟨rfl, rfl⟩, hrun⟩ := hrun
  split at hrun
  · rename_i hstate
    obtain ⟨migration, previous, verifier, operationId, hmigration, hget, -, -, hfresh, -, rfl⟩ :=
      replaceLegacyBearerMigration_ok hrun
    refine leaves_of_iff id rfl ((wellFormed_replaced h hstate hmigration hget hfresh hlabel).trans ?_)
    have hid : catalog.migrationKey = some migration.keyId :=
      migrationKey_eq_some.mpr ⟨by rw [hstate]; rfl, migration, hmigration, rfl⟩
    simp only [Keeps, hstate, true_imp_iff, hid, Option.some.injEq]
    refine and_congr_right fun _ => ⟨?_, fun hkey => hkey _ previous rfl hget⟩
    rintro hkey id key rfl hfound
    rwa [Option.mem_unique hfound hget]
  · rename_i hstate
    simp only [startLegacyBearerMigration, bind_eq_ok, ofExcept_eq_ok] at hrun
    obtain ⟨_, _, ⟨-, rfl⟩, _, middle, hfirst, hlast⟩ := hrun
    obtain ⟨assignmentId, verifier, hid, hempty, hnamed, hlabel, hepoch, rfl⟩ := bootstrapOwner_leaves h hfirst
    simp only [atomically_eq_ok, Except.bind_eq_ok, Except.okOr_eq_ok, Except.ok.injEq, Prod.mk.injEq] at hlast
    obtain ⟨operationId, -, rfl, rfl⟩ := hlast
    refine leaves_of_iff id hepoch (iff_of_true ?_ fun hpending => absurd hpending hstate)
    rw [hid]
    exact wellFormed_legacyStarted h hempty hnamed hlabel

theorem accepted_leaves (h : WellFormed catalog) {u : Unit} (hrun : mutation.run catalog = .ok u after) :
    mutation.Leaves catalog after := by
  cases mutation
  all_goals
    replace hrun := forget_eq_ok.mp hrun
    obtain ⟨result, hrun⟩ := hrun
  case bootstrapOwner displayName keyLabel created principalDraw assignmentDraw issue =>
    obtain ⟨assignmentId, verifier, -, hempty, hnamed, hlabel, hepoch, rfl⟩ := bootstrapOwner_leaves h hrun
    exact leaves_of_iff id hepoch (iff_of_true (wellFormed_bootstrapped h hempty hnamed hlabel) trivial)
  case beginLegacyBearerMigration =>
    exact beginLegacyBearerMigration_leaves h hrun
  case activateLegacyBearerMigration keyId expected requestDigest =>
    obtain ⟨migration, key, hmigration, hstate, hid, hget, hfirst, -, -, -, rfl⟩ :=
      activateLegacyBearerMigration_ok hrun
    refine leaves_of_iff id rfl ((wellFormed_legacyActivated h hstate hmigration hid hget hfirst).trans ?_)
    exact and_congr_right fun _ => (forall_get_iff (p := fun key => ¬catalog.IsReserve key) hget).symm
  case revokeLegacyBearer =>
    rcases revokeLegacyBearer_ok hrun with ⟨hstate, rfl⟩ | ⟨henabled, rfl⟩
    · -- a second revocation changes nothing
      exact ⟨fun _ => rfl, fun hno => absurd hstate hno⟩
    · refine leaves_of_iff (fun hstate => ?_) rfl (wellFormed_legacyRevoked h henabled)
      rw [show catalog.legacyBearerState = .revoked from hstate] at henabled
      cases henabled
  case createPrincipal displayName draw =>
    obtain ⟨hnamed, hroom, hfresh, -, rfl⟩ := createPrincipal_ok hrun
    exact leaves_of_iff id rfl (wellFormed_createPrincipal h hnamed hroom hfresh)
  case setPrincipalEnabled principalId enabled =>
    obtain ⟨principal, howner, hget, -, rfl⟩ := setPrincipalEnabled_ok hrun
    exact leaves_of_iff id rfl (wellFormed_setPrincipalEnabled h howner hget)
  case assignBuiltInRole principalId role scope draw =>
    obtain ⟨hrole, hprincipal, hroom, hfresh, hapart, -, rfl⟩ := assignBuiltInRole_ok hrun
    exact leaves_of_iff id rfl (wellFormed_assignBuiltInRole h hrole hprincipal hroom hfresh hapart)
  case createCustomRole displayName grants draw =>
    obtain ⟨hnamed, hother, hroom, hsome, hle, hallowed, hfresh, -, rfl⟩ := createCustomRole_ok hrun
    exact leaves_of_iff id rfl (wellFormed_createCustomRole h
      (validateCustomRole_of_createCustomRole hnamed hother hsome hle hallowed) hroom hfresh)
  case assignCustomRole principalId roleId draw =>
    obtain ⟨hprincipal, hrole, hroom, hfresh, hapart, -, rfl⟩ := assignCustomRole_ok hrun
    exact leaves_of_iff id rfl (wellFormed_assignCustomRole h hprincipal hrole hroom hfresh hapart)
  case revokeAssignment assignmentId =>
    rcases revokeAssignment_ok hrun with ⟨assignment, hget, hrole, rfl⟩ | ⟨assignment, hget, rfl⟩
    · exact leaves_of_iff id rfl (wellFormed_removeAssignment h hget hrole)
    · exact leaves_of_iff id rfl (wellFormed_removeCustomAssignment h hget)
  case beginKeyIssue request issue =>
    obtain ⟨verifier, retired, hissued, -, -, rfl⟩ := beginKeyIssue_ok hrun
    refine leaves_of_iff id rfl ((wellFormed_issued h hissued).trans ?_)
    refine and_congr_right fun _ => and_congr_right fun _ => ?_
    rw [hissued.room]
    simp only [Except.ok.injEq, forall_eq']
  case revokeKey id =>
    obtain ⟨key, hget, hactive, ⟨hrevoked, rfl⟩ | ⟨hlive, rfl⟩⟩ := revokeKey_ok hrun
    · -- neither does the revocation of a revoked key
      exact ⟨fun _ => rfl, fun hno => absurd ⟨key, hget, hrevoked⟩ hno⟩
    · refine leaves_of_iff ?_ rfl (wellFormed_revokeKey h hget hactive)
      rintro ⟨found, hfound, hrevoked⟩
      rw [Option.mem_unique hfound hget, hlive] at hrevoked
      cases hrevoked
  case activateKey id =>
    obtain ⟨key, hget, hfirst, hinactive, -, -, rfl⟩ := activateKey_ok hrun
    refine leaves_of_iff (fun h => h) rfl ((wellFormed_activateKey h hget hfirst hinactive).trans ?_)
    exact and_congr_right fun _ => and_congr_right fun _ =>
      (forall_get_iff (p := fun key => ¬catalog.IsReserve key) hget).symm
  case activateRotatedKey id activatedAt =>
    obtain ⟨key, predecessor, activation, hrotated, hok⟩ :=
      accepted_of_cases (activateRotatedKey_cases h id activatedAt) hrun
    cases hok.symm.trans hrun
    refine leaves_of_iff (fun h => h) rfl ((wellFormed_activateRotatedKey h hrotated).trans ?_)
    refine and_congr_right fun _ => and_congr_right fun _ => ((forall_get_iff hrotated.get).trans ?_).symm
    simp [hrotated.overlap, hrotated.predecessorId]
  case beginKeyRotation predecessorId label overlap created expires issue =>
    obtain ⟨start, hstarted, hok⟩ :=
      accepted_of_cases (beginKeyRotation_cases predecessorId label overlap created expires issue) hrun
    cases hok.symm.trans hrun
    refine leaves_of_iff (fun h => h) rfl ((wellFormed_rotated h hstarted).trans ?_)
    refine and_congr_right fun _ => and_congr
      (forall_get_iff (p := fun key => key.createdAtMicros ≤ created) hstarted.predecessor).symm ?_
    rw [hstarted.retired]
    simp only [Except.ok.injEq, forall_eq']
  case abortKeyRotation id =>
    obtain ⟨predecessorId, key, predecessor, haborted, hok⟩ := accepted_of_cases (abortKeyRotation_cases h id) hrun
    cases hok.symm.trans hrun
    exact leaves_of_iff (fun h => h) rfl (wellFormed_rotationAborted h haborted)
  case abortPendingKeyIssue principalId label =>
    obtain ⟨pending, key, hissue, hid, hget, hkey, -, rfl⟩ := abortPendingKeyIssue_ok h hrun
    obtain ⟨-, -, -, -, hfirst, hlast, -⟩ := isPendingIssue_iff.mp hkey
    refine leaves_of_iff id rfl ((wellFormed_erased h hget hfirst hlast).trans ?_)
    refine and_congr_right fun _ => ?_
    rw [hissue]
    simp only [Except.ok.injEq, forall_eq', hid]
  case beginOwnerRecovery label created operationDraw issue =>
    obtain ⟨ownerPrincipal, verifier, operationId, hstarted, rfl⟩ := beginOwnerRecovery_ok hrun
    refine leaves_of_iff id ?_ (iff_of_true (wellFormed_recoveryStarted h hstarted) trivial)
    unfold supersedeMigration
    split <;> rfl
  case activateRecoveredOwnerKey id =>
    obtain ⟨key, principal, hrecovered, hok⟩ := accepted_of_cases (activateRecoveredOwnerKey_cases h id) hrun
    cases hok.symm.trans hrun
    refine leaves_of_iff (fun h => h) ?_ (iff_of_true (wellFormed_ownerRecovered h hrecovered) trivial)
    unfold revokeEnabledLegacyBearer
    split <;> rfl
  case abortOwnerRecovery keyId expected =>
    obtain ⟨pending, hpending, rfl, rfl⟩ := abortOwnerRecovery_ok hrun
    exact leaves_of_iff id rfl (wellFormed_recoveryAborted h hpending)
  case appendAuditEvent commitCsn draw encodedLength =>
    obtain ⟨hepoch, hvalid⟩ := appendAuditEvent_ok h hrun
    exact leaves_of_iff id hepoch hvalid

end CatalogMutation

open CatalogMutation in
/-- Every mutating method of a valid catalog, with any arguments. -/
theorem mutations_keep_catalog_valid (catalog : AccessControlCatalog) (hvalid : catalog.validate = .ok ())
    (mutation : CatalogMutation) :
    (∀ error after, mutation.run catalog = .error error after →
      after = catalog ∨ ∃ displayName keyLabel created requestDigest bearer principalDraw assignmentDraw issue owner,
        mutation = .beginLegacyBearerMigration displayName keyLabel created requestDigest bearer principalDraw
          assignmentDraw none issue ∧ error = .entropy ∧
        AccessControlCatalog.bootstrapOwner displayName keyLabel created principalDraw assignmentDraw issue catalog =
          .ok owner after) ∧
      ∀ after, mutation.run catalog = .ok () after →
        (mutation.Repeats catalog → after = catalog) ∧
          (¬mutation.Repeats catalog → after.epoch = catalog.epoch + mutation.generations ∧
            (after.validate = .ok () ↔ mutation.Keeps catalog)) := by
  have h := AccessControlCatalog.validate_eq_ok.mp hvalid
  refine ⟨fun error after hrun => refused_unchanged h hrun, fun after hrun => ?_⟩
  rw [AccessControlCatalog.validate_eq_ok]
  exact accepted_leaves h hrun

namespace Rotated

/-- The catalog that an accepted call leaves. -/
def afterRun (mutation : CatalogMutation) (catalog : AccessControlCatalog) : AccessM AccessControlCatalog :=
  match mutation.run catalog with
  | .ok _ after => .ok after
  | .error error _ => .error error

theorem run_of_afterRun {mutation : CatalogMutation} {catalog after : AccessControlCatalog}
    (h : afterRun mutation catalog = .ok after) : mutation.run catalog = .ok () after := by
  unfold afterRun at h
  split at h
  · rename_i hrun
    rw [hrun, Except.ok.inj h]
  · cases h

/-- An issue whose ceiling names the instance and an object in it. -/
def overlappingCeiling : CatalogMutation :=
  .beginKeyIssue
    ⟨ownerId, ['n'], [.owner], [], .all, [.instance_, .catalogObject ⟨5, by norm_num, by norm_num⟩], 60, none⟩
    (some ⟨keyId 51, Digest.zero⟩)

def newPrincipal : CatalogMutation := .createPrincipal ['p'] (some ⟨3, by norm_num, by norm_num⟩)

end Rotated

open Rotated in
theorem mutations_keep_catalog_valid_newPrincipal : ∃ after, newPrincipal.run catalog = .ok () after ∧
    after.epoch = 2 ∧ after.validate = .ok () := by
  have hany : ((afterRun newPrincipal catalog).toOption.any fun _ => true) = true := by decide +kernel
  obtain ⟨after, hafter, -⟩ := Except.exists_of_any _ hany
  have hrun := run_of_afterRun hafter
  obtain ⟨hepoch, hvalid⟩ := ((mutations_keep_catalog_valid catalog validate_catalog newPrincipal).2 after hrun).2 id
  exact ⟨after, hrun, hepoch, hvalid.mpr ⟨rfl, by decide +kernel⟩⟩

open Rotated in
/-- Nothing in the issue looks at the ceiling as a whole, and `validate` then refuses the catalog. -/
theorem overlapping_ceiling_leaves_invalid_catalog :
    catalog.validate = .ok () ∧ ∃ after, overlappingCeiling.run catalog = .ok () after ∧
      after.validate ≠ .ok () := by
  have hany : ((afterRun overlappingCeiling catalog).toOption.any fun after => after.validate ≠ .ok ()) = true := by
    decide +kernel
  obtain ⟨after, hafter, hinvalid⟩ := Except.exists_of_any _ hany
  exact ⟨validate_catalog, after, run_of_afterRun hafter, of_decide_eq_true hinvalid⟩

end Hyphae.Access
