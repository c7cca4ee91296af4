import Hyphae.Access.Preservation

/-!
# What the mutations of principals and roles leave of a valid catalog

Principals and roles change while the keys stay as they are, so that the catalog stays
valid unless an owner recovery waits. The first owner of an empty catalog and the
recovery of the owner change both.
-/

namespace Hyphae.Access

open Lib OrderedMap Nat

open AccessControlLimits Option AuthorizationEpoch

open Wal (Digest)

variable {record : CustomRoleAssignment}

/-! ## The directory -/

section Records

variable {principals : Principals} {assignments : Assignments} {customRoles : CustomRoles}
  {customAssignments : CustomAssignments} {epoch epoch' : AuthorizationEpoch} {keys : Keys}

/-- A principal nobody has named owns nothing. -/
theorem count_owned_eq_zero {κ ν : Type} [LinearOrder κ] {m : OrderedMap κ ν} {owner : ν → SecurityId} {id : SecurityId}
    (howned : ∀ k v, m.get k = some v → (principals.get (owner v)).isSome) (hfresh : principals.get id = none) :
    m.count (fun v => owner v = id) = 0 := by
  refine count_eq_zero.mpr fun k v hget => decide_eq_false fun hsame => ?_
  have hsome := howned k v hget
  rw [hsame, hfresh] at hsome
  cases hsome

theorem DirectoryOk.count_eq_zero (h : DirectoryOk principals assignments customRoles customAssignments)
    {id : SecurityId} (hfresh : principals.get id = none) :
    assignments.count (fun assignment => assignment.principalId = id) = 0 ∧
      customAssignments.count (fun assignment => assignment.principalId = id) = 0 :=
  ⟨count_owned_eq_zero h.assigned hfresh,
    count_owned_eq_zero (fun id assignment hget => (h.customAssigned id assignment hget).1) hfresh⟩

theorem isSome_insert {κ ν : Type} [LinearOrder κ] {m : OrderedMap κ ν} {k k' : κ} {v : ν} (h : (m.get k').isSome) :
    ((m.insert k v).get k').isSome := by
  rw [get_insert]
  split
  · rfl
  · exact h

section

variable (h : DirectoryOk principals assignments customRoles customAssignments)
include h

/-- A principal is added, or replaced by one with the same name. -/
theorem DirectoryOk.putPrincipal {record : SecurityPrincipalRecord}
    (hnamed : validateDisplayName record.displayName = .ok ())
    (hroom : principals.get record.id = none → principals.entries.length < v1.principals) :
    DirectoryOk (principals.insert record.id record) assignments customRoles customAssignments :=
  { h with
    principals_le := by
      cases hget : principals.get record.id with
      | none =>
        rw [length_insert_new hget]
        exact hroom hget
      | some old =>
        rw [length_insert_of_get hget]
        exact h.principals_le
    assigned := fun id assignment hget => isSome_insert (h.assigned id assignment hget)
    customAssigned := fun id assignment hget =>
      ⟨isSome_insert (h.customAssigned id assignment hget).1, (h.customAssigned id assignment hget).2⟩
    named := forall_get_insert hnamed h.named
    assignments_le := by
      intro id principal _
      cases hget : principals.get id with
      | none =>
        obtain ⟨hbuiltIn, hcustom⟩ := h.count_eq_zero hget
        rw [hbuiltIn, hcustom]
        exact zero_le _
      | some old => exact h.assignments_le id old hget }

theorem DirectoryOk.putAssignment {record : BuiltInRoleAssignment}
    (hprincipal : (principals.get record.principalId).isSome)
    (hroom : assignments.count (fun assignment => assignment.principalId = record.principalId) +
      customAssignments.count (fun assignment => assignment.principalId = record.principalId) <
        v1.assignmentsPerPrincipal) (hfresh : assignments.get record.id = none)
    (hapart : customAssignments.get record.id = none) :
    DirectoryOk principals (assignments.insert record.id record) customRoles customAssignments :=
  { h with
    assigned := forall_get_insert hprincipal h.assigned
    assignments_le := by
      intro id principal hget
      have hle := h.assignments_le id principal hget
      rw [count_insert_new hfresh]
      split
      · next hsame =>
        obtain rfl := of_decide_eq_true hsame
        omega
      · exact hle
    apart := forall_get_insert hapart h.apart }

theorem DirectoryOk.putCustomRole {record : CustomRoleRecord} (hroom : customRoles.entries.length < v1.customRoles)
    (hfresh : customRoles.get record.id = none) (hvalid : AccessControlCatalog.validateCustomRole record = .ok ()) :
    DirectoryOk principals assignments (customRoles.insert record.id record) customAssignments :=
  { h with
    customRoles_le := by
      rw [length_insert_new hfresh]
      exact hroom
    customAssigned := fun id assignment hget =>
      ⟨(h.customAssigned id assignment hget).1, isSome_insert (h.customAssigned id assignment hget).2⟩
    roles := forall_get_insert hvalid h.roles }

theorem DirectoryOk.putCustomAssignment (hprincipal : (principals.get record.principalId).isSome)
    (hrole : (customRoles.get record.roleId).isSome)
    (hroom : assignments.count (fun assignment => assignment.principalId = record.principalId) +
      customAssignments.count (fun assignment => assignment.principalId = record.principalId) <
        v1.assignmentsPerPrincipal) (hfresh : customAssignments.get record.id = none)
    (hapart : assignments.get record.id = none) :
    DirectoryOk principals assignments customRoles (customAssignments.insert record.id record) :=
  { h with
    customAssigned := forall_get_insert ⟨hprincipal, hrole⟩ h.customAssigned
    assignments_le := by
      intro id principal hget
      have hle := h.assignments_le id principal hget
      rw [count_insert_new hfresh]
      split
      · next hsame =>
        obtain rfl := of_decide_eq_true hsame
        omega
      · exact hle
    apart := by
      intro id assignment hget
      exact (get_insert_of_ne _ _ (ne_of_get hget hapart)).trans (h.apart id assignment hget) }

/-- Assignments of either kind may go. -/
theorem DirectoryOk.erase {assignments' : Assignments} {customAssignments' : CustomAssignments}
    (hassignments : ∀ id assignment, assignments'.get id = some assignment → assignments.get id = some assignment)
    (hcustom : ∀ id assignment, customAssignments'.get id = some assignment →
      customAssignments.get id = some assignment)
    (hcount : ∀ id, assignments'.count (fun assignment => assignment.principalId = id) ≤
      assignments.count fun assignment => assignment.principalId = id)
    (hcount' : ∀ id, customAssignments'.count (fun assignment => assignment.principalId = id) ≤
      customAssignments.count fun assignment => assignment.principalId = id) :
    DirectoryOk principals assignments' customRoles customAssignments' :=
  { h with
    assigned := fun id assignment hget => h.assigned id assignment (hassignments id assignment hget)
    customAssigned := fun id assignment hget => h.customAssigned id assignment (hcustom id assignment hget)
    assignments_le := fun id principal hget =>
      (Nat.add_le_add (hcount id) (hcount' id)).trans (h.assignments_le id principal hget)
    apart := by
      intro id assignment hget
      have hnone := h.apart id assignment (hassignments id assignment hget)
      refine eq_none_iff_forall_not_mem.mpr fun found hfound => ?_
      rw [hcustom id found hfound] at hnone
      cases hnone }

end

/-- Keys stay in order when principals and roles are added. -/
theorem KeysOk.directory (h : KeysOk principals customRoles epoch keys) {principals' : Principals}
    {customRoles' : CustomRoles} (hle : epoch ≤ epoch')
    (hprincipals : ∀ id, (principals.get id).isSome → (principals'.get id).isSome)
    (hroles : ∀ id, (customRoles.get id).isSome → (customRoles'.get id).isSome) :
    KeysOk principals' customRoles' epoch' keys :=
  { h with
    owned := fun id key hget => hprincipals _ (h.owned id key hget)
    count_le := by
      intro id principal _
      cases hget : principals.get id with
      | some old => exact h.count_le id old hget
      | none =>
        rw [count_owned_eq_zero h.owned hget]
        exact zero_le _
    record := fun id key hget =>
      { (h.record id key hget).mono hle with
        customRoles_exist := fun roleId hmem => hroles _ ((h.record id key hget).customRoles_exist roleId hmem) } }

end Records

namespace AccessControlCatalog

variable {catalog after : AccessControlCatalog} {principal : SecurityPrincipalRecord}

/-- The directory has changed for the next generation, and neither the owner nor a key has. -/
structure DirectoryStep (catalog after : AccessControlCatalog) : Prop where
  keys : after.keys = catalog.keys
  epoch : after.epoch = catalog.epoch + 1
  auditIndex : after.auditIndex = catalog.auditIndex
  pendingOwnerRecovery : after.pendingOwnerRecovery = catalog.pendingOwnerRecovery
  legacyBearerState : after.legacyBearerState = catalog.legacyBearerState
  legacyBearerMigration : after.legacyBearerMigration = catalog.legacyBearerMigration
  legacyBearerVerifier : after.legacyBearerVerifier = catalog.legacyBearerVerifier
  principals : ∀ id, (catalog.principals.get id).isSome → (after.principals.get id).isSome
  customRoles : ∀ id, (catalog.customRoles.get id).isSome → (after.customRoles.get id).isSome
  owners : ∀ id assignment, assignment.role = .owner →
    (catalog.assignments.get id = some assignment ↔ after.assignments.get id = some assignment)
  enabled : ∀ id principal, catalog.hasOwnerRole id = true → catalog.principals.get id = some principal →
    after.principals.get id = some principal

theorem DirectoryStep.refl (catalog : AccessControlCatalog) :
    DirectoryStep catalog (catalog.atEpoch (catalog.epoch + 1)) :=
  ⟨rfl, rfl, rfl, rfl, rfl, rfl, rfl, fun _ h => h, fun _ h => h, fun _ _ _ => Iff.rfl, fun _ _ _ hget => hget⟩

theorem validateCustomRole_of_createCustomRole {id : SecurityId} {displayName : List Char}
    {grants : List CustomRoleGrant} (hnamed : validateDisplayName displayName = .ok ())
    (hother : BuiltInRole.parse (displayName.map Char.toLower) = none) (hsome : collectSet grants ≠ [])
    (hle : (collectSet grants).length ≤ v1.grantsPerRole)
    (hallowed : ∀ grant ∈ collectSet grants, grant.permission ≠ .ownershipManage ∧
      grant.permission.supportsScope grant.scope = true) :
    validateCustomRole ⟨id, displayName, collectSet grants⟩ = .ok () := by
  rw [validateCustomRole, hnamed, Except.ok_bind, Except.failIf_eq_ok]
  simp only [hother, hsome, not_lt.mpr hle, strictlySorted_collectSet, isSome_none, Bool.false_eq_true,
    not_true_eq_false, false_or, List.any_eq_true, Bool.or_eq_true, decide_eq_true_eq, Bool.not_eq_true', not_exists,
    not_and, not_or]
  intro grant hmem
  obtain ⟨hne, hscope⟩ := hallowed grant hmem
  exact ⟨hne, by rw [hscope]; simp⟩

theorem mem_ownerPrincipals {principalId : SecurityId} :
    principalId ∈ catalog.ownerPrincipals ↔ catalog.isInstanceOwner principalId = true := by
  rw [ownerPrincipals, mem_collectSet, isInstanceOwner_iff]
  simp only [List.mem_map, List.mem_filter, mem_values, Bool.and_eq_true, decide_eq_true_eq]
  constructor
  · rintro ⟨assignment, ⟨⟨id, hget⟩, hrole, hscope⟩, rfl⟩
    exact ⟨id, assignment, hget, rfl, hrole, hscope⟩
  · rintro ⟨id, assignment, hget, rfl, hrole, hscope⟩
    exact ⟨assignment, ⟨⟨id, hget⟩, hrole, hscope⟩, rfl⟩

theorem isRemovable_iff {ownerPrincipal : SecurityId} {key : ApiKeyRecord} :
    isRemovable ownerPrincipal key = true ↔ key.principalId = ownerPrincipal ∧
      (key.active = false ∨ key.revoked = true) ∧ key.predecessorId = none ∧ key.successorId = none := by
  simp [isRemovable, and_assoc]

theorem principals_eq_nil (hempty : catalog.unbootstrapped = true) : catalog.principals.entries = [] := by
  simp only [unbootstrapped, Bool.and_eq_true, List.isEmpty_iff] at hempty
  exact hempty.1.1.1.1.1

section Valid

variable (h : WellFormed catalog)
include h

theorem wellFormed_directoryStep (hsome : catalog.principals.entries ≠ []) (hstep : DirectoryStep catalog after)
    (hdirectory : DirectoryOk after.principals after.assignments after.customRoles after.customAssignments) :
    WellFormed after ↔ catalog.pendingOwnerRecovery = none := by
  have hle : catalog.epoch ≤ after.epoch := hstep.epoch ▸ le_succ _
  obtain ⟨ownerId, owner, hget, hrole, hscope, ⟨principal, hprincipal, henabled⟩, hunique⟩ := h.owner hsome
  have hkept := hstep.enabled owner.principalId principal (hasOwnerRole_iff.mpr ⟨ownerId, owner, hget, rfl, hrole⟩)
    hprincipal
  have hsome' := entries_ne_nil_of_isSome (isSome_of_eq_some hkept)
  constructor
  · intro h'
    have hrecovery := h'.recovery
    rw [hstep.epoch, hstep.pendingOwnerRecovery] at hrecovery
    exact h.recovery.eq_none hrecovery
  · intro hnone
    refine ⟨hdirectory, ?_, ?_, ?_, ?_, fun _ => ?_, ?_, hstep.auditIndex ▸ h.audit, fun hnil => absurd hnil hsome',
      fun _ => ?_⟩
    · rw [hstep.keys]
      exact h.keys.directory hle hstep.principals hstep.customRoles
    · rw [hstep.keys, hstep.legacyBearerState, hstep.legacyBearerMigration]
      refine h.legacy.carry hle (fun id assignment hrole => (hstep.owners id assignment hrole).mp) ?_
      exact fun _ _ _ key hkey => ⟨key, hkey, .refl key⟩
    · rw [hstep.legacyBearerState, hstep.legacyBearerVerifier]
      exact h.verifier
    · rw [hstep.pendingOwnerRecovery, hnone]
      exact .none
    · refine ⟨ownerId, owner, (hstep.owners ownerId owner hrole).mp hget, hrole, hscope,
        ⟨principal, hkept, henabled⟩, ?_⟩
      exact fun id assignment hget' hrole' =>
        hunique id assignment ((hstep.owners id assignment hrole').mpr hget') hrole'
    · rw [hstep.keys]
      exact fun id owner hget hrole => h.reserve id owner ((hstep.owners id owner hrole).mpr hget) hrole
    · rw [hstep.epoch]
      exact succ_ne_zero _

/-! ## Principals -/

/-- A catalog without an owner cannot have a principal. -/
theorem wellFormed_createPrincipal {id : SecurityId} {displayName : List Char}
    (hnamed : validateDisplayName displayName = .ok ()) (hroom : catalog.principals.entries.length < v1.principals)
    (hfresh : catalog.principals.get id = none) :
    WellFormed ((catalog.putPrincipal ⟨id, displayName, false⟩).atEpoch (catalog.epoch + 1)) ↔
      catalog.pendingOwnerRecovery = none ∧ catalog.principals.entries ≠ [] := by
  have hadded : ((catalog.principals.insert id ⟨id, displayName, false⟩).get id).isSome := by
    rw [get_insert_self]
    rfl
  by_cases hsome : catalog.principals.entries = []
  · simp only [hsome, ne_eq, not_true_eq_false, and_false, iff_false]
    intro h'
    obtain ⟨ownerId, owner, hget, -⟩ := h'.owner (entries_ne_nil_of_isSome hadded)
    exact entries_ne_nil_of_isSome (isSome_of_eq_some hget) (h.unmanaged hsome).assignments
  · rw [and_iff_left hsome]
    refine wellFormed_directoryStep h hsome
      { DirectoryStep.refl catalog with principals := fun _ => isSome_insert, enabled := ?_ }
      (h.directory.putPrincipal hnamed fun _ => hroom)
    intro id' principal _ hget
    exact (get_insert_of_ne _ _ (ne_of_get hget hfresh)).trans hget

theorem wellFormed_setPrincipalEnabled {id : SecurityId} {enabled : Bool}
    (howner : catalog.hasOwnerRole id = false) (hget : catalog.principals.get id = some principal) :
    WellFormed ((catalog.putPrincipal { principal with enabled := enabled }).atEpoch (catalog.epoch + 1)) ↔
      catalog.pendingOwnerRecovery = none := by
  obtain rfl := catalog.principals_keyed.of_get hget
  have hsome : catalog.principals.entries ≠ [] := entries_ne_nil_of_isSome (isSome_of_eq_some hget)
  refine wellFormed_directoryStep h hsome
    { DirectoryStep.refl catalog with principals := fun _ => isSome_insert, enabled := ?_ }
    (h.directory.putPrincipal (h.directory.named _ principal hget) fun hnone => ?_)
  · intro id' found hown hfound
    have hne : id' ≠ principal.id := by
      rintro rfl
      rw [howner] at hown
      cases hown
    exact (get_insert_of_ne _ _ hne).trans hfound
  · rw [hget] at hnone
    cases hnone

/-! ## Roles -/

theorem wellFormed_assignBuiltInRole {record : BuiltInRoleAssignment} (hrole : record.role ≠ .owner)
    (hprincipal : (catalog.principals.get record.principalId).isSome)
    (hroom : catalog.assignmentCount record.principalId < v1.assignmentsPerPrincipal)
    (hfresh : catalog.assignments.get record.id = none) (hapart : catalog.customAssignments.get record.id = none) :
    WellFormed ((catalog.putAssignment record).atEpoch (catalog.epoch + 1)) ↔
      catalog.pendingOwnerRecovery = none := by
  refine wellFormed_directoryStep h (entries_ne_nil_of_isSome hprincipal)
    { DirectoryStep.refl catalog with owners := ?_ } (h.directory.putAssignment hprincipal hroom hfresh hapart)
  intro id assignment howner
  change _ ↔ (catalog.assignments.insert record.id record).get id = _
  rw [get_insert_eq_some]
  constructor
  · exact fun hget => .inr ⟨ne_of_get hget hfresh, hget⟩
  · rintro (⟨-, rfl⟩ | ⟨-, hget⟩)
    · exact absurd howner hrole
    · exact hget

/-- A catalog without an owner cannot have a custom role. -/
theorem wellFormed_createCustomRole {record : CustomRoleRecord} (hvalid : validateCustomRole record = .ok ())
    (hroom : catalog.customRoles.entries.length < v1.customRoles)
    (hfresh : catalog.customRoles.get record.id = none) :
    WellFormed ((catalog.putCustomRole record).atEpoch (catalog.epoch + 1)) ↔
      catalog.pendingOwnerRecovery = none ∧ catalog.principals.entries ≠ [] := by
  by_cases hsome : catalog.principals.entries = []
  · simp only [hsome, ne_eq, not_true_eq_false, and_false, iff_false]
    intro h'
    exact absurd (h'.unmanaged hsome).epoch (succ_ne_zero _)
  · rw [and_iff_left hsome]
    exact wellFormed_directoryStep h hsome { DirectoryStep.refl catalog with customRoles := fun _ => isSome_insert }
      (h.directory.putCustomRole hroom hfresh hvalid)

theorem wellFormed_assignCustomRole
    (hprincipal : (catalog.principals.get record.principalId).isSome)
    (hrole : (catalog.customRoles.get record.roleId).isSome)
    (hroom : catalog.assignmentCount record.principalId < v1.assignmentsPerPrincipal)
    (hfresh : catalog.customAssignments.get record.id = none) (hapart : catalog.assignments.get record.id = none) :
    WellFormed ((catalog.putCustomAssignment record).atEpoch (catalog.epoch + 1)) ↔
      catalog.pendingOwnerRecovery = none :=
  wellFormed_directoryStep h (entries_ne_nil_of_isSome hprincipal) { DirectoryStep.refl catalog with }
    (h.directory.putCustomAssignment hprincipal hrole hroom hfresh hapart)

theorem wellFormed_removeAssignment {id : SecurityId} {assignment : BuiltInRoleAssignment}
    (hget : catalog.assignments.get id = some assignment) (hrole : assignment.role ≠ .owner) :
    WellFormed ((catalog.removeAssignment id).atEpoch (catalog.epoch + 1)) ↔
      catalog.pendingOwnerRecovery = none := by
  refine wellFormed_directoryStep h (entries_ne_nil_of_isSome (h.directory.assigned id assignment hget))
    { DirectoryStep.refl catalog with owners := ?_ }
    (h.directory.erase (fun _ _ hget => (get_erase_eq_some.mp hget).2) (fun _ _ hget => hget)
      (fun _ => count_eraseAll_le catalog.assignments [id] _) fun _ => le_refl _)
  intro id' found howner
  change _ ↔ (catalog.assignments.erase id).get id' = _
  rw [get_erase_eq_some]
  refine ⟨fun hfound => ⟨?_, hfound⟩, And.right⟩
  rintro rfl
  exact hrole (mem_unique hfound hget ▸ howner)

theorem wellFormed_removeCustomAssignment {id : SecurityId} {assignment : CustomRoleAssignment}
    (hget : catalog.customAssignments.get id = some assignment) :
    WellFormed ((catalog.removeCustomAssignment id).atEpoch (catalog.epoch + 1)) ↔
      catalog.pendingOwnerRecovery = none :=
  wellFormed_directoryStep h (entries_ne_nil_of_isSome (h.directory.customAssigned id assignment hget).1)
    { DirectoryStep.refl catalog with }
    (h.directory.erase (fun _ _ hget => hget) (fun _ _ hget => (get_erase_eq_some.mp hget).2) (fun _ => le_refl _)
      fun _ => count_eraseAll_le catalog.customAssignments [id] _)

/-! ## The first owner -/

section Bootstrap

variable {principalId assignmentId operationId : SecurityId} {verifier : ApiKeyVerifier}
  {displayName keyLabel : List Char} {createdAtMicros : Int} {requestDigest bearer : Digest}
  (hempty : catalog.unbootstrapped = true) (hnamed : validateDisplayName displayName = .ok ())
  (hlabel : validateDisplayName keyLabel = .ok ())
include hempty hnamed hlabel

/-- The key of the first owner. -/
abbrev firstKey (verifier : ApiKeyVerifier) (principalId : SecurityId) (keyLabel : List Char) (createdAtMicros : Int) :
    ApiKeyRecord :=
  pendingOwnerKeyRecord verifier principalId keyLabel createdAtMicros AuthorizationEpoch.initial

/-- An empty catalog gets its first owner; the legacy bearer may be kept with it. -/
theorem wellFormed_ownedBy {state : LegacyBearerState} {migration : Option LegacyBearerMigration}
    {digest : Option Digest}
    (hlegacy : LegacyOk (catalog.keys.insert verifier.id (firstKey verifier principalId keyLabel createdAtMicros))
      (catalog.assignments.insert assignmentId ⟨assignmentId, principalId, .owner, .instance_⟩) initial
      state migration) (hdigest : state.isEnabled = digest.isSome) :
    WellFormed
      { catalog.ownedBy principalId assignmentId displayName
        (firstKey verifier principalId keyLabel createdAtMicros) with
        legacyBearerState := state, legacyBearerMigration := migration, legacyBearerVerifier := digest } := by
  have hnil := principals_eq_nil hempty
  have hunmanaged := h.unmanaged hnil
  have hprincipal : catalog.principals.get principalId = none := entries_eq_nil.mp hnil principalId
  have hassignments := entries_eq_nil.mp hunmanaged.assignments
  have hkeys := entries_eq_nil.mp hunmanaged.keys
  have hcount : ∀ p, catalog.keys.count p = 0 := fun p => count_eq_zero.mpr fun id key hget => by
    rw [hkeys] at hget
    cases hget
  have hadded : (catalog.principals.insert principalId ⟨principalId, displayName, true⟩).get principalId =
      some ⟨principalId, displayName, true⟩ := get_insert_self ..
  have hsome := entries_ne_nil_of_isSome (isSome_of_eq_some hadded)
  have hdirectory : DirectoryOk (catalog.principals.insert principalId ⟨principalId, displayName, true⟩)
      catalog.assignments catalog.customRoles catalog.customAssignments := by
    refine @DirectoryOk.putPrincipal _ _ _ _ h.directory ⟨principalId, displayName, true⟩ hnamed fun _ => ?_
    rw [hnil]
    decide
  obtain ⟨hbuiltIn, hcustom⟩ := h.directory.count_eq_zero hprincipal
  refine ⟨@DirectoryOk.putAssignment _ _ _ _ hdirectory ⟨assignmentId, principalId, .owner, .instance_⟩ ?_ ?_
    (hassignments _) ?_, ?_, hlegacy, hdigest, ?_, fun _ => ?_, ?_, h.audit, fun hnil => absurd hnil hsome,
      fun _ => one_ne_zero⟩
  · rw [hadded]
    rfl
  · rw [hbuiltIn, hcustom]
    decide
  · exact entries_eq_nil.mp hunmanaged.customAssignments _
  · have hle : catalog.epoch ≤ initial := hunmanaged.epoch ▸ zero_le _
    refine (h.keys.directory hle (fun _ => isSome_insert) fun _ h => h).insert_new (hkeys _)
      (.pendingOwner hlabel one_ne_zero) unlinked_pendingKeyRecord ?_ ?_
    · exact hadded ▸ rfl
    · rw [hcount]
      decide
  · intro recovery hrecovery
    obtain ⟨key, hget, -⟩ := h.recovery recovery hrecovery
    rw [hkeys] at hget
    cases hget
  · refine ⟨assignmentId, ⟨assignmentId, principalId, .owner, .instance_⟩, ?_, rfl, rfl,
      ⟨⟨principalId, displayName, true⟩, hadded, rfl⟩, fun id assignment hget _ => ?_⟩
    · exact get_insert_self ..
    · rcases get_insert_eq_some.mp hget with ⟨rfl, -⟩ | ⟨-, hget⟩
      · rfl
      · exact absurd rfl (ne_of_get hget (hassignments id))
  · intro id owner _ _ hfull
    have hfull := (count_insert_new (hkeys verifier.id) _ _).symm.trans hfull
    rw [hcount] at hfull
    split at hfull <;> cases hfull

theorem wellFormed_bootstrapped :
    WellFormed (catalog.ownedBy principalId assignmentId displayName
      (firstKey verifier principalId keyLabel createdAtMicros)) := by
  have hunmanaged := h.unmanaged (principals_eq_nil hempty)
  refine wellFormed_ownedBy h hempty hnamed hlabel ?_ h.verifier
  change LegacyOk _ _ _ catalog.legacyBearerState catalog.legacyBearerMigration
  rw [hunmanaged.state, hunmanaged.migration]
  trivial

theorem wellFormed_legacyStarted :
    WellFormed
      { catalog.ownedBy principalId assignmentId displayName
        (firstKey verifier principalId keyLabel createdAtMicros) with
        legacyBearerState := .migrationPending
        legacyBearerMigration :=
          some ⟨operationId, verifier.id, initial, createdAtMicros, requestDigest⟩
        legacyBearerVerifier := some bearer } := by
  refine wellFormed_ownedBy h hempty hnamed hlabel ?_ rfl
  refine ⟨firstKey verifier principalId keyLabel createdAtMicros, ?_, one_ne_zero, le_refl _, rfl, ?_, rfl, rfl, rfl,
    rfl, rfl⟩
  · exact get_insert_self ..
  · refine ⟨assignmentId, ⟨assignmentId, principalId, .owner, .instance_⟩, ?_, rfl, rfl, rfl⟩
    exact get_insert_self ..

end Bootstrap

/-! ## Recovery of the owner -/

section Recovery

variable {label : List Char} {ownerPrincipal operationId : SecurityId} {verifier : ApiKeyVerifier}
  {createdAtMicros : Int} {id : ApiKeyId} {key : ApiKeyRecord}

/-- The keys while the owner's recovery waits. -/
def recoveryKeys (catalog : AccessControlCatalog) (ownerPrincipal : SecurityId) (verifier : ApiKeyVerifier)
    (label : List Char) (createdAtMicros : Int) : Keys :=
  (catalog.keys.eraseAll (catalog.removableKeys ownerPrincipal)).insert verifier.id
    (pendingOwnerKeyRecord verifier ownerPrincipal label createdAtMicros (catalog.epoch + 1))

/-- Every spare key of the owner goes, so that the new one is the only one. -/
theorem wellFormed_recoveryStarted
    (hstarted : RecoveryStarted catalog label ownerPrincipal verifier) :
    WellFormed (supersedeMigration
      { catalog.rekeyed (catalog.recoveryKeys ownerPrincipal verifier label createdAtMicros) with
        pendingOwnerRecovery := some ⟨operationId, verifier.id, catalog.epoch + 1, createdAtMicros⟩ }) := by
  obtain ⟨assignmentId, owner, hgetOwner, rfl, hrole, hscope⟩ := isInstanceOwner_iff.mp
    (mem_ownerPrincipals.mp (hstarted.owner ▸ List.mem_singleton_self ownerPrincipal))
  have hprincipal := h.directory.assigned assignmentId owner hgetOwner
  have hsome := entries_ne_nil_of_isSome hprincipal
  have hremovable : ∀ id ∈ catalog.removableKeys owner.principalId, ∀ key, catalog.keys.get id = some key →
      isRemovable owner.principalId key = true := by
    intro id hid key hget
    obtain ⟨found, hfound, hkey⟩ := (mem_removableKeys h).mp hid
    exact mem_unique hfound hget ▸ hkey
  have hfresh := get_eraseAll_of_none hstarted.fresh (catalog.removableKeys owner.principalId)
  have hroom : (catalog.keys.eraseAll (catalog.removableKeys owner.principalId)).count
      (fun key => key.principalId = owner.principalId) < v1.keysPerPrincipal := by
    have hcount := count_eraseAll (m := catalog.keys)
      (p := fun key => decide (key.principalId = owner.principalId)) (nodup_removableKeys h owner.principalId)
      fun id hid => by
        obtain ⟨key, hget, hkey⟩ := (mem_removableKeys h).mp hid
        exact ⟨key, hget, decide_eq_true (isRemovable_iff.mp hkey).1⟩
    have hlt := hstarted.room
    change _ = catalog.keyCount owner.principalId at hcount
    omega
  have hkeys : catalog.KeysNext (catalog.recoveryKeys owner.principalId verifier label createdAtMicros) := by
    refine ((h.keys.eraseAll fun id hid key hget => ?_).mono (le_succ _)).insert_new hfresh
      (.pendingOwner hstarted.named (succ_ne_zero _)) unlinked_pendingKeyRecord hprincipal hroom
    exact (isRemovable_iff.mp (hremovable id hid key hget)).2.2
  have hnew : (catalog.recoveryKeys owner.principalId verifier label createdAtMicros).get verifier.id =
      some (pendingOwnerKeyRecord verifier owner.principalId label createdAtMicros (catalog.epoch + 1)) :=
    get_insert_self ..
  have hrecovery : RecoveryOk (catalog.recoveryKeys owner.principalId verifier label createdAtMicros)
      (catalog.epoch + 1) (some ⟨operationId, verifier.id, catalog.epoch + 1, createdAtMicros⟩) := by
    rintro recovery ⟨rfl⟩
    exact ⟨_, hnew, succ_ne_zero _, rfl, rfl, rfl, rfl, rfl, rfl, rfl, rfl, rfl, rfl, rfl⟩
  have hreserve : ReserveOk catalog.assignments
      (catalog.recoveryKeys owner.principalId verifier label createdAtMicros) := by
    refine @ReserveOk.step _ _ _ h.reserve owner.principalId ?_ fun _ _ _ => ?_
    · exact .eraseAll_insert (fun id hid key hget => (isRemovable_iff.mp (hremovable id hid key hget)).1) rfl
        (by simp [hstarted.fresh])
    · have hzero : (catalog.keys.eraseAll (catalog.removableKeys owner.principalId)).count
          (fun key => isSpare key && key.principalId = owner.principalId) = 0 := by
        refine count_eq_zero.mpr fun id key hget => ?_
        obtain ⟨hkept, hget⟩ := get_eraseAll_eq_some.mp hget
        refine Bool.eq_false_iff.mpr fun hspare => hkept ((mem_removableKeys h).mpr ⟨key, hget, ?_⟩)
        rw [Bool.and_eq_true, decide_eq_true_eq, isSpare_iff] at hspare
        obtain ⟨⟨hinactive, -, -, -, -, hunlinked⟩, hsame⟩ := hspare
        exact isRemovable_iff.mpr ⟨hsame, .inl hinactive, hunlinked⟩
      rw [recoveryKeys, count_insert_new hfresh, hzero, isSpare_pendingOwnerKeyRecord, Bool.true_and, zero_add]
      exact if_pos (decide_eq_true (rfl : owner.principalId = owner.principalId))
  have hepoch : catalog.principals.entries ≠ [] → catalog.epoch + 1 ≠ unmanaged := fun _ => succ_ne_zero _
  unfold supersedeMigration
  split
  · rename_i hpending
    have henabled : catalog.legacyBearerState.isEnabled = true := by
      rw [show catalog.legacyBearerState = .migrationPending from hpending]
      rfl
    exact ⟨h.directory, hkeys, legacy_revoked h henabled, rfl, hrecovery, h.owner, hreserve, h.audit,
      fun hnil => absurd hnil hsome, hepoch⟩
  · rename_i hpending
    change catalog.legacyBearerState ≠ .migrationPending at hpending
    refine ⟨h.directory, hkeys, ?_, h.verifier, hrecovery, h.owner, hreserve, h.audit, fun hnil => absurd hnil hsome,
      hepoch⟩
    -- The key of a migration that is enabled but not pending works, so it is not removed.
    refine h.legacy.carry (le_succ _) (fun _ _ _ hget => hget) fun henabled migration hmigration key hget => ?_
    have hlegacy := h.legacy
    rw [hmigration] at hlegacy
    obtain ⟨found, hfound, hmigrates⟩ := hlegacy.migrates henabled
    obtain rfl : found = key := mem_unique hfound hget
    have hkept : migration.keyId ∉ catalog.removableKeys owner.principalId := by
      intro hmem
      have hactive := hmigrates.active
      rw [decide_eq_false hpending] at hactive
      rcases (isRemovable_iff.mp (hremovable _ hmem found hget)).2.1 with hinactive | hrevoked
      · rw [hactive] at hinactive
        cases hinactive
      · rw [hmigrates.notRevoked] at hrevoked
        cases hrevoked
    exact ⟨found, get_insert_eraseAll_eq_some.mpr (.inr ⟨ne_of_get hget hstarted.fresh, hkept, hget⟩), .refl found⟩

theorem wellFormed_recoveryAborted {pending : PendingOwnerRecovery}
    (hpending : catalog.pendingOwnerRecovery = some pending) :
    WellFormed { catalog.rekeyed (catalog.keys.eraseAll [pending.keyId]) with pendingOwnerRecovery := none } ↔
      catalog.migrationKey ≠ some pending.keyId := by
  obtain ⟨key, hget, hrecovers⟩ := h.recovery pending hpending
  have hsome := principals_ne_nil h hget
  have hlegacy := @legacy_eraseAll catalog [pending.keyId] h
  rw [List.forall_mem_singleton] at hlegacy
  rw [← hlegacy]
  constructor
  · intro h'
    exact h'.legacy
  · intro hlegacy
    exact ⟨h.directory, keysOk_erased h hget hrecovers.first hrecovers.last, hlegacy, h.verifier, .none, h.owner,
      reserveOk_erased h hget, h.audit, fun hnil => absurd hnil hsome, fun _ => succ_ne_zero _⟩

/-- The other keys of a principal can go together when no rotation links the one that stays. -/
theorem keysOk_otherKeys (hget : catalog.keys.get id = some key)
    (hfirst : key.predecessorId = none) (hlast : key.successorId = none) :
    KeysOk catalog.principals catalog.customRoles catalog.epoch
      (catalog.keys.eraseAll (catalog.otherKeys key.principalId id)) := by
  have hkept : ∀ {id' found}, catalog.keys.get id' = some found → found.principalId ≠ key.principalId →
      (catalog.keys.eraseAll (catalog.otherKeys key.principalId id)).get id' = some found := by
    intro id' found hfound hne
    refine get_eraseAll_eq_some.mpr ⟨fun hmem => ?_, hfound⟩
    obtain ⟨other, hother, hsame, -⟩ := (mem_otherKeys h).mp hmem
    exact hne (mem_unique hfound hother ▸ hsame)
  have hfind : ∀ {id' found}, (catalog.keys.eraseAll (catalog.otherKeys key.principalId id)).get id' = some found →
      catalog.keys.get id' = some found ∧ (found = key ∨ found.principalId ≠ key.principalId) := by
    intro id' found hfound
    obtain ⟨hmem, hfound⟩ := get_eraseAll_eq_some.mp hfound
    refine ⟨hfound, or_iff_not_imp_right.mpr fun hsame => ?_⟩
    have heq : id' = id := by
      by_contra hne
      exact hmem ((mem_otherKeys h).mpr ⟨found, hfound, not_not.mp hsame, hne⟩)
    exact mem_unique hfound (heq ▸ hget)
  refine h.keys.cut ?_ ⟨?_, ?_⟩ fun principalId => count_eraseAll_le catalog.keys _ _
  · intro id' found hfound
    exact ⟨found, (hfind hfound).1, .kept⟩
  · intro id' found hfound earlierId hearlier
    obtain ⟨hfound, rfl | hne⟩ := hfind hfound
    · rw [hfirst] at hearlier
      cases hearlier
    · obtain ⟨earlier, hget', hrotates⟩ := h.keys.predecessor id' found hfound earlierId hearlier
      exact ⟨earlier, hkept hget' (hrotates.principal ▸ hne), h.keys.successor_of_predecessor hfound hearlier hget'⟩
  · intro id' found hfound nextId hnext
    obtain ⟨hfound, rfl | hne⟩ := hfind hfound
    · rw [hlast] at hnext
      cases hnext
    · obtain ⟨next, hget', hlink⟩ := h.keys.successor id' found hfound nextId hnext
      have hrotates := h.keys.rotates hget' hlink hfound
      exact ⟨next, hkept hget' (hrotates.principal ▸ hne), hlink⟩

/-- The recovered key is the only key of the owner. -/
theorem wellFormed_ownerRecovered (hrecovered : OwnerRecovered catalog id key principal) :
    WellFormed (revokeEnabledLegacyBearer
      { (catalog.putPrincipal { principal with enabled := true }).rekeyed
          ((catalog.keys.eraseAll (catalog.otherKeys key.principalId id)).insert id (catalog.activated key)) with
        pendingOwnerRecovery := none }) := by
  obtain ⟨⟨recovery, hrecovery, rfl⟩, hget, howner, hprincipal⟩ := hrecovered
  obtain ⟨found, hfound, hrecovers⟩ := h.recovery recovery hrecovery
  obtain rfl : found = key := mem_unique hfound hget
  have hsome := principals_ne_nil h hget
  have hid := catalog.principals_keyed.of_get hprincipal
  have henabled : (catalog.principals.insert principal.id { principal with enabled := true }).get found.principalId =
      some { principal with enabled := true } := by
    rw [hid, get_insert_self]
  have hkept : (catalog.keys.eraseAll (catalog.otherKeys found.principalId recovery.keyId)).get recovery.keyId =
      some found := by
    refine get_eraseAll_eq_some.mpr ⟨fun hmem => ?_, hget⟩
    obtain ⟨_, _, _, hne⟩ := (mem_otherKeys h).mp hmem
    exact hne rfl
  -- The owner of the instance is the principal of the recovered key.
  obtain ⟨assignmentId, owner, hgetOwner, hrole, hscope, -, hunique⟩ := h.owner hsome
  have hsame : owner.principalId = found.principalId := by
    obtain ⟨id', assignment, hget', hsame, hrole', -⟩ := isInstanceOwner_iff.mp howner
    obtain rfl := hunique id' assignment hget' hrole'
    rw [mem_unique hgetOwner hget', hsame]
  have hdirectory : DirectoryOk (catalog.principals.insert principal.id { principal with enabled := true })
      catalog.assignments catalog.customRoles catalog.customAssignments := by
    refine @DirectoryOk.putPrincipal _ _ _ _ h.directory { principal with enabled := true }
      (h.directory.named _ principal hprincipal) fun hnone => ?_
    exact absurd (hprincipal.symm.trans (hid ▸ hnone)) (by simp)
  have hkeys : KeysOk (catalog.principals.insert principal.id { principal with enabled := true }) catalog.customRoles
      (catalog.epoch + 1) ((catalog.keys.eraseAll (catalog.otherKeys found.principalId recovery.keyId)).insert
        recovery.keyId (catalog.activated found)) := by
    have hbase : KeysOk (catalog.principals.insert principal.id { principal with enabled := true }) catalog.customRoles
        (catalog.epoch + 1) (catalog.keys.eraseAll (catalog.otherKeys found.principalId recovery.keyId)) :=
      (keysOk_otherKeys h hget hrecovers.first hrecovers.last).directory (le_succ _) (fun _ => isSome_insert)
        fun _ h => h
    have hrecord := h.keys.record _ found hget
    refine hbase.replace hkept (le_refl _) ?_ { SameLine.refl found with } rfl (.inl hrecovers.first)
    exact { hrecord with published_ne := succ_ne_zero _, published_le := le_refl _ }
  have howners : OwnerOk (catalog.principals.insert principal.id { principal with enabled := true })
      catalog.assignments := by
    refine fun _ => ⟨assignmentId, owner, hgetOwner, hrole, hscope,
      ⟨{ principal with enabled := true }, ?_, rfl⟩, hunique⟩
    rw [hsame]
    exact henabled
  have hreserve : ReserveOk catalog.assignments
      ((catalog.keys.eraseAll (catalog.otherKeys found.principalId recovery.keyId)).insert recovery.keyId
        (catalog.activated found)) := by
    intro id' owner' hget' hrole' hfull
    obtain rfl := hunique id' owner' hget' hrole'
    obtain rfl : owner' = owner := mem_unique hget' hgetOwner
    have hone : (catalog.keys.eraseAll (catalog.otherKeys found.principalId recovery.keyId)).count
        (fun key => key.principalId = owner'.principalId) = 1 := by
      rw [count_erase hkept, if_pos (decide_eq_true hsame.symm), add_eq_right]
      refine count_eq_zero.mpr fun id key hkey => decide_eq_false fun hown => ?_
      obtain ⟨hne, hkey⟩ := get_erase_eq_some.mp hkey
      obtain ⟨hmem, hkey⟩ := get_eraseAll_eq_some.mp hkey
      exact hmem ((mem_otherKeys h).mpr ⟨key, hkey, hown.trans hsame, hne⟩)
    have hcount := count_insert_of_get hkept (catalog.activated found)
      fun key => decide (key.principalId = owner'.principalId)
    rw [hfull, hone, add_right_cancel_iff] at hcount
    cases hcount
  have hsome' : (catalog.principals.insert principal.id { principal with enabled := true }).entries ≠ [] :=
    entries_ne_nil_of_isSome (isSome_of_eq_some henabled)
  unfold revokeEnabledLegacyBearer
  split
  · rename_i hon
    change catalog.legacyBearerState.isEnabled = true at hon
    exact ⟨hdirectory, hkeys, @legacy_revoked _ _ catalog h hon, rfl, .none, howners, hreserve, h.audit,
      fun hnil => absurd hnil hsome', fun _ => succ_ne_zero _⟩
  · rename_i hoff
    exact ⟨hdirectory, hkeys, h.legacy.carry (le_succ _) (fun _ _ _ hget => hget) fun hon => absurd hon hoff,
      h.verifier, .none, howners, hreserve, h.audit, fun hnil => absurd hnil hsome', fun _ => succ_ne_zero _⟩

end Recovery

end Valid

end AccessControlCatalog

end Hyphae.Access
