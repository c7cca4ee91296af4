import Hyphae.Access.Effects

/-!
# What the mutations of keys leave of a valid catalog

A mutation of the keys leaves a valid catalog exactly when no owner recovery waits, the
keys are still in order, the key of an enabled migration is as it was, and an owner with
every key it may have keeps its spare one. One lemma for each of these parts says what
the mutations do to it, and then one lemma for each mutation puts them together.
-/

namespace Hyphae.Access

open Lib OrderedMap Nat List

open AccessControlCatalog AccessControlLimits

open Wal (Digest)
open Option (isSome_of_eq_some mem_unique some)

variable {principals : Principals} {assignments assignments' : Assignments} {customRoles : CustomRoles}
  {epoch epoch' : AuthorizationEpoch} {keys keys' keys'' : Keys} {state : LegacyBearerState}

/-! ## The legacy bearer -/

/-- The key's part in a migration is as it was. -/
structure SameMigration (key key' : ApiKeyRecord) : Prop where
  createdAtMicros : key'.createdAtMicros = key.createdAtMicros
  principalId : key'.principalId = key.principalId
  revoked : key'.revoked = key.revoked
  roles : key'.roles = key.roles
  permissionCeiling : key'.permissionCeiling = key.permissionCeiling
  scopeCeiling : key'.scopeCeiling = key.scopeCeiling
  active : key'.active = key.active

theorem SameMigration.refl (key : ApiKeyRecord) : SameMigration key key := ⟨rfl, rfl, rfl, rfl, rfl, rfl, rfl⟩

/-- The assignments of the owner role are still there. -/
def OwnersKept (assignments assignments' : Assignments) : Prop :=
  ∀ id assignment, assignment.role = .owner → assignments.get id = some assignment →
    assignments'.get id = some assignment

theorem Migrates.carry {pending : Bool} {migration : LegacyBearerMigration} {key key' : ApiKeyRecord}
    (h : Migrates assignments epoch pending migration key) (hle : epoch ≤ epoch')
    (howners : OwnersKept assignments assignments') (hsame : SameMigration key key') :
    Migrates assignments' epoch' pending migration key' where
  epoch_ne := h.epoch_ne
  epoch_le := h.epoch_le.trans hle
  created := h.created.trans hsame.createdAtMicros.symm
  owner := by
    obtain ⟨id, assignment, hget, hprincipal, hrole, hscope⟩ := h.owner
    exact ⟨id, assignment, howners id assignment hrole hget, hprincipal.trans hsame.principalId.symm, hrole, hscope⟩
  notRevoked := hsame.revoked.trans h.notRevoked
  roles := hsame.roles.trans h.roles
  permissionCeiling := hsame.permissionCeiling.trans h.permissionCeiling
  scopeCeiling := hsame.scopeCeiling.trans h.scopeCeiling
  active := hsame.active.trans h.active

theorem LegacyOk.carry {migration : Option LegacyBearerMigration} (h : LegacyOk keys assignments epoch state migration)
    (hle : epoch ≤ epoch') (howners : OwnersKept assignments assignments')
    (hkept : state.isEnabled = true → ∀ enabled, migration = some enabled → ∀ key, keys.get enabled.keyId = some key →
      ∃ key', keys'.get enabled.keyId = some key' ∧ SameMigration key key') :
    LegacyOk keys' assignments' epoch' state migration := by
  cases state with
  | neverEnabled =>
    cases migration with
    | none => exact h
    | some enabled => exact h.elim
  | migrationPending | dualWindow =>
    cases migration with
    | none => exact h.elim
    | some enabled =>
      obtain ⟨key, hget, hmigrates⟩ := h
      obtain ⟨key', hget', hsame⟩ := hkept rfl enabled rfl key hget
      exact ⟨key', hget', hmigrates.carry hle howners hsame⟩
  | revoked =>
    cases migration with
    | none => exact h.elim
    | some enabled => exact ⟨h.1, h.2.trans hle⟩

theorem LegacyOk.migrates {migration : LegacyBearerMigration}
    (h : LegacyOk keys assignments epoch state (some migration)) (henabled : state.isEnabled = true) :
    ∃ key, keys.get migration.keyId = some key ∧
      Migrates assignments epoch (state = .migrationPending) migration key := by
  cases state with
  | neverEnabled | revoked => cases henabled
  | migrationPending | dualWindow => exact h

/-! ## The owner's reserve -/

/-- The keys of all principals but one are the same. -/
def AgreeOff (principalId : SecurityId) (keys keys' : Keys) : Prop :=
  ∀ id key, key.principalId ≠ principalId → (keys.get id = some key ↔ keys'.get id = some key)

namespace AgreeOff

variable {principalId : SecurityId}

theorem trans (h : AgreeOff principalId keys keys') (h' : AgreeOff principalId keys' keys'') :
    AgreeOff principalId keys keys'' :=
  fun id key hne => (h id key hne).trans (h' id key hne)

theorem insert {id : ApiKeyId} {key : ApiKeyRecord} (hnew : key.principalId = principalId)
    (hold : ∀ old, keys.get id = some old → old.principalId = principalId) :
    AgreeOff principalId keys (keys.insert id key) := by
  intro id' found hne
  rw [get_insert_eq_some]
  constructor
  · intro hfound
    exact .inr ⟨fun heq => hne (hold found (heq ▸ hfound)), hfound⟩
  · rintro (⟨-, rfl⟩ | ⟨-, hfound⟩)
    · exact absurd hnew hne
    · exact hfound

theorem eraseAll {ids : List ApiKeyId} (h : ∀ id ∈ ids, ∀ key, keys.get id = some key → key.principalId = principalId) :
    AgreeOff principalId keys (keys.eraseAll ids) := by
  intro id key hne
  rw [get_eraseAll_eq_some]
  exact ⟨fun hget => ⟨fun hmem => hne (h id hmem key hget), hget⟩, fun hget => hget.2⟩

theorem eraseAll_insert {ids : List ApiKeyId} {id : ApiKeyId} {key : ApiKeyRecord}
    (herased : ∀ id ∈ ids, ∀ key, keys.get id = some key → key.principalId = principalId)
    (hnew : key.principalId = principalId) (hold : ∀ old, keys.get id = some old → old.principalId = principalId) :
    AgreeOff principalId keys ((keys.eraseAll ids).insert id key) :=
  (eraseAll herased).trans (insert hnew fun old hget => hold old (get_eraseAll_eq_some.mp hget).2)

end AgreeOff

/-- The principal has the owner role. -/
def Owns (assignments : Assignments) (principalId : SecurityId) : Prop :=
  ∃ id owner, assignments.get id = some owner ∧ owner.role = .owner ∧ owner.principalId = principalId

/-- The reserve of every owner but one is untouched. -/
theorem ReserveOk.step (h : ReserveOk assignments keys) {principalId : SecurityId}
    (hagree : AgreeOff principalId keys keys')
    (hreserve : Owns assignments principalId →
      (keys.count (fun key => key.principalId = principalId) = v1.keysPerPrincipal →
        keys.count (fun key => isSpare key && key.principalId = principalId) = 1) →
      keys'.count (fun key => key.principalId = principalId) = v1.keysPerPrincipal →
        keys'.count (fun key => isSpare key && key.principalId = principalId) = 1) :
    ReserveOk assignments keys' := by
  intro id owner hget hrole
  by_cases hsame : owner.principalId = principalId
  · subst hsame
    exact hreserve ⟨id, owner, hget, hrole, rfl⟩ (h id owner hget hrole)
  · have hcount : ∀ p : ApiKeyRecord → Bool, (∀ key, p key = true → key.principalId = owner.principalId) →
        keys'.count p = keys.count p := by
      intro p hp
      refine count_congr fun id key hkey => ?_
      exact (hagree id key (by rw [hp key hkey]; exact hsame)).symm
    rw [hcount _ (by simp), hcount _ (by simp)]
    exact h id owner hget hrole

/-- Fewer keys than it may have leave the owner room for a reserve. -/
theorem ReserveOk.step_of_lt (h : ReserveOk assignments keys) {principalId : SecurityId}
    (hagree : AgreeOff principalId keys keys')
    (hlt : Owns assignments principalId →
      keys'.count (fun key => key.principalId = principalId) < v1.keysPerPrincipal) :
    ReserveOk assignments keys' :=
  h.step hagree fun howns _ hfull => absurd hfull (hlt howns).ne

/-! ## New keys -/

theorem strictlySorted_collectSet {α : Type} [LinearOrder α] (items : List α) : strictlySorted (collectSet items) := by
  have hsorted : (collectSet items).Pairwise (· ≤ ·) := pairwise_insertionSort (· ≤ ·) items.dedup
  have hnodup : (collectSet items).Nodup := (perm_insertionSort _ _).nodup_iff.mpr items.nodup_dedup
  rw [strictlySorted, decide_eq_true_eq, ascending_iff_pairwise]
  exact hsorted.imp₂ (fun a b hle hne => lt_of_le_of_ne hle hne) hnodup

theorem AccessControlCatalog.unlinked_pendingKeyRecord {verifier : ApiKeyVerifier} {principalId : SecurityId}
    {label : List Char} {roles : List BuiltInRole} {customRoles : List SecurityId}
    {permissionCeiling : ProductAuthorization} {scopeCeiling : List ProductScope} {createdAtMicros : Int}
    {expiresAtMicros : Option Int} :
    Unlinked (pendingKeyRecord verifier principalId label roles customRoles permissionCeiling scopeCeiling
      createdAtMicros expiresAtMicros epoch) :=
  ⟨rfl, rfl, rfl, rfl⟩

theorem KeyRecordOk.pendingOwner {verifier : ApiKeyVerifier} {principalId : SecurityId} {label : List Char}
    {createdAtMicros : Int} (hnamed : validateDisplayName label = .ok ()) (hne : epoch ≠ AuthorizationEpoch.unmanaged) :
    KeyRecordOk customRoles epoch verifier.id
      (pendingOwnerKeyRecord verifier principalId label createdAtMicros epoch) where
  named := hnamed
  id_eq := rfl
  verifier_id := rfl
  some_role := .inl (cons_ne_nil _ _)
  roles_sorted := rfl
  customRoles_sorted := rfl
  scopes_ne_nil := cons_ne_nil _ _
  scopes_le := by
    change 1 ≤ v1.assignmentsPerPrincipal
    decide
  scopes_sorted := rfl
  instance_alone := fun _ => rfl
  customRoles_exist := nofun
  expiry := nofun
  published_ne := hne
  published_le := le_refl _
  overlap_le := nofun

/-! ## The next generation of a catalog -/

/-- A recovery waits in one generation only. -/
theorem RecoveryOk.eq_none {pending : Option PendingOwnerRecovery} (h : RecoveryOk keys epoch pending)
    (h' : RecoveryOk keys' (epoch + 1) pending) : pending = none := by
  cases pending with
  | none => rfl
  | some recovery =>
    obtain ⟨_, _, hrecovers⟩ := h recovery rfl
    obtain ⟨_, _, hrecovers'⟩ := h' recovery rfl
    exact absurd (hrecovers.epoch_eq.symm.trans hrecovers'.epoch_eq) (lt_succ_self epoch).ne

theorem RecoveryOk.none : RecoveryOk keys epoch none := by
  intro recovery hsome
  cases hsome

namespace AccessControlCatalog

variable {catalog : AccessControlCatalog} {id : ApiKeyId} {key : ApiKeyRecord}

variable {ids : List ApiKeyId}

/-- The key of a migration that still lets the legacy bearer in. -/
def migrationKey (catalog : AccessControlCatalog) : Option ApiKeyId :=
  if catalog.legacyBearerState.isEnabled then catalog.legacyBearerMigration.map LegacyBearerMigration.keyId else none

theorem migrationKey_eq_some :
    catalog.migrationKey = some id ↔ catalog.legacyBearerState.isEnabled = true ∧
      ∃ migration, catalog.legacyBearerMigration = some migration ∧ migration.keyId = id := by
  unfold migrationKey
  split <;> simp [*]

theorem ordinaryKeyLimit_le (principalId : SecurityId) :
    catalog.ordinaryKeyLimit principalId ≤ v1.keysPerPrincipal := sub_le _ _

theorem isSpare_iff : isSpare key = true ↔ key.active = false ∧ key.revoked = false ∧ key.roles = [.owner] ∧
    key.permissionCeiling = .all ∧ key.scopeCeiling = [.instance_] ∧ key.predecessorId = none ∧
      key.successorId = none := by
  simp [isSpare, and_assoc]

theorem isSpare_pendingOwnerKeyRecord {verifier : ApiKeyVerifier} {principalId : SecurityId} {label : List Char}
    {createdAtMicros : Int} : isSpare (pendingOwnerKeyRecord verifier principalId label createdAtMicros epoch) = true :=
  isSpare_iff.mpr ⟨rfl, rfl, rfl, rfl, rfl, rfl, rfl⟩

theorem get_detached_of_ne {id' : ApiKeyId} (hne : id' ≠ id) :
    (detached keys id key ids).get id' = (keys.eraseAll ids).get id' := by
  unfold detached
  split
  · rename_i hnil
    rw [hnil]
    rfl
  · rw [get_insert, if_neg hne]

theorem keysOk_detached (h : KeysOk principals customRoles epoch keys) (hget : keys.get id = some key)
    (hancestors : Ancestors keys id ids) : KeysOk principals customRoles epoch (detached keys id key ids) := by
  unfold detached
  split
  · exact h
  · exact h.detach hget hancestors

theorem count_detached (h : KeysOk principals customRoles epoch keys) (hget : keys.get id = some key)
    (hancestors : Ancestors keys id ids) :
    (detached keys id key ids).count (fun other => other.principalId = key.principalId) + ids.length =
      keys.count fun other => other.principalId = key.principalId := by
  have herased := count_eraseAll (m := keys) (p := fun other => decide (other.principalId = key.principalId))
    hancestors.nodup fun id' hid' => by
      obtain ⟨ancestor, hancestor, hsame⟩ := hancestors.principalId h hget id' hid'
      exact ⟨ancestor, hancestor, decide_eq_true hsame⟩
  rw [← herased, add_right_cancel_iff]
  unfold detached
  split
  · rename_i hnil
    rw [hnil]
    rfl
  · exact count_insert_of_eq (get_eraseAll_eq_some.mpr ⟨hancestors.not_mem, hget⟩) rfl

theorem agreeOff_detached (h : KeysOk principals customRoles epoch keys) (hget : keys.get id = some key)
    (hancestors : Ancestors keys id ids) : AgreeOff key.principalId keys (detached keys id key ids) := by
  unfold detached
  split
  · exact fun _ _ _ => Iff.rfl
  · refine .eraseAll_insert (fun id' hid' found hfound => ?_) rfl fun old hold => ?_
    · obtain ⟨ancestor, hancestor, hsame⟩ := hancestors.principalId h hget id' hid'
      obtain rfl : ancestor = found := mem_unique hancestor hfound
      exact hsame
    · rw [mem_unique hold hget]

theorem detachedKey_principalId (ids : List ApiKeyId) : (detachedKey key ids).principalId = key.principalId := by
  unfold detachedKey
  split <;> rfl

theorem sameMigration_detachedKey (ids : List ApiKeyId) (successorId : Option ApiKeyId) :
    SameMigration key { detachedKey key ids with successorId := successorId } := by
  unfold detachedKey
  split <;> exact { SameMigration.refl key with }

/-- The keys are in order in the next generation. -/
abbrev KeysNext (catalog : AccessControlCatalog) : Keys → Prop :=
  KeysOk catalog.principals catalog.customRoles (catalog.epoch + 1)

/-- The legacy bearer is in order with the keys of the next generation. -/
abbrev LegacyNext (catalog : AccessControlCatalog) (keys : Keys) : Prop :=
  LegacyOk keys catalog.assignments (catalog.epoch + 1) catalog.legacyBearerState catalog.legacyBearerMigration

section Valid

variable (h : WellFormed catalog)
include h

theorem principals_ne_nil (hget : catalog.keys.get id = some key) : catalog.principals.entries ≠ [] := by
  intro hnil
  exact entries_ne_nil_of_isSome (isSome_of_eq_some hget) (h.unmanaged hnil).keys

/-- The next generation with other keys and another legacy bearer. -/
theorem wellFormed_next (hsome : catalog.principals.entries ≠ []) {migration : Option LegacyBearerMigration}
    {bearer : Option Digest} :
    WellFormed { catalog.rekeyed keys' with
        legacyBearerState := state, legacyBearerMigration := migration, legacyBearerVerifier := bearer } ↔
      catalog.pendingOwnerRecovery = none ∧ catalog.KeysNext keys' ∧
        LegacyOk keys' catalog.assignments (catalog.epoch + 1) state migration ∧ state.isEnabled = bearer.isSome ∧
        ReserveOk catalog.assignments keys' := by
  constructor
  · intro h'
    exact ⟨h.recovery.eq_none h'.recovery, h'.keys, h'.legacy, h'.verifier, h'.reserve⟩
  · rintro ⟨hnone, hkeys, hlegacy, hverifier, hreserve⟩
    have hrecovery : RecoveryOk keys' (catalog.epoch + 1) catalog.pendingOwnerRecovery := by
      rw [hnone]
      exact .none
    exact ⟨h.directory, hkeys, hlegacy, hverifier, hrecovery, h.owner, hreserve, h.audit, fun hnil => absurd hnil hsome,
      fun _ => succ_ne_zero _⟩

theorem wellFormed_rekeyed (hsome : catalog.principals.entries ≠ []) :
    WellFormed (catalog.rekeyed keys') ↔
      catalog.pendingOwnerRecovery = none ∧ catalog.KeysNext keys' ∧
        catalog.LegacyNext keys' ∧
        ReserveOk catalog.assignments keys' := by
  refine (wellFormed_next h hsome).trans ?_
  rw [and_iff_right h.verifier]

/-- The legacy bearer stays in order as long as the key of its migration is not lost. -/
theorem legacy_iff {lost : ApiKeyId → Prop} (hkept : ∀ id key, catalog.keys.get id = some key → ¬lost id →
      ∃ key', keys'.get id = some key' ∧ SameMigration key key')
    (hlost : ∀ id key, catalog.keys.get id = some key → key.revoked = false → lost id →
      ∀ key', keys'.get id = some key' → key'.revoked = true ∨ key'.active ≠ key.active) :
    catalog.LegacyNext keys' ↔
      ∀ id, catalog.migrationKey = some id → ¬lost id := by
  constructor
  · intro hlegacy id hid hlostId
    obtain ⟨henabled, migration, hmigration, rfl⟩ := migrationKey_eq_some.mp hid
    have hbefore := h.legacy
    rw [LegacyNext, hmigration] at hlegacy
    rw [hmigration] at hbefore
    obtain ⟨key, hget, hmigrates⟩ := hbefore.migrates henabled
    obtain ⟨key', hget', hmigrates'⟩ := hlegacy.migrates henabled
    rcases hlost _ key hget hmigrates.notRevoked hlostId key' hget' with hrevoked | hactive
    · rw [hmigrates'.notRevoked] at hrevoked
      cases hrevoked
    · exact hactive (hmigrates'.active.trans hmigrates.active.symm)
  · intro hid
    refine h.legacy.carry (le_succ _) (fun _ _ _ hget => hget) fun henabled migration hmigration key hget => ?_
    exact hkept _ key hget (hid _ (migrationKey_eq_some.mpr ⟨henabled, migration, hmigration, rfl⟩))

/-- A key that stops working, or starts to, must not be the migration's. -/
theorem legacy_insert {key' : ApiKeyRecord} (hget : catalog.keys.get id = some key)
    (hbroken : key'.revoked = true ∨ key'.active ≠ key.active) :
    catalog.LegacyNext (catalog.keys.insert id key') ↔ catalog.migrationKey ≠ some id := by
  rw [@legacy_iff _ catalog h (· = id)]
  · exact ⟨fun hid hsome => hid id hsome rfl, fun hne id' hid heq => hne (heq ▸ hid)⟩
  · intro id' found hfound hne
    exact ⟨found, (get_insert_of_ne _ _ hne).trans hfound, .refl found⟩
  · rintro id' found hfound - rfl found' hfound'
    rw [get_insert_self, some.injEq] at hfound'
    obtain rfl : key = found := mem_unique hget hfound
    exact hfound' ▸ hbroken

/-- Keys that go must not be the migration's. -/
theorem legacy_erased (hkept : ∀ id key, catalog.keys.get id = some key → id ∉ ids →
      ∃ key', keys'.get id = some key' ∧ SameMigration key key')
    (hgone : ∀ id ∈ ids, ∀ key, catalog.keys.get id = some key → keys'.get id = none) :
    catalog.LegacyNext keys' ↔
      ∀ id ∈ ids, catalog.migrationKey ≠ some id := by
  rw [@legacy_iff _ catalog h (· ∈ ids) hkept]
  · exact ⟨fun hid id hmem hsome => hid id hsome hmem, fun hne id hid hmem => hne id hmem hid⟩
  · intro id key hget _ hmem key' hget'
    rw [hgone id hmem key hget] at hget'
    cases hget'

/-- The principals that own anything own the instance. -/
theorem isInstanceOwner_of_owns {principalId : SecurityId} (howns : Owns catalog.assignments principalId) :
    catalog.isInstanceOwner principalId = true := by
  obtain ⟨id, owner, hget, hrole, rfl⟩ := howns
  have hsome : catalog.principals.entries ≠ [] := by
    intro hnil
    exact entries_ne_nil_of_isSome (isSome_of_eq_some hget) (h.unmanaged hnil).assignments
  obtain ⟨id', owner', hget', -, hscope, -, hunique⟩ := h.owner hsome
  obtain rfl := hunique id owner hget hrole
  obtain rfl : owner = owner' := mem_unique hget hget'
  exact isInstanceOwner_iff.mpr ⟨id, owner, hget, rfl, hrole, hscope⟩

/-- One key of the owner is kept back. -/
theorem ordinaryKeyLimit_lt {principalId : SecurityId} (howns : Owns catalog.assignments principalId) :
    catalog.ordinaryKeyLimit principalId < v1.keysPerPrincipal := by
  rw [ordinaryKeyLimit, isInstanceOwner_of_owns h howns]
  decide

/-- The key is the spare one of an owner that has every key it may have. -/
def IsReserve (catalog : AccessControlCatalog) (key : ApiKeyRecord) : Prop :=
  catalog.hasOwnerRole key.principalId = true ∧
    catalog.keyCount key.principalId = AccessControlLimits.v1.keysPerPrincipal ∧ isSpare key = true

theorem legacy_eraseAll :
    catalog.LegacyNext (catalog.keys.eraseAll ids) ↔ ∀ id ∈ ids, catalog.migrationKey ≠ some id := by
  refine legacy_erased h ?_ ?_
  · intro id found hfound hmem
    exact ⟨found, get_eraseAll_eq_some.mpr ⟨hmem, hfound⟩, .refl found⟩
  · intro id hmem _ _
    rw [get_eraseAll, if_pos hmem]

/-! ## Activating, revoking and erasing keys -/

section Stored

variable (hget : catalog.keys.get id = some key)
include hget

theorem keysOk_activated (hfirst : key.predecessorId = none) :
    catalog.KeysNext (catalog.keys.insert id (catalog.activated key)) := by
  have hrecord := h.keys.record id key hget
  refine h.keys.replace hget (le_succ _) ?_ { SameLine.refl key with } rfl (.inl hfirst)
  exact { hrecord with published_ne := succ_ne_zero _, published_le := le_refl _ }

/-- An active key is no reserve any more. -/
theorem reserveOk_activated :
    ReserveOk catalog.assignments (catalog.keys.insert id (catalog.activated key)) ↔ ¬catalog.IsReserve key := by
  have hcount : (catalog.keys.insert id (catalog.activated key)).count
      (fun other => other.principalId = key.principalId) = catalog.keyCount key.principalId :=
    count_insert_of_eq hget rfl
  have hspare := count_insert_of_get hget (catalog.activated key)
    fun other => isSpare other && other.principalId = key.principalId
  have hactive : isSpare (catalog.activated key) = false := rfl
  simp only [hactive, Bool.false_eq_true, if_false, add_zero, decide_true, Bool.and_true] at hspare
  constructor
  · rintro hreserve ⟨howner, hfull, hkey⟩
    obtain ⟨ownerId, owner, hgetOwner, hsame, hrole⟩ := hasOwnerRole_iff.mp howner
    have hafter := hreserve ownerId owner hgetOwner hrole
    have hbefore := h.reserve ownerId owner hgetOwner hrole
    rw [hsame] at hafter hbefore
    rw [if_pos hkey, hafter (hcount.trans hfull), hbefore hfull] at hspare
    omega
  · intro hno
    refine h.reserve.step (.insert rfl fun old hold => ?_) ?_
    · obtain rfl : key = old := mem_unique hget hold
      rfl
    · rintro ⟨ownerId, owner, hgetOwner, hrole, hsame⟩ hbefore hfull
      have hfull' := hcount.symm.trans hfull
      have hkey : ¬isSpare key = true := fun hkey =>
        hno ⟨hasOwnerRole_iff.mpr ⟨ownerId, owner, hgetOwner, hsame, hrole⟩, hfull', hkey⟩
      rw [if_neg hkey, add_zero] at hspare
      rw [hspare]
      exact hbefore hfull'

theorem wellFormed_activateKey (hfirst : key.predecessorId = none) (hinactive : key.active = false) :
    WellFormed (catalog.rekeyed (catalog.keys.insert id (catalog.activated key))) ↔
      catalog.pendingOwnerRecovery = none ∧ catalog.migrationKey ≠ some id ∧ ¬catalog.IsReserve key := by
  have hlegacy := @legacy_insert catalog id key h (catalog.activated key) hget (.inr (by simp [hinactive]))
  rw [wellFormed_rekeyed h (principals_ne_nil h hget), and_iff_right (keysOk_activated h hget hfirst), hlegacy,
    reserveOk_activated h hget]

theorem wellFormed_revokeKey (hactive : key.active = true) :
    WellFormed (catalog.rekeyed (catalog.keys.insert id { key with revoked := true })) ↔
      catalog.pendingOwnerRecovery = none ∧ catalog.migrationKey ≠ some id := by
  have hkeys : catalog.KeysNext (catalog.keys.insert id { key with revoked := true }) := by
    have hrecord := (h.keys.record id key hget).mono (le_succ catalog.epoch)
    exact h.keys.replace hget (le_succ _) { hrecord with } { SameLine.refl key with } rfl (.inr rfl)
  have hreserve : ReserveOk catalog.assignments (catalog.keys.insert id { key with revoked := true }) := by
    have hcount : ∀ p : ApiKeyRecord → Bool, p { key with revoked := true } = p key →
        (catalog.keys.insert id { key with revoked := true }).count p = catalog.keys.count p :=
      fun p hp => count_insert_of_eq hget hp
    have hspare : isSpare { key with revoked := true } = isSpare key := by simp [isSpare, hactive]
    intro ownerId owner hgetOwner hrole
    rw [hcount _ rfl, hcount _ (by simp only [hspare])]
    exact h.reserve ownerId owner hgetOwner hrole
  rw [wellFormed_rekeyed h (principals_ne_nil h hget), and_iff_right hkeys, legacy_insert h hget (.inl rfl),
    and_iff_left hreserve]

omit h in
theorem forall_mem_singleton_of_get {p : ApiKeyRecord → Prop} (hkey : p key) :
    ∀ id' ∈ [id], ∀ found, catalog.keys.get id' = some found → p found := by
  rintro id' hmem found hfound
  obtain rfl := mem_singleton.mp hmem
  rwa [mem_unique hfound hget]

/-- A key that goes makes room. -/
theorem count_erased_lt :
    (catalog.keys.eraseAll [id]).count (fun other => other.principalId = key.principalId) < v1.keysPerPrincipal := by
  have hcount := count_erase hget fun other => decide (other.principalId = key.principalId)
  obtain ⟨principal, hprincipal⟩ := Option.isSome_iff_exists.mp (h.keys.owned id key hget)
  have hle := h.keys.count_le key.principalId principal hprincipal
  rw [if_pos (decide_eq_true rfl)] at hcount
  change (catalog.keys.erase id).count _ < _
  omega

/-- A key that no rotation links goes. -/
theorem reserveOk_erased : ReserveOk catalog.assignments (catalog.keys.eraseAll [id]) :=
  h.reserve.step_of_lt (.eraseAll (forall_mem_singleton_of_get hget rfl)) fun _ => count_erased_lt h hget

theorem keysOk_erased (hfirst : key.predecessorId = none) (hlast : key.successorId = none) :
    catalog.KeysNext (catalog.keys.eraseAll [id]) :=
  (h.keys.eraseAll (forall_mem_singleton_of_get hget ⟨hfirst, hlast⟩)).mono (le_succ _)

theorem wellFormed_erased (hfirst : key.predecessorId = none) (hlast : key.successorId = none) :
    WellFormed (catalog.rekeyed (catalog.keys.eraseAll [id])) ↔
      catalog.pendingOwnerRecovery = none ∧ catalog.migrationKey ≠ some id := by
  rw [wellFormed_rekeyed h (principals_ne_nil h hget), and_iff_right (keysOk_erased h hget hfirst hlast),
    and_iff_left (reserveOk_erased h hget), legacy_eraseAll h, forall_mem_singleton]

end Stored

/-! ## Issuing keys -/

section Issue

variable {request : KeyIssue} {verifier : ApiKeyVerifier} {retired : List (Int × ApiKeyId)}
  (hissued : KeyIssued catalog request verifier retired)
include hissued

theorem KeyIssued.count_lt :
    (catalog.keys.eraseAll (retired.map Prod.snd)).count (fun key => key.principalId = request.principalId) <
      catalog.ordinaryKeyLimit request.principalId := by
  obtain ⟨hlength, hnodup, hretired⟩ := retiredKeys_ok h hissued.room
  have hcount := count_eraseAll (p := fun key => decide (key.principalId = request.principalId)) hnodup
    (m := catalog.keys) fun id hid => by
      obtain ⟨key, hget, hkey⟩ := hretired id hid
      refine ⟨key, hget, ?_⟩
      simp only [isRetired, Bool.and_eq_true] at hkey
      exact hkey.1.1.1
  rw [length_map, hlength] at hcount
  change _ = catalog.keyCount request.principalId at hcount
  omega

theorem KeyIssued.retired_of_get (hid : id ∈ retired.map Prod.snd) (hget : catalog.keys.get id = some key) :
    key.principalId = request.principalId ∧ key.predecessorId = none ∧ key.successorId = none := by
  obtain ⟨-, -, hretired⟩ := retiredKeys_ok h hissued.room
  obtain ⟨found, hfound, hkey⟩ := hretired id hid
  obtain rfl : found = key := mem_unique hfound hget
  simp only [isRetired, Bool.and_eq_true, decide_eq_true_eq, Option.isNone_iff_eq_none] at hkey
  exact ⟨hkey.1.1.1, hkey.1.1.2, hkey.1.2⟩

theorem KeyIssued.agreeOff : AgreeOff request.principalId catalog.keys (catalog.afterIssue request verifier retired) :=
  .eraseAll_insert (fun _ hid _ hget => (hissued.retired_of_get h hid hget).1) rfl (by simp [hissued.fresh])

theorem KeyIssued.record
    (halone : .instance_ ∈ request.scopeCeiling → (collectSet request.scopeCeiling).length = 1) :
    KeyRecordOk catalog.customRoles (catalog.epoch + 1) verifier.id (request.record verifier (catalog.epoch + 1)) where
  named := hissued.named
  id_eq := rfl
  verifier_id := rfl
  some_role := hissued.some_role
  roles_sorted := strictlySorted_collectSet _
  customRoles_sorted := strictlySorted_collectSet _
  scopes_ne_nil := hissued.scopes_ne_nil
  scopes_le := hissued.scopes_le
  scopes_sorted := strictlySorted_collectSet _
  instance_alone := fun hmem => halone (mem_collectSet.mp hmem)
  customRoles_exist := by
    intro roleId hmem
    have hassigned := hissued.customRoles (mem_collectSet.mp hmem)
    simp only [assignedCustomRoles, mem_map, mem_filter, mem_values] at hassigned
    obtain ⟨assignment, ⟨⟨id, hget⟩, -⟩, rfl⟩ := hassigned
    exact (h.directory.customAssigned id assignment hget).2
  expiry := hissued.expiry
  published_ne := succ_ne_zero _
  published_le := le_refl _
  overlap_le := nofun

/-- A ceiling with the whole instance and more is accepted, and the catalog is not valid with it. -/
theorem keysOk_issued :
    catalog.KeysNext (catalog.afterIssue request verifier retired) ↔
      (.instance_ ∈ request.scopeCeiling → (collectSet request.scopeCeiling).length = 1) := by
  constructor
  · intro hkeys hmem
    have hrecord := hkeys.record verifier.id (request.record verifier (catalog.epoch + 1)) (get_insert_self ..)
    exact hrecord.instance_alone (mem_collectSet.mpr hmem)
  · intro halone
    have hpruned : catalog.KeysNext (catalog.keys.eraseAll (retired.map Prod.snd)) :=
      (h.keys.eraseAll fun _ hid _ hget => (hissued.retired_of_get h hid hget).2).mono (le_succ _)
    exact hpruned.insert_new (get_eraseAll_of_none hissued.fresh _) (hissued.record h halone)
      unlinked_pendingKeyRecord hissued.principal ((hissued.count_lt h).trans_le (ordinaryKeyLimit_le _))

theorem wellFormed_issued :
    WellFormed (catalog.rekeyed (catalog.afterIssue request verifier retired)) ↔
      catalog.pendingOwnerRecovery = none ∧
        (.instance_ ∈ request.scopeCeiling → (collectSet request.scopeCeiling).length = 1) ∧
        ∀ id ∈ retired.map Prod.snd, catalog.migrationKey ≠ some id := by
  have hreserve : ReserveOk catalog.assignments (catalog.afterIssue request verifier retired) := by
    refine h.reserve.step_of_lt (hissued.agreeOff h) fun howns => ?_
    rw [count_insert_new (get_eraseAll_of_none hissued.fresh _)]
    have hlt := hissued.count_lt h
    have hlimit := ordinaryKeyLimit_lt h howns
    split <;> omega
  rw [wellFormed_rekeyed h (entries_ne_nil_of_isSome hissued.principal), keysOk_issued h hissued, and_iff_left hreserve]
  refine and_congr_right fun _ => and_congr_right fun _ => legacy_erased h ?_ ?_
  · intro id key hget hmem
    exact ⟨key, get_insert_eraseAll_eq_some.mpr (.inr ⟨ne_of_get hget hissued.fresh, hmem, hget⟩), .refl key⟩
  · intro id hmem key hget
    rw [get_insert_of_ne _ _ (ne_of_get hget hissued.fresh), get_eraseAll, if_pos hmem]

end Issue

/-! ## Rotations -/

section Rotation

variable {predecessorId : ApiKeyId} {predecessor : ApiKeyRecord}

theorem wellFormed_activateRotatedKey {activatedAtMicros : Int} {activation : RotationActivation}
    (hrotated : RotatedKeyActivated catalog id activatedAtMicros key predecessor activation) :
    WellFormed (catalog.rekeyed (catalog.afterActivation id key predecessor activation)) ↔
      catalog.pendingOwnerRecovery = none ∧ catalog.migrationKey ≠ some id ∧
        (activation.overlapMicros = 0 → catalog.migrationKey ≠ some activation.predecessorId) := by
  have hne := h.keys.ne_predecessor hrotated.get hrotated.predecessorId
  have hnext := h.keys.successor_of_predecessor hrotated.get hrotated.predecessorId hrotated.predecessor
  have hmiddle : (catalog.keys.insert id (catalog.activated key)).get activation.predecessorId = some predecessor :=
    (get_insert_of_ne _ _ hne).trans hrotated.predecessor
  have hkeys : catalog.KeysNext
      (catalog.afterActivation id key predecessor activation) := by
    have hrecord := h.keys.record id key hrotated.get
    have hrecord' := (h.keys.record _ predecessor hrotated.predecessor).mono (le_succ catalog.epoch)
    refine h.keys.activate_rotated hrotated.get hrotated.predecessorId hrotated.predecessor (le_succ _)
      { SameLine.refl key with } ?_ rfl rfl { SameLine.refl predecessor with } { hrecord' with } rfl rfl
    exact { hrecord with published_ne := succ_ne_zero _, published_le := le_refl _ }
  have hreserve : ReserveOk catalog.assignments (catalog.afterActivation id key predecessor activation) := by
    -- Neither of the two keys is a spare one, before and after: a rotation links them.
    have hcount : ∀ p : ApiKeyRecord → Bool, p (catalog.activated key) = p key →
        p { predecessor with
          revoked := predecessor.revoked || activation.overlapMicros = 0
          overlapUntilMicros := some activation.overlapUntilMicros } = p predecessor →
        (catalog.afterActivation id key predecessor activation).count p = catalog.keys.count p := by
      intro p hkey hpredecessor
      exact (count_insert_of_eq hmiddle hpredecessor).trans (count_insert_of_eq hrotated.get hkey)
    intro ownerId owner hget hrole
    rw [hcount _ rfl rfl, hcount _ (by simp [isSpare, hrotated.predecessorId]) (by simp [isSpare, hnext])]
    exact h.reserve ownerId owner hget hrole
  have hlegacy := @legacy_iff (catalog.afterActivation id key predecessor activation) catalog h
    (fun id' => id' = id ∨ id' = activation.predecessorId ∧ activation.overlapMicros = 0) ?_ ?_
  · rw [wellFormed_rekeyed h (principals_ne_nil h hrotated.get), and_iff_right hkeys, and_iff_left hreserve, hlegacy]
    refine and_congr_right fun _ => ⟨fun hid => ⟨fun hsome => hid id hsome (.inl rfl), fun hzero hsome => ?_⟩, ?_⟩
    · exact hid _ hsome (.inr ⟨rfl, hzero⟩)
    · rintro ⟨hself, hzero⟩ id' hsome (rfl | ⟨rfl, heq⟩)
      · exact hself hsome
      · exact hzero heq hsome
  · intro id' found hfound hkept
    rw [not_or, not_and] at hkept
    rw [afterActivation, get_insert, get_insert, if_neg hkept.1]
    split
    · rename_i heq
      subst heq
      obtain rfl : found = predecessor := mem_unique hfound hrotated.predecessor
      exact ⟨_, rfl, rfl, rfl, by simp [hkept.2 rfl], rfl, rfl, rfl, rfl⟩
    · exact ⟨found, hfound, .refl found⟩
  · rintro id' found hfound - (rfl | ⟨rfl, hzero⟩) found' hfound'
    · rw [afterActivation, get_insert_of_ne _ _ hne.symm, get_insert_self, some.injEq] at hfound'
      obtain rfl : key = found := mem_unique hrotated.get hfound
      exact .inr (by simp [← hfound', hrotated.inactive])
    · rw [afterActivation, get_insert_self, some.injEq] at hfound'
      exact .inl (by simp [← hfound', hzero])

section Begin

variable {label : List Char} {overlapSeconds : Nat} {createdAtMicros : Int} {expiresAtMicros : Option Int}
  {start : RotationStart}
  (hstarted : RotationStarted catalog predecessorId label overlapSeconds createdAtMicros expiresAtMicros start)
include hstarted

theorem RotationStarted.count_lt :
    (detached catalog.keys predecessorId start.predecessor start.retiredAncestors).count
        (fun key => key.principalId = start.predecessor.principalId) <
      catalog.ordinaryKeyLimit start.predecessor.principalId := by
  have hcount := count_detached h.keys hstarted.predecessor (retiredRotationAncestors_ok hstarted.retired)
  change _ = catalog.keyCount start.predecessor.principalId at hcount
  have hroom := hstarted.room
  omega

omit h in
theorem RotationStarted.fresh_detached :
    start.verifier.id ≠ predecessorId ∧
      (detached catalog.keys predecessorId start.predecessor start.retiredAncestors).get start.verifier.id = none := by
  have hne := (ne_of_get hstarted.predecessor hstarted.fresh).symm
  exact ⟨hne, (get_detached_of_ne hne).trans (get_eraseAll_of_none hstarted.fresh _)⟩

/-- A successor older than its predecessor is accepted, and the catalog is not valid with it. -/
theorem keysOk_rotated :
    catalog.KeysNext
        (catalog.afterRotation predecessorId label createdAtMicros expiresAtMicros start) ↔
      start.predecessor.createdAtMicros ≤ createdAtMicros := by
  have hancestors := retiredRotationAncestors_ok hstarted.retired
  obtain ⟨hne, hfresh⟩ := hstarted.fresh_detached
  have hsame := @sameMigration_detachedKey start.predecessor start.retiredAncestors (some start.verifier.id)
  constructor
  · intro hkeys
    have hget : (catalog.afterRotation predecessorId label createdAtMicros expiresAtMicros start).get
        start.verifier.id = some (start.successor predecessorId label createdAtMicros expiresAtMicros) := by
      rw [afterRotation, get_insert_of_ne _ _ hne, get_insert_self]
    obtain ⟨predecessor, hpredecessor, hrotates⟩ := hkeys.predecessor _ _ hget predecessorId rfl
    rw [afterRotation, get_insert_self, some.injEq] at hpredecessor
    have hle := hrotates.created_le
    rw [← hpredecessor, hsame.createdAtMicros] at hle
    exact hle
  · intro hcreated
    have hrecord := h.keys.record predecessorId start.predecessor hstarted.predecessor
    have hbase := (keysOk_detached h.keys hstarted.predecessor hancestors).mono (le_succ _)
    have hdetached : (detachedKey start.predecessor start.retiredAncestors).successorId = none ∧
        (detachedKey start.predecessor start.retiredAncestors).customRoles = start.predecessor.customRoles ∧
        (detachedKey start.predecessor start.retiredAncestors).overlapUntilMicros = none := by
      have hdeadline := h.keys.last predecessorId start.predecessor hstarted.predecessor hstarted.last
      unfold detachedKey
      split <;> exact ⟨hstarted.last, rfl, hdeadline⟩
    have hsuccessor : KeyRecordOk catalog.customRoles (catalog.epoch + 1) start.verifier.id
        (start.successor predecessorId label createdAtMicros expiresAtMicros) :=
      { hrecord with
        named := hstarted.named
        id_eq := rfl
        verifier_id := rfl
        expiry := hstarted.expiry
        published_ne := by
          change start.epoch ≠ _
          rw [hstarted.epoch]
          exact succ_ne_zero _
        published_le := hstarted.epoch.le
        overlap_le := by
          rintro overlap ⟨rfl⟩
          rw [hstarted.overlap]
          exact mul_le_mul_right _ hstarted.overlap_le }
    refine hbase.link (get_detached hstarted.predecessor) hdetached.1 hfresh hsuccessor rfl ?_ rfl rfl
      ((hstarted.count_lt h).trans_le (ordinaryKeyLimit_le _))
    exact ⟨rfl, hsame.principalId, by simp [RotationStart.successor], hsame.roles, hdetached.2.1,
      hsame.permissionCeiling, hsame.scopeCeiling, hsame.createdAtMicros.trans_le hcreated, by rw [hdetached.2.2]; rfl⟩

theorem wellFormed_rotated :
    WellFormed (catalog.rekeyed (catalog.afterRotation predecessorId label createdAtMicros expiresAtMicros start)) ↔
      catalog.pendingOwnerRecovery = none ∧ start.predecessor.createdAtMicros ≤ createdAtMicros ∧
        ∀ id ∈ start.retiredAncestors, catalog.migrationKey ≠ some id := by
  have hancestors := retiredRotationAncestors_ok hstarted.retired
  obtain ⟨hne, hfresh⟩ := hstarted.fresh_detached
  have hmiddle : ((detached catalog.keys predecessorId start.predecessor start.retiredAncestors).insert
      start.verifier.id (start.successor predecessorId label createdAtMicros expiresAtMicros)).get predecessorId =
        some (detachedKey start.predecessor start.retiredAncestors) := by
    rw [get_insert_of_ne _ _ hne.symm, get_detached hstarted.predecessor]
  -- The predecessor is detached, then its successor is added, then the two are linked.
  have hagree : AgreeOff start.predecessor.principalId catalog.keys
      (catalog.afterRotation predecessorId label createdAtMicros expiresAtMicros start) := by
    refine (agreeOff_detached h.keys hstarted.predecessor hancestors).trans (.trans (.insert ?_ ?_) (.insert ?_ ?_))
    · rfl
    · simp [hfresh]
    · exact detachedKey_principalId _
    · intro old hget
      rw [← mem_unique hmiddle hget, detachedKey_principalId]
  have hreserve : ReserveOk catalog.assignments
      (catalog.afterRotation predecessorId label createdAtMicros expiresAtMicros start) := by
    refine h.reserve.step_of_lt hagree fun howns => ?_
    rw [afterRotation, count_insert_of_eq hmiddle (by rfl), count_insert_new hfresh]
    have hlt := hstarted.count_lt h
    have hlimit := ordinaryKeyLimit_lt h howns
    split <;> omega
  rw [wellFormed_rekeyed h (principals_ne_nil h hstarted.predecessor), keysOk_rotated h hstarted, and_iff_left hreserve]
  refine and_congr_right fun _ => and_congr_right fun _ => legacy_erased h ?_ ?_
  · intro id key hget hmem
    by_cases heq : id = predecessorId
    · subst heq
      obtain rfl : start.predecessor = key := mem_unique hstarted.predecessor hget
      exact ⟨_, get_insert_self .., sameMigration_detachedKey _ _⟩
    · rw [afterRotation, get_insert_of_ne _ _ heq,
        get_insert_of_ne _ _ (ne_of_get hget hstarted.fresh), get_detached_of_ne heq]
      exact ⟨key, get_eraseAll_eq_some.mpr ⟨hmem, hget⟩, .refl key⟩
  · intro id hmem key hget
    have heq : id ≠ predecessorId := fun heq => hancestors.not_mem (heq ▸ hmem)
    rw [afterRotation, get_insert_of_ne _ _ heq,
      get_insert_of_ne _ _ (ne_of_get hget hstarted.fresh), get_detached_of_ne heq,
      get_eraseAll, if_pos hmem]

end Begin

theorem wellFormed_rotationAborted (haborted : RotationAborted catalog id predecessorId key predecessor) :
    WellFormed (catalog.rekeyed
        ((catalog.keys.eraseAll [id]).insert predecessorId { predecessor with successorId := none })) ↔
      catalog.pendingOwnerRecovery = none ∧ catalog.migrationKey ≠ some id := by
  have hne := h.keys.ne_predecessor haborted.get haborted.rotated
  have hmiddle : (catalog.keys.eraseAll [id]).get predecessorId = some predecessor :=
    get_eraseAll_eq_some.mpr ⟨by simpa using hne, haborted.predecessor⟩
  have hkeys := (h.keys.unlink haborted.get haborted.rotated haborted.last haborted.inactive haborted.predecessor).mono
    (le_succ _)
  have hsame := (h.keys.rotates haborted.get haborted.rotated haborted.predecessor).principal
  have hreserve : ReserveOk catalog.assignments
      ((catalog.keys.eraseAll [id]).insert predecessorId { predecessor with successorId := none }) := by
    refine @ReserveOk.step_of_lt _ _ _ h.reserve key.principalId ?_ fun _ => ?_
    · refine .eraseAll_insert (forall_mem_singleton_of_get haborted.get rfl) hsame fun old hold => ?_
      rw [mem_unique hold haborted.predecessor, hsame]
    · rw [count_insert_of_eq hmiddle (by rfl)]
      exact count_erased_lt h haborted.get
  have hlegacy := @legacy_erased
    ((catalog.keys.eraseAll [id]).insert predecessorId { predecessor with successorId := none }) catalog [id] h ?_ ?_
  · rw [wellFormed_rekeyed h (principals_ne_nil h haborted.get), and_iff_right hkeys, and_iff_left hreserve, hlegacy,
      forall_mem_singleton]
  · intro id' found hfound hmem
    by_cases heq : id' = predecessorId
    · subst heq
      obtain rfl : predecessor = found := mem_unique haborted.predecessor hfound
      exact ⟨_, get_insert_self .., rfl, rfl, rfl, rfl, rfl, rfl, rfl⟩
    · exact ⟨found, get_insert_eraseAll_eq_some.mpr (.inr ⟨heq, hmem, hfound⟩), .refl found⟩
  · intro id' hmem found _
    obtain rfl := mem_singleton.mp hmem
    rw [get_insert_of_ne _ _ hne.symm, get_eraseAll, if_pos hmem]

end Rotation

/-! ## The legacy bearer -/

section Legacy

variable {migration : LegacyBearerMigration} {previous : ApiKeyRecord} {verifier : ApiKeyVerifier}
  {operationId : SecurityId} {keyLabel : List Char} {createdAtMicros : Int} {requestDigest bearer : Digest}

/-- The keys with a new migration key in the place of the previous one. -/
def replacedMigrationKeys (catalog : AccessControlCatalog) (keyId : ApiKeyId) (verifier : ApiKeyVerifier)
    (principalId : SecurityId) (keyLabel : List Char) (createdAtMicros : Int) : Keys :=
  (catalog.keys.eraseAll [keyId]).insert verifier.id
    (pendingOwnerKeyRecord verifier principalId keyLabel createdAtMicros (catalog.epoch + 1))

/-- A key that a rotation links leaves a dangling link behind. -/
theorem keysOk_replaced (hget : catalog.keys.get id = some previous)
    (hfresh : catalog.keys.get verifier.id = none) (hnamed : validateDisplayName keyLabel = .ok ()) :
    catalog.KeysNext
        (catalog.replacedMigrationKeys id verifier previous.principalId keyLabel createdAtMicros) ↔
      previous.predecessorId = none ∧ previous.successorId = none := by
  have hnew := ne_of_get hget hfresh
  constructor
  · intro hkeys
    have hgone : (catalog.replacedMigrationKeys id verifier previous.principalId keyLabel createdAtMicros).get id =
        none := by
      rw [replacedMigrationKeys, get_insert_of_ne _ _ hnew, get_eraseAll, if_pos mem_cons_self]
    have hother : ∀ {id' found}, catalog.keys.get id' = some found → id' ≠ id →
        (catalog.replacedMigrationKeys id verifier previous.principalId keyLabel createdAtMicros).get id' =
          some found := by
      intro id' found hfound hne
      exact get_insert_eraseAll_eq_some.mpr (.inr ⟨ne_of_get hfound hfresh, by simpa using hne, hfound⟩)
    have hself := (h.keys.rooted id previous hget).ne_self hget
    constructor
    · refine Option.eq_none_iff_forall_not_mem.mpr fun earlierId hearlier => ?_
      obtain ⟨earlier, hfound, -⟩ := h.keys.predecessor id previous hget earlierId hearlier
      have hnext := h.keys.successor_of_predecessor hget hearlier hfound
      obtain ⟨_, hmissing, -⟩ :=
        hkeys.successor earlierId earlier (hother hfound fun heq => hself (heq ▸ hearlier)) id hnext
      rw [hgone] at hmissing
      cases hmissing
    · refine Option.eq_none_iff_forall_not_mem.mpr fun nextId hnext => ?_
      obtain ⟨next, hfound, hlink⟩ := h.keys.successor id previous hget nextId hnext
      have hne : nextId ≠ id := by
        rintro rfl
        obtain rfl : next = previous := mem_unique hfound hget
        exact hself hlink
      obtain ⟨_, hmissing, -⟩ := hkeys.predecessor nextId next (hother hfound hne) id hlink
      rw [hgone] at hmissing
      cases hmissing
  · rintro ⟨hfirst, hlast⟩
    have hroom := count_erased_lt h hget
    exact (keysOk_erased h hget hfirst hlast).insert_new (get_eraseAll_of_none hfresh _)
      (.pendingOwner hnamed (succ_ne_zero _)) unlinked_pendingKeyRecord (h.keys.owned id previous hget) hroom

theorem reserveOk_replaced (hget : catalog.keys.get id = some previous)
    (hfresh : catalog.keys.get verifier.id = none) (hspare : isSpare previous = true) :
    ReserveOk catalog.assignments
      (catalog.replacedMigrationKeys id verifier previous.principalId keyLabel createdAtMicros) := by
  have hgone := get_eraseAll_of_none hfresh [id]
  have hcount : ∀ p : ApiKeyRecord → Bool, p previous = true →
      p (pendingOwnerKeyRecord verifier previous.principalId keyLabel createdAtMicros (catalog.epoch + 1)) = true →
        (catalog.replacedMigrationKeys id verifier previous.principalId keyLabel createdAtMicros).count p =
          catalog.keys.count p := by
    intro p hprevious hnew
    rw [replacedMigrationKeys, count_insert_new hgone, count_erase hget p, if_pos hnew, if_pos hprevious]
    rfl
  refine @ReserveOk.step _ _ _ h.reserve previous.principalId ?_ fun _ hbefore hfull => ?_
  · exact .eraseAll_insert (forall_mem_singleton_of_get hget rfl) rfl (by simp [hfresh])
  · rw [hcount _ (decide_eq_true rfl) (decide_eq_true rfl)] at hfull
    rw [hcount]
    · exact hbefore hfull
    · exact (Bool.and_eq_true _ _).mpr ⟨hspare, decide_eq_true rfl⟩
    · exact (Bool.and_eq_true _ _).mpr ⟨isSpare_pendingOwnerKeyRecord, decide_eq_true rfl⟩

theorem wellFormed_replaced (hstate : catalog.legacyBearerState = .migrationPending)
    (hmigration : catalog.legacyBearerMigration = some migration)
    (hget : catalog.keys.get migration.keyId = some previous) (hfresh : catalog.keys.get verifier.id = none)
    (hnamed : validateDisplayName keyLabel = .ok ()) :
    WellFormed
        { catalog.rekeyed (catalog.replacedMigrationKeys migration.keyId verifier previous.principalId keyLabel
            createdAtMicros) with
          legacyBearerMigration :=
            some ⟨operationId, verifier.id, catalog.epoch + 1, createdAtMicros, requestDigest⟩
          legacyBearerVerifier := some bearer } ↔
      catalog.pendingOwnerRecovery = none ∧ previous.predecessorId = none ∧ previous.successorId = none := by
  have hlegacy := h.legacy
  rw [hstate, hmigration] at hlegacy
  obtain ⟨found, hfound, hmigrates⟩ := hlegacy
  obtain rfl : found = previous := mem_unique hfound hget
  refine (wellFormed_next h (principals_ne_nil h hget)).trans ?_
  dsimp only [rekeyed]
  rw [keysOk_replaced h hget hfresh hnamed, hstate]
  refine and_congr_right fun _ => ⟨And.left, fun hunlinked => ⟨hunlinked, ?_, rfl, ?_⟩⟩
  · refine ⟨pendingOwnerKeyRecord verifier found.principalId keyLabel createdAtMicros (catalog.epoch + 1), ?_,
      succ_ne_zero _, le_refl _, rfl, hmigrates.owner, rfl, rfl, rfl, rfl, rfl⟩
    exact get_insert_self ..
  · exact reserveOk_replaced h hget hfresh (isSpare_iff.mpr ⟨hmigrates.active, hmigrates.notRevoked, hmigrates.roles,
      hmigrates.permissionCeiling, hmigrates.scopeCeiling, hunlinked⟩)

theorem wellFormed_legacyActivated (hstate : catalog.legacyBearerState = .migrationPending)
    (hmigration : catalog.legacyBearerMigration = some migration) (hid : migration.keyId = id)
    (hget : catalog.keys.get id = some key) (hfirst : key.predecessorId = none) :
    WellFormed
        { catalog.rekeyed (catalog.keys.insert id (catalog.activated key)) with
          legacyBearerState := .dualWindow } ↔
      catalog.pendingOwnerRecovery = none ∧ ¬catalog.IsReserve key := by
  subst hid
  have hlegacy := h.legacy
  rw [hstate, hmigration] at hlegacy
  obtain ⟨found, hfound, hmigrates⟩ := hlegacy
  obtain rfl : found = key := mem_unique hfound hget
  have hverifier : LegacyBearerState.dualWindow.isEnabled = catalog.legacyBearerVerifier.isSome := by
    rw [← h.verifier, hstate]
    rfl
  refine (wellFormed_next h (principals_ne_nil h hget)).trans ?_
  dsimp only [rekeyed]
  rw [and_iff_right (keysOk_activated h hget hfirst), and_iff_right hverifier, reserveOk_activated h hget, hmigration]
  refine and_congr_right fun _ => and_iff_right ⟨_, get_insert_self .., ?_⟩
  exact { hmigrates with epoch_le := hmigrates.epoch_le.trans (le_succ _), active := rfl }

theorem enabled_migration (henabled : catalog.legacyBearerState.isEnabled = true) :
    ∃ migration key, catalog.legacyBearerMigration = some migration ∧ catalog.keys.get migration.keyId = some key ∧
      Migrates catalog.assignments catalog.epoch (catalog.legacyBearerState = .migrationPending) migration key := by
  have hlegacy := h.legacy
  cases hmigration : catalog.legacyBearerMigration with
  | none =>
    rw [hmigration] at hlegacy
    cases hstate : catalog.legacyBearerState <;> rw [hstate] at hlegacy henabled
    · cases henabled
    · exact hlegacy.elim
    · exact hlegacy.elim
    · cases henabled
  | some migration =>
    rw [hmigration] at hlegacy
    obtain ⟨key, hget, hmigrates⟩ := hlegacy.migrates henabled
    exact ⟨migration, key, rfl, hget, hmigrates⟩

/-- A legacy bearer that is over needs no key. -/
theorem legacy_revoked (henabled : catalog.legacyBearerState.isEnabled = true) :
    LegacyOk keys' assignments (catalog.epoch + 1) .revoked catalog.legacyBearerMigration := by
  obtain ⟨migration, key, hmigration, -, hmigrates⟩ := enabled_migration h henabled
  rw [hmigration]
  exact ⟨hmigrates.epoch_ne, hmigrates.epoch_le.trans (le_succ _)⟩

theorem wellFormed_legacyRevoked (henabled : catalog.legacyBearerState.isEnabled = true) :
    WellFormed { catalog.atEpoch (catalog.epoch + 1) with
        legacyBearerState := .revoked, legacyBearerVerifier := none } ↔ catalog.pendingOwnerRecovery = none := by
  obtain ⟨migration, key, -, hget, -⟩ := enabled_migration h henabled
  refine (wellFormed_next h (principals_ne_nil h hget)).trans (and_iff_left ?_)
  exact ⟨h.keys.mono (le_succ _), legacy_revoked h henabled, rfl, h.reserve⟩

end Legacy

end Valid

end AccessControlCatalog

end Hyphae.Access
