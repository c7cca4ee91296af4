import Hyphae.Access.WellFormed

/-!
# Changes to the keys

What each kind of change leaves of the keys and their rotations: dropping keys that no
rotation links, adding a key, changing a key in place, and the changes of a rotation
itself, which touch two linked keys at once.
-/

namespace Hyphae.Access

open Lib OrderedMap List Option

open AccessControlLimits

variable {keys keys' : Keys} {id : ApiKeyId} {key predecessor key' : ApiKeyRecord} {ids : List ApiKeyId}

/-! ## Walks through fewer links -/

/-- Every link back ends at a key of the map that is `related` to the one it starts from. -/
def LinksBack (keys : Keys) (related : ApiKeyId → ApiKeyRecord → ApiKeyRecord → Prop) : Prop :=
  ∀ id key, keys.get id = some key → ∀ predecessorId, key.predecessorId = some predecessorId →
    ∃ predecessor, keys.get predecessorId = some predecessor ∧ related id predecessor key

/-- The walks of the changed map end: an old key has kept its predecessor or lost it, and a new one has none or an old
one. -/
theorem rooted_of_closed (hrooted : ∀ id key, keys.get id = some key → Rooted keys id)
    (hclosed : LinksBack keys' fun _ => Rotates)
    (hkeep : ∀ id key', keys'.get id = some key' → key'.predecessorId = none ∨
      (∃ key, keys.get id = some key ∧ key'.predecessorId = key.predecessorId) ∨
        keys.get id = none ∧ ∃ predecessorId key, key'.predecessorId = some predecessorId ∧
          keys.get predecessorId = some key)
    (id : ApiKeyId) (key' : ApiKeyRecord) (hget' : keys'.get id = some key') : Rooted keys' id := by
  have hold : ∀ {id}, Rooted keys id → ∀ {key'}, keys'.get id = some key' → Rooted keys' id := by
    intro id h
    induction h with
    | @root id key hget hroot =>
      intro key' hget'
      rcases hkeep id key' hget' with hnone | ⟨old, hold, hsame⟩ | ⟨hnew, -⟩
      · exact .root hget' hnone
      · obtain rfl : key = old := mem_unique hget hold
        exact .root hget' (hsame.trans hroot)
      · exact absurd rfl (ne_of_get hget hnew)
    | @step id predecessorId key hget hpredecessor _ ih =>
      intro key' hget'
      rcases hkeep id key' hget' with hnone | ⟨old, hold, hsame⟩ | ⟨hnew, -⟩
      · exact .root hget' hnone
      · obtain rfl : key = old := mem_unique hget hold
        have hback := hsame.trans hpredecessor
        obtain ⟨_, hfound, -⟩ := hclosed id key' hget' predecessorId hback
        exact .step hget' hback (ih hfound)
      · exact absurd rfl (ne_of_get hget hnew)
  rcases hkeep id key' hget' with hnone | ⟨key, hget, -⟩ | ⟨-, predecessorId, key, hback, hget⟩
  · exact .root hget' hnone
  · exact hold (hrooted id key hget) hget'
  · obtain ⟨_, hfound, -⟩ := hclosed id key' hget' predecessorId hback
    exact .step hget' hback (hold (hrooted predecessorId key hget) hfound)

section KeyMaps

variable {principals : Principals} {customRoles : CustomRoles} {epoch epoch' : AuthorizationEpoch}
  {predecessor' : ApiKeyRecord}

theorem KeyRecordOk.mono (h : KeyRecordOk customRoles epoch id key) (hle : epoch ≤ epoch') :
    KeyRecordOk customRoles epoch' id key :=
  { h with published_le := h.published_le.trans hle }

theorem KeysOk.mono (h : KeysOk principals customRoles epoch keys) (hle : epoch ≤ epoch') :
    KeysOk principals customRoles epoch' keys :=
  { h with record := fun id key hget => (h.record id key hget).mono hle }

section Link

variable (h : KeysOk principals customRoles epoch keys) {predecessorId : ApiKeyId} (hget : keys.get id = some key)
  (hid : key.predecessorId = some predecessorId)
include h hget hid

theorem KeysOk.ne_predecessor : predecessorId ≠ id := by
  rintro rfl
  exact (h.rooted _ key hget).ne_self hget hid

theorem KeysOk.rotates (hpredecessor : keys.get predecessorId = some predecessor) : Rotates predecessor key := by
  obtain ⟨found, hfound, hrotates⟩ := h.predecessor id key hget predecessorId hid
  exact mem_unique hfound hpredecessor ▸ hrotates

/-- A key is the successor of its predecessor. -/
theorem KeysOk.successor_of_predecessor (hpredecessor : keys.get predecessorId = some predecessor) :
    predecessor.successorId = some id := by
  rw [(h.rotates hget hid hpredecessor).successor, (h.record id key hget).id_eq]

end Link

/-! ## Dropping keys and links -/

/-- What may happen to a key whose neighbours are dropped. -/
inductive Cut (key : ApiKeyRecord) : ApiKeyRecord → Prop
  | kept : Cut key key
  | first : Cut key { key with predecessorId := none, rotationOverlapMicros := none }
  | last (hdeadline : key.overlapUntilMicros = none) : Cut key { key with successorId := none }

theorem Cut.principalId (h : Cut key key') : key'.principalId = key.principalId := by
  cases h <;> rfl

theorem Cut.record (h : Cut key key') (hrecord : KeyRecordOk customRoles epoch id key) :
    KeyRecordOk customRoles epoch id key' := by
  cases h with
  | kept => exact hrecord
  | first => exact { hrecord with overlap_le := fun overlap hnone => by cases hnone }
  | last _ => exact { hrecord with }

theorem Cut.predecessorId (h : Cut key key') : key'.predecessorId = none ∨ key'.predecessorId = key.predecessorId := by
  cases h with
  | kept => exact .inr rfl
  | first => exact .inl rfl
  | last _ => exact .inr rfl

/-- A link that both of its ends have kept still holds. -/
theorem Cut.rotates (hpredecessor : Cut predecessor predecessor') (hkey : Cut key key') (h : Rotates predecessor key)
    (hback : key'.predecessorId ≠ none) (hforth : predecessor'.successorId ≠ none) :
    Rotates predecessor' key' := by
  cases hkey with
  | first => exact absurd rfl hback
  | kept =>
    cases hpredecessor with
    | kept => exact h
    | first => exact { h with }
    | last _ => exact absurd rfl hforth
  | last _ =>
    cases hpredecessor with
    | kept => exact { h with }
    | first => exact { h with }
    | last _ => exact absurd rfl hforth

/-- No link has one end only. -/
structure Linked (keys : Keys) : Prop where
  back : LinksBack keys fun id predecessor _ => predecessor.successorId = some id
  forth : ∀ id key, keys.get id = some key → ∀ successorId, key.successorId = some successorId →
    ∃ successor, keys.get successorId = some successor ∧ successor.predecessorId = some id

/-- Keys and links may go together, as long as no link is left with one end. -/
theorem KeysOk.cut (h : KeysOk principals customRoles epoch keys)
    (hcut : ∀ id key', keys'.get id = some key' → ∃ key, keys.get id = some key ∧ Cut key key')
    (hlinked : Linked keys')
    (hcount : ∀ principalId, keys'.count (fun key => key.principalId = principalId) ≤
      keys.count fun key => key.principalId = principalId) :
    KeysOk principals customRoles epoch keys' := by
  have hrotates : LinksBack keys' fun _ => Rotates := by
    intro id key' hkey' predecessorId hid
    obtain ⟨predecessor', hpredecessor', hnext⟩ := hlinked.back id key' hkey' predecessorId hid
    obtain ⟨key, hkey, hcutKey⟩ := hcut id key' hkey'
    obtain ⟨predecessor, hpredecessor, hcutPredecessor⟩ := hcut predecessorId predecessor' hpredecessor'
    have hsame : key.predecessorId = some predecessorId := by
      rcases hcutKey.predecessorId with hnone | hsame
      · rw [hnone] at hid
        cases hid
      · exact hsame ▸ hid
    have hrotates := h.rotates hkey hsame hpredecessor
    exact ⟨predecessor', hpredecessor', hcutPredecessor.rotates hcutKey hrotates (by simp [hid]) (by simp [hnext])⟩
  refine ⟨fun id key' hkey' => ?_, fun id principal hid => (hcount id).trans (h.count_le id principal hid),
    fun id key' hkey' => ?_, hrotates, fun id key' hkey' hnone => ?_, hlinked.forth, fun id key' hkey' hnone => ?_,
    rooted_of_closed h.rooted hrotates fun id key' hkey' => ?_⟩
  · obtain ⟨key, hkey, hcut⟩ := hcut id key' hkey'
    rw [hcut.principalId]
    exact h.owned id key hkey
  · obtain ⟨key, hkey, hcut⟩ := hcut id key' hkey'
    exact hcut.record (h.record id key hkey)
  · obtain ⟨key, hkey, hcut⟩ := hcut id key' hkey'
    cases hcut with
    | kept => exact h.first id key' hkey hnone
    | first => rfl
    | last _ => exact h.first id key hkey hnone
  · obtain ⟨key, hkey, hcut⟩ := hcut id key' hkey'
    cases hcut with
    | kept => exact h.last id key' hkey hnone
    | first => exact h.last id key hkey hnone
    | last hdeadline => exact hdeadline
  · obtain ⟨key, hkey, hcut⟩ := hcut id key' hkey'
    exact hcut.predecessorId.imp_right fun hsame => .inl ⟨key, hkey, hsame⟩

theorem get_eraseAll_eq_some : (keys.eraseAll ids).get id = some key ↔ id ∉ ids ∧ keys.get id = some key := by
  rw [get_eraseAll]
  split <;> simp_all

/-- The keys of a map from which keys have gone and in which one has changed. -/
theorem get_insert_eraseAll_eq_some {id' : ApiKeyId} {found : ApiKeyRecord} :
    ((keys.eraseAll ids).insert id key').get id' = some found ↔
      id' = id ∧ found = key' ∨ id' ≠ id ∧ id' ∉ ids ∧ keys.get id' = some found := by
  rw [get_insert_eq_some, get_eraseAll_eq_some]

/-- One key loses a neighbour that goes with others. -/
theorem KeysOk.cut_insert (h : KeysOk principals customRoles epoch keys) (hget : keys.get id = some key)
    (hkept : id ∉ ids) (hcut : Cut key key') (hkeys : keys' = (keys.eraseAll ids).insert id key')
    (hlinked : Linked keys') :
    KeysOk principals customRoles epoch keys' := by
  subst hkeys
  refine h.cut (fun id' found hfound => ?_) hlinked fun principalId => ?_
  · rcases get_insert_eraseAll_eq_some.mp hfound with ⟨rfl, rfl⟩ | ⟨-, -, hfound⟩
    · exact ⟨key, hget, hcut⟩
    · exact ⟨found, hfound, .kept⟩
  · rw [count_insert_of_eq (get_eraseAll_eq_some.mpr ⟨hkept, hget⟩) (by rw [hcut.principalId])]
    exact count_eraseAll_le keys ids _

/-- Keys that no rotation links can go. -/
theorem KeysOk.eraseAll (h : KeysOk principals customRoles epoch keys)
    (hunlinked : ∀ id ∈ ids, ∀ key, keys.get id = some key → key.predecessorId = none ∧ key.successorId = none) :
    KeysOk principals customRoles epoch (keys.eraseAll ids) := by
  refine h.cut ?_ ⟨?_, ?_⟩ fun principalId => count_eraseAll_le keys ids _
  · intro id key hkey
    exact ⟨key, (get_eraseAll_eq_some.mp hkey).2, .kept⟩
  · intro id key hkey predecessorId hid
    obtain ⟨-, hkey⟩ := get_eraseAll_eq_some.mp hkey
    obtain ⟨predecessor, hfound, -⟩ := h.predecessor id key hkey predecessorId hid
    have hnext := h.successor_of_predecessor hkey hid hfound
    refine ⟨predecessor, get_eraseAll_eq_some.mpr ⟨fun hmem => ?_, hfound⟩, hnext⟩
    rw [(hunlinked predecessorId hmem predecessor hfound).2] at hnext
    cases hnext
  · intro id key hkey successorId hid
    obtain ⟨-, hkey⟩ := get_eraseAll_eq_some.mp hkey
    obtain ⟨successor, hfound, hlink⟩ := h.successor id key hkey successorId hid
    refine ⟨successor, get_eraseAll_eq_some.mpr ⟨fun hmem => ?_, hfound⟩, hlink⟩
    rw [(hunlinked successorId hmem successor hfound).1] at hlink
    cases hlink

/-! ## Adding a key -/

/-- An old key next to the new one: only its predecessor has changed, which was the last of its line. -/
inductive Extends (newId : ApiKeyId) (new : ApiKeyRecord) (id : ApiKeyId) (key : ApiKeyRecord) : ApiKeyRecord → Prop
  | kept : Extends newId new id key key
  | linked (hend : key.successorId = none) (hback : new.predecessorId = some id) :
    Extends newId new id key { key with successorId := some newId }

namespace Extends

variable {newId : ApiKeyId} {new : ApiKeyRecord} (h : Extends newId new id key key')
include h

theorem principalId : key'.principalId = key.principalId := by
  cases h <;> rfl

theorem predecessorId : key'.predecessorId = key.predecessorId := by
  cases h <;> rfl

theorem record (hrecord : KeyRecordOk customRoles epoch id key) : KeyRecordOk customRoles epoch id key' := by
  cases h with
  | kept => exact hrecord
  | linked _ _ => exact { hrecord with }

/-- A link between old keys is as it was. -/
theorem rotates {predecessorId : ApiKeyId} {predecessor : ApiKeyRecord}
    (hpredecessor : Extends newId new predecessorId predecessor predecessor') (hrotates : Rotates predecessor key) :
    Rotates predecessor' key' := by
  cases hpredecessor with
  | kept =>
    cases h with
    | kept => exact hrotates
    | linked _ _ => exact { hrotates with }
  | linked hend _ =>
    rw [hrotates.successor] at hend
    cases hend

end Extends

/-- A new key, alone or behind the last of a line. -/
theorem KeysOk.grow (h : KeysOk principals customRoles epoch keys) {newId : ApiKeyId} {new : ApiKeyRecord}
    (hfresh : keys.get newId = none) (hnew : keys'.get newId = some new)
    (hafter : ∀ id key, keys.get id = some key → ∃ key', keys'.get id = some key' ∧ Extends newId new id key key')
    (hbefore : ∀ id key', keys'.get id = some key' →
      id = newId ∧ key' = new ∨ ∃ key, keys.get id = some key ∧ Extends newId new id key key')
    (hrecord : KeyRecordOk customRoles epoch newId new) (howned : (principals.get new.principalId).isSome)
    (hfirst : new.predecessorId = none → new.rotationOverlapMicros = none)
    (hpredecessor : ∀ predecessorId, new.predecessorId = some predecessorId →
      (∃ predecessor, keys.get predecessorId = some predecessor) ∧
        ∃ predecessor', keys'.get predecessorId = some predecessor' ∧ Rotates predecessor' new)
    (hlast : new.successorId = none) (hdeadline : new.overlapUntilMicros = none)
    (hcount : ∀ principalId, keys'.count (fun key => key.principalId = principalId) =
      keys.count (fun key => key.principalId = principalId) + if new.principalId = principalId then 1 else 0)
    (hroom : keys.count (fun key => key.principalId = new.principalId) < v1.keysPerPrincipal) :
    KeysOk principals customRoles epoch keys' := by
  -- the links back are those of before and the one of the new key
  have hback : LinksBack keys' fun _ => Rotates := by
    intro id key' hkey' predecessorId hid
    rcases hbefore id key' hkey' with ⟨rfl, rfl⟩ | ⟨key, hkey, hextends⟩
    · exact (hpredecessor predecessorId hid).2
    · rw [hextends.predecessorId] at hid
      obtain ⟨predecessor, hfound, hrotates⟩ := h.predecessor id key hkey predecessorId hid
      obtain ⟨predecessor', hfound', hextends'⟩ := hafter predecessorId predecessor hfound
      exact ⟨predecessor', hfound', hextends.rotates hextends' hrotates⟩
  refine ⟨fun id key' hkey' => ?_, fun id principal hid => ?_, fun id key' hkey' => ?_, hback,
    fun id key' hkey' hnone => ?_, fun id key' hkey' successorId hid => ?_, fun id key' hkey' hnone => ?_,
    rooted_of_closed h.rooted hback fun id key' hkey' => ?_⟩
  · rcases hbefore id key' hkey' with ⟨rfl, rfl⟩ | ⟨key, hkey, hextends⟩
    · exact howned
    · rw [hextends.principalId]
      exact h.owned id key hkey
  · rw [hcount]
    split
    · rename_i hsame
      rw [← hsame]
      exact hroom
    · exact h.count_le id principal hid
  · rcases hbefore id key' hkey' with ⟨rfl, rfl⟩ | ⟨key, hkey, hextends⟩
    · exact hrecord
    · exact hextends.record (h.record id key hkey)
  · rcases hbefore id key' hkey' with ⟨rfl, rfl⟩ | ⟨key, hkey, hextends⟩
    · exact hfirst hnone
    · rw [hextends.predecessorId] at hnone
      cases hextends with
      | kept => exact h.first id key' hkey hnone
      | linked _ _ => exact h.first id key hkey hnone
  · rcases hbefore id key' hkey' with ⟨rfl, rfl⟩ | ⟨key, hkey, hextends⟩
    · rw [hlast] at hid
      cases hid
    · cases hextends with
      | kept =>
        obtain ⟨successor, hfound, hlink⟩ := h.successor id key' hkey successorId hid
        obtain ⟨successor', hfound', hextends'⟩ := hafter successorId successor hfound
        exact ⟨successor', hfound', hextends'.predecessorId.trans hlink⟩
      | linked _ hlink =>
        -- the one old key that gets a successor gets the new one
        obtain rfl := some.inj hid
        exact ⟨new, hnew, hlink⟩
  · rcases hbefore id key' hkey' with ⟨rfl, rfl⟩ | ⟨key, hkey, hextends⟩
    · exact hdeadline
    · cases hextends with
      | kept => exact h.last id key' hkey hnone
      | linked _ _ => cases hnone
  · rcases hbefore id key' hkey' with ⟨rfl, rfl⟩ | ⟨key, hkey, hextends⟩
    · cases hid : key'.predecessorId with
      | none => exact .inl rfl
      | some predecessorId =>
        obtain ⟨⟨predecessor, hfound⟩, -⟩ := hpredecessor predecessorId hid
        exact .inr (.inr ⟨hfresh, predecessorId, predecessor, rfl, hfound⟩)
    · exact .inr (.inl ⟨key, hkey, hextends.predecessorId⟩)

/-- A new key that no rotation links. -/
structure Unlinked (key : ApiKeyRecord) : Prop where
  first : key.predecessorId = none
  last : key.successorId = none
  noOverlap : key.rotationOverlapMicros = none
  noDeadline : key.overlapUntilMicros = none

theorem KeysOk.insert_new (h : KeysOk principals customRoles epoch keys) (hfresh : keys.get id = none)
    (hrecord : KeyRecordOk customRoles epoch id key) (hunlinked : Unlinked key)
    (howned : (principals.get key.principalId).isSome)
    (hcount : keys.count (fun other => other.principalId = key.principalId) < v1.keysPerPrincipal) :
    KeysOk principals customRoles epoch (keys.insert id key) := by
  refine h.grow hfresh (get_insert_self ..) (fun id' old hget => ?_) (fun id' found hfound => ?_) hrecord howned
    (fun _ => hunlinked.noOverlap) (by simp [hunlinked.first]) hunlinked.last hunlinked.noDeadline
      (fun principalId => ?_)
    hcount
  · exact ⟨old, (get_insert_of_ne _ _ (ne_of_get hget hfresh)).trans hget, .kept⟩
  · exact (get_insert_eq_some.mp hfound).imp_right fun hold => ⟨found, hold.2, .kept⟩
  · simp [count_insert_new hfresh]

/-! ## Changing keys in place -/

/-- The two records are of one key, in the same place of its rotation and with the same authority. -/
structure SameLine (key key' : ApiKeyRecord) : Prop where
  id : key'.id = key.id
  principalId : key'.principalId = key.principalId
  roles : key'.roles = key.roles
  customRoles : key'.customRoles = key.customRoles
  permissionCeiling : key'.permissionCeiling = key.permissionCeiling
  scopeCeiling : key'.scopeCeiling = key.scopeCeiling
  createdAtMicros : key'.createdAtMicros = key.createdAtMicros
  predecessorId : key'.predecessorId = key.predecessorId
  successorId : key'.successorId = key.successorId
  rotationOverlapMicros : key'.rotationOverlapMicros = key.rotationOverlapMicros

theorem SameLine.refl (key : ApiKeyRecord) : SameLine key key := ⟨rfl, rfl, rfl, rfl, rfl, rfl, rfl, rfl, rfl, rfl⟩

/-- The maps have the same keys, in the same places of their rotations. -/
structure SameLines (keys keys' : Keys) : Prop where
  after : ∀ id key, keys.get id = some key → ∃ key', keys'.get id = some key' ∧ SameLine key key'
  before : ∀ id key', keys'.get id = some key' → ∃ key, keys.get id = some key ∧ SameLine key key'

theorem SameLines.refl (keys : Keys) : SameLines keys keys where
  after _ key hget := ⟨key, hget, .refl key⟩
  before _ key hget := ⟨key, hget, .refl key⟩

theorem SameLines.insert (h : SameLines keys keys') (hget : keys.get id = some key) (hsame : SameLine key key') :
    SameLines keys (keys'.insert id key') where
  after := by
    intro id' found hfound
    by_cases heq : id' = id
    · subst heq
      obtain rfl : key = found := mem_unique hget hfound
      exact ⟨key', get_insert_self .., hsame⟩
    · rw [get_insert_of_ne _ _ heq]
      exact h.after id' found hfound
  before := by
    intro id' found hfound
    rcases get_insert_eq_some.mp hfound with ⟨rfl, rfl⟩ | ⟨-, hfound⟩
    · exact ⟨key, hget, hsame⟩
    · exact h.before id' found hfound

section

variable (h : KeysOk principals customRoles epoch keys)
include h

/-- Keys may change in place as long as an overlap still runs exactly behind an active successor. -/
theorem KeysOk.change (hlines : SameLines keys keys')
    (hrecord : ∀ id key', keys'.get id = some key' → KeyRecordOk customRoles epoch' id key')
    (hcount : ∀ principalId, keys'.count (fun key => key.principalId = principalId) =
      keys.count fun key => key.principalId = principalId)
    (hactive : ∀ id key' predecessorId predecessor', keys'.get id = some key' →
      key'.predecessorId = some predecessorId → keys'.get predecessorId = some predecessor' →
        predecessor'.overlapUntilMicros.isSome = key'.active)
    (hlast : ∀ id key', keys'.get id = some key' → key'.successorId = none → key'.overlapUntilMicros = none) :
    KeysOk principals customRoles epoch' keys' := by
  have hback : LinksBack keys' fun _ => Rotates := by
    intro id key' hkey' predecessorId hid
    obtain ⟨key, hkey, hsame⟩ := hlines.before id key' hkey'
    obtain ⟨predecessor, hpredecessor, hrotates⟩ := h.predecessor id key hkey predecessorId (hsame.predecessorId ▸ hid)
    obtain ⟨predecessor', hpredecessor', hsame'⟩ := hlines.after predecessorId predecessor hpredecessor
    refine ⟨predecessor', hpredecessor', ⟨?_, ?_, ?_, ?_, ?_, ?_, ?_, ?_, ?_⟩⟩
    · rw [hsame'.successorId, hsame.id, hrotates.successor]
    · rw [hsame'.principalId, hsame.principalId, hrotates.principal]
    · rw [hsame.rotationOverlapMicros]
      exact hrotates.overlap
    · rw [hsame'.roles, hsame.roles, hrotates.roles]
    · rw [hsame'.customRoles, hsame.customRoles, hrotates.customRoles]
    · rw [hsame'.permissionCeiling, hsame.permissionCeiling, hrotates.permissionCeiling]
    · rw [hsame'.scopeCeiling, hsame.scopeCeiling, hrotates.scopeCeiling]
    · rw [hsame'.createdAtMicros, hsame.createdAtMicros]
      exact hrotates.created_le
    · exact hactive id key' predecessorId predecessor' hkey' hid hpredecessor'
  refine ⟨fun id key' hkey' => ?_, fun id principal hid => ?_, hrecord, hback, fun id key' hkey' hnone => ?_,
    fun id key' hkey' successorId hid => ?_, hlast, rooted_of_closed h.rooted hback fun id key' hkey' => ?_⟩
  · obtain ⟨key, hkey, hsame⟩ := hlines.before id key' hkey'
    rw [hsame.principalId]
    exact h.owned id key hkey
  · rw [hcount]
    exact h.count_le id principal hid
  · obtain ⟨key, hkey, hsame⟩ := hlines.before id key' hkey'
    rw [hsame.rotationOverlapMicros]
    exact h.first id key hkey (hsame.predecessorId ▸ hnone)
  · obtain ⟨key, hkey, hsame⟩ := hlines.before id key' hkey'
    obtain ⟨successor, hsuccessor, hlink⟩ := h.successor id key hkey successorId (hsame.successorId ▸ hid)
    obtain ⟨successor', hsuccessor', hsame'⟩ := hlines.after successorId successor hsuccessor
    exact ⟨successor', hsuccessor', hsame'.predecessorId.trans hlink⟩
  · obtain ⟨key, hkey, hsame⟩ := hlines.before id key' hkey'
    exact .inr (.inl ⟨key, hkey, hsame.predecessorId⟩)

/-- The activity of a key matters only behind a predecessor. -/
theorem KeysOk.replace (hget : keys.get id = some key) (hle : epoch ≤ epoch')
    (hrecord : KeyRecordOk customRoles epoch' id key') (hsame : SameLine key key')
    (hoverlap : key'.overlapUntilMicros = key.overlapUntilMicros)
    (hactive : key.predecessorId = none ∨ key'.active = key.active) :
    KeysOk principals customRoles epoch' (keys.insert id key') := by
  refine h.change (.insert (.refl keys) hget hsame) ?_ ?_ ?_ ?_
  · intro id' found hfound
    rcases get_insert_eq_some.mp hfound with ⟨rfl, rfl⟩ | ⟨-, hfound⟩
    · exact hrecord
    · exact (h.record id' found hfound).mono hle
  · intro principalId
    exact count_insert_of_eq hget (by rw [hsame.principalId])
  · intro id' found predecessorId predecessor hfound hid hpredecessor
    -- Neither end of the link has changed what the link says.
    have hold : ∀ {id' found}, (keys.insert id key').get id' = some found → ∃ found₀, keys.get id' = some found₀ ∧
        found.predecessorId = found₀.predecessorId ∧ found.overlapUntilMicros = found₀.overlapUntilMicros ∧
        (found₀.predecessorId = none ∨ found.active = found₀.active) := by
      intro id' found hfound
      rcases get_insert_eq_some.mp hfound with ⟨rfl, rfl⟩ | ⟨-, hfound⟩
      · exact ⟨key, hget, hsame.predecessorId, hoverlap, hactive⟩
      · exact ⟨found, hfound, rfl, rfl, .inr rfl⟩
    obtain ⟨found₀, hfound₀, hback, -, hkept⟩ := hold hfound
    obtain ⟨predecessor₀, hpredecessor₀, -, hdeadline, -⟩ := hold hpredecessor
    rw [hback] at hid
    rw [hdeadline, (h.rotates hfound₀ hid hpredecessor₀).active]
    rcases hkept with hnone | hkept
    · rw [hnone] at hid
      cases hid
    · exact hkept.symm
  · intro id' found hfound hnone
    rcases get_insert_eq_some.mp hfound with ⟨rfl, rfl⟩ | ⟨-, hfound⟩
    · rw [hoverlap]
      exact h.last id' key hget (hsame.successorId ▸ hnone)
    · exact h.last id' found hfound hnone

/-! ## Rotations -/

/-- The successor becomes active, and the overlap with its predecessor starts. -/
theorem KeysOk.activate_rotated {predecessorId : ApiKeyId} (hget : keys.get id = some key)
    (hid : key.predecessorId = some predecessorId) (hpredecessor : keys.get predecessorId = some predecessor)
    (hle : epoch ≤ epoch') (hsame : SameLine key key') (hrecord : KeyRecordOk customRoles epoch' id key')
    (hactive : key'.active = true) (hkept : key'.overlapUntilMicros = key.overlapUntilMicros)
    (hsame' : SameLine predecessor predecessor') (hrecord' : KeyRecordOk customRoles epoch' predecessorId predecessor')
    (hdeadline : predecessor'.overlapUntilMicros.isSome = true) (hkept' : predecessor'.active = predecessor.active) :
    KeysOk principals customRoles epoch' ((keys.insert id key').insert predecessorId predecessor') := by
  have hself := h.ne_predecessor hget hid
  have hmiddle : (keys.insert id key').get predecessorId = some predecessor :=
    (get_insert_of_ne _ _ hself).trans hpredecessor
  have hfind : ∀ {id' found}, ((keys.insert id key').insert predecessorId predecessor').get id' = some found →
      id' = predecessorId ∧ found = predecessor' ∨ id' ≠ predecessorId ∧
        (id' = id ∧ found = key' ∨ id' ≠ id ∧ keys.get id' = some found) := by
    intro id' found hfound
    rwa [get_insert_eq_some, get_insert_eq_some] at hfound
  have hsuccessor := h.successor_of_predecessor hget hid hpredecessor
  refine h.change (.insert (.insert (.refl keys) hget hsame) hpredecessor hsame') ?_ ?_ ?_ ?_
  · intro id' found hfound
    rcases hfind hfound with ⟨rfl, rfl⟩ | ⟨-, ⟨rfl, rfl⟩ | ⟨-, hfound⟩⟩
    · exact hrecord'
    · exact hrecord
    · exact (h.record id' found hfound).mono hle
  · intro principalId
    rw [count_insert_of_eq hmiddle (by rw [hsame'.principalId]), count_insert_of_eq hget (by rw [hsame.principalId])]
  · intro id' found predecessorId' found' hfound hid' hfound'
    rcases hfind hfound with ⟨rfl, rfl⟩ | ⟨-, ⟨rfl, rfl⟩ | ⟨hother, hold⟩⟩
    · -- The link from the predecessor to its own predecessor.
      rw [hsame'.predecessorId] at hid'
      rw [hkept']
      rcases hfind hfound' with ⟨rfl, -⟩ | ⟨-, ⟨rfl, rfl⟩ | ⟨-, hfound'⟩⟩
      · exact absurd rfl (h.ne_predecessor hpredecessor hid')
      · rw [hkept]
        exact (h.rotates hpredecessor hid' hget).active
      · exact (h.rotates hpredecessor hid' hfound').active
    · -- The link that the activation is about.
      rw [hsame.predecessorId, hid, some.injEq] at hid'
      subst hid'
      rcases hfind hfound' with ⟨-, rfl⟩ | ⟨hne, -⟩
      · rw [hdeadline, hactive]
      · exact absurd rfl hne
    · rcases hfind hfound' with ⟨rfl, rfl⟩ | ⟨-, ⟨rfl, rfl⟩ | ⟨-, hfound'⟩⟩
      · -- Only the successor has this predecessor.
        have hagain := h.successor_of_predecessor hold hid' hpredecessor
        rw [hsuccessor, some.injEq] at hagain
        exact absurd hagain.symm hother
      · rw [hkept]
        exact (h.rotates hold hid' hget).active
      · exact (h.rotates hold hid' hfound').active
  · intro id' found hfound hnone
    rcases hfind hfound with ⟨rfl, rfl⟩ | ⟨-, ⟨rfl, rfl⟩ | ⟨-, hfound⟩⟩
    · rw [hsame'.successorId, hsuccessor] at hnone
      cases hnone
    · rw [hkept]
      exact h.last _ key hget (hsame.successorId ▸ hnone)
    · exact h.last id' found hfound hnone

/-- A rotation adds a key behind the last of a line. -/
theorem KeysOk.link {predecessorId : ApiKeyId} (hpredecessor : keys.get predecessorId = some predecessor)
    (hend : predecessor.successorId = none) (hfresh : keys.get id = none)
    (hrecord : KeyRecordOk customRoles epoch id key) (hid : key.predecessorId = some predecessorId)
    (hrotates : Rotates { predecessor with successorId := some id } key) (hlast : key.successorId = none)
    (hdeadline : key.overlapUntilMicros = none)
    (hcount : keys.count (fun other => other.principalId = key.principalId) < v1.keysPerPrincipal) :
    KeysOk principals customRoles epoch
      ((keys.insert id key).insert predecessorId { predecessor with successorId := some id }) := by
  have hself : predecessorId ≠ id := ne_of_get hpredecessor hfresh
  have hmiddle : (keys.insert id key).get predecessorId = some predecessor :=
    (get_insert_of_ne _ _ hself).trans hpredecessor
  have hlinked := get_insert_self (keys.insert id key) predecessorId { predecessor with successorId := some id }
  have hnew : ((keys.insert id key).insert predecessorId { predecessor with successorId := some id }).get id =
    some key := (get_insert_of_ne _ _ hself.symm).trans (get_insert_self ..)
  refine h.grow hfresh hnew (fun id' old hget => ?_) (fun id' found hfound => ?_) hrecord ?_
    (fun hnone => by simp [hid] at hnone) (fun earlierId hearlier => ?_) hlast hdeadline (fun principalId => ?_) hcount
  · by_cases heq : id' = predecessorId
    · subst heq
      obtain rfl : old = predecessor := mem_unique hget hpredecessor
      exact ⟨_, hlinked, .linked hend hid⟩
    · refine ⟨old, ?_, .kept⟩
      rw [get_insert_of_ne _ _ heq, get_insert_of_ne _ _ (ne_of_get hget hfresh), hget]
  · rcases get_insert_eq_some.mp hfound with ⟨rfl, rfl⟩ | ⟨-, hfound⟩
    · exact .inr ⟨predecessor, hpredecessor, .linked hend hid⟩
    · exact (get_insert_eq_some.mp hfound).imp_right fun hold => ⟨found, hold.2, .kept⟩
  · rw [← hrotates.principal]
    exact h.owned _ predecessor hpredecessor
  · obtain rfl := mem_unique hid hearlier
    exact ⟨⟨predecessor, hpredecessor⟩, _, hlinked, hrotates⟩
  · have hcounted := count_insert_of_eq (p := fun key => decide (key.principalId = principalId)) hmiddle
      (show decide (({ predecessor with successorId := some id } : ApiKeyRecord).principalId = principalId) =
        _ from rfl)
    rw [hcounted, count_insert_new hfresh]
    simp

/-- An aborted rotation drops the successor, and the predecessor is the last of its line again. -/
theorem KeysOk.unlink {predecessorId : ApiKeyId} (hget : keys.get id = some key)
    (hid : key.predecessorId = some predecessorId) (hlast : key.successorId = none) (hinactive : key.active = false)
    (hpredecessor : keys.get predecessorId = some predecessor) :
    KeysOk principals customRoles epoch
      ((keys.eraseAll [id]).insert predecessorId { predecessor with successorId := none }) := by
  have hself := h.ne_predecessor hget hid
  have hdeadline : predecessor.overlapUntilMicros = none := by
    simpa [hinactive] using (h.rotates hget hid hpredecessor).active
  have hsuccessor := h.successor_of_predecessor hget hid hpredecessor
  generalize hkeys : (keys.eraseAll [id]).insert predecessorId { predecessor with successorId := none } = keys'
  have hfind : ∀ {id' found}, keys'.get id' = some found ↔
      id' = predecessorId ∧ found = { predecessor with successorId := none } ∨
        id' ≠ predecessorId ∧ id' ≠ id ∧ keys.get id' = some found := by
    intro id' found
    rw [← hkeys, get_insert_eraseAll_eq_some, mem_singleton]
  refine h.cut_insert hpredecessor (by simpa using hself) (.last hdeadline) hkeys.symm ⟨?_, ?_⟩
  · intro id' found hfound earlierId hearlier
    have hbefore : ∀ {id' found}, id' ≠ id → keys.get id' = some found → found.predecessorId = some earlierId →
        ∃ earlier, keys'.get earlierId = some earlier ∧ earlier.successorId = some id' := by
      intro id' found hother hfound hearlier
      obtain ⟨earlier, hget', -⟩ := h.predecessor id' found hfound earlierId hearlier
      have hnext := h.successor_of_predecessor hfound hearlier hget'
      refine ⟨earlier, hfind.mpr (.inr ⟨?_, ?_, hget'⟩), hnext⟩
      · rintro rfl
        rw [hpredecessor, some.injEq] at hget'
        rw [← hget', hsuccessor, some.injEq] at hnext
        exact hother hnext.symm
      · rintro rfl
        rw [hget, some.injEq] at hget'
        rw [← hget', hlast] at hnext
        cases hnext
    rcases hfind.mp hfound with ⟨rfl, rfl⟩ | ⟨-, hother, hfound⟩
    · exact hbefore hself hpredecessor hearlier
    · exact hbefore hother hfound hearlier
  · intro id' found hfound nextId hnext
    rcases hfind.mp hfound with ⟨rfl, rfl⟩ | ⟨hother, -, hfound⟩
    · cases hnext
    · obtain ⟨next, hget', hlink⟩ := h.successor id' found hfound nextId hnext
      by_cases heq : nextId = predecessorId
      · subst heq
        obtain rfl : next = predecessor := mem_unique hget' hpredecessor
        exact ⟨_, hfind.mpr (.inl ⟨rfl, rfl⟩), hlink⟩
      · refine ⟨next, hfind.mpr (.inr ⟨heq, ?_, hget'⟩), hlink⟩
        rintro rfl
        obtain rfl : next = key := mem_unique hget' hget
        rw [hid, some.injEq] at hlink
        exact hother hlink.symm

end

/-! ## The ancestors of a key -/

/-- The keys the walk back from a key visits after the key itself. -/
inductive Ancestors (keys : Keys) : ApiKeyId → List ApiKeyId → Prop
  | root {id : ApiKeyId} {key : ApiKeyRecord} (hget : keys.get id = some key) (hroot : key.predecessorId = none) :
    Ancestors keys id []
  | step {id predecessorId : ApiKeyId} {key : ApiKeyRecord} {ids : List ApiKeyId} (hget : keys.get id = some key)
    (hpredecessor : key.predecessorId = some predecessorId) (hrest : Ancestors keys predecessorId ids) :
    Ancestors keys id (predecessorId :: ids)

namespace Ancestors

variable {v : ApiKeyId} (h : Ancestors keys id ids)
include h

theorem rootedAt : RootedAt keys ids.length id := by
  induction h with
  | root hget hroot => exact .root hget hroot
  | step hget hpredecessor _ ih => exact .step hget hpredecessor ih

theorem depth_lt (hv : v ∈ ids) : ∃ d < ids.length, RootedAt keys d v := by
  induction h with
  | root => cases hv
  | step _ _ hrest ih =>
    rcases mem_cons.mp hv with rfl | hv
    · exact ⟨_, Nat.lt_succ_self _, hrest.rootedAt⟩
    · obtain ⟨d, hd, hat⟩ := ih hv
      exact ⟨d, Nat.lt_succ_of_lt hd, hat⟩

theorem not_mem : id ∉ ids := by
  intro hmem
  obtain ⟨d, hd, hat⟩ := h.depth_lt hmem
  have := h.rootedAt.unique hat
  omega

theorem nodup : ids.Nodup := by
  induction h with
  | root => exact nodup_nil
  | step _ _ hrest ih => exact nodup_cons.mpr ⟨hrest.not_mem, ih⟩

theorem predecessor_mem {predecessorId : ApiKeyId} (hv : v = id ∨ v ∈ ids) (hget : keys.get v = some key)
    (hpredecessor : key.predecessorId = some predecessorId) :
    predecessorId ∈ ids := by
  induction h with
  | root hget' hroot =>
    rcases hv with rfl | hv
    · rw [hget, some.injEq] at hget'
      rw [hget', hroot] at hpredecessor
      cases hpredecessor
    · cases hv
  | step hget' hpredecessor' _ ih =>
    rcases hv with rfl | hv
    · rw [hget, some.injEq] at hget'
      rw [hget', hpredecessor', some.injEq] at hpredecessor
      exact hpredecessor ▸ mem_cons_self
    · exact mem_cons_of_mem _ (ih (mem_cons.mp hv))

theorem successor_mem (hok : KeysOk principals customRoles epoch keys) {successorId : ApiKeyId} (hv : v ∈ ids)
    (hget : keys.get v = some key) (hsuccessor : key.successorId = some successorId) :
    successorId = id ∨ successorId ∈ ids := by
  induction h with
  | root => cases hv
  | @step id predecessorId child ids hget' hpredecessor _ ih =>
    rcases mem_cons.mp hv with rfl | hv
    · have hnext := hok.successor_of_predecessor hget' hpredecessor hget
      rw [hsuccessor, some.injEq] at hnext
      exact .inl hnext
    · rcases ih hv with rfl | hmem
      · exact .inr mem_cons_self
      · exact .inr (mem_cons_of_mem _ hmem)

/-- A rotation keeps the principal, so the whole line belongs to one. -/
theorem principalId (hok : KeysOk principals customRoles epoch keys) (hget : keys.get id = some key) :
    ∀ v ∈ ids, ∃ ancestor, keys.get v = some ancestor ∧ ancestor.principalId = key.principalId := by
  induction h generalizing key with
  | root => simp
  | @step id predecessorId child ids hget' hpredecessor _ ih =>
    obtain rfl : key = child := mem_unique hget hget'
    obtain ⟨predecessor, hfound, hrotates⟩ := hok.predecessor id key hget predecessorId hpredecessor
    intro v hv
    rcases mem_cons.mp hv with rfl | hv
    · exact ⟨predecessor, hfound, hrotates.principal⟩
    · obtain ⟨ancestor, hancestor, hsame⟩ := ih hfound v hv
      exact ⟨ancestor, hancestor, hsame.trans hrotates.principal⟩

end Ancestors

/-- The key becomes the first of its line when its ancestors go. -/
theorem KeysOk.detach (h : KeysOk principals customRoles epoch keys) (hget : keys.get id = some key)
    (hancestors : Ancestors keys id ids) :
    KeysOk principals customRoles epoch
      ((keys.eraseAll ids).insert id { key with predecessorId := none, rotationOverlapMicros := none }) := by
  generalize hkeys : (keys.eraseAll ids).insert id { key with predecessorId := none, rotationOverlapMicros := none } =
    keys'
  have hfind : ∀ {id' found}, keys'.get id' = some found ↔
      id' = id ∧ found = { key with predecessorId := none, rotationOverlapMicros := none } ∨
        id' ≠ id ∧ id' ∉ ids ∧ keys.get id' = some found := by
    intro id' found
    rw [← hkeys, get_insert_eraseAll_eq_some]
  refine h.cut_insert hget hancestors.not_mem .first hkeys.symm ⟨?_, ?_⟩
  · intro id' found hfound earlierId hearlier
    rcases hfind.mp hfound with ⟨rfl, rfl⟩ | ⟨hother, hmem, hfound⟩
    · cases hearlier
    · obtain ⟨earlier, hget', -⟩ := h.predecessor id' found hfound earlierId hearlier
      have hnext := h.successor_of_predecessor hfound hearlier hget'
      by_cases heq : earlierId = id
      · subst heq
        obtain rfl : earlier = key := mem_unique hget' hget
        exact ⟨_, hfind.mpr (.inl ⟨rfl, rfl⟩), hnext⟩
      · refine ⟨earlier, hfind.mpr (.inr ⟨heq, fun hin => ?_, hget'⟩), hnext⟩
        rcases hancestors.successor_mem h hin hget' hnext with rfl | hin
        · exact hother rfl
        · exact hmem hin
  · intro id' found hfound nextId hnext
    have hafter : ∀ {id' found}, id' ∉ ids → keys.get id' = some found → found.successorId = some nextId →
        ∃ next, keys'.get nextId = some next ∧ next.predecessorId = some id' := by
      intro id' found hmem hfound hnext
      obtain ⟨next, hget', hlink⟩ := h.successor id' found hfound nextId hnext
      have hnew : nextId ≠ id ∧ nextId ∉ ids := by
        rw [← not_or]
        exact fun hin => hmem (hancestors.predecessor_mem hin hget' hlink)
      exact ⟨next, hfind.mpr (.inr ⟨hnew.1, hnew.2, hget'⟩), hlink⟩
    rcases hfind.mp hfound with ⟨rfl, rfl⟩ | ⟨-, hmem, hfound⟩
    · exact hafter hancestors.not_mem hget hnext
    · exact hafter hmem hfound hnext

end KeyMaps

/-- A walk back over ancestors that are all over has found the ancestors. -/
theorem AccessControlCatalog.ancestors_of_retiredAncestorsFrom {catalog : AccessControlCatalog} {nowMicros : Int}
    {bound : Nat} {visited : List ApiKeyId} {childId : ApiKeyId} {child : ApiKeyRecord}
    (hchild : catalog.keys.get childId = some child)
    (h : catalog.retiredAncestorsFrom nowMicros bound visited childId child.predecessorId = .ok ids) :
    Ancestors catalog.keys childId ids := by
  induction bound generalizing visited ids childId child <;> cases hpredecessor : child.predecessorId <;>
    rw [hpredecessor] at h
  case zero.none | succ.none =>
    rw [retiredAncestorsFrom, Except.ok.injEq] at h
    exact h ▸ .root hchild hpredecessor
  case zero.some => cases h
  case succ.some bound ih ancestorId =>
    simp only [retiredAncestorsFrom, Except.bind_eq_ok, Except.okOr_eq_ok, Except.ok.injEq] at h
    obtain ⟨-, -, ancestor, hancestor, -, -, -, -, rest, hrest, rfl⟩ := h
    exact .step hchild hpredecessor (ih hancestor hrest)

end Hyphae.Access
