import Hyphae.Mvcc.ConflictTable

/-!
# Permissions, scopes and roles

A permission set is a mask of the permissions this product version knows. What a
mask says is which permissions it allows, and two masks that allow the same
permissions are the same. Scopes are the stable resource boundaries a grant is made at.
-/

namespace Hyphae.Access

open Lib BitVec List

open Mvcc (ObjectId)

/-! ## Permissions -/

/-- Product permission checked before operation execution. -/
inductive ProductPermission
  | auditRead
  | backupCreate
  | backupVerify
  | catalogRead
  | catalogWrite
  | credentialSelfManage
  | dataRead
  | dataWrite
  | discover
  | maintain
  | observe
  | ownershipManage
  | proofGenerate
  | proofVerify
  | restore
  | searchExecute
  | securityManage
  | securityRead
  deriving DecidableEq

namespace ProductPermission

/-- The stable append-only wire tag. -/
def tag : ProductPermission → Nat
  | auditRead => 0
  | backupCreate => 1
  | backupVerify => 2
  | catalogRead => 3
  | catalogWrite => 4
  | credentialSelfManage => 5
  | dataRead => 6
  | dataWrite => 7
  | discover => 8
  | maintain => 9
  | observe => 10
  | ownershipManage => 11
  | proofGenerate => 12
  | proofVerify => 13
  | restore => 14
  | searchExecute => 15
  | securityManage => 16
  | securityRead => 17

/-- `ALL_PRODUCT_PERMISSIONS`, in tag order. -/
def all : List ProductPermission :=
  [auditRead, backupCreate, backupVerify, catalogRead, catalogWrite, credentialSelfManage, dataRead, dataWrite,
    discover, maintain, observe, ownershipManage, proofGenerate, proofVerify, restore, searchExecute, securityManage,
      securityRead]

theorem mem_all (permission : ProductPermission) : permission ∈ all := by
  cases permission <;> decide

theorem tag_lt (permission : ProductPermission) : permission.tag < 18 := by
  cases permission <;> decide

theorem tag_injective : Function.Injective tag := by
  intro a b h
  have hall : ∀ a ∈ all, ∀ b ∈ all, a.tag = b.tag → a = b := by decide
  exact hall a a.mem_all b b.mem_all h

/-- Every known bit is the bit of a permission. -/
theorem exists_tag_eq {i : Nat} (h : i < 18) : ∃ permission : ProductPermission, permission.tag = i := by
  have hall : ∀ i < 18, (all.find? fun permission => permission.tag = i).isSome := by decide
  obtain ⟨permission, hfind⟩ := Option.isSome_iff_exists.mp (hall i h)
  exact ⟨permission, by simpa using find?_some hfind⟩

instance : LinearOrder ProductPermission := LinearOrder.lift' tag tag_injective

end ProductPermission

/-! ## Scopes -/

/-- Stable resource boundary attached to one permission grant. -/
inductive ProductScope
  /-- The complete local product instance. -/
  | instance_
  /-- One catalog object and every descendant in the bound snapshot. -/
  | catalogSubtree (root : ObjectId)
  /-- Exactly one catalog object. -/
  | catalogObject (object : ObjectId)
  deriving DecidableEq

namespace ProductScope

/-- Position in the derived order: the variant, then the object. -/
def rank : ProductScope → Nat ×ₗ Nat
  | instance_ => toLex (0, 0)
  | catalogSubtree root => toLex (1, root.get)
  | catalogObject object => toLex (2, object.get)

theorem rank_injective : Function.Injective rank := by
  intro a b h
  cases a <;> cases b <;> simp [rank, NonZeroUInt.ext_iff] at h ⊢ <;> exact h

instance : LinearOrder ProductScope := LinearOrder.lift' rank rank_injective

/-- Whether the scope covers `candidate` in the bound catalog. -/
def coversObject (scope : ProductScope) (candidate : ObjectId) (isDescendant : ObjectId → ObjectId → Bool) : Bool :=
  match scope with
  | instance_ => true
  | catalogObject object => object = candidate
  | catalogSubtree root => root = candidate || isDescendant candidate root

end ProductScope

/-- Whether the permission may be granted at `scope`. -/
def ProductPermission.supportsScope (permission : ProductPermission) (scope : ProductScope) : Bool :=
  match scope with
  | .instance_ => true
  | .catalogSubtree _ | .catalogObject _ =>
    match permission with
    | catalogRead | catalogWrite | dataRead | dataWrite | proofGenerate | searchExecute => true
    | _ => false

/-- A permission that can be granted on objects can be granted at every scope. -/
theorem ProductPermission.supportsScope_of_object {permission : ProductPermission} {target : ObjectId}
    (h : permission.supportsScope (.catalogObject target)) (scope : ProductScope) : permission.supportsScope scope := by
  cases scope with
  | instance_ => rfl
  | catalogSubtree root => exact h
  | catalogObject object => exact h

/-! ## Permission sets -/

/-- The mask of every known permission. -/
def allBits : BitVec 64 := (1 <<< 18) - 1

theorem getLsbD_allBits (i : Nat) : allBits.getLsbD i = decide (i < 18) := by
  by_cases h : i < 64
  · have hall : ∀ i < 64, allBits.getLsbD i = decide (i < 18) := by decide
    exact hall i h
  · rw [getLsbD_of_ge _ _ (not_lt.mp h)]
    exact (decide_eq_false (by omega)).symm

/-- A set of permissions: a mask with known bits only. -/
structure ProductAuthorization where
  bits : BitVec 64
  known : bits &&& allBits = bits
  deriving DecidableEq

namespace ProductAuthorization

variable {a : ProductAuthorization}

/-- No permissions. -/
def none : ProductAuthorization := ⟨0, rfl⟩

/-- Every permission known to this product version. -/
def all : ProductAuthorization := ⟨allBits, BitVec.and_self⟩

/-- The mask with unknown bits dropped. -/
def fromBits (bits : BitVec 64) : ProductAuthorization :=
  ⟨bits &&& allBits, by rw [BitVec.and_assoc, BitVec.and_self]⟩

/-- Whether the permission is granted. -/
def allows (authorization : ProductAuthorization) (permission : ProductPermission) : Bool :=
  authorization.bits &&& (1#64 <<< permission.tag) != 0

/-- Combines two additive permission sets. -/
def union (authorization other : ProductAuthorization) : ProductAuthorization :=
  ⟨authorization.bits ||| other.bits, by
    have hor : (authorization.bits ||| other.bits) &&& allBits =
      (authorization.bits &&& allBits) ||| (other.bits &&& allBits) := by
      ext i
      simp [Bool.and_or_distrib_right]
    rw [hor, authorization.known, other.known]⟩

theorem getLsbD_bit (permission : ProductPermission) (i : Nat) :
    (1#64 <<< permission.tag).getLsbD i = decide (i = permission.tag) := by
  have hlt := permission.tag_lt
  rw [← twoPow_eq, getLsbD_twoPow]
  by_cases h : permission.tag = i
  · simp [← h, show permission.tag < 64 by omega]
  · simp [h, Ne.symm h]

theorem allows_eq_getLsbD (authorization : ProductAuthorization) (permission : ProductPermission) :
    authorization.allows permission = authorization.bits.getLsbD permission.tag := by
  have hbit : (twoPow 64 permission.tag != 0) = true := by cases permission <;> decide
  rw [allows, ← twoPow_eq, and_twoPow]
  cases authorization.bits.getLsbD permission.tag
  · rfl
  · exact hbit

/-- A set is known by the permissions it allows. -/
theorem ext_allows {b : ProductAuthorization} (h : ∀ permission, a.allows permission = b.allows permission) :
    a = b := by
  have hbits : a.bits = b.bits := by
    refine eq_of_getLsbD_eq fun i _ => ?_
    by_cases hi : i < 18
    · obtain ⟨permission, rfl⟩ := ProductPermission.exists_tag_eq hi
      rw [← allows_eq_getLsbD, ← allows_eq_getLsbD, h]
    · rw [← a.known, ← b.known, getLsbD_and, getLsbD_and, getLsbD_allBits]
      simp [hi]
  cases a
  cases b
  simpa using hbits

@[simp] theorem allows_none (permission : ProductPermission) : none.allows permission = false := by
  simp [allows_eq_getLsbD, none]

@[simp] theorem allows_union (a b : ProductAuthorization) (permission : ProductPermission) :
    (a.union b).allows permission = (a.allows permission || b.allows permission) := by
  simp [allows_eq_getLsbD, union]

theorem allows_fromBits (bits : BitVec 64) (permission : ProductPermission) :
    (fromBits bits).allows permission = bits.getLsbD permission.tag := by
  simp [allows_eq_getLsbD, fromBits, getLsbD_allBits, permission.tag_lt]

theorem eq_none_iff : a = none ↔ ∀ permission, a.allows permission = false := by
  constructor
  · rintro rfl permission
    exact allows_none permission
  · intro h
    exact ext_allows fun permission => by rw [h, allows_none]

theorem ne_none_iff : a ≠ none ↔ ∃ permission, a.allows permission := by
  rw [Ne, eq_none_iff, not_forall]
  simp

/-- The set of one permission. -/
def single (permission : ProductPermission) : ProductAuthorization := fromBits (1#64 <<< permission.tag)

/-- Builds a set from explicit permissions. -/
def fromPermissions (permissions : List ProductPermission) : ProductAuthorization :=
  permissions.foldl (fun current permission => current.union (single permission)) none

@[simp] theorem allows_single (a permission : ProductPermission) :
    (single a).allows permission = decide (permission = a) := by
  rw [single, allows_fromBits, getLsbD_bit]
  exact decide_eq_decide.mpr ProductPermission.tag_injective.eq_iff

theorem allows_foldl_union {α : Type} (f : α → ProductAuthorization) (items : List α) (start : ProductAuthorization)
    (permission : ProductPermission) :
    (items.foldl (fun current item => current.union (f item)) start).allows permission =
      (start.allows permission || items.any fun item => (f item).allows permission) := by
  induction items generalizing start with
  | nil => simp
  | cons item items ih => rw [foldl_cons, ih, allows_union, any_cons, Bool.or_assoc]

theorem allows_fromPermissions (permissions : List ProductPermission) (permission : ProductPermission) :
    (fromPermissions permissions).allows permission = decide (permission ∈ permissions) := by
  rw [fromPermissions, allows_foldl_union, allows_none, Bool.false_or, Bool.eq_iff_iff]
  simp only [allows_single, any_eq_true, decide_eq_true_eq]
  exact ⟨fun ⟨item, hitem, h⟩ => h ▸ hitem, fun h => ⟨permission, h, rfl⟩⟩

/-- Discovery plus ordinary application read, search, and proof operations. -/
def readOnly : ProductAuthorization :=
  fromPermissions [.discover, .catalogRead, .dataRead, .searchExecute, .proofGenerate, .proofVerify]

/-- Removes one permission from the set. -/
def without (authorization : ProductAuthorization) (permission : ProductPermission) : ProductAuthorization :=
  fromBits (authorization.bits &&& ~~~(1#64 <<< permission.tag))

/-- Intersects the set with a credential permission ceiling. -/
def intersect (authorization ceiling : ProductAuthorization) : ProductAuthorization :=
  fromBits (authorization.bits &&& ceiling.bits)

@[simp] theorem allows_intersect (a ceiling : ProductAuthorization) (permission : ProductPermission) :
    (a.intersect ceiling).allows permission = (a.allows permission && ceiling.allows permission) := by
  rw [intersect, allows_fromBits, getLsbD_and, ← allows_eq_getLsbD, ← allows_eq_getLsbD]

/-- Removes permissions that are invalid at the requested scope kind. -/
def forScope (authorization : ProductAuthorization) (scope : ProductScope) : ProductAuthorization :=
  (ProductPermission.all.filter fun permission => authorization.allows permission && permission.supportsScope
    scope).foldl (fun result permission => result.union (fromPermissions [permission])) none

@[simp] theorem allows_forScope (a : ProductAuthorization) (scope : ProductScope) (permission : ProductPermission) :
    (a.forScope scope).allows permission = (a.allows permission && permission.supportsScope scope) := by
  rw [forScope, allows_foldl_union, allows_none, Bool.false_or, Bool.eq_iff_iff]
  simp only [any_filter, any_eq_true, allows_fromPermissions, mem_singleton, Bool.and_eq_true, decide_eq_true_eq]
  constructor
  · rintro ⟨item, -, hitem, rfl⟩
    exact hitem
  · intro h
    exact ⟨permission, permission.mem_all, h, rfl⟩

end ProductAuthorization

/-! ## Built-in roles -/

/-- One built-in immutable role. -/
inductive BuiltInRole
  | owner
  | admin
  | operator
  | developer
  | writer
  | reader
  | auditor
  deriving DecidableEq

namespace BuiltInRole

/-- The stable append-only wire tag. -/
def tag : BuiltInRole → Nat
  | owner => 0
  | admin => 1
  | operator => 2
  | developer => 3
  | writer => 4
  | reader => 5
  | auditor => 6

theorem tag_injective : Function.Injective tag := by
  intro a b h
  cases a <;> cases b <;> first | rfl | exact absurd h (by decide)

instance : LinearOrder BuiltInRole := LinearOrder.lift' tag tag_injective

/-- The reserved lowercase role identifier. -/
def parse (value : List Char) : Option BuiltInRole :=
  if value = ['o', 'w', 'n', 'e', 'r'] then some owner
  else if value = ['a', 'd', 'm', 'i', 'n'] then some admin
  else if value = ['o', 'p', 'e', 'r', 'a', 't', 'o', 'r'] then some operator
  else if value = ['d', 'e', 'v', 'e', 'l', 'o', 'p', 'e', 'r'] then some developer
  else if value = ['w', 'r', 'i', 't', 'e', 'r'] then some writer
  else if value = ['r', 'e', 'a', 'd', 'e', 'r'] then some reader
  else if value = ['a', 'u', 'd', 'i', 't', 'o', 'r'] then some auditor
  else none

/-- The exact immutable permission set. -/
def authorization : BuiltInRole → ProductAuthorization
  | owner => .all
  | admin => ProductAuthorization.all.without .ownershipManage
  | operator => .fromPermissions
      [.auditRead, .backupCreate, .backupVerify, .catalogRead, .credentialSelfManage, .discover, .maintain, .observe,
        .proofVerify]
  | developer => .fromPermissions
      [.catalogRead, .catalogWrite, .credentialSelfManage, .dataRead, .dataWrite, .discover, .observe, .proofGenerate,
        .proofVerify, .searchExecute]
  | writer => .fromPermissions
      [.catalogRead, .credentialSelfManage, .dataRead, .dataWrite, .discover, .proofGenerate, .proofVerify,
        .searchExecute]
  | reader => ProductAuthorization.readOnly.union (.fromPermissions [.credentialSelfManage])
  | auditor => .fromPermissions
      [.auditRead, .backupVerify, .catalogRead, .credentialSelfManage, .discover, .observe, .proofVerify, .securityRead]

end BuiltInRole

end Hyphae.Access
