import Mathlib

/-!
# Nonzero identities

Every stable identity of the substrate is a nonzero unsigned integer of a fixed
width. The value carries both facts, so a zero or oversized identity cannot be
built.
-/

namespace Hyphae

/-- A nonzero unsigned integer of `w` bits. -/
structure NonZeroUInt (w : Nat) where
  get : Nat
  pos : 0 < get
  lt : get < 2 ^ w
  deriving DecidableEq, Repr

namespace NonZeroUInt

variable {w : Nat}

@[ext] theorem ext {a b : NonZeroUInt w} (h : a.get = b.get) : a = b := by
  cases a
  cases b
  simpa using h

/-- The checked constructor: zero is refused. -/
def new (w n : Nat) : Option (NonZeroUInt w) :=
  if h : 0 < n ∧ n < 2 ^ w then some ⟨n, h.1, h.2⟩ else none

theorem new_eq_some {n : Nat} {a : NonZeroUInt w} : new w n = some a ↔ n = a.get := by
  unfold new
  split
  · constructor
    · rintro ⟨⟩
      rfl
    · intro h
      simp [h]
  · rename_i h
    constructor
    · rintro ⟨⟩
    · rintro rfl
      exact absurd ⟨a.pos, a.lt⟩ h

@[simp] theorem new_get (a : NonZeroUInt w) : new w a.get = some a := new_eq_some.mpr rfl

/-- The identity `n + 1`, at a width that has room for it. -/
def ofSucc (n : Nat) : NonZeroUInt (w + n + 1) :=
  ⟨n + 1, n.succ_pos, Nat.lt_two_pow_self.trans_le (Nat.pow_le_pow_right Nat.two_pos (by omega))⟩

instance : LinearOrder (NonZeroUInt w) := LinearOrder.lift' NonZeroUInt.get fun _ _ => ext

end NonZeroUInt

/-- Physical page slot identity. -/
abbrev PageId := NonZeroUInt 64

instance : LawfulBEq PageId := inferInstance

/-- Immutable page-file generation. -/
abbrev PageGeneration := NonZeroUInt 64

/-- Commit sequence number. -/
abbrev Csn := NonZeroUInt 64

/-- Log sequence number: the absolute byte address of a record. -/
abbrev Lsn := NonZeroUInt 64

/-- Transaction identity. -/
abbrev TransactionId := NonZeroUInt 128

/-- Column identity within a relation. -/
abbrev ColumnId := NonZeroUInt 32

end Hyphae
