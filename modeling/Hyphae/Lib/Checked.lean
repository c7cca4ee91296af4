import Mathlib

/-!
# Checked machine arithmetic

Lengths, offsets and sequences are unsigned 64-bit numbers. Their model is `Nat`;
an operation the code checks for overflow returns nothing where the result does
not fit.
-/

namespace Lib

/-- Addition of two 64-bit numbers. -/
def checkedAdd (a b : Nat) : Option Nat := if a + b < 2 ^ 64 then some (a + b) else none

/-- Multiplication of two 64-bit numbers. -/
def checkedMul (a b : Nat) : Option Nat := if a * b < 2 ^ 64 then some (a * b) else none

/-- Subtraction of two 64-bit numbers. -/
def checkedSub (a b : Nat) : Option Nat := if b ≤ a then some (a - b) else none

@[simp] theorem checkedAdd_eq_some {a b n : Nat} : checkedAdd a b = some n ↔ a + b < 2 ^ 64 ∧ n = a + b := by
  unfold checkedAdd
  split <;> simp_all [eq_comm]

@[simp] theorem checkedMul_eq_some {a b n : Nat} : checkedMul a b = some n ↔ a * b < 2 ^ 64 ∧ n = a * b := by
  unfold checkedMul
  split <;> simp_all [eq_comm]

@[simp] theorem checkedSub_eq_some {a b n : Nat} : checkedSub a b = some n ↔ b ≤ a ∧ n = a - b := by
  unfold checkedSub
  split <;> simp_all [eq_comm]

/-- Subtraction that wraps around, as on an atomic counter. -/
def wrappingSub (a b : Nat) : Nat := (a + (2 ^ 64 - b)) % 2 ^ 64

theorem wrappingSub_of_le {a b : Nat} (h : b ≤ a) (ha : a < 2 ^ 64) : wrappingSub a b = a - b := by
  unfold wrappingSub
  omega

/-- Addition that stops at the largest 64-bit number. -/
def saturatingAdd (a b : Nat) : Nat := min (a + b) (2 ^ 64 - 1)

end Lib
