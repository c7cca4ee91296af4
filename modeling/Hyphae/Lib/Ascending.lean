import Mathlib

/-!
# Strictly ascending lists

An ordered map stored as a list of pairs is the list of its entries in strictly
ascending key order. Two such lists with the same entries are equal, so every
operation on them is specified by which entries it leaves.
-/

namespace Lib

variable {κ ν : Type} [LinearOrder κ] {keys : List κ}

/-- Each key is below the next one. -/
def Ascending (keys : List κ) : Prop := keys.IsChain (· < ·)

instance (keys : List κ) : Decidable (Ascending keys) := inferInstanceAs (Decidable (keys.IsChain (· < ·)))

theorem ascending_iff_pairwise : Ascending keys ↔ keys.Pairwise (· < ·) :=
  List.isChain_iff_pairwise

@[simp] theorem ascending_nil : Ascending ([] : List κ) := List.isChain_nil

@[simp] theorem ascending_singleton (k : κ) : Ascending [k] := List.isChain_singleton k

theorem ascending_cons {k : κ} : Ascending (k :: keys) ↔ (∀ k' ∈ keys, k < k') ∧ Ascending keys := by
  simp only [ascending_iff_pairwise, List.pairwise_cons]

theorem ascending_append {xs ys : List κ} :
    Ascending (xs ++ ys) ↔ Ascending xs ∧ Ascending ys ∧ ∀ x ∈ xs, ∀ y ∈ ys, x < y := by
  simp only [ascending_iff_pairwise, List.pairwise_append]

theorem Ascending.sublist {xs ys : List κ} (h : Ascending ys) (hs : xs.Sublist ys) : Ascending xs :=
  ascending_iff_pairwise.mpr ((ascending_iff_pairwise.mp h).sublist hs)

/-- The keys of an association list are strictly ascending. -/
def KeyAscending (entries : List (κ × ν)) : Prop := Ascending (entries.map Prod.fst)

instance (entries : List (κ × ν)) : Decidable (KeyAscending entries) :=
  inferInstanceAs (Decidable (Ascending _))

end Lib
