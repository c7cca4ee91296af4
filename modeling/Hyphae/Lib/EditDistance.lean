import Mathlib.Data.List.Infix
import Mathlib.Tactic.Common

/-!
# Edit distance

How many insertions, deletions and substitutions of single elements it takes to turn
one list into another. `editCost` is the usual recursion over the two heads; no script
of edits is shorter, and one of that length exists.
-/

namespace Lib

open List

variable {α : Type} {xs ys zs : List α} {n k : Nat}

/-- One element inserted, deleted or substituted. -/
inductive Edit : List α → List α → Prop
  | insert (before after : List α) (a : α) : Edit (before ++ after) (before ++ a :: after)
  | delete (before after : List α) (a : α) : Edit (before ++ a :: after) (before ++ after)
  | substitute (before after : List α) (a b : α) : Edit (before ++ a :: after) (before ++ b :: after)

/-- `n` edits, one after another. -/
inductive Edits : Nat → List α → List α → Prop
  | refl (xs : List α) : Edits 0 xs xs
  | step {n : Nat} {xs ys zs : List α} : Edit xs ys → Edits n ys zs → Edits (n + 1) xs zs

theorem Edit.cons (h : Edit xs ys) (a : α) : Edit (a :: xs) (a :: ys) := by
  cases h with
  | insert before after b => exact .insert (a :: before) after b
  | delete before after b => exact .delete (a :: before) after b
  | substitute before after b c => exact .substitute (a :: before) after b c

theorem Edits.cons (h : Edits n xs ys) (a : α) : Edits n (a :: xs) (a :: ys) := by
  induction h with
  | refl => exact .refl _
  | step hedit _ ih => exact .step (hedit.cons a) ih

theorem Edit.reverse (h : Edit xs ys) : Edit xs.reverse ys.reverse := by
  cases h with
  | insert before after a => simpa using Edit.insert after.reverse before.reverse a
  | delete before after a => simpa using Edit.delete after.reverse before.reverse a
  | substitute before after a b => simpa using Edit.substitute after.reverse before.reverse a b

theorem Edits.reverse (h : Edits n xs ys) : Edits n xs.reverse ys.reverse := by
  induction h with
  | refl => exact .refl _
  | step hedit _ ih => exact .step hedit.reverse ih

variable [DecidableEq α]

/-- The edits that turn one list into another, from the first elements on. -/
def editCost : List α → List α → Nat
  | [], ys => ys.length
  | xs, [] => xs.length
  | x :: xs, y :: ys =>
    min (min (editCost xs (y :: ys) + 1) (editCost (x :: xs) ys + 1)) (editCost xs ys + if x = y then 0 else 1)
termination_by xs ys => xs.length + ys.length

@[simp] theorem editCost_nil_left (ys : List α) : editCost [] ys = ys.length := by
  rw [editCost]

@[simp] theorem editCost_nil_right (xs : List α) : editCost xs [] = xs.length := by
  cases xs <;> simp [editCost]

theorem editCost_cons_cons (x y : α) (xs ys : List α) : editCost (x :: xs) (y :: ys) =
    min (min (editCost xs (y :: ys) + 1) (editCost (x :: xs) ys + 1)) (editCost xs ys + if x = y then 0 else 1) := by
  rw [editCost]

/-- The last step is one of the three edits, or none where the heads are equal. -/
theorem editCost_cons_cons_cases (x y : α) (xs ys : List α) :
    editCost (x :: xs) (y :: ys) = editCost xs (y :: ys) + 1 ∨
      editCost (x :: xs) (y :: ys) = editCost (x :: xs) ys + 1 ∨
      editCost (x :: xs) (y :: ys) = editCost xs ys + if x = y then 0 else 1 := by
  rw [editCost_cons_cons]
  omega

/-! ## No script is shorter -/

theorem editCost_self (xs : List α) : editCost xs xs = 0 := by
  induction xs with
  | nil => simp
  | cons x xs ih => simp [editCost_cons_cons, ih]

theorem editCost_cons_le (x : α) (xs ys : List α) : editCost (x :: xs) ys ≤ editCost xs ys + 1 := by
  cases ys with
  | nil => simp
  | cons y ys =>
    rw [editCost_cons_cons]
    omega

theorem editCost_le_cons (x : α) (xs ys : List α) : editCost xs ys ≤ editCost (x :: xs) ys + 1 := by
  induction ys with
  | nil => simp only [editCost_nil_right, length_cons]; omega
  | cons y ys ih =>
    have hright : editCost xs (y :: ys) ≤ editCost xs ys + 1 := by
      cases xs with
      | nil => simp
      | cons x' xs =>
        rw [editCost_cons_cons]
        omega
    rw [editCost_cons_cons]
    omega

theorem editCost_substitute_le (a b : α) (xs ys : List α) : editCost (a :: xs) ys ≤ editCost (b :: xs) ys + 1 := by
  induction ys with
  | nil => simp
  | cons y ys ih =>
    rw [editCost_cons_cons, editCost_cons_cons]
    split <;> split <;> omega

/-- Equal elements in front do not drive two lists further apart. -/
theorem editCost_append_le {before : List α} (h : ∀ zs, editCost xs zs ≤ editCost ys zs + 1) (zs : List α) :
    editCost (before ++ xs) zs ≤ editCost (before ++ ys) zs + 1 := by
  induction before generalizing zs with
  | nil => exact h zs
  | cons a before ihbefore =>
    induction zs with
    | nil => simpa using ihbefore []
    | cons z zs ih =>
      have habove := ihbefore (z :: zs)
      have hdiagonal := ihbefore zs
      simp only [cons_append, editCost_cons_cons] at ih ⊢
      omega

theorem Edit.cost_le (h : Edit xs ys) (zs : List α) : editCost xs zs ≤ editCost ys zs + 1 := by
  cases h with
  | insert before after a => exact editCost_append_le (editCost_le_cons a after) zs
  | delete before after a => exact editCost_append_le (editCost_cons_le a after) zs
  | substitute before after a b => exact editCost_append_le (editCost_substitute_le a b after) zs

theorem Edits.cost_le (h : Edits n xs ys) : editCost xs ys ≤ n := by
  induction h with
  | refl xs => exact (editCost_self xs).le
  | step hedit _ ih => exact (hedit.cost_le _).trans (Nat.succ_le_succ ih)

/-! ## A script of that length -/

theorem edits_editCost (xs ys : List α) : Edits (editCost xs ys) xs ys := by
  induction xs generalizing ys with
  | nil =>
    induction ys with
    | nil => simpa using Edits.refl []
    | cons y ys ih =>
      rw [editCost_nil_left] at ih ⊢
      exact .step (.insert [] [] y) (ih.cons y)
  | cons x xs ihxs =>
    induction ys with
    | nil =>
      have hrest := ihxs []
      rw [editCost_nil_right] at hrest ⊢
      exact .step (.delete [] xs x) hrest
    | cons y ys ihys =>
      rcases editCost_cons_cons_cases x y xs ys with h | h | h
      · rw [h]
        exact .step (.delete [] xs x) (ihxs (y :: ys))
      · rw [h]
        exact .step (.insert [] (x :: xs) y) (ihys.cons y)
      · rw [h]
        split
        · next heq =>
          rw [heq]
          exact (ihxs ys).cons y
        · exact .step (.substitute [] xs x y) ((ihxs ys).cons y)

/-- The cost is the least number of edits. -/
theorem editCost_le_iff : editCost xs ys ≤ k ↔ ∃ n ≤ k, Edits n xs ys := by
  constructor
  · intro h
    exact ⟨_, h, edits_editCost xs ys⟩
  · rintro ⟨n, hn, hedits⟩
    exact hedits.cost_le.trans hn

theorem editCost_reverse (xs ys : List α) : editCost xs.reverse ys.reverse = editCost xs ys := by
  apply le_antisymm
  · exact (edits_editCost xs ys).reverse.cost_le
  · simpa using (edits_editCost xs.reverse ys.reverse).reverse.cost_le

/-- What is left of both lists costs no more than the whole, for some rest of the second one. -/
theorem exists_suffix_editCost_le (front xs ys : List α) :
    ∃ rest, rest <:+ ys ∧ editCost xs rest ≤ editCost (front ++ xs) ys := by
  induction front generalizing ys with
  | nil => exact ⟨ys, suffix_refl ys, le_rfl⟩
  | cons a front ihfront =>
    induction ys with
    | nil => exact ⟨[], suffix_refl [], by simp; omega⟩
    | cons y ys ih =>
      rw [cons_append]
      rcases editCost_cons_cons_cases a y (front ++ xs) ys with h | h | h
      · obtain ⟨rest, hrest, hcost⟩ := ihfront (y :: ys)
        exact ⟨rest, hrest, by omega⟩
      · obtain ⟨rest, hrest, hcost⟩ := ih
        rw [cons_append] at hcost
        exact ⟨rest, hrest.trans (suffix_cons y ys), by omega⟩
      · obtain ⟨rest, hrest, hcost⟩ := ihfront ys
        exact ⟨rest, hrest.trans (suffix_cons y ys), by omega⟩

end Lib
