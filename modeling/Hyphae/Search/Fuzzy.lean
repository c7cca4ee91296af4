import Hyphae.Lib.EditDistance

/-!
# The edit distance check of fuzzy term matching

A candidate term matches a query term within a bounded edit distance. The check keeps
two rows of the table of distances between prefixes, and gives up at the first row that
is above the bound everywhere.
-/

namespace Hyphae.Search

open Lib List

variable {α : Type} [DecidableEq α]

/-! ## The check -/

/-- Reusable two-row workspace. -/
structure BoundedLevenshtein where
  previous : List Nat
  current : List Nat

namespace BoundedLevenshtein

/-- An empty workspace; the source reserves room for `capacity` characters. -/
def new (_capacity : Nat) : BoundedLevenshtein := ⟨[], []⟩

/-- The cells of a row behind `cell`; each overwrites what the reused buffer held. -/
def fillRow (leftCharacter : α) : (right : List α) → (previous : List Nat) → (cell : Nat) → List Nat
  | rightCharacter :: right, diagonal :: above :: previous, cell =>
    let next := min (min (above + 1) (cell + 1)) (diagonal + if leftCharacter ≠ rightCharacter then 1 else 0)
    next :: fillRow leftCharacter right (above :: previous) next
  | _, _, _ => []

/-- One row for each left character, until a row exceeds the bound everywhere. -/
def fillRows (right : List α) (maxDistance : Nat) :
    (left : List α) → (leftIndex : Nat) → BoundedLevenshtein → Bool × BoundedLevenshtein
  | [], _, rows => (decide (∃ distance ∈ rows.previous[right.length]?, distance ≤ maxDistance), rows)
  | leftCharacter :: left, leftIndex, rows =>
    let cells := fillRow leftCharacter right rows.previous (leftIndex + 1)
    let rowMinimum := cells.foldl min (leftIndex + 1)
    let current := (leftIndex + 1) :: cells
    if maxDistance < rowMinimum then (false, { rows with current })
    else fillRows right maxDistance left (leftIndex + 1) { previous := current, current := rows.previous }

/-- Whether the sequences are within `maxDistance` edits; both rows are cleared first. -/
def within (_workspace : BoundedLevenshtein) (left right : List α) (maxDistance : Nat) : Bool × BoundedLevenshtein :=
  fillRows right maxDistance left 0
    { previous := range (right.length + 1), current := replicate (right.length + 1) 0 }

end BoundedLevenshtein

open BoundedLevenshtein

def boundedLevenshtein (left right : List α) (maxDistance : Nat) : Bool :=
  ((new right.length).within left right maxDistance).1

/-! ## The rows -/

/-- The distances of a prefix of the left side from the prefixes of the right side; prefixes are held from
their last character on, `seen` is the one the row starts with. -/
def distances (left : List α) : (seen : List α) → (right : List α) → List Nat
  | seen, [] => [editCost left seen]
  | seen, r :: right => editCost left seen :: distances left (r :: seen) right

variable {left right seen : List α} {maxDistance : Nat}

theorem distances_eq_cons (left seen right : List α) :
    distances left seen right = editCost left seen :: (distances left seen right).tail := by
  cases right <;> rfl

theorem fillRow_distances (c : α) (left seen right : List α) :
    fillRow c right (distances left seen right) (editCost (c :: left) seen) =
      (distances (c :: left) seen right).tail := by
  induction right generalizing seen with
  | nil => rfl
  | cons r right ih =>
    have hcell : min (min (editCost left (r :: seen) + 1) (editCost (c :: left) seen + 1))
        (editCost left seen + if c ≠ r then 1 else 0) = editCost (c :: left) (r :: seen) := by
      rw [editCost_cons_cons]
      simp only [ne_eq, ite_not]
    have hnext := ih (r :: seen)
    rw [distances_eq_cons left] at hnext
    rw [distances, distances_eq_cons left (r :: seen), fillRow, hcell, hnext]
    exact (distances_eq_cons _ _ _).symm

theorem distances_nil (seen right : List α) : distances [] seen right = range' seen.length (right.length + 1) := by
  induction right generalizing seen with
  | nil => simp [distances]
  | cons r right ih =>
    rw [distances, ih, editCost_nil_left, length_cons, range'_succ]
    rfl

theorem getElem?_distances (left seen right : List α) :
    (distances left seen right)[right.length]? = some (editCost left (right.reverse ++ seen)) := by
  induction right generalizing seen with
  | nil => rfl
  | cons r right ih => simpa [distances] using ih (r :: seen)

theorem mem_distances {front : List α} (h : front <+: right) :
    editCost left (front.reverse ++ seen) ∈ distances left seen right := by
  induction right generalizing front seen with
  | nil => simp [prefix_nil.mp h, distances]
  | cons r right ih =>
    cases front with
    | nil => simp [distances]
    | cons c front =>
      obtain ⟨rfl, hfront⟩ := cons_prefix_cons.mp h
      simpa [distances] using Or.inr (@ih (c :: seen) front hfront)

theorem lt_foldl_min {k a : Nat} {cells : List Nat} : k < cells.foldl min a ↔ ∀ d ∈ a :: cells, k < d := by
  induction cells generalizing a with
  | nil => simp
  | cons d cells ih =>
    rw [foldl_cons, ih]
    simp [Nat.lt_min, and_assoc]

/-- A row that exceeds the bound everywhere leaves no way back below it. -/
theorem lt_editCost_of_row (h : ∀ d ∈ distances left [] right, maxDistance < d) (front : List α) :
    maxDistance < editCost (front ++ left) right.reverse := by
  obtain ⟨rest, hrest, hcost⟩ := exists_suffix_editCost_le front left right.reverse
  have hprefix : rest.reverse <+: right := by simpa using reverse_prefix.mpr hrest
  have hcell := h _ (mem_distances hprefix)
  rw [reverse_reverse, append_nil] at hcell
  omega

/-- From the row of the characters already read, the loop decides the distance of the whole. -/
theorem fillRows_iff (left read right : List α) (maxDistance : Nat) (current : List Nat) :
    (fillRows right maxDistance left read.length ⟨distances read [] right, current⟩).1 = true ↔
      editCost (left.reverse ++ read) right.reverse ≤ maxDistance := by
  induction left generalizing read current with
  | nil => simp [fillRows, getElem?_distances]
  | cons c left ih =>
    have hcells := fillRow_distances c read [] right
    rw [editCost_nil_right, length_cons] at hcells
    have hrow : (read.length + 1) :: (distances (c :: read) [] right).tail = distances (c :: read) [] right := by
      rw [distances_eq_cons (c :: read), editCost_nil_right]
      rfl
    simp only [fillRows, hcells, hrow, reverse_cons, append_assoc, singleton_append]
    split
    · next h =>
      rw [lt_foldl_min, hrow] at h
      simpa using lt_editCost_of_row h left.reverse
    · exact ih (c :: read) _

/-- The check answers yes exactly if at most `maxDistance` insertions, deletions and substitutions of single
characters turn one sequence into the other, in whatever state the workspace is. -/
theorem boundedLevenshtein_iff_edits (workspace : BoundedLevenshtein) (left right : List α) (maxDistance : Nat) :
    (boundedLevenshtein left right maxDistance = true ↔ ∃ n ≤ maxDistance, Edits n left right) ∧
      (workspace.within left right maxDistance).1 = boundedLevenshtein left right maxDistance := by
  refine ⟨?_, rfl⟩
  have hloop := fillRows_iff left [] right maxDistance (replicate (right.length + 1) 0)
  rw [distances_nil, append_nil, editCost_reverse, editCost_le_iff] at hloop
  rw [← hloop, boundedLevenshtein, within, range_eq_range']
  rfl

end Hyphae.Search
