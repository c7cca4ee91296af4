import Mathlib.Data.List.Infix

/-!
# Anchored LIKE patterns

The filter over document values matches a text by a loop that falls back to the last `%`
only. `Like` says what a pattern means. The loop compares characters before it looks for a
`%`, so a `%` of the pattern that meets one of the text stands for that character alone:
`PlainLike` says which matches this leaves.
-/

namespace Hyphae.Search

open List

/-- What a pattern means: `_` is one character, `%` any run, every other character itself. -/
inductive Like : List Char → List Char → Prop
  | nil : Like [] []
  | one {pattern text : List Char} (c : Char) (h : Like pattern text) : Like ('_' :: pattern) (c :: text)
  | none {pattern text : List Char} (h : Like pattern text) : Like ('%' :: pattern) text
  | more {pattern text : List Char} (c : Char) (h : Like ('%' :: pattern) text) : Like ('%' :: pattern) (c :: text)
  | self {pattern text : List Char} {c : Char} (hone : c ≠ '_') (hmany : c ≠ '%') (h : Like pattern text) :
    Like (c :: pattern) (c :: text)

/-- The text matches so that no run but `%` itself begins where the text has a `%`. -/
inductive PlainLike : List Char → List Char → Prop
  | nil : PlainLike [] []
  | one {pattern text : List Char} (c : Char) (h : PlainLike pattern text) : PlainLike ('_' :: pattern) (c :: text)
  | self {pattern text : List Char} (c : Char) (h : PlainLike pattern text) : PlainLike (c :: pattern) (c :: text)
  | run {pattern text rest : List Char} (hhead : text.head? ≠ some '%') (hrest : rest <:+ text)
    (h : PlainLike pattern rest) : PlainLike ('%' :: pattern) text

/-- The loop over what is left of pattern and text; `star` is what was left of both behind the last `%`. -/
def likeLoop (pattern text : List Char) (star : Option (List Char × List Char)) : Bool :=
  match text with
  | [] => pattern.all (· = '%')
  | character :: rest =>
    if pattern.head? = some '_' ∨ pattern.head? = some character then likeLoop pattern.tail rest star
    else if pattern.head? = some '%' then likeLoop pattern.tail (character :: rest)
      (some (pattern.tail, character :: rest))
    else
      match star with
      | some (starPattern, _ :: starText) => likeLoop starPattern starText (some (starPattern, starText))
      | _ => false -- no star: the text left behind one ends in `text`
termination_by (max (star.elim 0 (·.2.length)) text.length, text.length, pattern.length)
decreasing_by all_goals (cases pattern <;> simp_all [Prod.lex_def] <;> omega)

def likeMatches (pattern text : String) : Bool := likeLoop pattern.toList text.toList none

variable {pattern text rest : List Char} {star : Option (List Char × List Char)} {c d : Char}

theorem PlainLike.like (h : PlainLike pattern text) : Like pattern text := by
  induction h with
  | nil => exact .nil
  | one c _ ih => exact .one c ih
  | @self _ _ c _ ih =>
    by_cases hone : c = '_'
    · exact hone ▸ .one _ ih
    · by_cases hmany : c = '%'
      · exact hmany ▸ .more _ (.none ih)
      · exact .self hone hmany ih
  | run _ hrest _ ih =>
    obtain ⟨skipped, rfl⟩ := hrest
    clear * - ih
    induction skipped with
    | nil => exact .none ih
    | cons c _ ih => exact .more c ih

/-- The pattern matches some end of the text. -/
def Ends (pattern text : List Char) : Prop := ∃ rest, rest <:+ text ∧ PlainLike pattern rest

/-- What is behind the first character of a pattern matches an end of whatever the pattern matches. -/
theorem PlainLike.ends (h : PlainLike (c :: pattern) text) : Ends pattern text := by
  cases h with
  | one _ h | self _ h => exact ⟨_, suffix_cons _ _, h⟩
  | run _ hrest h => exact ⟨_, hrest, h⟩

theorem Ends.mono (h : Ends pattern rest) (hrest : rest <:+ text) : Ends pattern text := by
  obtain ⟨last, hlast, h⟩ := h
  exact ⟨last, hlast.trans hrest, h⟩

/-- The last `%` can still begin its pattern further on in the text. -/
def Later : Option (List Char × List Char) → Prop
  | some (pattern, _ :: text) => Ends pattern text
  | _ => False

theorem ends_iff : Ends pattern text ↔ PlainLike pattern text ∨ Later (some (pattern, text)) := by
  cases text with
  | nil => simp [Ends, Later]
  | cons c text => simp [Ends, Later, suffix_cons_iff, or_and_right, exists_or]

theorem plainLike_cons (hmatch : c = '_' ∨ c = d) : PlainLike (c :: pattern) (d :: text) ↔ PlainLike pattern text := by
  constructor
  · intro h
    cases h with
    | one _ h | self _ h => exact h
    | run hhead => exact absurd (by simpa [eq_comm] using hmatch) hhead
  · intro h
    obtain rfl | rfl := hmatch
    · exact .one d h
    · exact .self c h

theorem plainLike_run (hhead : text.head? ≠ some '%') : PlainLike ('%' :: pattern) text ↔ Ends pattern text := by
  refine ⟨PlainLike.ends, ?_⟩
  rintro ⟨rest, hrest, h⟩
  exact .run hhead hrest h

theorem plainLike_nil : PlainLike pattern [] ↔ pattern.all (· = '%') = true := by
  induction pattern with
  | nil => simp [PlainLike.nil]
  | cons c pattern ih =>
    by_cases hc : c = '%'
    · subst hc
      rw [plainLike_run (by simp)]
      simp [Ends, ih]
    · simp only [all_cons, hc, decide_false, Bool.false_and, Bool.false_eq_true, iff_false]
      intro h
      cases h
      exact hc rfl

theorem not_plainLike (hmatch : ¬(pattern.head? = some '_' ∨ pattern.head? = some c))
    (hmany : ¬pattern.head? = some '%') : ¬PlainLike pattern (c :: rest) := by
  intro h
  cases h <;> simp_all

/-- The loop finds what is left, or what the last `%` gives further on. The pattern that is left is never behind in the
text: where an older `%` would still match, it matches an end of the text that is left. -/
theorem likeLoop_iff (hlater : Later star → Ends pattern text) :
    likeLoop pattern text star = true ↔ PlainLike pattern text ∨ Later star := by
  fun_induction likeLoop pattern text star with
  | case1 pattern star =>
    rw [plainLike_nil, or_iff_left_of_imp]
    intro h
    obtain ⟨rest, hrest, h⟩ := hlater h
    rw [suffix_nil.mp hrest] at h
    exact plainLike_nil.mp h
  | case2 pattern star character rest hmatch ih =>
    cases pattern with
    | nil => simp at hmatch
    | cons c pattern =>
      rw [ih, tail_cons, plainLike_cons (by simpa using hmatch)]
      intro h
      obtain h | ⟨last, hlast, h⟩ := ends_iff.mp (hlater h)
      · exact ⟨_, suffix_refl _, (plainLike_cons (by simpa using hmatch)).mp h⟩
      · exact h.ends.mono hlast
  | case3 pattern star character rest hmatch hmany ih =>
    obtain ⟨pattern, rfl⟩ : ∃ tail, pattern = '%' :: tail := by cases pattern <;> simp_all
    rw [ih fun h => ends_iff.mpr (.inr h), ← ends_iff, tail_cons, plainLike_run (by simpa [eq_comm] using hmatch),
      or_iff_left_of_imp]
    intro h
    obtain ⟨last, hlast, h⟩ := hlater h
    exact h.ends.mono hlast
  | case4 pattern character rest hmatch hmany starPattern _ starText ih =>
    rw [ih fun h => ends_iff.mpr (.inr h), ← ends_iff, or_iff_right (not_plainLike hmatch hmany)]
    rfl
  | case5 pattern star character rest hmatch hmany hnone =>
    simp only [Bool.false_eq_true, not_plainLike hmatch hmany, false_or, false_iff]
    match star, hnone with
    | none, _ | some (_, []), _ => exact id
    | some (_, _ :: _), hnone => exact (hnone _ _ _ rfl).elim

/-- The matcher finds the plain matches and no others: it decides LIKE exactly for the texts that match plainly if they
match at all. -/
theorem likeMatches_iff_like (pattern text : String) :
    (likeMatches pattern text = true ↔ PlainLike pattern.toList text.toList) ∧
      ((likeMatches pattern text = true ↔ Like pattern.toList text.toList) ↔
        (Like pattern.toList text.toList → PlainLike pattern.toList text.toList)) := by
  have hplain : likeMatches pattern text = true ↔ PlainLike pattern.toList text.toList := by
    rw [likeMatches, likeLoop_iff False.elim, Later, or_false]
    exact nofun
  rw [hplain]
  exact ⟨Iff.rfl, fun h => h.mpr, fun h => ⟨PlainLike.like, h⟩⟩

/-- A `%` of the pattern that meets one of the text is taken for a literal, and never for a run again. -/
theorem likeMatches_percent_percent : likeMatches "%" "%a" = false ∧ Like ['%'] ['%', 'a'] := by
  constructor
  · simp [likeMatches, likeLoop]
  · exact .more '%' (.more 'a' (.none .nil))

end Hyphae.Search
