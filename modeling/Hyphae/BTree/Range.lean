import Hyphae.Lib.Visit
import Hyphae.BTree.Node

/-!
# Key ranges

The bounds a range reader takes, the tests it prunes subtrees with, and the key
interval of a prefix.
-/

namespace Hyphae

open Lib List

/-- An endpoint of a range of keys. -/
inductive Bound
  | included (key : Bytes)
  | excluded (key : Bytes)
  | unbounded
  deriving DecidableEq

namespace BTree

def keySatisfiesLower (key : Bytes) : Bound → Bool
  | .included bound => bound ≤ key
  | .excluded bound => bound < key
  | .unbounded => true

def keySatisfiesUpper (key : Bytes) : Bound → Bool
  | .included bound => key ≤ bound
  | .excluded bound => key < bound
  | .unbounded => true

def rangeIsEmpty : Bound → Bound → Bool
  | .unbounded, _ => false
  | _, .unbounded => false
  | .included lower, .included upper => upper < lower
  | .included lower, .excluded upper => upper ≤ lower
  | .excluded lower, .excluded upper => upper ≤ lower
  | .excluded lower, .included upper => upper ≤ lower

/-- Whether a leaf from `minimum` to `maximum` can hold a key of the range. -/
def segmentIntersectsBounds (minimum maximum : Bytes) (lower upper : Bound) : Bool :=
  keySatisfiesLower maximum lower && keySatisfiesUpper minimum upper

/-- Whether a child between two separators can hold a key of the range. -/
def childIntersectsBounds (childLower childUpper : Option Bytes) (lower upper : Bound) : Bool :=
  let endsAfterLower := match lower with
    | .included bound | .excluded bound => childUpper.all fun key => bound < key
    | .unbounded => true
  let startsBeforeUpper := match upper with
    | .included bound => childLower.all fun key => key ≤ bound
    | .excluded bound => childLower.all fun key => key < bound
    | .unbounded => true
  endsAfterLower && startsBeforeUpper

/-- The test of the borrowed visitor, against the interval its ancestors leave. -/
def rangeIntersects (structuralLower structuralUpper : Option Bytes) (lower upper : Bound) : Bool :=
  childIntersectsBounds structuralLower structuralUpper lower upper

/-- The least key above every key that starts with `pre`, if there is one: the last byte
that is not `0xff` is incremented and what follows it is dropped. -/
def prefixUpperBound (pre : Bytes) : Option Bytes :=
  match pre.reverse.dropWhile fun byte => byte = 255 with
  | [] => none
  | byte :: rest => some ((byte + 1) :: rest).reverse

/-- Whether a child between two separators can hold a key that starts with `pre`. -/
def childIntersectsPrefix (childLower childUpper : Option Bytes) (pre : Bytes) (upper : Option Bytes) : Bool :=
  childUpper.all (fun bound => pre < bound) && upper.all fun bound => childLower.all fun key => key < bound

/-- Whether a key lies inside both bounds. -/
def inBounds (lower upper : Bound) (key : Bytes) : Bool := keySatisfiesLower key lower && keySatisfiesUpper key upper

/-! ## Bounds -/

section Bounds

variable {lower upper : Bound} {a b key : Bytes}

theorem keySatisfiesLower_mono (hab : a ≤ b) (h : keySatisfiesLower a lower) : keySatisfiesLower b lower := by
  cases lower with
  | included bound => simpa [keySatisfiesLower] using (of_decide_eq_true h : bound ≤ a).trans hab
  | excluded bound => simpa [keySatisfiesLower] using (of_decide_eq_true h : bound < a).trans_le hab
  | unbounded => rfl

theorem keySatisfiesUpper_anti (hab : a ≤ b) (h : keySatisfiesUpper b upper) : keySatisfiesUpper a upper := by
  cases upper with
  | included bound => simpa [keySatisfiesUpper] using hab.trans (of_decide_eq_true h : b ≤ bound)
  | excluded bound => simpa [keySatisfiesUpper] using hab.trans_lt (of_decide_eq_true h : b < bound)
  | unbounded => rfl

theorem not_inBounds_of_rangeIsEmpty (h : rangeIsEmpty lower upper) (key : Bytes) : ¬inBounds lower upper key := by
  intro hin
  obtain ⟨hlower, hupper⟩ := Bool.and_eq_true_iff.mp hin
  cases lower with
  | unbounded => simp [rangeIsEmpty] at h
  | included lower =>
    cases upper <;> simp [rangeIsEmpty, keySatisfiesLower, keySatisfiesUpper] at h hlower hupper
    · exact absurd (hlower.trans hupper) h.not_ge
    · exact absurd (hlower.trans_lt hupper) h.not_gt
  | excluded lower =>
    cases upper <;> simp [rangeIsEmpty, keySatisfiesLower, keySatisfiesUpper] at h hlower hupper
    · exact absurd (hlower.trans_le hupper) h.not_gt
    · exact absurd (hlower.trans hupper) h.not_gt

/-- A leaf the planner leaves out holds no key of the range. -/
theorem segmentIntersectsBounds_of_inBounds (hmin : a ≤ key) (hmax : key ≤ b) (hin : inBounds lower upper key) :
    segmentIntersectsBounds a b lower upper := by
  obtain ⟨hlower, hupper⟩ := Bool.and_eq_true_iff.mp hin
  simp [segmentIntersectsBounds, keySatisfiesLower_mono hmax hlower, keySatisfiesUpper_anti hmin hupper]

/-- A child the range readers skip holds no key of the range. -/
theorem childIntersectsBounds_of_inBounds {childLower childUpper : Option Bytes}
    (hlow : ∀ bound ∈ childLower, bound ≤ key) (hhigh : ∀ bound ∈ childUpper, key < bound)
    (hin : inBounds lower upper key) : childIntersectsBounds childLower childUpper lower upper := by
  obtain ⟨hlower, hupper⟩ := Bool.and_eq_true_iff.mp hin
  simp only [childIntersectsBounds, Bool.and_eq_true]
  constructor
  · cases lower with
    | included bound =>
      have hbound : bound ≤ key := of_decide_eq_true hlower
      simpa [Option.all_eq_true] using fun a ha => hbound.trans_lt (hhigh a ha)
    | excluded bound =>
      have hbound : bound < key := of_decide_eq_true hlower
      simpa [Option.all_eq_true] using fun a ha => hbound.trans (hhigh a ha)
    | unbounded => rfl
  · cases upper with
    | included bound =>
      have hbound : key ≤ bound := of_decide_eq_true hupper
      simpa [Option.all_eq_true] using fun a ha => (hlow a ha).trans hbound
    | excluded bound =>
      have hbound : key < bound := of_decide_eq_true hupper
      simpa [Option.all_eq_true] using fun a ha => (hlow a ha).trans_lt hbound
    | unbounded => rfl

end Bounds

/-! ## Prefixes -/

theorem prefixUpperBound_cons (byte : UInt8) (pre : Bytes) :
    prefixUpperBound (byte :: pre) =
      match prefixUpperBound pre with
      | some upper => some (byte :: upper)
      | none => if byte = 255 then none else some [byte + 1] := by
  unfold prefixUpperBound
  rw [reverse_cons, dropWhile_append]
  cases pre.reverse.dropWhile fun byte => byte = 255 with
  | nil =>
    by_cases hbyte : byte = 255
    · simp [hbyte]
    · simp [hbyte]
  | cons last rest => simp

theorem lt_succ_iff {a b : UInt8} (hb : b ≠ 255) : a < b + 1 ↔ a ≤ b := by
  have hlt := UInt8.toNat_lt b
  have hne : b.toNat ≠ 255 := fun h => hb (UInt8.toNat_inj.mp h)
  rw [UInt8.lt_iff_toNat_lt, UInt8.le_iff_toNat_le, UInt8.toNat_add, UInt8.toNat_one, Nat.mod_eq_of_lt (by omega)]
  omega

theorem cons_lt_cons_of_lt {a b : UInt8} (h : a < b) (as bs : Bytes) : a :: as < b :: bs :=
  cons_lt_cons_iff.mpr (.inl h)

/-- No key with a greater first byte lies below the upper bound of a prefix. -/
theorem not_lt_prefixUpperBound_cons {byte head : UInt8} (hlt : byte < head) (pre key : Bytes) :
    ¬∀ upper ∈ prefixUpperBound (byte :: pre), head :: key < upper := by
  intro hall
  rw [prefixUpperBound_cons] at hall
  cases hpre : prefixUpperBound pre with
  | some upper =>
    simp only [hpre, Option.mem_def, Option.some.injEq, forall_eq'] at hall
    exact absurd hall (cons_lt_cons_of_lt hlt _ _).not_gt
  | none =>
    have hne : byte ≠ 255 := by
      rintro rfl
      have hhead := UInt8.toNat_lt head
      have hbyte := UInt8.lt_iff_toNat_lt.mp hlt
      simp only [UInt8.reduceToNat] at hbyte
      omega
    simp only [hpre, hne, if_false, Option.mem_def, Option.some.injEq, forall_eq'] at hall
    rw [cons_lt_cons_iff, lt_succ_iff hne] at hall
    rcases hall with hle | ⟨-, hnil⟩
    · exact absurd hle hlt.not_ge
    · exact absurd hnil (not_lt_nil key)

/-- The keys that start with a prefix form an interval. -/
theorem isPrefixOf_iff (pre key : Bytes) :
    pre.isPrefixOf key ↔ pre ≤ key ∧ ∀ upper ∈ prefixUpperBound pre, key < upper := by
  induction pre generalizing key with
  | nil =>
    have hle : ([] : Bytes) ≤ key := not_lt.mp (not_lt_nil key)
    simp [prefixUpperBound, hle]
  | cons byte pre ih =>
    cases key with
    | nil =>
      have hlt : ([] : Bytes) < byte :: pre := nil_lt_cons byte pre
      simp [hlt]
    | cons head key =>
      rcases lt_trichotomy byte head with hlt | rfl | hgt
      · have hbound := not_lt_prefixUpperBound_cons hlt pre key
        simp only [isPrefixOf, beq_eq_false_iff_ne.mpr hlt.ne, Bool.false_and, Bool.false_eq_true, false_iff]
        exact fun h => hbound h.2
      · have hle : byte :: pre ≤ byte :: key ↔ pre ≤ key := by
          rw [← not_lt, ← not_lt, cons_lt_cons_iff]
          simp
        rw [hle, prefixUpperBound_cons]
        simp only [isPrefixOf, beq_self_eq_true, Bool.true_and, ih]
        cases hpre : prefixUpperBound pre with
        | some upper => simp
        | none =>
          by_cases hbyte : byte = 255
          · simp [hbyte]
          · have hlt : byte :: key < [byte + 1] := cons_lt_cons_of_lt ((lt_succ_iff hbyte).mpr le_rfl) _ _
            simp [hbyte, hlt]
      · have hnle : ¬byte :: pre ≤ head :: key := (cons_lt_cons_of_lt hgt _ _).not_ge
        simp only [isPrefixOf, beq_eq_false_iff_ne.mpr hgt.ne', Bool.false_and, Bool.false_eq_true, false_iff]
        exact fun h => hnle h.1

theorem le_of_isPrefixOf {pre key : Bytes} (h : pre.isPrefixOf key) : pre ≤ key := ((isPrefixOf_iff pre key).mp h).1

/-- Keys between a prefix and a key that starts with it start with it. -/
theorem isPrefixOf_of_le {pre a b : Bytes} (ha : pre ≤ a) (hab : a ≤ b) (hb : pre.isPrefixOf b) : pre.isPrefixOf a :=
  (isPrefixOf_iff pre a).mpr ⟨ha, fun upper hupper => hab.trans_lt (((isPrefixOf_iff pre b).mp hb).2 upper hupper)⟩

/-- A child the prefix readers skip holds no key with the prefix. -/
theorem childIntersectsPrefix_of_isPrefixOf {childLower childUpper : Option Bytes} {pre key : Bytes}
    (hlow : ∀ bound ∈ childLower, bound ≤ key) (hhigh : ∀ bound ∈ childUpper, key < bound)
    (h : pre.isPrefixOf key) : childIntersectsPrefix childLower childUpper pre (prefixUpperBound pre) := by
  obtain ⟨hle, hupper⟩ := (isPrefixOf_iff pre key).mp h
  simp only [childIntersectsPrefix, Bool.and_eq_true, Option.all_eq_true, decide_eq_true_eq]
  exact ⟨fun bound hbound => hle.trans_lt (hhigh bound hbound),
    fun bound hbound child hchild => (hlow child hchild).trans_lt (hupper bound hbound)⟩

end BTree

end Hyphae
