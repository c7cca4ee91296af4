import Mathlib.Data.List.Basic
import Mathlib.Order.Basic

/-!
# Ordered visits

A visitor is called on the items of a list in order until it asks to stop. Its state
is whatever it keeps between calls.
-/

namespace Lib

open List

/-- What a visitor asks for after a call; a break carries a value, such as an error. -/
inductive ControlFlow (β : Type)
  | cont
  | brk (value : β)
  deriving DecidableEq

section Visit

variable {α β σ : Type} (visitor : α → σ → ControlFlow β × σ)

/-- Call the visitor on the items in order, up to the first break. -/
def visit : List α → σ → ControlFlow β × σ
  | [], s => (.cont, s)
  | item :: items, s =>
    match visitor item s with
    | (.brk value, s) => (.brk value, s)
    | (.cont, s) => visit items s

/-- The calls made from state `s`: the items handed over, and how the last call ended. -/
inductive Delivers : σ → List α → ControlFlow β → σ → Prop
  | nil (s : σ) : Delivers s [] .cont s
  | last {s s' : σ} {item : α} {value : β} (hcall : visitor item s = (.brk value, s')) :
      Delivers s [item] (.brk value) s'
  | next {s s₁ s' : σ} {item : α} {items : List α} {flow : ControlFlow β} (hcall : visitor item s = (.cont, s₁))
      (hrest : Delivers s₁ items flow s') : Delivers s (item :: items) flow s'

/-- A visit of `items` with the given result handed over a prefix of them, in order, and all of
them unless the visitor stopped it. -/
def HandsOver (s : σ) (items : List α) (result : ControlFlow β × σ) : Prop :=
  ∃ delivered, delivered <+: items ∧ Delivers visitor s delivered result.1 result.2 ∧
    (result.1 = .cont → delivered = items)

theorem visit_handsOver (items : List α) (s : σ) : HandsOver visitor s items (visit visitor items s) := by
  induction items generalizing s with
  | nil => exact ⟨[], prefix_rfl, .nil s, fun _ => rfl⟩
  | cons item items ih =>
    unfold visit
    rcases hcall : visitor item s with ⟨flow, s₁⟩
    cases flow with
    | brk value => exact ⟨[item], by simp, .last hcall, by simp⟩
    | cont =>
      obtain ⟨delivered, hpre, hdelivers, hall⟩ := ih s₁
      refine ⟨item :: delivered, cons_prefix_cons.mpr ⟨rfl, hpre⟩, .next hcall hdelivers, ?_⟩
      intro hcont
      rw [hall hcont]

theorem visit_append (xs ys : List α) (s : σ) :
    visit visitor (xs ++ ys) s =
      match visit visitor xs s with
      | (.brk value, s) => (.brk value, s)
      | (.cont, s) => visit visitor ys s := by
  induction xs generalizing s with
  | nil => rfl
  | cons x xs ih =>
    rw [cons_append, visit, visit]
    rcases visitor x s with ⟨flow, s₁⟩
    cases flow with
    | brk value => rfl
    | cont => exact ih s₁

end Visit

section Filter

variable {α : Type} {p : α → Bool} {items : List α}

/-- Where `p` cannot hold again once it has failed, cutting and filtering agree. -/
theorem takeWhile_eq_filter (h : items.Pairwise fun a b => p b → p a) : items.takeWhile p = items.filter p := by
  induction items with
  | nil => rfl
  | cons a items ih =>
    obtain ⟨ha, hrest⟩ := pairwise_cons.mp h
    by_cases hp : p a
    · simp [hp, ih hrest]
    · have hnone : ∀ b ∈ items, ¬p b := fun b hb hpb => hp (ha b hb hpb)
      simp [hp, filter_eq_nil_iff.mpr hnone]

theorem dropWhile_eq_filter (h : items.Pairwise fun a b => p b → p a) :
    items.dropWhile p = items.filter fun a => !p a := by
  induction items with
  | nil => rfl
  | cons a items ih =>
    obtain ⟨ha, hrest⟩ := pairwise_cons.mp h
    by_cases hp : p a
    · simp [hp, ih hrest]
    · have hnone : ∀ b ∈ items, ¬p b := fun b hb hpb => hp (ha b hb hpb)
      simp only [hp, dropWhile_cons, Bool.false_eq_true, if_false, filter_cons, Bool.not_false, if_true,
        cons.injEq, true_and]
      exact (filter_eq_self.mpr (by simpa using hnone)).symm

end Filter

end Lib
