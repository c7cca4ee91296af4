import Mathlib.Data.List.Basic
import Mathlib.Tactic.Common

/-!
# Runs of a transition system

Parties take turns on one state. An invariant of every step is an invariant of every
run. What one party has to do for a goal is measured by a rank: its own steps lower
the rank, the others' do not raise it, so it has done it after that many steps of its
own, whatever the others do in between.
-/

namespace Lib

section Steps

variable {S A : Type} (step : S → A → Option S) {actions : List A}

/-- The state after a sequence of actions, if each of them was possible. -/
def run : S → List A → Option S
  | s, [] => some s
  | s, a :: as => (step s a).bind fun s' => run s' as

/-- The states that runs from `start` reach. -/
def Reaches (start s : S) : Prop := ∃ actions, run step start actions = some s

variable {step}

theorem run_invariant {I : S → Prop} (hstep : ∀ s a s', I s → step s a = some s' → I s') {s s' : S}
    (hrun : run step s actions = some s') (hI : I s) : I s' := by
  induction actions generalizing s with
  | nil =>
    cases hrun
    exact hI
  | cons a actions ih =>
    obtain ⟨middle, hfirst, hrest⟩ := Option.bind_eq_some_iff.mp hrun
    exact ih hrest (hstep s a middle hI hfirst)

/-- A goal that one party reaches in as many of its steps as the rank says. -/
theorem run_reaches_goal (I goal : S → Prop) (works : A → Bool) (rank : S → Nat)
    (hstep : ∀ s a s', I s → step s a = some s' → I s') (hkeep : ∀ s a s', I s → goal s → step s a = some s' → goal s')
    (hwork : ∀ s a s', I s → ¬goal s → works a = true → step s a = some s' → goal s' ∨ rank s' < rank s)
    (hwait : ∀ s a s', I s → ¬goal s → works a = false → step s a = some s' → goal s' ∨ rank s' ≤ rank s) {s s' : S}
    (hrun : run step s actions = some s') (hI : I s) (henough : rank s < actions.countP works) : goal s' := by
  -- once the goal is reached it stays
  have hstays {actions : List A} {s : S} (hrun : run step s actions = some s') (hI : I s) (hgoal : goal s) :
    goal s' := by
    refine (run_invariant (I := fun s => I s ∧ goal s) ?_ hrun ⟨hI, hgoal⟩).2
    intro s a s' h hfirst
    exact ⟨hstep s a s' h.1 hfirst, hkeep s a s' h.1 h.2 hfirst⟩
  induction actions generalizing s with
  | nil => simp at henough
  | cons a actions ih =>
    by_cases hgoal : goal s
    · exact hstays hrun hI hgoal
    obtain ⟨middle, hfirst, hrest⟩ := Option.bind_eq_some_iff.mp hrun
    have hmiddle := hstep s a middle hI hfirst
    cases hworks : works a with
    | true =>
      rcases hwork s a middle hI hgoal hworks hfirst with hreached | hless
      · exact hstays hrest hmiddle hreached
      · refine ih hrest hmiddle ?_
        rw [List.countP_cons_of_pos hworks] at henough
        omega
    | false =>
      rcases hwait s a middle hI hgoal hworks hfirst with hreached | hle
      · exact hstays hrest hmiddle hreached
      · refine ih hrest hmiddle ?_
        rw [List.countP_cons_of_neg (by simp [hworks])] at henough
        omega

end Steps

end Lib
