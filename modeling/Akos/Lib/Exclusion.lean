import Mathlib.Logic.Function.Basic

/-!
# At most one client in a section

Clients stand at places of a program. A section is a set of places that at most one of them may be at. A step moves
one client, so whether the section stays exclusive and what is known of each client are questions about that one.
-/

namespace Exclusion

variable {ι γ : Type*}

/-- At most one client is in the section. -/
def Alone (inside : γ → Prop) (place : ι → γ) : Prop := ∀ i j, inside (place i) → inside (place j) → i = j

variable {inside : γ → Prop} {place : ι → γ} {i : ι} {g : γ}

theorem Alone.others (h : Alone inside place) (hi : inside (place i)) : ∀ j ≠ i, ¬ inside (place j) :=
  fun j hj hin => hj (h j i hin hi)

variable [DecidableEq ι]

/-- A client moves to any place if no other is inside. -/
theorem alone_update (hothers : ∀ j ≠ i, ¬ inside (place j)) : Alone inside (Function.update place i g) := by
  have houtside : ∀ j, inside (Function.update place i g j) → j = i := by
    intro j hin
    by_contra hj
    rw [Function.update_of_ne hj] at hin
    exact hothers j hj hin
  intro j k hj hk
  rw [houtside j hj, houtside k hk]

/-- A client moves, and is not inside unless it was. -/
theorem Alone.update (h : Alone inside place) (hg : inside g → inside (place i)) :
    Alone inside (Function.update place i g) := by
  have hwas : ∀ j, inside (Function.update place i g j) → inside (place j) := by
    intro j hin
    by_cases hj : j = i
    · subst hj
      rw [Function.update_self] at hin
      exact hg hin
    · rwa [Function.update_of_ne hj] at hin
  exact fun j k hj hk => h j k (hwas j hj) (hwas k hk)

/-- What holds of the moved client at its new place and of the others at theirs. -/
theorem forall_update {P : γ → Prop} (hi : P g) (hothers : ∀ j ≠ i, P (place j)) (j : ι) :
    P (Function.update place i g j) := by
  by_cases hj : j = i
  · subst hj
    rwa [Function.update_self]
  · rw [Function.update_of_ne hj]
    exact hothers j hj

end Exclusion
