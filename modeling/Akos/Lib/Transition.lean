import Mathlib.Tactic.TypeStar

/-!
# Runs of a labelled step relation

A system is a relation `step s i t` between a state, the label of an operation and a following state.
A run lists the labels it takes. The rules here reduce a fact about every state of every run to a fact
about one step.
-/

namespace Transition

variable {σ ι : Type*}

/-- A finite run from the first state to the last, with the labels it takes in order. -/
inductive Run (step : σ → ι → σ → Prop) : σ → List ι → σ → Prop
  | nil (s : σ) : Run step s [] s
  | cons {s t u : σ} {i : ι} {is : List ι} :
      step s i t → Run step t is u → Run step s (i :: is) u

namespace Run

variable {step step' : σ → ι → σ → Prop} {s t u : σ} {i : ι} {is js : List ι}

theorem single (h : step s i t) : Run step s [i] t := cons h (nil t)

theorem append (hst : Run step s is t) (htu : Run step t js u) : Run step s (is ++ js) u := by
  induction hst with
  | nil _ => exact htu
  | cons hstep _ ih => exact cons hstep (ih htu)

theorem snoc (hst : Run step s is t) (htu : step t i u) : Run step s (is ++ [i]) u :=
  hst.append (single htu)

/-- What holds at the start and is kept by every step holds at the end of every run. -/
theorem invariant (Inv : σ → Prop) (hstep : ∀ s i t, Inv s → step s i t → Inv t)
    (hrun : Run step s is t) (hs : Inv s) : Inv t := by
  induction hrun with
  | nil _ => exact hs
  | cons h _ ih => exact ih (hstep _ _ _ hs h)

theorem mono (hle : ∀ s i t, step s i t → step' s i t) (hrun : Run step s is t) :
    Run step' s is t := by
  induction hrun with
  | nil s => exact nil s
  | cons h _ ih => exact cons (hle _ _ _ h) ih

/-- Every run is one of a system that follows each of its steps. -/
theorem refine {ρ : Type*} (stepA : ρ → ι → ρ → Prop) (R : σ → ρ → Prop) (a : ρ)
    (hsim : ∀ s a i t, R s a → step s i t → ∃ b, stepA a i b ∧ R t b) (hrun : Run step s is t)
    (ha : R s a) : ∃ b, Run stepA a is b ∧ R t b := by
  induction hrun generalizing a with
  | nil _ => exact ⟨a, nil a, ha⟩
  | cons h _ ih =>
    obtain ⟨b, hb, hR⟩ := hsim _ _ _ _ ha h
    obtain ⟨c, hc, hR'⟩ := ih b hR
    exact ⟨c, cons hb hc, hR'⟩

end Run

/-- The states of a system that computes its next one, over a list of labels each of which passes a test. -/
def exec (apply : σ → ι → Option σ) (test : σ → ι → Bool) : σ → List ι → Option σ
  | s, [] => some s
  | s, i :: is => if test s i then (apply s i).bind fun t => exec apply test t is else none

theorem run_of_exec {apply : σ → ι → Option σ} {test : σ → ι → Bool} {step : σ → ι → σ → Prop}
    (hstep : ∀ s i t, test s i = true → apply s i = some t → step s i t) {s t : σ} {is : List ι}
    (h : exec apply test s is = some t) : Run step s is t := by
  induction is generalizing s with
  | nil => exact Option.some.inj h ▸ Run.nil s
  | cons i is ih =>
    rw [exec] at h
    split at h
    · next htest =>
      obtain ⟨u, hu, hrest⟩ := Option.bind_eq_some_iff.mp h
      exact Run.cons (hstep s i u htest hu) (ih hrest)
    · cases h

end Transition
