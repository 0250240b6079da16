import Mathlib.Data.Nat.Init
import Mathlib.Data.Option.Basic

/-!
# Computations with a bound on their steps

A loop that need not end is a function of a bound on its steps, with no result where the bound is too low. A steady one
keeps its result under every higher bound: what it gives does not depend on the bound, and it ends when there is one
that it comes to a result under.
-/

namespace StepBound

variable {α β : Type} {p : Nat → Option α} {q : α → Nat → Option β} {a a' : α} {b : β} {n m : Nat}

/-- One more step does not change the result. -/
def Steady (p : Nat → Option α) : Prop := ∀ n a, p n = some a → p (n + 1) = some a

/-- Some bound is enough for a result. -/
def Ends (p : Nat → Option α) : Prop := ∃ n, (p n).isSome = true

/-- From some bound on, this is the result. -/
def Gives (p : Nat → Option α) (a : α) : Prop := ∃ n, ∀ m ≥ n, p m = some a

theorem Steady.le (hp : Steady p) (h : p n = some a) (hle : n ≤ m) : p m = some a := by
  induction m, hle using Nat.le_induction with
  | base => exact h
  | succ m _ ih => exact hp m a ih

theorem Steady.gives (hp : Steady p) (h : p n = some a) : Gives p a := ⟨n, fun _ hle => hp.le h hle⟩

theorem Gives.ends (h : Gives p a) : Ends p := by
  obtain ⟨n, hn⟩ := h
  exact ⟨n, by rw [hn n (Nat.le_refl n), Option.isSome_some]⟩

theorem Gives.unique (h : Gives p a) (h' : Gives p a') : a = a' := by
  obtain ⟨n, hn⟩ := h
  obtain ⟨m, hm⟩ := h'
  exact Option.some.inj ((hn _ (Nat.le_max_left n m)).symm.trans (hm _ (Nat.le_max_right n m)))

theorem gives_some (a : α) : Gives (fun _ => some a) a := ⟨0, fun _ _ => rfl⟩

theorem Gives.map (h : Gives p a) (g : α → β) : Gives (fun n => (p n).map g) (g a) := by
  obtain ⟨n, hn⟩ := h
  exact ⟨n, fun m hle => by simp only [hn m hle, Option.map_some]⟩

/-- What two computations in a row give. -/
theorem Gives.bind (h : Gives p a) (h' : Gives (q a) b) : Gives (fun n => (p n).bind fun a => q a n) b := by
  obtain ⟨n, hn⟩ := h
  obtain ⟨m, hm⟩ := h'
  refine ⟨max n m, fun k hle => ?_⟩
  simp only [hn k (Nat.le_trans (Nat.le_max_left n m) hle), Option.bind_some,
    hm k (Nat.le_trans (Nat.le_max_right n m) hle)]

theorem Steady.ends_iff (hp : Steady p) : Ends p ↔ ∃ a, Gives p a := by
  constructor
  · intro h
    obtain ⟨n, hn⟩ := h
    obtain ⟨a, ha⟩ := Option.isSome_iff_exists.mp hn
    exact ⟨a, hp.gives ha⟩
  · intro h
    obtain ⟨a, ha⟩ := h
    exact ha.ends

theorem steady_some (a : α) : Steady fun _ => some a := fun _ _ h => h

theorem steady_ite {c : Prop} [Decidable c] {p' : Nat → Option α} (hp : Steady p) (hp' : Steady p') :
    Steady fun n => if c then p n else p' n := by
  by_cases h : c
  · simpa only [if_pos h] using hp
  · simpa only [if_neg h] using hp'

theorem Steady.bind (hp : Steady p) (hq : ∀ a, Steady (q a)) : Steady fun n => (p n).bind fun a => q a n := by
  intro n b h
  obtain ⟨a, ha, hb⟩ := Option.bind_eq_some_iff.mp h
  exact Option.bind_eq_some_iff.mpr ⟨a, hp n a ha, hq a n b hb⟩

/-- Two computations in a row end when the first one does, and the second one after it. -/
theorem Steady.ends_bind_iff (hp : Steady p) (hq : ∀ a, Steady (q a)) :
    Ends (fun n => (p n).bind fun a => q a n) ↔ ∃ a, Gives p a ∧ Ends (q a) := by
  constructor
  · intro h
    obtain ⟨n, hn⟩ := h
    obtain ⟨b, hb⟩ := Option.isSome_iff_exists.mp hn
    obtain ⟨a, ha, hb⟩ := Option.bind_eq_some_iff.mp hb
    exact ⟨a, hp.gives ha, n, by rw [hb, Option.isSome_some]⟩
  · intro h
    obtain ⟨a, hgives, hends⟩ := h
    obtain ⟨b, k, hb⟩ := (hq a).ends_iff.mp hends
    obtain ⟨n, ha⟩ := hgives
    refine ⟨max n k, ?_⟩
    dsimp only
    rw [ha _ (Nat.le_max_left n k), Option.bind_some, hb _ (Nat.le_max_right n k), Option.isSome_some]

end StepBound
