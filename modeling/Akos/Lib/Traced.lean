import Mathlib.Data.List.Basic

/-!
# Computations with a trace

A computation lists the effects it has on its way, and ends with a result or without one. What holds of every
effect of a sequence is put together from what holds of the effects of its parts.
-/

/-- The effects of a computation in order, and its result when it comes to one. -/
structure Traced (ω α : Type) where
  effects : List ω
  result : Option α

namespace Traced

variable {ω α β : Type} {P : ω → Prop}

/-- A computation of effects alone. -/
def emit (effects : List ω) : Traced ω Unit := ⟨effects, some ()⟩

/-- A computation without effects. -/
def lift (result : Option α) : Traced ω α := ⟨[], result⟩

instance : Monad (Traced ω) where
  pure a := ⟨[], some a⟩
  bind x f :=
    match x.result with
    | none => ⟨x.effects, none⟩
    | some a => ⟨x.effects ++ (f a).effects, (f a).result⟩

@[simp] theorem result_pure (a : α) : (pure a : Traced ω α).result = some a := rfl

@[simp] theorem result_emit (effects : List ω) : (emit effects).result = some () := rfl

@[simp] theorem result_lift (result : Option α) : (lift result : Traced ω α).result = result := rfl

@[simp] theorem result_bind (x : Traced ω α) (f : α → Traced ω β) :
    (x >>= f).result = x.result.bind fun a => (f a).result := by
  obtain ⟨effects, result⟩ := x
  cases result <;> rfl

/-- A sequence comes to what the results of its parts come to. -/
theorem result_bind_of {x : Traced ω α} {f : α → Traced ω β} {o : Option α} {g : α → Option β} (hx : x.result = o)
    (hf : ∀ a, (f a).result = g a) : (x >>= f).result = o >>= g := by
  rw [result_bind, hx, funext hf]
  rfl

theorem result_ite_of {c : Prop} [Decidable c] {x y : Traced ω α} {o o' : Option α} (hx : x.result = o)
    (hy : y.result = o') : (if c then x else y).result = if c then o else o' := by
  split
  · exact hx
  · exact hy

@[simp] theorem lift_some_bind (a : α) (f : α → Traced ω β) : lift (some a) >>= f = f a := rfl

theorem result_ite {c : Prop} [Decidable c] (x y : Traced ω α) :
    (if c then x else y).result = if c then x.result else y.result := apply_ite result c x y

theorem result_foldlM {step : β → α → Traced ω β} {next : β → α → Option β}
    (h : ∀ b a, (step b a).result = next b a) (as : List α) (b : β) :
    (as.foldlM step b).result = as.foldlM next b := by
  induction as generalizing b with
  | nil => rfl
  | cons a as ih =>
    rw [List.foldlM_cons, result_bind, h, List.foldlM_cons, Option.bind_eq_bind]
    congr 1
    funext b
    exact ih b

/-! ### What holds of every effect -/

/-- Every effect is as `P` says. -/
def Within (P : ω → Prop) (x : Traced ω α) : Prop := ∀ w ∈ x.effects, P w

theorem within_pure (a : α) : Within P (pure a : Traced ω α) := fun _ hw => absurd hw List.not_mem_nil

theorem within_lift (result : Option α) : Within P (lift result) := fun _ hw => absurd hw List.not_mem_nil

theorem within_emit {effects : List ω} (h : ∀ w ∈ effects, P w) : Within P (emit effects) := h

theorem Within.bind {x : Traced ω α} {f : α → Traced ω β} (hx : Within P x)
    (hf : ∀ a, x.result = some a → Within P (f a)) : Within P (x >>= f) := by
  obtain ⟨effects, result⟩ := x
  cases result with
  | none => exact hx
  | some a =>
    intro w hw
    obtain hw | hw := List.mem_append.mp hw
    · exact hx w hw
    · exact hf a rfl w hw

theorem within_emit_iff {effects : List ω} : Within P (emit effects) ↔ ∀ w ∈ effects, P w := Iff.rfl

/-- A sequence has the effects of its first part, and those of what follows if that comes to a result. -/
theorem within_bind_iff {x : Traced ω α} {f : α → Traced ω β} :
    Within P (x >>= f) ↔ Within P x ∧ ∀ a, x.result = some a → Within P (f a) := by
  obtain ⟨effects, result⟩ := x
  cases result with
  | none => exact (and_iff_left fun a ha => by cases ha).symm
  | some a =>
    refine List.forall_mem_append.trans (and_congr_right fun _ => ?_)
    exact ⟨fun h b hb => Option.some.inj hb ▸ h, fun h => h a rfl⟩

theorem within_bind_of_result {x : Traced ω α} {f : α → Traced ω β} {a : α} (h : x.result = some a) :
    Within P (x >>= f) ↔ Within P x ∧ Within P (f a) := by
  rw [within_bind_iff, h]
  simp only [Option.some.injEq, forall_eq']

theorem within_emit_bind_iff {effects : List ω} {f : Unit → Traced ω β} :
    Within P (emit effects >>= f) ↔ (∀ w ∈ effects, P w) ∧ Within P (f ()) := List.forall_mem_append

/-- The effects of the first part are effects of the whole. -/
theorem mem_effects_bind_left {x : Traced ω α} {f : α → Traced ω β} {w : ω} (h : w ∈ x.effects) :
    w ∈ (x >>= f).effects := by
  obtain ⟨effects, result⟩ := x
  cases result with
  | none => exact h
  | some a => exact List.mem_append_left _ h

/-- So are those of what follows, once the first part has its result. -/
theorem mem_effects_bind_right {x : Traced ω α} {f : α → Traced ω β} {a : α} {w : ω} (hx : x.result = some a)
    (h : w ∈ (f a).effects) : w ∈ (x >>= f).effects := by
  obtain ⟨effects, result⟩ := x
  obtain rfl : result = some a := hx
  exact List.mem_append_right _ h

end Traced
