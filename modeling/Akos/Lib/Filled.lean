import Mathlib.Algebra.Ring.Nat
import Mathlib.Data.List.Basic

/-!
# Chains of blocks filled one after the other

A chain of blocks of one capacity is filled when every block but the last is full. A position in the chain
then lies in the block its quotient by the capacity says.
-/

namespace Akos

/-- The fill counts of a chain: all but the last are the capacity. -/
def Filled (c : Nat) (sizes : List Nat) : Prop :=
  ∃ init last, sizes = init ++ [last] ∧ (∀ n ∈ init, n = c) ∧ last ≤ c

namespace Filled

variable {c : Nat} {sizes front back init : List Nat} {n last : Nat}

theorem concat_iff : Filled c (init ++ [last]) ↔ (∀ n ∈ init, n = c) ∧ last ≤ c := by
  refine ⟨?_, fun h => ⟨init, last, rfl, h⟩⟩
  rintro ⟨init', last', heq, h⟩
  obtain ⟨rfl, hlast⟩ := List.append_inj' heq rfl
  obtain rfl := List.singleton_inj.mp hlast
  exact h

theorem singleton_iff : Filled c [last] ↔ last ≤ c := by
  have h : Filled c ([] ++ [last]) ↔ _ := concat_iff
  simpa using h

theorem ne_nil (h : Filled c sizes) : sizes ≠ [] := by
  obtain ⟨init, last, rfl, -⟩ := h
  exact List.append_ne_nil_of_right_ne_nil init (List.cons_ne_nil last [])

theorem length_pos (h : Filled c sizes) : 0 < sizes.length := List.length_pos_of_ne_nil h.ne_nil

theorem append_iff (hback : back ≠ []) :
    Filled c (front ++ back) ↔ (∀ n ∈ front, n = c) ∧ Filled c back := by
  obtain ⟨init, last, rfl⟩ := List.eq_nil_or_concat' back |>.resolve_left hback
  rw [← List.append_assoc, concat_iff, concat_iff, List.forall_mem_append, and_assoc]

theorem sum_init (h : ∀ n ∈ init, n = c) : init.sum = c * init.length := by
  rw [List.eq_replicate_of_mem h, List.sum_replicate_nat, List.length_replicate, Nat.mul_comm]

theorem le_sum (h : Filled c sizes) : c * (sizes.length - 1) ≤ sizes.sum := by
  obtain ⟨init, last, rfl, hinit, -⟩ := h
  rw [List.sum_append, sum_init hinit, List.length_append, List.length_singleton, Nat.add_sub_cancel]
  exact Nat.le_add_right _ _

theorem sum_le (h : Filled c sizes) : sizes.sum ≤ c * sizes.length := by
  obtain ⟨init, last, rfl, hinit, hlast⟩ := h
  rw [List.sum_append, sum_init hinit, List.length_append, List.length_singleton, Nat.mul_add_one]
  simpa using hlast

/-- What a block holds follows from the total. -/
theorem getElem_eq (h : Filled c sizes) {i : Nat} (hi : i < sizes.length) :
    sizes[i] = min c (sizes.sum - c * i) := by
  obtain ⟨init, last, rfl, hinit, hlast⟩ := h
  have hsum : (init ++ [last]).sum = c * init.length + last := by
    rw [List.sum_append, sum_init hinit, List.sum_singleton]
  rw [hsum]
  rw [List.length_append, List.length_singleton] at hi
  obtain hlt | rfl := Nat.lt_succ_iff_lt_or_eq.mp hi
  · have hle : c * (i + 1) ≤ c * init.length := Nat.mul_le_mul_left c hlt
    rw [Nat.mul_add_one] at hle
    rw [List.getElem_append_left hlt, hinit _ (List.getElem_mem hlt)]
    omega
  · rw [List.getElem_append_right (Nat.le_refl _), Nat.add_sub_cancel_left, Nat.min_eq_right hlast]
    simp

/-- A block that is not the last one is full. -/
theorem getElem_of_lt (h : Filled c sizes) {i : Nat} (hi : i + 1 < sizes.length) : sizes[i] = c := by
  obtain ⟨init, last, rfl, hinit, -⟩ := h
  rw [List.length_append, List.length_singleton] at hi
  have hlt : i < init.length := Nat.lt_of_succ_lt_succ hi
  rw [List.getElem_append_left hlt]
  exact hinit _ (List.getElem_mem hlt)

end Filled

end Akos
