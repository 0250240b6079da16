import Mathlib.Data.List.Basic
import Mathlib.Logic.Function.Basic

/-!
# Ring buffers

A list laid out in the slots of a ring, from a first slot round to the slot behind the last entry.
-/

namespace Ring

variable {α : Type*}

/-- The slots from `first` round to `stop` hold the list. -/
structure Represents (size : Nat) (slots : Nat → α) (first stop : Nat) (l : List α) : Prop where
  first_lt : first < size
  length_le : l.length ≤ size
  stop_eq : stop = (first + l.length) % size
  slot : ∀ i (h : i < l.length), slots ((first + i) % size) = l[i]

namespace Represents

variable {size first stop : Nat} {slots : Nat → α} {l : List α} {x : α}

theorem nil (slots : Nat → α) (h : first < size) : Represents size slots first first [] where
  first_lt := h
  length_le := Nat.zero_le _
  stop_eq := (Nat.mod_eq_of_lt h).symm
  slot _ hi := absurd hi (Nat.not_lt_zero _)

/-- Two places of a ring that is not run through twice are different slots. -/
theorem mod_ne {first i n size : Nat} (hi : i < n) (hn : n < size) :
    (first + i) % size ≠ (first + n) % size := by
  intro heq
  have hdvd : size ∣ (first + n) - (first + i) :=
    Nat.dvd_of_mod_eq_zero (Nat.sub_mod_eq_zero_of_mod_eq heq.symm)
  have hzero := Nat.eq_zero_of_dvd_of_lt hdvd (by omega)
  omega

/-- Storing at the stop and moving it on appends. -/
theorem push (h : Represents size slots first stop l) (hlen : l.length < size) (x : α) :
    Represents size (Function.update slots stop x) first ((stop + 1) % size) (l ++ [x]) where
  first_lt := h.first_lt
  length_le := by
    rw [List.length_append, List.length_singleton]
    exact hlen
  stop_eq := by
    rw [h.stop_eq, Nat.mod_add_mod, List.length_append, List.length_singleton, Nat.add_assoc]
  slot i hi := by
    rw [List.length_append, List.length_singleton] at hi
    rw [h.stop_eq]
    by_cases hlast : i < l.length
    · rw [Function.update_of_ne (mod_ne hlast hlen), List.getElem_append_left hlast]
      exact h.slot i hlast
    · obtain rfl : i = l.length := by omega
      rw [Function.update_self, List.getElem_append_right (Nat.le_refl _)]
      simp

theorem head (h : Represents size slots first stop (x :: l)) : slots first = x := by
  have hslot := h.slot 0 (Nat.succ_pos _)
  rwa [Nat.add_zero, Nat.mod_eq_of_lt h.first_lt] at hslot

/-- Moving the first slot on drops the head. -/
theorem pop (h : Represents size slots first stop (x :: l)) :
    Represents size slots ((first + 1) % size) stop l where
  first_lt := Nat.mod_lt _ (Nat.zero_lt_of_lt h.first_lt)
  length_le := Nat.le_of_succ_le h.length_le
  stop_eq := by
    rw [h.stop_eq, Nat.mod_add_mod, List.length_cons, Nat.add_assoc, Nat.add_comm 1]
  slot i hi := by
    rw [Nat.mod_add_mod, Nat.add_assoc, Nat.add_comm 1]
    exact h.slot (i + 1) (Nat.succ_lt_succ hi)

end Represents

end Ring
