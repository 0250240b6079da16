import Mathlib.Algebra.Ring.Nat

/-!
# Loops over addresses of a fixed width

A loop that counts an address up by a stride while it is below a bound, in arithmetic that wraps. Where the
wrap takes the address back below the bound the loop does not end.
-/

namespace Strided

variable {w : Nat} {stride bound a v : BitVec w} {fuel n : Nat}

/-- The addresses that a loop visits, or `none` when it is not through after so many rounds. -/
def visits (stride bound : BitVec w) : Nat → BitVec w → Option (List (BitVec w))
  | 0, a => if a < bound then none else some []
  | fuel + 1, a => if a < bound then (visits stride bound fuel (a + stride)).map (a :: ·) else some []

theorem visits_of_le (h : bound ≤ a) : visits stride bound fuel a = some [] := by
  have hlt : ¬ a < bound := by
    rw [BitVec.lt_def]
    rw [BitVec.le_def] at h
    omega
  cases fuel <;> rw [visits, if_neg hlt]

/-- After `n` rounds without a wrap the address is not below the bound. -/
def Stops (stride bound a : BitVec w) (n : Nat) : Prop :=
  a.toNat + stride.toNat * n < 2 ^ w ∧ bound.toNat ≤ a.toNat + stride.toNat * n

theorem Stops.next (h : Stops stride bound a (n + 1)) :
    (a + stride).toNat = a.toNat + stride.toNat ∧ Stops stride bound (a + stride) n := by
  obtain ⟨hlt, hle⟩ := h
  rw [Nat.mul_succ] at hlt hle
  have hadd : (a + stride).toNat = a.toNat + stride.toNat := by
    rw [BitVec.toNat_add, Nat.mod_eq_of_lt (by omega)]
  refine ⟨hadd, ?_, ?_⟩ <;> rw [hadd] <;> omega

/-- A loop that stops without a wrap visits the addresses below the bound. -/
theorem exists_visits (hstop : Stops stride bound a n) (hfuel : n ≤ fuel) :
    ∃ l, visits stride bound fuel a = some l ∧
      ∀ v, v ∈ l ↔ ∃ k, v.toNat = a.toNat + stride.toNat * k ∧ v.toNat < bound.toNat := by
  induction n generalizing a fuel with
  | zero =>
    have hle : bound.toNat ≤ a.toNat := by simpa using hstop.2
    refine ⟨[], visits_of_le (BitVec.le_def.mpr hle), fun v => ?_⟩
    simp only [List.not_mem_nil, false_iff, not_exists, not_and]
    intro k hk
    have hge : a.toNat ≤ v.toNat := hk ▸ Nat.le_add_right _ _
    omega
  | succ n ih =>
    by_cases hlt : a < bound
    · obtain ⟨hadd, hnext⟩ := hstop.next
      obtain ⟨fuel, rfl⟩ : ∃ m, fuel = m + 1 := ⟨fuel - 1, by omega⟩
      obtain ⟨l, hl, hmem⟩ := ih hnext (Nat.le_of_succ_le_succ hfuel)
      refine ⟨a :: l, by rw [visits, if_pos hlt, hl, Option.map_some], fun v => ?_⟩
      rw [List.mem_cons, hmem, hadd]
      constructor
      · rintro (rfl | ⟨k, hk, hv⟩)
        · exact ⟨0, by simp, BitVec.lt_def.mp hlt⟩
        · exact ⟨k + 1, by rw [hk, Nat.mul_succ]; omega, hv⟩
      · rintro ⟨k, hk, hv⟩
        cases k with
        | zero => exact .inl (BitVec.eq_of_toNat_eq (by simpa using hk))
        | succ k => exact .inr ⟨k, by rw [hk, Nat.mul_succ]; omega, hv⟩
    · have hle : bound.toNat ≤ a.toNat := by
        rw [BitVec.lt_def] at hlt
        omega
      refine ⟨[], visits_of_le (BitVec.le_def.mpr hle), fun v => ?_⟩
      simp only [List.not_mem_nil, false_iff, not_exists, not_and]
      intro k hk
      have hge : a.toNat ≤ v.toNat := hk ▸ Nat.le_add_right _ _
      omega

/-- A loop whose address is always below the bound does not end. -/
theorem visits_eq_none (h : ∀ k : Nat, a + BitVec.ofNat w k * stride < bound) :
    visits stride bound fuel a = none := by
  have hlt : a < bound := by simpa using h 0
  induction fuel generalizing a with
  | zero => rw [visits, if_pos hlt]
  | succ fuel ih =>
    have hnext : ∀ k : Nat, a + stride + BitVec.ofNat w k * stride < bound := fun k => by
      have hk := h (k + 1)
      rw [BitVec.ofNat_add, BitVec.add_mul, BitVec.add_comm (_ * _), ← BitVec.add_assoc] at hk
      simpa using hk
    rw [visits, if_pos hlt, ih hnext (by simpa using hnext 0), Option.map_none]

end Strided
