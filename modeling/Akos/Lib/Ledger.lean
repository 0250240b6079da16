import Mathlib.Data.Set.Basic

/-!
# Who holds what

A ledger relates holders to the units they hold, beside a record of the units in use. It is balanced when
no unit has two holders and the units in use are the held ones and the spare ones, which nobody holds.
The rules say what taking free units and closing holders must do to keep it balanced.
-/

namespace Ledger

variable {η υ : Type*}

/-- `spare` units are in use without a holder. -/
structure Balanced (holds : η → υ → Prop) (spare : Set υ) (used : υ → Prop) : Prop where
  apart : ∀ {h h' u}, holds h u → holds h' u → h = h'
  spare_apart : ∀ {h u}, u ∈ spare → ¬ holds h u
  used_iff : ∀ u, used u ↔ u ∈ spare ∨ ∃ h, holds h u

namespace Balanced

variable {holds holds' : η → υ → Prop} {spare spare' : Set υ} {used used' : υ → Prop}

theorem used_of_holds (b : Balanced holds spare used) {h : η} {u : υ} (hu : holds h u) : used u :=
  (b.used_iff u).mpr (Or.inr ⟨h, hu⟩)

theorem used_of_spare (b : Balanced holds spare used) {u : υ} (hu : u ∈ spare) : used u :=
  (b.used_iff u).mpr (Or.inl hu)

theorem congr (b : Balanced holds spare used) (hholds : ∀ h u, holds' h u ↔ holds h u)
    (hused : ∀ u, used' u ↔ used u) : Balanced holds' spare used' where
  apart h₁ h₂ := b.apart ((hholds _ _).mp h₁) ((hholds _ _).mp h₂)
  spare_apart hs h := b.spare_apart hs ((hholds _ _).mp h)
  used_iff u := by simp only [hused, hholds, b.used_iff u]

/-- A holder takes units that were not in use. -/
theorem take (b : Balanced holds spare used) (h₀ : η) (units : Set υ) (hfree : ∀ u ∈ units, ¬ used u)
    (hholds : ∀ h u, holds' h u ↔ holds h u ∨ (h = h₀ ∧ u ∈ units))
    (hused : ∀ u, used' u ↔ used u ∨ u ∈ units) : Balanced holds' spare used' where
  apart := by
    intro h h' u h₁ h₂
    rcases (hholds h u).mp h₁ with hold₁ | ⟨rfl, hu₁⟩ <;>
      rcases (hholds h' u).mp h₂ with hold₂ | ⟨rfl, hu₂⟩
    · exact b.apart hold₁ hold₂
    · exact absurd (b.used_of_holds hold₁) (hfree u hu₂)
    · exact absurd (b.used_of_holds hold₂) (hfree u hu₁)
    · rfl
  spare_apart := by
    intro h u hs hh
    rcases (hholds h u).mp hh with hold | ⟨_, hu⟩
    · exact b.spare_apart hs hold
    · exact hfree u hu (b.used_of_spare hs)
  used_iff u := by
    rw [hused, b.used_iff]
    constructor
    · rintro ((hs | ⟨h, hold⟩) | hu)
      · exact Or.inl hs
      · exact Or.inr ⟨h, (hholds h u).mpr (Or.inl hold)⟩
      · exact Or.inr ⟨h₀, (hholds h₀ u).mpr (Or.inr ⟨rfl, hu⟩)⟩
    · rintro (hs | ⟨h, hh⟩)
      · exact Or.inl (Or.inl hs)
      · rcases (hholds h u).mp hh with hold | ⟨_, hu⟩
        · exact Or.inl (Or.inr ⟨h, hold⟩)
        · exact Or.inr hu

/-- Holders are closed. The units of the `paid` ones are no longer in use, those of the others become
spare. -/
theorem close (b : Balanced holds spare used) (closed paid : Set η) (hpaid : paid ⊆ closed)
    (hholds : ∀ h u, holds' h u ↔ holds h u ∧ h ∉ closed)
    (hspare : ∀ u, u ∈ spare' ↔ u ∈ spare ∨ ∃ h ∈ closed, h ∉ paid ∧ holds h u)
    (hused : ∀ u, used' u ↔ used u ∧ ¬ ∃ h ∈ paid, holds h u) : Balanced holds' spare' used' where
  apart h₁ h₂ := b.apart ((hholds _ _).mp h₁).1 ((hholds _ _).mp h₂).1
  spare_apart := by
    intro h u hs hh
    obtain ⟨hold, hopen⟩ := (hholds h u).mp hh
    rcases (hspare u).mp hs with hold' | ⟨h', hclosed, _, hold'⟩
    · exact b.spare_apart hold' hold
    · exact hopen (b.apart hold hold' ▸ hclosed)
  used_iff u := by
    rw [hused, b.used_iff, hspare]
    constructor
    · rintro ⟨hs | ⟨h, hold⟩, hkept⟩
      · exact Or.inl (Or.inl hs)
      · by_cases hclosed : h ∈ closed
        · exact Or.inl (Or.inr ⟨h, hclosed, fun hp => hkept ⟨h, hp, hold⟩, hold⟩)
        · exact Or.inr ⟨h, (hholds h u).mpr ⟨hold, hclosed⟩⟩
    · rintro ((hs | ⟨h, _, hunpaid, hold⟩) | ⟨h, hh⟩)
      · exact ⟨Or.inl hs, fun ⟨h', _, hold'⟩ => b.spare_apart hs hold'⟩
      · refine ⟨Or.inr ⟨h, hold⟩, fun ⟨h', hp, hold'⟩ => hunpaid ?_⟩
        rwa [b.apart hold hold']
      · obtain ⟨hold, hopen⟩ := (hholds h u).mp hh
        refine ⟨Or.inr ⟨h, hold⟩, fun ⟨h', hp, hold'⟩ => hopen (hpaid ?_)⟩
        rwa [b.apart hold hold']

end Balanced

end Ledger
