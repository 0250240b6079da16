import Akos.Lib.Ledger
import Akos.Lib.WordMap

/-!
# Runs of blocks over a bit map

An allocator with a bit for each block gives out runs of blocks. Its table has an entry at the first block of
each run given out, and the table is sound when the runs share no block and the set bits are their blocks.
-/

/-- The bits and the entries; the length of a run follows from its entry. -/
structure RunTable (α : Type*) where
  bits : WordMap
  runs : Nat → Option α

namespace RunTable

variable {α : Type*} {len : α → Nat} {cap first : Nat} {t : RunTable α} {a : α}

/-- The block belongs to the run that starts at `first`. -/
def Owns (len : α → Nat) (t : RunTable α) (first block : Nat) : Prop :=
  ∃ a, t.runs first = some a ∧ first ≤ block ∧ block < first + len a

structure Sound (len : α → Nat) (cap : Nat) (t : RunTable α) : Prop where
  bounded : ∀ first a, t.runs first = some a → 0 < len a ∧ first + len a ≤ cap
  balanced : Ledger.Balanced (t.Owns len) ∅ (fun block => t.bits.test block = true)

def take (len : α → Nat) (t : RunTable α) (first : Nat) (a : α) : RunTable α :=
  ⟨t.bits.setRun first (len a), Function.update t.runs first (some a)⟩

def release (len : α → Nat) (t : RunTable α) (first : Nat) (a : α) : RunTable α :=
  ⟨t.bits.unsetRun first (len a), Function.update t.runs first none⟩

theorem runs_take (t : RunTable α) (first : Nat) (a : α) (other : Nat) :
    (t.take len first a).runs other = if other = first then some a else t.runs other := Function.update_apply _ _ _ _

theorem runs_release (t : RunTable α) (first : Nat) (a : α) (other : Nat) :
    (t.release len first a).runs other = if other = first then none else t.runs other := Function.update_apply _ _ _ _

theorem Sound.owns_self (h : Sound len cap t) (ha : t.runs first = some a) : t.Owns len first first :=
  ⟨a, ha, Nat.le_refl _, Nat.lt_add_of_pos_right (h.bounded first a ha).1⟩

/-- No run starts at a clear bit. -/
theorem Sound.runs_eq_none (h : Sound len cap t) (hclear : t.bits.test first = false) : t.runs first = none := by
  cases ha : t.runs first with
  | none => rfl
  | some a => exact Bool.noConfusion (hclear.symm.trans (h.balanced.used_of_holds (h.owns_self ha)))

theorem Sound.set_of_run (h : Sound len cap t) (ha : t.runs first = some a) (block : Nat) (hlo : first ≤ block)
    (hhi : block < first + len a) : t.bits.test block = true :=
  h.balanced.used_of_holds ⟨a, ha, hlo, hhi⟩

theorem Sound.take (h : Sound len cap t) (hpos : 0 < len a) (hfirst : first + len a ≤ cap)
    (hclear : t.bits.ClearRun first (len a)) : Sound len cap (t.take len first a) := by
  have hnone : t.runs first = none :=
    h.runs_eq_none (hclear first (Nat.le_refl _) (Nat.lt_add_of_pos_right hpos))
  refine ⟨fun other b hb => ?_, ?_⟩
  · rw [runs_take] at hb
    split at hb
    · next heq => exact heq ▸ Option.some.inj hb ▸ ⟨hpos, hfirst⟩
    · exact h.bounded other b hb
  · refine h.balanced.take first {block | first ≤ block ∧ block < first + len a} (fun block hblock hused => ?_)
      (fun other block => ?_) fun block => ?_
    · exact Bool.noConfusion ((hclear block hblock.1 hblock.2).symm.trans hused)
    · by_cases heq : other = first
      · subst heq
        simp [Owns, runs_take, hnone]
      · simp [Owns, runs_take, heq]
    · show (t.bits.setRun first (len a)).test block = true ↔ _
      rw [WordMap.test_setRun, Bool.or_eq_true, decide_eq_true_eq, or_comm]
      rfl

theorem ones_take (hfirst : first + len a ≤ cap)
    (hclear : t.bits.ClearRun first (len a)) :
    (t.take len first a).bits.ones cap = t.bits.ones cap + len a :=
  WordMap.ones_setRun t.bits hfirst hclear

theorem test_release (ha : t.runs first = some a) (block : Nat) :
    (t.release len first a).bits.test block = true ↔ t.bits.test block = true ∧ ¬ t.Owns len first block := by
  show (t.bits.unsetRun first (len a)).test block = true ↔ _
  rw [WordMap.test_unsetRun, Owns]
  simp only [ha, Option.some.injEq, exists_eq_left', Bool.and_eq_true, Bool.not_eq_true',
    decide_eq_false_iff_not]
  exact and_comm

theorem Sound.release (h : Sound len cap t) (ha : t.runs first = some a) : Sound len cap (t.release len first a) := by
  refine ⟨fun other b hb => ?_, ?_⟩
  · rw [runs_release] at hb
    split at hb
    · cases hb
    · exact h.bounded other b hb
  · refine h.balanced.close {first} {first} (Set.Subset.refl _) (fun other block => ?_) (fun block => by simp)
      fun block => ?_
    · by_cases heq : other = first
      · subst heq
        simp [Owns, runs_release]
      · simp [Owns, runs_release, heq]
    · rw [test_release ha]
      simp

theorem Sound.ones_release (h : Sound len cap t) (ha : t.runs first = some a) :
    (t.release len first a).bits.ones cap + len a = t.bits.ones cap := by
  have hones := WordMap.ones_unsetRun t.bits (h.bounded first a ha).2 (h.set_of_run ha)
  exact hones

/-- Nothing given out, no bit set. -/
theorem sound_empty {bits : WordMap} (hbits : ∀ block, bits.test block = false) :
    Sound len cap ⟨bits, fun _ => none⟩ := by
  have hnone : ∀ first block, ¬ Owns len (⟨bits, fun _ => none⟩ : RunTable α) first block := by
    intro first block h
    obtain ⟨_, ha, _⟩ := h
    cases ha
  refine ⟨(fun _ _ h => by cases h), fun howns _ => absurd howns (hnone _ _), fun _ => hnone _ _, fun block => ?_⟩
  simp [hbits, hnone]

end RunTable
