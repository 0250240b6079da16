/-!
# The first run of hits

A scan counts hits in a row and starts over at each miss. It finds the least run of the length it is asked for.
-/

namespace Akos.FirstRun

variable {hit : Nat → Bool} {n left i count first other : Nat}

/-- The `n` places from `first` on are hits. -/
def Run (hit : Nat → Bool) (n first : Nat) : Prop := ∀ j, first ≤ j → j < first + n → hit j = true

/-- Look at `left` places from `i` on, when the `count` places before `i` were hits. -/
def scan (hit : Nat → Bool) (n : Nat) : Nat → Nat → Nat → Option Nat
  | 0, _, _ => none
  | left + 1, i, count =>
    if hit i then if count + 1 = n then some (i - count) else scan hit n left (i + 1) (count + 1)
    else scan hit n left (i + 1) 0

/-- A miss ends every run that could have begun before it. -/
theorem not_run_of_miss (hcount : count < n) (hmiss : hit i = false) (hother : i - count ≤ other)
    (hle : other ≤ i) : ¬ Run hit n other := by
  intro hrun
  have hhit := hrun i hle (by omega)
  rw [hmiss] at hhit
  cases hhit

/-- What is found is a run, and none begins before it. -/
theorem scan_eq_some (hcount : count < n) (hle : count ≤ i) (hrun : Run hit count (i - count))
    (h : scan hit n left i count = some first) :
    i - count ≤ first ∧ first + n ≤ i + left ∧ Run hit n first ∧
      ∀ other, i - count ≤ other → other < first → ¬ Run hit n other := by
  induction left generalizing i count with
  | zero => cases h
  | succ left ih =>
    rw [scan] at h
    by_cases hhit : hit i = true
    · have hrun' : Run hit (count + 1) (i - count) := by
        intro j hfirst hlast
        rcases Nat.lt_or_ge j i with hlt | hge
        · exact hrun j hfirst (by omega)
        · rwa [show j = i by omega]
      rw [if_pos hhit] at h
      by_cases hfull : count + 1 = n
      · rw [if_pos hfull] at h
        obtain rfl := Option.some.inj h
        exact ⟨Nat.le_refl _, by omega, hfull ▸ hrun', fun other hother hlt => by omega⟩
      · rw [if_neg hfull] at h
        have hstart : i + 1 - (count + 1) = i - count := by omega
        have hfound := ih (by omega) (by omega) (by rwa [hstart]) h
        rw [hstart] at hfound
        exact ⟨hfound.1, by omega, hfound.2.2⟩
    · rw [if_neg hhit] at h
      rw [Bool.not_eq_true] at hhit
      have hfound := ih (by omega) (Nat.zero_le _) (fun j _ _ => by omega) h
      refine ⟨by omega, by omega, hfound.2.2.1, fun other hother hlt => ?_⟩
      rcases Nat.lt_or_ge i other with hgt | hge
      · exact hfound.2.2.2 other hgt hlt
      · exact not_run_of_miss hcount hhit hother hge

/-- When nothing is found there is no run. -/
theorem scan_eq_none (hcount : count < n) (hle : count ≤ i) (h : scan hit n left i count = none)
    (hother : i - count ≤ other) (hlast : other + n ≤ i + left) : ¬ Run hit n other := by
  induction left generalizing i count with
  | zero => omega
  | succ left ih =>
    rw [scan] at h
    by_cases hhit : hit i = true
    · rw [if_pos hhit] at h
      by_cases hfull : count + 1 = n
      · rw [if_pos hfull] at h
        cases h
      · rw [if_neg hfull] at h
        exact ih (by omega) (by omega) h (by omega) (by omega)
    · rw [if_neg hhit] at h
      rw [Bool.not_eq_true] at hhit
      rcases Nat.lt_or_ge i other with hgt | hge
      · exact ih (by omega) (Nat.zero_le _) h hgt (by omega)
      · exact not_run_of_miss hcount hhit hother hge

end Akos.FirstRun
