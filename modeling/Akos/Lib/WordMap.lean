import Mathlib.Algebra.Ring.Nat
import Mathlib.Data.Finset.Card
import Mathlib.Data.Finset.Range
import Mathlib.Logic.Function.Basic
import Mathlib.Tactic.Common

/-!
# Bit maps in 32-bit words

A map of bits kept in an array of 32-bit words, as first-fit allocators keep it: setting and clearing a
bit or a run of bits, how many bits of a prefix are set, and the two searches, for the first clear bit
and for the first run of clear bits, which read the map word by word and skip the full words.
-/

/-- A bit map as an array of 32-bit words. -/
abbrev WordMap := Nat → BitVec 32

namespace WordMap

/-- Whether a bit is set. -/
def test (m : WordMap) (bit : Nat) : Bool := (m (bit / 32)).getLsbD (bit % 32)

/-- Set one bit. -/
def set (m : WordMap) (bit : Nat) : WordMap :=
  Function.update m (bit / 32) (m (bit / 32) ||| (1#32 <<< (bit % 32)))

/-- Clear one bit. -/
def unset (m : WordMap) (bit : Nat) : WordMap :=
  Function.update m (bit / 32) (m (bit / 32) &&& ~~~(1#32 <<< (bit % 32)))

theorem getLsbD_one_shiftLeft (i j : Nat) (hi : i < 32) :
    (1#32 <<< i).getLsbD j = decide (i = j) := by
  by_cases hj : j < 32
  · by_cases hij : j < i
    · simp [hj, hij, show i ≠ j by omega]
    · by_cases heq : i = j
      · simp [heq, show j < 32 from hj]
      · simp [hj, hij, heq, show j - i ≠ 0 by omega]
  · have hne : i ≠ j := by omega
    simp [hj, hne]

theorem test_set (m : WordMap) (bit other : Nat) :
    (m.set bit).test other = (decide (bit = other) || m.test other) := by
  by_cases hword : other / 32 = bit / 32
  · simp only [test, set, hword, Function.update_self, BitVec.getLsbD_or,
      getLsbD_one_shiftLeft _ _ (Nat.mod_lt bit (by decide : 0 < 32))]
    have hbit : (bit % 32 = other % 32) ↔ bit = other := by omega
    simp only [hbit, Bool.or_comm]
  · have hne : bit ≠ other := by
      rintro rfl
      exact hword rfl
    simp [test, set, Function.update_of_ne hword, hne]

theorem test_unset (m : WordMap) (bit other : Nat) :
    (m.unset bit).test other = (!decide (bit = other) && m.test other) := by
  by_cases hword : other / 32 = bit / 32
  · have hlt : other % 32 < 32 := Nat.mod_lt _ (by decide)
    simp only [test, unset, hword, Function.update_self, BitVec.getLsbD_and, BitVec.getLsbD_not,
      getLsbD_one_shiftLeft _ _ (Nat.mod_lt bit (by decide : 0 < 32)), hlt, decide_true,
      Bool.true_and]
    have hbit : (bit % 32 = other % 32) ↔ bit = other := by omega
    simp only [hbit, Bool.and_comm]
  · have hne : bit ≠ other := by
      rintro rfl
      exact hword rfl
    simp [test, unset, Function.update_of_ne hword, hne]

theorem test_set_self (m : WordMap) (bit : Nat) : (m.set bit).test bit = true := by
  simp [test_set]

theorem test_set_of_ne (m : WordMap) {bit other : Nat} (h : bit ≠ other) :
    (m.set bit).test other = m.test other := by
  simp [test_set, h]

theorem test_unset_of_ne (m : WordMap) {bit other : Nat} (h : bit ≠ other) :
    (m.unset bit).test other = m.test other := by
  simp [test_unset, h]

/-- A word is full exactly when each of its bits is set. -/
theorem word_full_iff (m : WordMap) (i : Nat) :
    m i = 0xffffffff#32 ↔ ∀ j < 32, m.test (32 * i + j) = true := by
  have hword : ∀ j < 32, m.test (32 * i + j) = (m i).getLsbD j := by
    intro j hj
    have hdiv : (32 * i + j) / 32 = i := by omega
    have hmod : (32 * i + j) % 32 = j := by omega
    rw [test, hdiv, hmod]
  constructor
  · intro hfull j hj
    rw [hword j hj, hfull, show 0xffffffff#32 = BitVec.allOnes 32 from rfl, BitVec.getLsbD_allOnes]
    simpa using hj
  · intro hbits
    rw [show 0xffffffff#32 = BitVec.allOnes 32 from rfl]
    apply BitVec.eq_of_getLsbD_eq
    intro j hj
    rw [← hword j hj, hbits j hj, BitVec.getLsbD_allOnes]
    simpa using hj

/-! ### Runs of bits -/

/-- Every bit of a run is clear. -/
def ClearRun (m : WordMap) (first len : Nat) : Prop :=
  ∀ bit, first ≤ bit → bit < first + len → m.test bit = false

/-- Set the bits of a run, one after the other. -/
def setRun (m : WordMap) (first : Nat) : Nat → WordMap
  | 0 => m
  | len + 1 => setRun (m.set first) (first + 1) len

/-- Clear the bits of a run, one after the other. -/
def unsetRun (m : WordMap) (first : Nat) : Nat → WordMap
  | 0 => m
  | len + 1 => unsetRun (m.unset first) (first + 1) len

theorem test_setRun (m : WordMap) (first len bit : Nat) :
    (m.setRun first len).test bit = (decide (first ≤ bit ∧ bit < first + len) || m.test bit) := by
  induction len generalizing m first with
  | zero => simp [setRun]
  | succ len ih =>
    rw [setRun, ih, test_set, ← Bool.or_assoc, ← Bool.decide_or]
    congr 2
    apply propext
    omega

theorem test_unsetRun (m : WordMap) (first len bit : Nat) :
    (m.unsetRun first len).test bit = (!decide (first ≤ bit ∧ bit < first + len) && m.test bit) := by
  induction len generalizing m first with
  | zero =>
    have hempty : decide (first ≤ bit ∧ bit < first + 0) = false := decide_eq_false (by omega)
    rw [unsetRun, hempty, Bool.not_false, Bool.true_and]
  | succ len ih =>
    rw [unsetRun, ih, test_unset, ← Bool.and_assoc, ← Bool.not_or, ← Bool.decide_or]
    congr 3
    apply propext
    omega

/-! ### How many bits are set -/

/-- The number of set bits below a bound. -/
def ones (m : WordMap) (bound : Nat) : Nat := ((Finset.range bound).filter (m.test · = true)).card

theorem ones_le (m : WordMap) (bound : Nat) : m.ones bound ≤ bound := by
  have h := Finset.card_filter_le (Finset.range bound) (m.test · = true)
  rwa [Finset.card_range] at h

theorem ones_congr {m m' : WordMap} {bound : Nat} (h : ∀ bit < bound, m.test bit = m'.test bit) :
    m.ones bound = m'.ones bound := by
  unfold ones
  congr 1
  apply Finset.filter_congr
  intro bit hbit
  rw [h bit (Finset.mem_range.mp hbit)]

theorem ones_set (m : WordMap) {bit bound : Nat} (hbit : bit < bound) (hclear : m.test bit = false) :
    (m.set bit).ones bound = m.ones bound + 1 := by
  have hset : (Finset.range bound).filter ((m.set bit).test · = true)
      = insert bit ((Finset.range bound).filter (m.test · = true)) := by
    ext other
    simp only [Finset.mem_filter, Finset.mem_insert, Finset.mem_range, test_set, Bool.or_eq_true,
      decide_eq_true_eq]
    constructor
    · rintro ⟨hlt, rfl | htest⟩
      · exact Or.inl rfl
      · exact Or.inr ⟨hlt, htest⟩
    · rintro (rfl | ⟨hlt, htest⟩)
      · exact ⟨hbit, Or.inl rfl⟩
      · exact ⟨hlt, Or.inr htest⟩
  unfold ones
  rw [hset, Finset.card_insert_of_notMem]
  simp [hclear]

theorem ones_unset (m : WordMap) {bit bound : Nat} (hbit : bit < bound) (hset : m.test bit = true) :
    (m.unset bit).ones bound + 1 = m.ones bound := by
  have hclear : (m.unset bit).test bit = false := by simp [test_unset]
  rw [← ones_set (m.unset bit) hbit hclear]
  apply ones_congr
  intro other _
  by_cases heq : bit = other
  · rw [← heq, hset, test_set_self]
  · rw [test_set_of_ne _ heq, test_unset_of_ne _ heq]

theorem ones_setRun (m : WordMap) {first len bound : Nat} (hbound : first + len ≤ bound)
    (hclear : m.ClearRun first len) : (m.setRun first len).ones bound = m.ones bound + len := by
  induction len generalizing m first with
  | zero => rfl
  | succ len ih =>
    have hfirst : m.test first = false := hclear first le_rfl (by omega)
    have hrest : (m.set first).ClearRun (first + 1) len := by
      intro bit hlo hhi
      rw [test_set_of_ne _ (by omega)]
      exact hclear bit (by omega) (by omega)
    rw [setRun, ih (m.set first) (by omega) hrest, ones_set m (by omega) hfirst]
    omega

theorem ones_unsetRun (m : WordMap) {first len bound : Nat} (hbound : first + len ≤ bound)
    (hset : ∀ bit, first ≤ bit → bit < first + len → m.test bit = true) :
    (m.unsetRun first len).ones bound + len = m.ones bound := by
  induction len generalizing m first with
  | zero => rfl
  | succ len ih =>
    have hfirst : m.test first = true := hset first le_rfl (by omega)
    have hrest : ∀ bit, first + 1 ≤ bit → bit < first + 1 + len → (m.unset first).test bit = true := by
      intro bit hlo hhi
      rw [test_unset_of_ne _ (by omega)]
      exact hset bit (by omega) (by omega)
    have hones := ones_unset m (show first < bound by omega) hfirst
    have hih := ih (m.unset first) (by omega) hrest
    rw [unsetRun]
    omega

theorem ones_eq_of_all (m : WordMap) {bound : Nat} (h : ∀ bit < bound, m.test bit = true) :
    m.ones bound = bound := by
  unfold ones
  rw [Finset.filter_true_of_mem (fun bit hbit => h bit (Finset.mem_range.mp hbit)), Finset.card_range]

theorem ones_lt_of_clear (m : WordMap) {bit bound : Nat} (hbit : bit < bound)
    (hclear : m.test bit = false) : m.ones bound < bound := by
  have h := ones_set m hbit hclear
  have hle := ones_le (m.set bit) bound
  omega

/-! ### The search for a clear bit -/

/-- The first clear bit of one word. A full word is skipped without looking at its bits. -/
def wordClear (m : WordMap) (i : Nat) : Option Nat :=
  if m i ≠ 0xffffffff#32 then
    ((List.range 32).find? fun j => !(m i).getLsbD j).map fun j => 32 * i + j
  else none

/-- The first clear bit of the first `words` words. -/
def firstClear (m : WordMap) (words : Nat) : Option Nat :=
  (List.range words).findSome? m.wordClear

theorem find_range_eq_some {p : Nat → Bool} {n j : Nat} (h : (List.range n).find? p = some j) :
    j < n ∧ p j = true ∧ ∀ k < j, p k = false := by
  have hpj := List.find?_some h
  have hmem := List.mem_range.mp (List.mem_of_find?_eq_some h)
  refine ⟨hmem, hpj, fun k hk => ?_⟩
  rw [List.find?_eq_some_iff_getElem] at h
  obtain ⟨_, i, hi, hget, hbefore⟩ := h
  simp only [List.getElem_range] at hget hbefore
  subst hget
  simpa using hbefore k hk

theorem test_eq_getLsbD (m : WordMap) {i j : Nat} (hj : j < 32) :
    m.test (32 * i + j) = (m i).getLsbD j := by
  have hdiv : (32 * i + j) / 32 = i := by omega
  have hmod : (32 * i + j) % 32 = j := by omega
  rw [test, hdiv, hmod]

/-- The search of one word finds its first clear bit, or the word is full. -/
theorem wordClear_spec (m : WordMap) (i : Nat) :
    match m.wordClear i with
    | some bit => 32 * i ≤ bit ∧ bit < 32 * i + 32 ∧ m.test bit = false ∧
        ∀ other, 32 * i ≤ other → other < bit → m.test other = true
    | none => ∀ bit, 32 * i ≤ bit → bit < 32 * i + 32 → m.test bit = true := by
  unfold wordClear
  by_cases hfull : m i = 0xffffffff#32
  · rw [if_neg (by simpa using hfull)]
    intro bit hlo hhi
    have hbit := (word_full_iff m i).mp hfull (bit - 32 * i) (by omega)
    rwa [show 32 * i + (bit - 32 * i) = bit by omega] at hbit
  · rw [if_pos hfull]
    rcases hfind : (List.range 32).find? fun j => !(m i).getLsbD j with _ | j
    · refine absurd ((word_full_iff m i).mpr fun j hj => ?_) hfull
      have hnone := List.find?_eq_none.mp hfind j (List.mem_range.mpr hj)
      rw [test_eq_getLsbD m hj]
      simpa using hnone
    · obtain ⟨hj, hclear, hbefore⟩ := find_range_eq_some hfind
      simp only [Option.map_some]
      refine ⟨by omega, by omega, ?_, fun other hlo hhi => ?_⟩
      · rw [test_eq_getLsbD m hj]
        simpa using hclear
      · have hk := hbefore (other - 32 * i) (by omega)
        rw [← test_eq_getLsbD m (by omega), show 32 * i + (other - 32 * i) = other by omega] at hk
        simpa using hk

theorem firstClear_succ (m : WordMap) (words : Nat) :
    m.firstClear (words + 1) = (m.firstClear words).or (m.wordClear words) := by
  unfold firstClear
  rw [List.range_succ, List.findSome?_append]
  simp

/-- The search returns the least clear bit of the searched words, and nothing only when all are set. -/
theorem firstClear_spec (m : WordMap) (words : Nat) :
    match m.firstClear words with
    | some bit => bit < 32 * words ∧ m.test bit = false ∧ ∀ other < bit, m.test other = true
    | none => ∀ bit < 32 * words, m.test bit = true := by
  induction words with
  | zero =>
    intro bit hbit
    omega
  | succ words ih =>
    rw [firstClear_succ]
    cases hprev : m.firstClear words with
    | some bit =>
      rw [hprev] at ih
      exact ⟨by have := ih.1; omega, ih.2⟩
    | none =>
      rw [hprev] at ih
      have hword := wordClear_spec m words
      cases hnew : m.wordClear words with
      | some bit =>
        rw [hnew] at hword
        obtain ⟨hlo, hhi, hclear, hbefore⟩ := hword
        refine ⟨by omega, hclear, fun other hother => ?_⟩
        by_cases hlow : other < 32 * words
        · exact ih other hlow
        · exact hbefore other (by omega) hother
      | none =>
        rw [hnew] at hword
        intro bit hbit
        by_cases hlow : bit < 32 * words
        · exact ih bit hlow
        · exact hword bit (by omega) (by omega)

theorem firstClear_eq_some {m : WordMap} {words bit : Nat} (h : m.firstClear words = some bit) :
    bit < 32 * words ∧ m.test bit = false ∧ ∀ other < bit, m.test other = true := by
  have hspec := firstClear_spec m words
  rwa [h] at hspec

theorem firstClear_eq_none {m : WordMap} {words : Nat} (h : m.firstClear words = none) :
    ∀ bit < 32 * words, m.test bit = true := by
  have hspec := firstClear_spec m words
  rwa [h] at hspec

theorem firstClear_of_clear {m : WordMap} {words bit : Nat} (hbit : bit < 32 * words)
    (hclear : m.test bit = false) : ∃ found ≤ bit, m.firstClear words = some found := by
  rcases hfind : m.firstClear words with _ | found
  · have htest := firstClear_eq_none hfind bit hbit
    rw [htest] at hclear
    exact Bool.noConfusion hclear
  · refine ⟨found, ?_, rfl⟩
    by_contra hlt
    have htest := (firstClear_eq_some hfind).2.2 bit (by omega)
    rw [htest] at hclear
    exact Bool.noConfusion hclear

/-- A bit map is its bits. -/
theorem ext_test {m m' : WordMap} (h : ∀ bit, m.test bit = m'.test bit) : m = m' := by
  funext i
  apply BitVec.eq_of_getLsbD_eq
  intro j hj
  rw [← test_eq_getLsbD m hj, ← test_eq_getLsbD m' hj]
  exact h (32 * i + j)

/-- A run that was set can be cleared again. -/
theorem unsetRun_setRun {m : WordMap} {first len : Nat} (hclear : m.ClearRun first len) :
    (m.setRun first len).unsetRun first len = m := by
  apply ext_test
  intro bit
  rw [test_unsetRun, test_setRun]
  by_cases hin : first ≤ bit ∧ bit < first + len
  · rw [hclear bit hin.1 hin.2, decide_eq_true hin]
    rfl
  · rw [decide_eq_false hin]
    rfl

/-- Two runs that were set can be cleared again in the order they were set. -/
theorem unsetRun_setRun_two {m : WordMap} {first len other len' : Nat} (hclear : m.ClearRun first len)
    (hclear' : (m.setRun first len).ClearRun other len') :
    (((m.setRun first len).setRun other len').unsetRun first len).unsetRun other len' = m := by
  apply ext_test
  intro bit
  rw [test_unsetRun, test_unsetRun, test_setRun, test_setRun]
  by_cases hin : first ≤ bit ∧ bit < first + len
  · rw [hclear bit hin.1 hin.2, decide_eq_true hin]
    simp
  · by_cases hother : other ≤ bit ∧ bit < other + len'
    · have htest := hclear' bit hother.1 hother.2
      rw [test_setRun, decide_eq_false hin, Bool.false_or] at htest
      rw [htest, decide_eq_true hother]
      simp
    · rw [decide_eq_false hin, decide_eq_false hother]
      rfl

/-! ### The search for a run of clear bits -/

/-- Where a search for a run stands: the length of the clear run that ends here, and where it began. -/
structure Scan where
  len : Nat
  first : Nat
  deriving DecidableEq, Repr

/-- Look at one bit. The search leaves with the first index as soon as the run is as long as wanted. -/
def scanBit (want : Int) (bit : Nat) (occupied : Bool) (s : Scan) : Except Nat Scan :=
  let s' : Scan :=
    if !occupied then ⟨s.len + 1, if s.len = 0 then bit else s.first⟩ else ⟨0, s.first⟩
  if (s'.len : Int) = want then .error s'.first else .ok s'

/-- Look at one word. A full word ends the run without a look at its bits. -/
def scanWord (m : WordMap) (want : Int) (s : Scan) (i : Nat) : Except Nat Scan :=
  if m i ≠ 0xffffffff#32 then
    (List.range 32).foldlM (fun s j => scanBit want (32 * i + j) ((m i).getLsbD j) s) s
  else .ok ⟨0, s.first⟩

/-- The first index of the first run of `want` clear bits in the first `words` words. -/
def firstClearRun (m : WordMap) (words : Nat) (want : Int) : Option Nat :=
  match (List.range words).foldlM (m.scanWord want) ⟨0, 0⟩ with
  | .error first => some first
  | .ok _ => none

/-- No run of `want` clear bits ends at or below a bound. -/
def NoRunBelow (m : WordMap) (want bound : Nat) : Prop :=
  ∀ first, first + want ≤ bound → ¬ m.ClearRun first want

/-- The state of a search that has looked at every bit below `bound`: the clear run that ends there is
maximal and still too short, and no earlier run was long enough. -/
structure ScanInv (m : WordMap) (want bound : Nat) (s : Scan) : Prop where
  len_le : s.len ≤ bound
  len_lt : s.len < want
  clear : m.ClearRun (bound - s.len) s.len
  maximal : s.len < bound → m.test (bound - s.len - 1) = true
  first : 0 < s.len → s.first = bound - s.len
  noRun : m.NoRunBelow want bound

/-- What a search that leaves with `first` has found: the least run of `want` clear bits. -/
def LeastRun (m : WordMap) (want bound first : Nat) : Prop :=
  first + want ≤ bound ∧ m.ClearRun first want ∧ ∀ other < first, ¬ m.ClearRun other want

theorem NoRunBelow.succ {m : WordMap} {want bound : Nat} (h : m.NoRunBelow want bound)
    (hnew : ∀ first, first + want = bound + 1 → ¬ m.ClearRun first want) :
    m.NoRunBelow want (bound + 1) := by
  intro first hle
  rcases Nat.lt_or_ge bound (first + want) with hlt | hge
  · exact hnew first (by omega)
  · exact h first hge

theorem scanBit_spec {m : WordMap} {want bound : Nat} {s : Scan} (hwant : 0 < want)
    (hinv : m.ScanInv want bound s) :
    match scanBit want bound (m.test bound) s with
    | .error first => m.LeastRun want (bound + 1) first
    | .ok s' => m.ScanInv want (bound + 1) s' := by
  obtain ⟨hle, hlt, hclear, hmax, hfirst, hnone⟩ := hinv
  unfold scanBit
  cases htest : m.test bound with
  | true =>
    -- a set bit ends the run, and a run that ends here would contain it
    have hne : ((0 : Nat) : Int) ≠ (want : Int) := by omega
    simp only [Bool.not_true, Bool.false_eq_true, if_false, if_neg hne]
    refine ⟨Nat.zero_le _, hwant, fun bit hlo hhi => ?_, fun _ => by simpa using htest, ?_, ?_⟩
    · simp only at hlo hhi
      omega
    · intro hlen
      exact absurd hlen (lt_irrefl 0)
    refine hnone.succ fun first hend hrun => ?_
    have hclear' := hrun bound (by omega) (by omega)
    rw [htest] at hclear'
    exact Bool.noConfusion hclear'
  | false =>
    simp only [Bool.not_false, if_true]
    have hstart : (if s.len = 0 then bound else s.first) = bound - s.len := by
      split
      · omega
      · exact hfirst (by omega)
    have hclear' : m.ClearRun (bound - s.len) (s.len + 1) := by
      intro bit hlo hhi
      rcases Nat.lt_or_ge bit bound with hbit | hbit
      · exact hclear bit hlo (by omega)
      · rwa [show bit = bound by omega]
    by_cases hfull : s.len + 1 = want
    · rw [if_pos (by omega)]
      simp only [hstart]
      refine ⟨by omega, by rwa [← hfull], fun other hother hrun => ?_⟩
      exact hnone other (by omega) hrun
    · rw [if_neg (by omega)]
      have hshift : bound + 1 - (s.len + 1) = bound - s.len := by omega
      refine ⟨by simp only; omega, by simp only; omega, ?_, ?_, ?_, ?_⟩
      · simpa only [hshift] using hclear'
      · intro hlen
        simpa only [hshift] using hmax (by simp only at hlen; omega)
      · intro _
        simp only [hstart, hshift]
      · refine hnone.succ fun first hend hrun => ?_
        -- the run would contain the set bit that precedes the maximal one
        have hset := hmax (by omega)
        have hclear'' := hrun (bound - s.len - 1) (by omega) (by omega)
        rw [hset] at hclear''
        exact Bool.noConfusion hclear''

theorem foldlM_range_succ {ε σ : Type} (f : σ → Nat → Except ε σ) (s : σ) (n : Nat) :
    (List.range (n + 1)).foldlM f s = (List.range n).foldlM f s >>= fun s' => f s' n := by
  simp [List.range_succ, List.foldlM_append]

theorem LeastRun.mono {m : WordMap} {want bound bound' first : Nat} (hle : bound ≤ bound')
    (h : m.LeastRun want bound first) : m.LeastRun want bound' first :=
  ⟨h.1.trans hle, h.2⟩

theorem scanBits_spec {m : WordMap} {want i : Nat} {s : Scan} (hwant : 0 < want)
    (hinv : m.ScanInv want (32 * i) s) {n : Nat} (hn : n ≤ 32) :
    match (List.range n).foldlM
      (fun s j => scanBit want (32 * i + j) ((m i).getLsbD j) s) s with
    | .error first => m.LeastRun want (32 * i + n) first
    | .ok s' => m.ScanInv want (32 * i + n) s' := by
  induction n with
  | zero => exact hinv
  | succ n ih =>
    have ih := ih (by omega)
    rw [foldlM_range_succ]
    rcases hprev : (List.range n).foldlM
      (fun s j => scanBit want (32 * i + j) ((m i).getLsbD j) s) s with first | s'
    · rw [hprev] at ih
      exact LeastRun.mono (by omega) ih
    · rw [hprev] at ih
      have hbit := scanBit_spec hwant ih
      rwa [test_eq_getLsbD m (show n < 32 by omega)] at hbit

theorem scanWord_spec {m : WordMap} {want i : Nat} {s : Scan} (hwant : 0 < want)
    (hinv : m.ScanInv want (32 * i) s) :
    match m.scanWord want s i with
    | .error first => m.LeastRun want (32 * (i + 1)) first
    | .ok s' => m.ScanInv want (32 * (i + 1)) s' := by
  unfold scanWord
  by_cases hfull : m i = 0xffffffff#32
  · rw [if_neg (by simpa using hfull)]
    have hset : ∀ bit, 32 * i ≤ bit → bit < 32 * (i + 1) → m.test bit = true := by
      intro bit hlo hhi
      have hbit := (word_full_iff m i).mp hfull (bit - 32 * i) (by omega)
      rwa [show 32 * i + (bit - 32 * i) = bit by omega] at hbit
    refine ⟨by simp only; omega, hwant, fun bit _ _ => by simp only at *; omega,
      fun _ => hset _ (by simp only; omega) (by simp only; omega), fun h => by simp only at h; omega, ?_⟩
    intro first hend hrun
    by_cases hlow : first + want ≤ 32 * i
    · exact hinv.noRun first hlow hrun
    · have hclear := hrun (first + want - 1) (by omega) (by omega)
      rw [hset _ (by omega) (by omega)] at hclear
      exact Bool.noConfusion hclear
  · rw [if_pos hfull]
    exact scanBits_spec hwant hinv le_rfl

theorem scanWords_spec (m : WordMap) {want : Nat} (hwant : 0 < want) (words : Nat) :
    match (List.range words).foldlM (m.scanWord want) ⟨0, 0⟩ with
    | .error first => m.LeastRun want (32 * words) first
    | .ok s => m.ScanInv want (32 * words) s := by
  induction words with
  | zero =>
    refine ⟨le_rfl, hwant, fun bit _ _ => by simp only at *; omega, fun h => absurd h (by simp),
      fun h => absurd h (by simp), fun first hend => by omega⟩
  | succ words ih =>
    rw [foldlM_range_succ]
    rcases hprev : (List.range words).foldlM (m.scanWord want) ⟨0, 0⟩ with first | s
    · rw [hprev] at ih
      exact LeastRun.mono (by omega) ih
    · rw [hprev] at ih
      exact scanWord_spec hwant ih

/-- The search returns the least run, and nothing only when the searched words hold no run. -/
theorem firstClearRun_spec (m : WordMap) (words : Nat) {want : Nat} (hwant : 0 < want) :
    match m.firstClearRun words want with
    | some first => m.LeastRun want (32 * words) first
    | none => m.NoRunBelow want (32 * words) := by
  have hspec := scanWords_spec m hwant words
  unfold firstClearRun
  rcases hfold : (List.range words).foldlM (m.scanWord want) ⟨0, 0⟩ with first | s
  · rw [hfold] at hspec
    exact hspec
  · rw [hfold] at hspec
    exact hspec.noRun

theorem firstClearRun_eq_some {m : WordMap} {words want first : Nat} (hwant : 0 < want)
    (h : m.firstClearRun words want = some first) : m.LeastRun want (32 * words) first := by
  have hspec := firstClearRun_spec m words hwant
  rwa [h] at hspec

theorem firstClearRun_eq_none {m : WordMap} {words want : Nat} (hwant : 0 < want)
    (h : m.firstClearRun words want = none) : m.NoRunBelow want (32 * words) := by
  have hspec := firstClearRun_spec m words hwant
  rwa [h] at hspec

/-- What a search for a run returns: the least run, or nothing when there is none. -/
structure FindsLeast (m : WordMap) (want bound : Nat) (result : Option Nat) : Prop where
  some_iff (first : Nat) : result = some first ↔ m.LeastRun want bound first
  none_iff : result = none ↔ ∀ first, first + want ≤ bound → ¬ m.ClearRun first want

theorem LeastRun.unique {m : WordMap} {want bound first other : Nat} (h : m.LeastRun want bound first)
    (h' : m.LeastRun want bound other) : first = other := by
  obtain hlt | heq | hgt := Nat.lt_trichotomy first other
  · exact absurd h.2.1 (h'.2.2 first hlt)
  · exact heq
  · exact absurd h'.2.1 (h.2.2 other hgt)

theorem firstClearRun_findsLeast (m : WordMap) (words : Nat) {want : Nat} (hwant : 0 < want) :
    m.FindsLeast want (32 * words) (m.firstClearRun words want) := by
  cases hfind : m.firstClearRun words want with
  | none =>
    have hnone := firstClearRun_eq_none hwant hfind
    refine ⟨fun first => iff_of_false (by simp) fun hleast => hnone first hleast.1 hleast.2.1, ?_⟩
    exact iff_of_true rfl hnone
  | some found =>
    have hleast := firstClearRun_eq_some hwant hfind
    refine ⟨fun first => ⟨fun heq => Option.some.inj heq ▸ hleast, fun h => congrArg some (hleast.unique h)⟩, ?_⟩
    exact iff_of_false (by simp) fun hnone => hnone found hleast.1 hleast.2.1

/-! ### Searches for at most one bit -/

theorem firstClearRun_one_eq_none_iff (m : WordMap) (words : Nat) :
    m.firstClearRun words 1 = none ↔ ∀ i < words, m i = 0xffffffff#32 := by
  have hspec := firstClearRun_spec m words Nat.one_pos
  rw [show ((1 : Nat) : Int) = 1 from rfl] at hspec
  constructor
  · intro hnone i hi
    rw [hnone] at hspec
    rw [word_full_iff]
    intro j hj
    by_contra hclear
    refine hspec (32 * i + j) (by omega) fun bit hlo hhi => ?_
    rw [show bit = 32 * i + j by omega]
    exact Bool.eq_false_iff.mpr hclear
  · intro hfull
    cases hfind : m.firstClearRun words 1 with
    | none => rfl
    | some first =>
      rw [hfind] at hspec
      have hfits : first + 1 ≤ 32 * words := hspec.1
      have hclear : m.test first = false := hspec.2.1 first (Nat.le_refl _) (Nat.lt_succ_self _)
      have hset := (word_full_iff m (first / 32)).mp (hfull (first / 32) (by omega)) (first % 32) (by omega)
      rw [Nat.div_add_mod, hclear] at hset
      cases hset

/-- A search for no bits leaves at the first set bit that it looks at. -/
theorem scanBit_zero (bit : Nat) (occupied : Bool) (s : Scan) :
    scanBit 0 bit occupied s =
      if occupied then .error s.first else .ok ⟨s.len + 1, if s.len = 0 then bit else s.first⟩ := by
  cases occupied with
  | true => rfl
  | false =>
    rw [scanBit]
    exact if_neg (show ((s.len + 1 : Nat) : Int) ≠ 0 by omega)

theorem scanBits_zero {m : WordMap} {i n : Nat} {s : Scan} (hs : s.first ≤ 32 * i) :
    match (List.range n).foldlM (fun s j => scanBit 0 (32 * i + j) ((m i).getLsbD j) s) s with
    | .error first => first < 32 * i + n ∧ m i ≠ 0#32
    | .ok s' => s'.first ≤ 32 * i + n ∧ ∀ j < n, (m i).getLsbD j = false := by
  induction n with
  | zero => exact ⟨hs, fun j hj => by omega⟩
  | succ n ih =>
    rw [foldlM_range_succ]
    cases hprev : (List.range n).foldlM (fun s j => scanBit 0 (32 * i + j) ((m i).getLsbD j) s) s with
    | error first =>
      rw [hprev] at ih
      exact ⟨Nat.lt_succ_of_lt ih.1, ih.2⟩
    | ok s' =>
      rw [hprev] at ih
      obtain ⟨hfirst, hclear⟩ := ih
      show match scanBit 0 (32 * i + n) ((m i).getLsbD n) s' with
        | .error first => first < 32 * i + (n + 1) ∧ m i ≠ 0#32
        | .ok s' => s'.first ≤ 32 * i + (n + 1) ∧ ∀ j < n + 1, (m i).getLsbD j = false
      rw [scanBit_zero]
      cases hbit : (m i).getLsbD n with
      | true =>
        refine ⟨Nat.lt_succ_of_le hfirst, fun hzero => ?_⟩
        rw [hzero, BitVec.getLsbD_zero] at hbit
        cases hbit
      | false =>
        refine ⟨?_, fun j hj => ?_⟩
        · dsimp only
          split <;> omega
        · obtain hlt | rfl := Nat.lt_succ_iff_lt_or_eq.mp hj
          · exact hclear j hlt
          · exact hbit

theorem scanWord_zero {m : WordMap} {i : Nat} {s : Scan} (hs : s.first ≤ 32 * i) :
    match m.scanWord 0 s i with
    | .error first => first < 32 * (i + 1) ∧ m i ≠ 0xffffffff#32 ∧ m i ≠ 0#32
    | .ok s' => s'.first ≤ 32 * (i + 1) ∧ (m i = 0xffffffff#32 ∨ m i = 0#32) := by
  unfold scanWord
  by_cases hfull : m i = 0xffffffff#32
  · rw [if_neg (not_not_intro hfull)]
    exact ⟨Nat.le_trans hs (by omega), .inl hfull⟩
  · rw [if_pos hfull]
    have hbits := scanBits_zero (m := m) (n := 32) hs
    cases hscan : (List.range 32).foldlM (fun s j => scanBit 0 (32 * i + j) ((m i).getLsbD j) s) s with
    | error first =>
      rw [hscan] at hbits
      exact ⟨hbits.1, hfull, hbits.2⟩
    | ok s' =>
      rw [hscan] at hbits
      refine ⟨hbits.1, .inr (BitVec.eq_of_getLsbD_eq fun j hj => ?_)⟩
      rw [hbits.2 j hj, BitVec.getLsbD_zero]

/-- A search for no bits succeeds at the first word that is neither full nor empty. -/
theorem firstClearRun_zero_spec (m : WordMap) (words : Nat) :
    match m.firstClearRun words 0 with
    | some first => first < 32 * words ∧ ∃ i < words, m i ≠ 0xffffffff#32 ∧ m i ≠ 0#32
    | none => ∀ i < words, m i = 0xffffffff#32 ∨ m i = 0#32 := by
  have hscan : match (List.range words).foldlM (m.scanWord 0) ⟨0, 0⟩ with
      | .error first => first < 32 * words ∧ ∃ i < words, m i ≠ 0xffffffff#32 ∧ m i ≠ 0#32
      | .ok s => s.first ≤ 32 * words ∧ ∀ i < words, m i = 0xffffffff#32 ∨ m i = 0#32 := by
    induction words with
    | zero => exact ⟨Nat.le_refl _, fun i hi => by omega⟩
    | succ words ih =>
      rw [foldlM_range_succ]
      cases hprev : (List.range words).foldlM (m.scanWord 0) ⟨0, 0⟩ with
      | error first =>
        rw [hprev] at ih
        obtain ⟨hlt, i, hi, hword⟩ := ih
        exact ⟨by omega, i, Nat.lt_succ_of_lt hi, hword⟩
      | ok s =>
        rw [hprev] at ih
        obtain ⟨hfirst, hwords⟩ := ih
        have hword := scanWord_zero (m := m) hfirst
        show match m.scanWord 0 s words with
          | .error first => first < 32 * (words + 1) ∧ ∃ i < words + 1, m i ≠ 0xffffffff#32 ∧ m i ≠ 0#32
          | .ok s => s.first ≤ 32 * (words + 1) ∧ ∀ i < words + 1, m i = 0xffffffff#32 ∨ m i = 0#32
        cases hnext : m.scanWord 0 s words with
        | error first =>
          rw [hnext] at hword
          exact ⟨hword.1, words, Nat.lt_succ_self _, hword.2⟩
        | ok s' =>
          rw [hnext] at hword
          refine ⟨hword.1, fun i hi => ?_⟩
          obtain hlt | rfl := Nat.lt_succ_iff_lt_or_eq.mp hi
          · exact hwords i hlt
          · exact hword.2
  unfold firstClearRun
  cases hfold : (List.range words).foldlM (m.scanWord 0) ⟨0, 0⟩ with
  | error first =>
    rw [hfold] at hscan
    exact hscan
  | ok s =>
    rw [hfold] at hscan
    exact hscan.2

end WordMap
