import Akos.Utils.StringMemory
import Mathlib.Data.BitVec
import Mathlib.Data.Nat.Digits.Lemmas
import Mathlib.Tactic.Ring

/-!
# Numbers as strings

`int_to_str_padding` of `strings.c`, with what its callers rely on. A printer counts the digits in one loop and writes
them in another one, from the last to the first.
-/

namespace Akos

/-! ### The printers -/

/-- The loops over the digits of 32 bits have no more turns. -/
abbrev digitTurns : Nat := 32

/-- `do { n_of_digits++; temp_n /= base; } while (temp_n);` -/
def countDigits (base : Int) : Nat → Int → Option Nat
  | 0, _ => none
  | turns + 1, tempN =>
    let tempN := tempN.tdiv base
    if tempN = 0 then some 1 else (countDigits base turns tempN).map (· + 1)

/-- `do { .. digits[n%base] ..; n /= base; } while (n);`, the places of the table in the order they are read. -/
def digitIndices (base : Int) : Nat → Int → Option (List Int)
  | 0, _ => none
  | turns + 1, n =>
    let index := n.tmod base
    let n := n.tdiv base
    if n = 0 then some [index] else (digitIndices base turns n).map (index :: ·)

/-- `digits`, with what is in memory around it. -/
def digitTable (around : Int → Byte) (index : Int) : Byte :=
  if 0 ≤ index ∧ index < 16 then
    [0x30#8, 0x31#8, 0x32#8, 0x33#8, 0x34#8, 0x35#8, 0x36#8, 0x37#8, 0x38#8, 0x39#8, 0x41#8, 0x42#8, 0x43#8, 0x44#8,
      0x45#8, 0x46#8].getD index.toNat 0#8
  else around index

/-- What a printer writes, with the distances from the start of the buffer, and where it reads the table. -/
structure Printed where
  writes : List (Int × Byte)
  lookups : List Int

/-- The digits from the last one down, and the end of the string. -/
def writeDigits (around : Int → Byte) (nOfDigits : Int) (indices : List Int) : List (Int × Byte) :=
  indices.mapIdx (fun i index => (nOfDigits - 1 - i, digitTable around index)) ++ [(nOfDigits, 0#8)]

def intToStrPadding (around : Int → Byte) (n base padding : BitVec 32) : Option Printed := do
  let neg := n.toInt < 0
  let n := if neg then -n else n
  let count ← countDigits base.toInt digitTurns n.toInt
  let nOfDigits := BitVec.ofNat 32 (count + if neg then 1 else 0)
  let sign : List (Int × Byte) := if neg then [(0, 0x2D#8)] else []
  -- the loop is over when nothing of the padding is left
  let padding := (padding - nOfDigits).toInt.toNat
  let zeros := (List.range padding).map fun k : Nat => ((if neg then 1 else 0) + (k : Int), 0x30#8)
  let nOfDigits := nOfDigits + BitVec.ofNat 32 padding
  let indices ← digitIndices base.toInt digitTurns n.toInt
  some ⟨sign ++ zeros ++ writeDigits around nOfDigits.toInt indices, indices⟩

def intToStr (around : Int → Byte) (n base : BitVec 32) : Option Printed := intToStrPadding around n base 0#32

variable {buffer : Int → Byte} {b m n turns : Nat}

/-! ### Numerals -/

/-- The digits of a number, the last one first, and one digit for 0. -/
def numeralDigits (b m : Nat) : List Nat := if m = 0 then [0] else Nat.digits b m

def digitChar (d : Nat) : Byte := if d < 10 then 0x30#8 + BitVec.ofNat 8 d else 0x37#8 + BitVec.ofNat 8 d

def signChars (n : Int) : List Byte := if n < 0 then [0x2D#8] else []

/-- The numeral of an integer, with zeros behind the sign up to a length. -/
def paddedNumeral (n : Int) (b : Nat) (padding : Int) : List Byte :=
  let digits := (numeralDigits b n.natAbs).reverse.map digitChar
  signChars n ++ List.replicate (padding - ((signChars n).length + digits.length)).toNat 0x30#8 ++ digits

def numeral (n : Int) (b : Nat) : List Byte := paddedNumeral n b 0

theorem numeralDigits_eq (hb : 2 ≤ b) (m : Nat) : numeralDigits b m = m % b :: Nat.digits b (m / b) := by
  rw [numeralDigits]
  split
  · next hzero =>
    subst hzero
    rw [Nat.zero_mod, Nat.zero_div, Nat.digits_zero]
  · next hne => exact Nat.digits_def' hb (Nat.pos_of_ne_zero hne)

theorem lt_of_mem_numeralDigits (hb : 2 ≤ b) {d : Nat} (h : d ∈ numeralDigits b m) : d < b := by
  rw [numeralDigits] at h
  split at h
  · rw [List.mem_singleton.mp h]
    omega
  · exact Nat.digits_lt_base hb h

theorem length_numeralDigits_le_iff (hb : 2 ≤ b) (hturns : 0 < turns) (m : Nat) :
    (numeralDigits b m).length ≤ turns ↔ m < b ^ turns := by
  rw [numeralDigits]
  split
  · next hzero => exact iff_of_true hturns (hzero ▸ Nat.pow_pos (by omega))
  · exact Nat.digits_length_le_iff hb m

theorem length_numeral (n : Int) (b : Nat) :
    (numeral n b).length = (signChars n).length + (numeralDigits b n.natAbs).length := by
  rw [numeral, paddedNumeral]
  simp only [List.length_append, List.length_replicate, List.length_map, List.length_reverse]
  omega

/-! ### The loops -/

/-- The second loop reads the digits. -/
theorem digitIndices_natCast (hb : 2 ≤ b) (hm : m < b ^ turns) (hturns : 0 < turns) :
    digitIndices b turns m = some ((numeralDigits b m).map Int.ofNat) := by
  induction turns generalizing m with
  | zero => exact absurd hturns (Nat.lt_irrefl 0)
  | succ turns ih =>
    rw [digitIndices, ← Int.ofNat_tdiv, ← Int.ofNat_tmod, numeralDigits_eq hb]
    by_cases hzero : m / b = 0
    · rw [hzero, Nat.digits_zero]
      rfl
    · have hrest : m / b < b ^ turns := by
        rw [Nat.div_lt_iff_lt_mul (by omega), ← Nat.pow_succ]
        exact hm
      have hpos : 0 < turns := by
        rw [Nat.pos_iff_ne_zero]
        rintro rfl
        exact hzero (Nat.lt_one_iff.mp hrest)
      have hdigits : numeralDigits b (m / b) = Nat.digits b (m / b) := if_neg hzero
      rw [if_neg (by omega), ih hrest hpos, hdigits]
      rfl

/-- The first loop counts what the second one reads. -/
theorem countDigits_eq (base : Int) (turns : Nat) (n : Int) :
    countDigits base turns n = (digitIndices base turns n).map List.length := by
  induction turns generalizing n with
  | zero => rfl
  | succ turns ih =>
    rw [countDigits, digitIndices]
    split
    · rfl
    · rw [ih, Option.map_map, Option.map_map]
      rfl

theorem countDigits_neg (base : Int) (turns : Nat) (n : Int) :
    countDigits base turns (-n) = countDigits base turns n := by
  induction turns generalizing n with
  | zero => rfl
  | succ turns ih =>
    rw [countDigits, countDigits, Int.neg_tdiv, ih]
    simp only [Int.neg_eq_zero]

theorem countDigits_natCast (hb : 2 ≤ b) (hm : m < b ^ turns) (hturns : 0 < turns) :
    countDigits b turns m = some (numeralDigits b m).length := by
  rw [countDigits_eq, digitIndices_natCast hb hm hturns, Option.map_some, List.length_map]

theorem digitTable_natCast (around : Int → Byte) {d : Nat} (hd : d < 16) :
    digitTable around (Int.ofNat d) = digitChar d := by
  have htable : ∀ d < 16, [0x30#8, 0x31#8, 0x32#8, 0x33#8, 0x34#8, 0x35#8, 0x36#8, 0x37#8, 0x38#8, 0x39#8, 0x41#8,
      0x42#8, 0x43#8, 0x44#8, 0x45#8, 0x46#8].getD d 0#8 = digitChar d := by decide
  rw [digitTable, Int.ofNat_eq_natCast, if_pos (by omega), Int.toNat_natCast]
  exact htable d hd

/-- The digits with the end of the string, in their places. -/
theorem put_writeDigits (buffer : Int → Byte) (around : Int → Byte) (hb : 2 ≤ b) (hb' : b ≤ 16) (m : Nat) (stop : Int) :
    Overlay.put buffer (writeDigits around stop ((numeralDigits b m).map Int.ofNat)) =
      putString buffer (stop - (numeralDigits b m).length) ((numeralDigits b m).reverse.map digitChar ++ [0#8]) := by
  have hchars : ((numeralDigits b m).map Int.ofNat).reverse.map (digitTable around) =
      (numeralDigits b m).reverse.map digitChar := by
    rw [← List.map_reverse, List.map_map]
    refine List.map_congr_left fun d hd => digitTable_natCast around ?_
    exact (lt_of_mem_numeralDigits hb (List.mem_reverse.mp hd)).trans_le hb'
  rw [writeDigits, Overlay.put_append, put_mapIdx, hchars, List.length_map, ← putString_append, putString_singleton,
    List.length_map, List.length_reverse]
  congr 3
  omega

/-! ### Integers -/

theorem toInt_ofNat_small {k : Nat} (hk : k < 2 ^ 31) : (BitVec.ofNat 32 k).toInt = k := by
  rw [BitVec.toInt_eq_toNat_cond, BitVec.toNat_ofNat]
  split <;> omega

theorem toInt_sub_small {v : BitVec 32} {k : Nat} (hk : k < 2 ^ 31) (h : -2 ^ 31 ≤ v.toInt - k) :
    (v - BitVec.ofNat 32 k).toInt = v.toInt - k := by
  have hlt := v.toInt_lt
  rw [BitVec.toInt_sub, toInt_ofNat_small hk]
  exact Int.bmod_eq_of_le (by omega) (by omega)

theorem toInt_abs {n : BitVec 32} (hn : n.toInt ≠ -2 ^ 31) :
    (if n.toInt < 0 then -n else n).toInt = n.toInt.natAbs := by
  have hmin : n ≠ BitVec.intMin 32 := fun heq => hn (heq ▸ rfl)
  split
  · rw [BitVec.toInt_neg_of_ne_intMin hmin]
    omega
  · omega

theorem length_signChars (n : Int) : (signChars n).length = if n < 0 then 1 else 0 := by
  rw [signChars]
  split <;> rfl

theorem put_sign (buffer : Int → Byte) (n : Int) :
    Overlay.put buffer (if n < 0 then [(0, 0x2D#8)] else []) = putString buffer 0 (signChars n) := by
  rw [signChars]
  split
  · rw [putString_singleton]
  · rw [putString_nil, Overlay.put_nil]

/-- What `int_to_str_padding` writes when neither the number nor the padding leaves its range. -/
theorem intToStrPadding_eq (around : Int → Byte) {n base padding : BitVec 32} (hbase : base.toInt = b) (hb : 2 ≤ b)
    (hb' : b ≤ 16) (hn : n.toInt ≠ -2 ^ 31) (hpadding : -2 ^ 31 + ((numeral n.toInt b).length : Int) ≤ padding.toInt) :
    ∃ writes, intToStrPadding around n base padding =
        some ⟨writes, (numeralDigits b n.toInt.natAbs).map Int.ofNat⟩ ∧
      ∀ buffer, Overlay.put buffer writes = putString buffer 0 (paddedNumeral n.toInt b padding.toInt ++ [0#8]) := by
  have habs : n.toInt.natAbs < b ^ digitTurns := by
    have hlt := n.toInt_lt
    have hle := n.le_toInt
    exact lt_of_lt_of_le (show n.toInt.natAbs < 2 ^ 32 by omega) (Nat.pow_le_pow_left hb 32)
  have hlength : (numeralDigits b n.toInt.natAbs).length ≤ 32 := (length_numeralDigits_le_iff hb (by decide) _).mpr habs
  rw [length_numeral] at hpadding
  rw [intToStrPadding]
  dsimp only
  rw [toInt_abs hn, hbase, countDigits_natCast hb habs (by decide), digitIndices_natCast hb habs (by decide)]
  dsimp only [Option.bind_eq_bind, Option.bind_some]
  refine ⟨_, rfl, fun buffer => ?_⟩
  have hsign := length_signChars n.toInt
  have hsign' : (if n.toInt < 0 then (1 : Int) else 0) = (signChars n.toInt).length := by
    rw [hsign]
    split <;> rfl
  have hone : (signChars n.toInt).length ≤ 1 := by
    rw [hsign]
    split <;> decide
  rw [← hsign, hsign']
  have hlt := padding.toInt_lt
  rw [toInt_sub_small (by omega) (by omega), ← BitVec.ofNat_add, toInt_ofNat_small (by omega)]
  rw [Overlay.put_append, Overlay.put_append, put_sign, put_range, put_writeDigits _ _ hb hb', paddedNumeral,
    List.length_map, List.length_reverse]
  generalize hd : (numeralDigits b n.toInt.natAbs).length = d at hpadding hlength ⊢
  have hzeros : (padding.toInt - ((d + (signChars n.toInt).length : Nat) : Int)).toNat
      = (padding.toInt - (((signChars n.toInt).length : Int) + (d : Int))).toNat := by
    omega
  rw [hzeros]
  generalize (padding.toInt - (((signChars n.toInt).length : Int) + (d : Int))).toNat = zeros
  -- the sign, the zeros and the digits follow each other
  have hstart : ((d + (signChars n.toInt).length + zeros : Nat) : Int) - d
      = 0 + (signChars n.toInt ++ List.replicate zeros 0x30#8).length := by
    rw [List.length_append, List.length_replicate]
    omega
  have hfirst := putString_append buffer 0 (signChars n.toInt) (List.replicate zeros 0x30#8)
  rw [zero_add] at hfirst
  rw [hfirst, hstart, putString_append]
  simp only [List.append_assoc]

/-- The digits of all 32 bits are counted right, also those of the number that has no negation. -/
theorem countDigits_toInt (hb : 2 ≤ b) (n : BitVec 32) :
    countDigits b digitTurns n.toInt = some (numeralDigits b n.toInt.natAbs).length := by
  have habs : n.toInt.natAbs < b ^ digitTurns := by
    have hlt := n.toInt_lt
    have hle := n.le_toInt
    exact lt_of_lt_of_le (show n.toInt.natAbs < 2 ^ 32 by omega) (Nat.pow_le_pow_left hb 32)
  have hcount := countDigits_natCast hb habs (by decide)
  obtain heq | heq := Int.natAbs_eq n.toInt
  · rw [heq, Int.natAbs_natCast]
    exact hcount
  · rw [heq, countDigits_neg, Int.natAbs_neg, Int.natAbs_natCast]
    exact hcount

theorem countDigits_abs (hb : 2 ≤ b) (n : BitVec 32) :
    countDigits b digitTurns (if n.toInt < 0 then -n else n).toInt
      = some (numeralDigits b n.toInt.natAbs).length := by
  have hsame : (if n.toInt < 0 then -n else n).toInt.natAbs = n.toInt.natAbs := by
    by_cases hn : n.toInt = -2 ^ 31
    · obtain rfl : n = 0x80000000#32 := BitVec.eq_of_toInt_eq hn
      rfl
    · rw [toInt_abs hn, Int.natAbs_natCast]
  rw [countDigits_toInt hb, hsame]

/-- The string that is written ends at the padding, also where the subtraction leaves its range. -/
theorem intToStrPadding_cases (around : Int → Byte) {n base : BitVec 32} (hbase : base.toInt = b) (hb : 2 ≤ b)
    (padding : BitVec 32) : ∃ writes indices,
    digitIndices b digitTurns (if n.toInt < 0 then -n else n).toInt = some indices ∧
    intToStrPadding around n base padding = some ⟨writes ++ writeDigits around (BitVec.ofNat 32 (numeral n.toInt b).length +
      BitVec.ofNat 32 (padding - BitVec.ofNat 32 (numeral n.toInt b).length).toInt.toNat).toInt indices, indices⟩ := by
  have hcount := countDigits_abs hb n
  have hindices := hcount
  rw [countDigits_eq] at hindices
  obtain ⟨indices, hread, -⟩ := Option.map_eq_some_iff.mp hindices
  rw [intToStrPadding]
  dsimp only
  rw [hbase, hcount, hread]
  dsimp only [Option.bind_eq_bind, Option.bind_some]
  rw [length_numeral, length_signChars, Nat.add_comm (if n.toInt < 0 then 1 else 0)]
  exact ⟨_, indices, rfl, rfl⟩

theorem put_writeDigits_last (buffer : Int → Byte) (around : Int → Byte) (writes : List (Int × Byte)) (stop : Int)
    (indices : List Int) : Overlay.put buffer (writes ++ writeDigits around stop indices) stop = 0#8 := by
  rw [writeDigits, ← List.append_assoc, Overlay.put_append, ← putString_singleton]
  simp [putString]

/-- The printer writes the padded numeral and its end and nothing else, and reads the table inside, whatever is around
that. -/
def PrintsInt (n base padding : BitVec 32) : Prop :=
  ∀ around, ∃ out, intToStrPadding around n base padding = some out ∧ (∀ i ∈ out.lookups, 0 ≤ i ∧ i < 16) ∧
    ∀ buffer, Overlay.put buffer out.writes =
      putString buffer 0 (paddedNumeral n.toInt base.toNat padding.toInt ++ [0#8])

/-- `buff` of `gfx_vprintf` and `sprintf` holds all that is written to it. -/
def FitsBuffer (n base : BitVec 32) : Prop :=
  ∀ around, ∃ out, intToStr around n base = some out ∧ ∀ w ∈ out.writes, 0 ≤ w.1 ∧ w.1 < 30

/-- The calls without padding write from the sign up to the end of the string. -/
theorem intToStr_cases (around : Int → Byte) {n base : BitVec 32} (hbase : base.toInt = b) (hb : 2 ≤ b) :
    ∃ out, intToStr around n base = some out ∧
      ((∀ w ∈ out.writes, 0 ≤ w.1 ∧ w.1 < 30) ↔ (numeral n.toInt b).length < 30) := by
  have hcount := countDigits_abs hb n
  have hindices := hcount
  rw [countDigits_eq] at hindices
  obtain ⟨indices, hread, hlength⟩ := Option.map_eq_some_iff.mp hindices
  have hsign := length_signChars n.toInt
  have hlt := n.toInt_lt
  have hle := n.le_toInt
  have hbound : (numeralDigits b n.toInt.natAbs).length ≤ 32 :=
    (length_numeralDigits_le_iff hb (by decide) _).mpr
      ((show n.toInt.natAbs < 2 ^ 32 by omega).trans_le (Nat.pow_le_pow_left hb 32))
  have hone : (signChars n.toInt).length ≤ 1 := by
    rw [hsign]
    split <;> decide
  rw [intToStr, intToStrPadding]
  dsimp only
  rw [hbase, hcount, hread]
  dsimp only [Option.bind_eq_bind, Option.bind_some]
  refine ⟨_, rfl, ?_⟩
  rw [← hsign, toInt_sub_small (by omega) (by rw [BitVec.toInt_zero]; omega), BitVec.toInt_zero,
    show (0 - (((numeralDigits b n.toInt.natAbs).length + (signChars n.toInt).length : Nat) : Int)).toNat = 0 by omega,
    List.range_zero, List.map_nil, List.append_nil, BitVec.add_zero, toInt_ofNat_small (by omega), length_numeral]
  constructor
  · intro h
    have hend := (h (_, 0#8) (List.mem_append_right _ List.mem_concat_self)).2
    dsimp only at hend
    omega
  · intro hfits w hw
    obtain hw | hw := List.mem_append.mp hw
    · split at hw
      · rw [List.mem_singleton.mp hw]
        decide
      · cases hw
    · rw [writeDigits] at hw
      obtain hw | hw := List.mem_append.mp hw
      · obtain ⟨i, hi, rfl⟩ := List.mem_mapIdx.mp hw
        dsimp only
        omega
      · rw [List.mem_singleton.mp hw]
        dsimp only
        omega

/-- The number without a negation is divided down with its sign, and the remainders are no places of the table. -/
theorem not_printsInt_intMin {base : BitVec 32} (hbase : base = 2#32 ∨ base = 10#32 ∨ base = 16#32)
    (padding : BitVec 32) : ¬ PrintsInt 0x80000000#32 base padding := by
  intro h
  obtain ⟨out, hout, hlookups, -⟩ := h fun _ => 0#8
  have houtside : ∃ indices, digitIndices base.toNat digitTurns (0x80000000#32).toInt = some indices ∧
      ∃ i ∈ indices, i < 0 := by
    obtain rfl | rfl | rfl := hbase <;> exact ⟨_, rfl, by decide +kernel⟩
  obtain ⟨indices, hread, i, hi, hneg⟩ := houtside
  have hcases : base.toInt = base.toNat ∧ 2 ≤ base.toNat := by
    obtain rfl | rfl | rfl := hbase <;> decide
  obtain ⟨writes, indices', hread', hout'⟩ :=
    intToStrPadding_cases (n := 0x80000000#32) (fun _ => 0#8) hcases.1 hcases.2 padding
  have hsame : indices' = indices := Option.some.inj (hread'.symm.trans hread)
  rw [hout'] at hout
  rw [← Option.some.inj hout, hsame] at hlookups
  have hle := (hlookups i hi).1
  omega

/-- A padding that is too small wraps, and the end of the string is written before the buffer. -/
theorem not_printsInt_of_padding {n base padding : BitVec 32} (hbase : base.toInt = base.toNat) (hb : 2 ≤ base.toNat)
    (h : padding.toInt < -2 ^ 31 + (numeral n.toInt base.toNat).length) : ¬ PrintsInt n base padding := by
  intro hprints
  obtain ⟨out, hout, -, hput⟩ := hprints fun _ => 0#8
  obtain ⟨writes, indices, -, hout'⟩ := intToStrPadding_cases (fun _ => 0#8) hbase hb padding
  have hle := padding.le_toInt
  have hlength : (numeral n.toInt base.toNat).length ≤ 33 := by
    have hnatAbs : n.toInt.natAbs < 2 ^ 32 := by
      have hlt := n.toInt_lt
      have hge := n.le_toInt
      omega
    have hdigits := (length_numeralDigits_le_iff hb (by decide) _).mpr (hnatAbs.trans_le (Nat.pow_le_pow_left hb 32))
    have hsign := length_signChars n.toInt
    rw [length_numeral]
    split at hsign <;> omega
  generalize (numeral n.toInt base.toNat).length = length at h hlength hout'
  have hwraps : (padding - BitVec.ofNat 32 length).toInt = padding.toInt - length + 2 ^ 32 := by
    rw [BitVec.toInt_sub, toInt_ofNat_small (by omega), ← Int.add_bmod_right]
    exact Int.bmod_eq_of_le (by omega) (by omega)
  have hstop : BitVec.ofNat 32 length + BitVec.ofNat 32 (padding - BitVec.ofNat 32 length).toInt.toNat = padding := by
    rw [← @BitVec.ofInt_natCast 32 (Int.toNat _), Int.toNat_of_nonneg (by omega), BitVec.ofInt_toInt,
      BitVec.add_comm, BitVec.sub_add_cancel]
  rw [hout', hstop] at hout
  have hend := congrFun (hput fun _ => 1#8) padding.toInt
  rw [← Option.some.inj hout, put_writeDigits_last, putString, if_neg (by omega)] at hend
  exact absurd hend (by decide)

/-- Numbers are printed unless they have no negation or the padding leaves its range below, and what `%d` and `%x`
print fits the buffer, and what `%b` prints unless it has 30 characters. -/
theorem printsInt_iff (n padding : BitVec 32) {base : BitVec 32} (hbase : base = 2#32 ∨ base = 10#32 ∨ base = 16#32) :
    (PrintsInt n base padding ↔
      n.toInt ≠ -2 ^ 31 ∧ -2 ^ 31 + ((numeral n.toInt base.toNat).length : Int) ≤ padding.toInt) ∧
    (FitsBuffer n base ↔ (base = 2#32 → -2 ^ 28 < n.toInt ∧ n.toInt < 2 ^ 29)) := by
  have hrange : base.toInt = base.toNat ∧ 2 ≤ base.toNat ∧ base.toNat ≤ 16 := by
    obtain rfl | rfl | rfl := hbase <;> decide
  obtain ⟨hint, hb, hb'⟩ := hrange
  constructor
  · constructor
    · intro h
      constructor
      · intro hn
        obtain rfl : n = 0x80000000#32 := BitVec.eq_of_toInt_eq hn
        exact not_printsInt_intMin hbase padding h
      · by_contra hpadding
        exact not_printsInt_of_padding hint hb (not_le.mp hpadding) h
    · intro h around
      obtain ⟨writes, hout, hput⟩ := intToStrPadding_eq around hint hb hb' h.1 h.2
      refine ⟨_, hout, fun i hi => ?_, hput⟩
      obtain ⟨d, hd, rfl⟩ := List.mem_map.mp hi
      have hlt := lt_of_mem_numeralDigits hb hd
      rw [Int.ofNat_eq_natCast]
      omega
  · have hfits : FitsBuffer n base ↔ (numeral n.toInt base.toNat).length < 30 := by
      constructor
      · intro h
        obtain ⟨out, hout, hwrites⟩ := h fun _ => 0#8
        obtain ⟨out', hout', hiff⟩ := intToStr_cases (n := n) (fun _ => 0#8) hint hb
        obtain rfl : out = out' := Option.some.inj (hout.symm.trans hout')
        exact hiff.mp hwrites
      · intro h around
        obtain ⟨out, hout, hiff⟩ := intToStr_cases around hint hb
        exact ⟨out, hout, hiff.mpr h⟩
    rw [hfits, length_numeral, length_signChars]
    have hlt := n.toInt_lt
    have hle := n.le_toInt
    have hlength : ∀ turns > 0, (numeralDigits base.toNat n.toInt.natAbs).length ≤ turns ↔
        n.toInt.natAbs < base.toNat ^ turns := fun turns hturns => length_numeralDigits_le_iff hb hturns _
    have hall := hlength 29 (by decide)
    have hneg := hlength 28 (by decide)
    generalize (numeralDigits base.toNat n.toInt.natAbs).length = digits at hall hneg
    obtain rfl | rfl | rfl := hbase
    · have htwo : (2#32).toNat = 2 := rfl
      rw [htwo] at hall hneg
      simp only [forall_const]
      split <;> omega
    · have hten : (10#32).toNat = 10 := rfl
      rw [hten] at hall hneg
      refine iff_of_true ?_ fun heq => absurd heq (by decide)
      split <;> omega
    · have hsixteen : (16#32).toNat = 16 := rfl
      rw [hsixteen] at hall hneg
      refine iff_of_true ?_ fun heq => absurd heq (by decide)
      split <;> omega

theorem printsInt_iff_padded :
    PrintsInt (-42#32) 10#32 5#32 ∧ FitsBuffer (-42#32) 10#32 :=
  ⟨(printsInt_iff (-42#32) 5#32 (Or.inr (Or.inl rfl))).1.mpr (by decide +kernel),
    (printsInt_iff (-42#32) 5#32 (Or.inr (Or.inl rfl))).2.mpr (by decide)⟩

/-- The smallest number is not printed, and `%b` of `0x20000000` does not fit. -/
theorem not_printsInt :
    ¬ (∀ n base padding : BitVec 32, base = 2#32 ∨ base = 10#32 ∨ base = 16#32 → PrintsInt n base padding) ∧
    ¬ (∀ n base : BitVec 32, base = 2#32 ∨ base = 10#32 ∨ base = 16#32 → FitsBuffer n base) := by
  constructor
  · intro h
    exact not_printsInt_intMin (Or.inr (Or.inl rfl)) 0#32 (h 0x80000000#32 10#32 0#32 (Or.inr (Or.inl rfl)))
  · intro h
    obtain ⟨out, hout, hwrites⟩ := h 0x20000000#32 2#32 (Or.inl rfl) fun _ => 0#8
    have hbase : (2#32).toInt = ((2 : Nat) : Int) := rfl
    obtain ⟨out', hout', hiff⟩ := intToStr_cases (n := 0x20000000#32) (fun _ => 0#8) hbase le_rfl
    obtain rfl : out = out' := Option.some.inj (hout.symm.trans hout')
    exact absurd (hiff.mp hwrites) (by decide +kernel)

end Akos
