import Akos.Utils.Numbers

/-!
# Decimals

`uint_to_str` and `decimal_to_uint` of `strings.c`, and the same two once more in `stdlib.c`, as `uitoa` and `atoi`. The
printers count the digits in a signed copy of the number, and the loop of `atoi` runs on an unsigned index.
-/

namespace Akos

def uintToStr (around : Int → Byte) (n base : BitVec 32) : Option Printed := do
  let tempN := n
  let nOfDigits ← countDigits base.toInt digitTurns tempN.toInt
  let indices ← digitIndices base.toNat digitTurns n.toNat
  some ⟨writeDigits around nOfDigits indices, indices⟩

def uitoa := uintToStr

/-- Memory from the start of a string on. -/
abbrev StrMemory := BitVec 32 → Byte

/-- The loop of the parsers down to the first character, which `goesOn` with the index decides about. -/
def parseFrom (goesOn : BitVec 32 → Bool) (memory : StrMemory) :
    Nat → BitVec 32 → BitVec 32 → BitVec 32 → Option (BitVec 32)
  | 0, _, _, _ => none
  | turns + 1, i, result, power =>
    if goesOn i then
      parseFrom goesOn memory turns (i - 1#32) (result + ((memory i).signExtend 32 - 0x30#32) * power) (power * 10#32)
    else some result

/-- `for(int i = strlen(str)-1; i >= 0; i--)`, if it ends within some turns. -/
def decimalToUint (memory : StrMemory) (turns : Nat) : Option (BitVec 32) := do
  let len ← strlen memory turns
  parseFrom (fun i => BitVec.sle 0#32 i) memory turns (len - 1#32) 0#32 1#32

/-- `for(unsigned int i = strlen(str)-1; i >= 0; i--)`, if it ends within some turns. -/
def atoi (memory : StrMemory) (turns : Nat) : Option (BitVec 32) := do
  let len ← strlen memory turns
  parseFrom (fun i => BitVec.ule 0#32 i) memory turns (len - 1#32) 0#32 1#32

/-- The string written for a number has the decimal digits that the number has and its end, nothing else is written, and
it is the number again for the parser. -/
def Survives (print : (Int → Byte) → BitVec 32 → BitVec 32 → Option Printed)
    (parse : StrMemory → Nat → Option (BitVec 32)) (n : BitVec 32) : Prop :=
  ∀ around, ∃ out str, print around n 10#32 = some out ∧ str.length = (numeralDigits 10 n.toNat).length ∧
    0#8 ∉ str ∧ (∀ buffer, Overlay.put buffer out.writes = putString buffer 0 (str ++ [0#8])) ∧
    ∀ memory : StrMemory, HoldsString memory str → StepBound.Gives (parse memory) n

/-- The parser returns from every string. -/
def EndsOnStrings (parse : StrMemory → Nat → Option (BitVec 32)) : Prop :=
  ∀ (memory : StrMemory) str, HoldsString memory str → StepBound.Ends (parse memory)

/-! ### Printing -/

/-- The digits end where those of the signed number would end. -/
theorem uintToStr_eq (around : Int → Byte) (n : BitVec 32) : ∃ out, uintToStr around n 10#32 = some out ∧
    ∀ buffer, Overlay.put buffer out.writes =
      putString buffer ((numeralDigits 10 n.toInt.natAbs).length - (numeralDigits 10 n.toNat).length)
        ((numeralDigits 10 n.toNat).reverse.map digitChar ++ [0#8]) := by
  have hten : (10#32).toInt = ((10 : Nat) : Int) ∧ (10#32).toNat = 10 := by decide
  have hlt : n.toNat < 10 ^ digitTurns := n.isLt.trans_le (by decide)
  rw [uintToStr, hten.1, hten.2, countDigits_toInt (by decide), digitIndices_natCast (by decide) hlt (by decide)]
  dsimp only [Option.bind_eq_bind, Option.bind_some]
  exact ⟨_, rfl, fun buffer => put_writeDigits buffer around (by decide) (by decide) _ _⟩

/-- From the number on whose negation has nine digits, the signed copy has fewer digits. -/
theorem length_numeralDigits_toInt (n : BitVec 32) :
    (numeralDigits 10 n.toInt.natAbs).length = (numeralDigits 10 n.toNat).length ↔ n.toNat ≤ 2 ^ 32 - 10 ^ 9 := by
  have hlt := n.isLt
  rw [BitVec.toInt_eq_toNat_cond]
  split
  · rw [Int.natAbs_natCast]
    exact iff_of_true rfl (by omega)
  · have hnegated : (((n.toNat : Int) - ((2 ^ 32 : Nat) : Int)).natAbs) = 2 ^ 32 - n.toNat := by omega
    have hnine := length_numeralDigits_le_iff (b := 10) (by decide) (show 0 < 9 by decide)
    have hten := length_numeralDigits_le_iff (b := 10) (by decide) (show 0 < 10 by decide)
    have hn := hnine n.toNat
    have hn' := hten n.toNat
    have hm := hnine (2 ^ 32 - n.toNat)
    have hm' := hten (2 ^ 32 - n.toNat)
    rw [hnegated]
    omega

theorem not_mem_digitChars {ds : List Nat} (hds : ∀ d ∈ ds, d < 10) : 0#8 ∉ ds.map digitChar := by
  have hchars : ∀ d < 10, digitChar d ≠ 0#8 := by decide
  intro hmem
  obtain ⟨d, hd, heq⟩ := List.mem_map.mp hmem
  exact hchars d (hds d hd) heq

/-! ### Parsing -/

/-- The loop over a decimal adds its value. -/
theorem parseFrom_decimal {memory : StrMemory} {ds : List Nat} (hds : ∀ d ∈ ds, d < 10) (hlength : ds.length < 2 ^ 31)
    (h : HoldsAt memory 0 (ds.reverse.map digitChar)) {turns : Nat} (hturns : ds.length < turns)
    (result power : BitVec 32) :
    parseFrom (fun i => BitVec.sle 0#32 i) memory turns (BitVec.ofNat 32 ds.length - 1#32) result power =
      some (result + power * BitVec.ofNat 32 (Nat.ofDigits 10 ds)) := by
  induction ds generalizing turns result power with
  | nil =>
    obtain ⟨turns, rfl⟩ := Nat.exists_eq_add_of_lt hturns
    rw [List.length_nil, Nat.zero_add, parseFrom, Nat.ofDigits_nil]
    simp
  | cons d ds ih =>
    obtain ⟨turns, rfl⟩ := Nat.exists_eq_add_of_lt hturns
    rw [List.reverse_cons, List.map_append, List.map_singleton] at h
    have hlast := h.last
    rw [List.length_map, List.length_reverse, zero_add, BitVec.natCast_eq_ofNat] at hlast
    have hvalue : ∀ d < 10, (digitChar d).signExtend 32 - 0x30#32 = BitVec.ofNat 32 d := by decide
    have hindex : BitVec.ofNat 32 (d :: ds).length - 1#32 = BitVec.ofNat 32 ds.length := by
      rw [List.length_cons, BitVec.ofNat_add, BitVec.add_sub_cancel]
    have hlt : ds.length < 2 ^ 31 := by
      rw [List.length_cons] at hlength
      omega
    have hsle : BitVec.sle 0#32 (BitVec.ofNat 32 ds.length) = true := by
      rw [BitVec.sle, BitVec.toInt_zero, toInt_ofNat_small hlt]
      exact decide_eq_true (Int.natCast_nonneg _)
    rw [hindex, parseFrom, if_pos hsle, hlast, hvalue d (hds d List.mem_cons_self),
      ih (fun e he => hds e (List.mem_cons_of_mem _ he)) hlt (holdsAt_append.mp h).1 (by rw [List.length_cons]; omega),
      Nat.ofDigits_cons, BitVec.ofNat_add, BitVec.ofNat_mul]
    ring_nf

theorem parseFrom_ends (memory : StrMemory) (turns : Nat) {i : BitVec 32} (hi : i.toInt < turns)
    (result power : BitVec 32) :
    ∃ result', parseFrom (fun i => BitVec.sle 0#32 i) memory (turns + 1) i result power = some result' := by
  induction turns generalizing i result power with
  | zero =>
    have hsle : ¬ BitVec.sle 0#32 i = true := by
      rw [BitVec.sle, BitVec.toInt_zero, decide_eq_true_iff]
      omega
    exact ⟨result, by rw [parseFrom, if_neg hsle]⟩
  | succ turns ih =>
    rw [parseFrom]
    split
    · next hsle =>
      rw [BitVec.sle, BitVec.toInt_zero, decide_eq_true_iff] at hsle
      refine ih ?_ _ _
      have hsub := toInt_sub_small (v := i) (k := 1) (by decide) (by omega)
      rw [hsub]
      omega
    · exact ⟨result, rfl⟩

theorem decimalToUint_ends : EndsOnStrings decimalToUint := by
  intro memory str h
  have hlt := ((str.length : BitVec 32) - 1#32).toInt_lt
  have hbound : ((str.length : BitVec 32) - 1#32).toInt < ((2 ^ 31 + str.length : Nat) : Int) := by
    rw [Nat.cast_add]
    omega
  obtain ⟨result, hresult⟩ := parseFrom_ends memory (2 ^ 31 + str.length) hbound 0#32 1#32
  refine ⟨2 ^ 31 + str.length + 1, ?_⟩
  rw [decimalToUint, strlen_eq h (by omega)]
  exact Option.isSome_iff_exists.mpr ⟨result, hresult⟩

/-- Every unsigned number is 0 or more, and the loop goes on. -/
theorem parseFrom_forever (memory : StrMemory) (turns : Nat) (i result power : BitVec 32) :
    parseFrom (fun i => BitVec.ule 0#32 i) memory turns i result power = none := by
  induction turns generalizing i result power with
  | zero => rfl
  | succ turns ih =>
    have hule : BitVec.ule 0#32 i = true := decide_eq_true (Nat.zero_le _)
    rw [parseFrom, if_pos hule, ih]

theorem not_ends_atoi (memory : StrMemory) : ¬ StepBound.Ends (atoi memory) := by
  intro h
  obtain ⟨turns, hturns⟩ := h
  refine absurd hturns ?_
  rw [atoi]
  cases strlen memory turns with
  | none => exact Bool.false_ne_true
  | some len =>
    rw [Option.bind_eq_bind, Option.bind_some, parseFrom_forever]
    exact Bool.false_ne_true

/-! ### Both together -/

/-- A string as the only one in memory. -/
def strMemory (str : List Byte) : StrMemory := fun i => str.getD i.toNat 0#8

theorem holdsString_strMemory {str : List Byte} (hmem : 0#8 ∉ str) (hlength : str.length < 2 ^ 32) :
    HoldsString (strMemory str) str := by
  refine ⟨holdsAt_of_getElem? fun i c hi => ?_, hmem⟩
  have hlt := (List.getElem?_eq_some_iff.mp hi).1
  rw [List.length_append, List.length_singleton] at hlt
  rw [strMemory, zero_add, BitVec.natCast_eq_ofNat, BitVec.toNat_ofNat, Nat.mod_eq_of_lt (by omega),
    List.getD_eq_getElem?_getD]
  obtain hlt | heq := Nat.lt_or_eq_of_le (Nat.le_of_lt_succ hlt)
  · rw [List.getElem?_append_left hlt] at hi
    rw [hi, Option.getD_some]
  · rw [List.getElem?_append_right heq.ge, heq, Nat.sub_self] at hi
    rw [List.getElem?_eq_none heq.ge, Option.getD_none]
    exact Option.some.inj hi

theorem length_numeralDigits_ten (n : BitVec 32) : (numeralDigits 10 n.toNat).length ≤ 10 :=
  (length_numeralDigits_le_iff (by decide) (by decide) _).mpr (n.isLt.trans_le (by decide))

theorem ofDigits_numeralDigits (m : Nat) : Nat.ofDigits 10 (numeralDigits 10 m) = m := by
  rw [numeralDigits]
  split
  · next hzero => rw [hzero, Nat.ofDigits_singleton]
  · exact Nat.ofDigits_digits 10 m

/-- The kernel's printer and parser give back every number up to 3294967296 and no other one, and the parser ends. The
one of the library never ends. -/
theorem survives_iff (n : BitVec 32) :
    (Survives uintToStr decimalToUint n ↔ n.toNat ≤ 3294967296) ∧ EndsOnStrings decimalToUint ∧
    ¬ Survives uitoa atoi n ∧ ∀ memory, ¬ StepBound.Ends (atoi memory) := by
  have hlength := length_numeralDigits_ten n
  refine ⟨?_, decimalToUint_ends, ?_, not_ends_atoi⟩
  · rw [show (3294967296 : Nat) = 2 ^ 32 - 10 ^ 9 from rfl, ← length_numeralDigits_toInt]
    constructor
    · intro h
      obtain ⟨out, str, hout, -, -, hput, -⟩ := h fun _ => 0#8
      obtain ⟨out', hout', hput'⟩ := uintToStr_eq (fun _ => 0#8) n
      obtain rfl : out = out' := Option.some.inj (hout.symm.trans hout')
      have hstart := start_eq_of_putString (List.concat_ne_nil _ _) (List.concat_ne_nil _ _)
        fun buffer => (hput' buffer).symm.trans (hput buffer)
      omega
    · intro h around
      obtain ⟨out, hout, hput⟩ := uintToStr_eq around n
      have hdigits : ∀ d ∈ numeralDigits 10 n.toNat, d < 10 := fun d hd => lt_of_mem_numeralDigits (by decide) hd
      refine ⟨out, _, hout, ?_, not_mem_digitChars (fun d hd => hdigits d (List.mem_reverse.mp hd)), ?_, ?_⟩
      · rw [List.length_map, List.length_reverse]
      · rw [h, Int.sub_self] at hput
        exact hput
      · intro memory hholds
        refine ⟨11, fun turns hturns => ?_⟩
        rw [decimalToUint, strlen_eq hholds (by rw [List.length_map, List.length_reverse]; omega), List.length_map,
          List.length_reverse]
        refine (parseFrom_decimal hdigits (by omega) (holdsAt_append.mp hholds.holds).1 (by omega) _ _).trans ?_
        rw [ofDigits_numeralDigits, BitVec.zero_add, BitVec.one_mul, BitVec.ofNat_toNat, BitVec.setWidth_eq]
  · intro h
    obtain ⟨out, str, -, hstr, hmem, -, hparse⟩ := h fun _ => 0#8
    exact not_ends_atoi _ (hparse _ (holdsString_strMemory hmem (by omega))).ends

/-- The largest number is written before the buffer, and `atoi` does not return from the empty string. -/
theorem not_survives : ¬ (∀ n, Survives uintToStr decimalToUint n) ∧ ¬ EndsOnStrings atoi := by
  constructor
  · intro h
    obtain ⟨out, str, hout, -, -, hput, -⟩ := h 0xFFFFFFFF#32 fun _ => 0#8
    obtain ⟨out', hout', hput'⟩ := uintToStr_eq (fun _ => 0#8) 0xFFFFFFFF#32
    obtain rfl : out = out' := Option.some.inj (hout.symm.trans hout')
    have hstart := start_eq_of_putString (List.concat_ne_nil _ _) (List.concat_ne_nil _ _)
      fun buffer => (hput' buffer).symm.trans (hput buffer)
    exact absurd hstart (by decide +kernel)
  · intro h
    exact not_ends_atoi _ (h (strMemory []) [] (holdsString_strMemory List.not_mem_nil (by decide)))

end Akos
