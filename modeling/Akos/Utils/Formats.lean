import Mathlib.Data.List.GetD
import Akos.Utils.Decimals
import Akos.Utils.Strings

/-!
# Format strings

`gfx_vprintf`, `screen_vprintf`, `debug_vprintf`, `sprintf` and the printer of `stdio.c` are one loop over a format:
they look one character back to tell a conversion from a percent sign that is printed. A reader sees a format as pieces,
text and conversions, and needs not look back.
-/

namespace Akos

/-! ### The loop -/

abbrev percent : Byte := 0x25#8
abbrev slash : Byte := 0x5C#8

/-- What becomes of an argument; the bases are those that the printers are called with. -/
inductive Conversion
  | signed (base : BitVec 32)
  | unsigned (base : BitVec 32)
  | byte (base : BitVec 32)
  | character
  | shortString
  | string

/-- What is in memory: around the digits of a printer, in `buff`, and at the addresses of strings. -/
structure FormatEnv where
  around : Int → Byte
  buff : Int → Byte
  stringAt : BitVec 32 → List Byte

/-- `byte_to_str`. There are two digits at least, and the second one is written by the loop. -/
def byteToStr (around : Int → Byte) (n : Byte) (base : BitVec 32) : Option Printed := do
  let indices ← digitIndices base.toInt digitTurns n.toNat
  some ⟨[(0, 0x30#8)] ++ writeDigits around 2 indices, indices⟩

/-- The string in `buff` behind the call of a printer, which writes its end within 34 bytes. -/
def FormatEnv.buffString (env : FormatEnv) (out : Printed) : List Byte :=
  cString ((List.range 34).map fun k : Nat => Overlay.put env.buff out.writes k)

def FormatEnv.emit (env : FormatEnv) (v : BitVec 32) : Conversion → Option (List Byte)
  | .signed base => (intToStr env.around v base).map env.buffString
  | .unsigned base => (uintToStr env.around v base).map env.buffString
  | .byte base => (byteToStr env.around (v.setWidth 8) base).map env.buffString
  | .character => some [v.setWidth 8]
  | .shortString => some (cString [v.setWidth 8])
  | .string => some (env.stringAt v)

/-- How the loops differ: the conversions, and whether a backslash is left out wherever it stands, or only in front of a
percent sign. -/
structure Dialect where
  conversions : List (Byte × Conversion)
  dropsSlashes : Bool

/-- `gfx_vprintf`, `screen_vprintf` and `debug_vprintf`: d, u, U, c, s, x, X and b. -/
def vprintf : Dialect where
  conversions := [(0x64#8, .signed 10#32), (0x75#8, .unsigned 10#32), (0x55#8, .unsigned 16#32), (0x63#8, .character),
    (0x73#8, .string), (0x78#8, .signed 16#32), (0x58#8, .byte 16#32), (0x62#8, .signed 2#32)]
  dropsSlashes := false

/-- `sprintf`: d, c, s, x and b. -/
def sprintf : Dialect where
  conversions := [(0x64#8, .signed 10#32), (0x63#8, .character), (0x73#8, .string), (0x78#8, .signed 16#32),
    (0x62#8, .signed 2#32)]
  dropsSlashes := true

/-- `deprecated_printf`: d, u, U, c, s, x and b; its characters are printed as strings. -/
def deprecatedPrintf : Dialect where
  conversions := [(0x64#8, .signed 10#32), (0x75#8, .unsigned 10#32), (0x55#8, .unsigned 16#32),
    (0x63#8, .shortString), (0x73#8, .string), (0x78#8, .signed 16#32), (0x62#8, .signed 2#32)]
  dropsSlashes := true

/-- The text, and where the conversion is that is not known, if the loop stopped there. -/
structure Formatted where
  text : List Byte
  unknown : Option Nat
  deriving DecidableEq

def Formatted.after (text : List Byte) (rest : Formatted) : Formatted := { rest with text := text ++ rest.text }

/-- The loop from character `i` and argument `arg` on, if it ends within some turns. -/
def formatFrom (dialect : Dialect) (env : FormatEnv) (fmt : List Byte) (valist : Nat → BitVec 32) :
    Nat → Nat → Nat → Option Formatted
  | 0, _, _ => none
  | turns + 1, i, arg =>
    let c := fmt.getD i 0#8
    if c = 0#8 then some ⟨[], none⟩
    else if c = percent ∧ ((fmt.getD (i - 1) 0#8 ≠ slash ∧ i ≠ 0) ∨ i = 0) then
      match dialect.conversions.lookup (fmt.getD (i + 1) 0#8) with
      | none => some ⟨[], some (i + 1)⟩
      | some conversion => do
        let text ← env.emit (valist arg) conversion
        (formatFrom dialect env fmt valist turns (i + 2) (arg + 1)).map (Formatted.after text)
    else if c = slash ∧ (dialect.dropsSlashes = true ∨ fmt.getD (i + 1) 0#8 = percent) then
      formatFrom dialect env fmt valist turns (i + 1) arg
    else (formatFrom dialect env fmt valist turns (i + 1) arg).map (Formatted.after [c])

/-- `"Unknown format type "` -/
def unknownText : List Byte :=
  [0x55#8, 0x6E#8, 0x6B#8, 0x6E#8, 0x6F#8, 0x77#8, 0x6E#8, 0x20#8, 0x66#8, 0x6F#8, 0x72#8, 0x6D#8, 0x61#8, 0x74#8,
    0x20#8, 0x74#8, 0x79#8, 0x70#8, 0x65#8, 0x20#8]

/-- `"Unknown format type \\%%c"` -/
def unknownFormat : List Byte := unknownText ++ [slash, percent, percent, 0x63#8]

/-- The text, and the message about a conversion that is not known, which has the pointer to it as its argument. -/
def printf (dialect messages : Dialect) (env : FormatEnv) (address : BitVec 32) (fmt : List Byte)
    (valist : Nat → BitVec 32) (turns : Nat) : Option (List Byte × List Byte) := do
  let out ← formatFrom dialect env fmt valist turns 0 0
  match out.unknown with
  | none => some (out.text, [])
  | some place =>
    let message ← formatFrom messages env unknownFormat (fun _ => address + BitVec.ofNat 32 place) turns 0 0
    some (out.text, message.text)

/-! ### Formats as pieces -/

inductive Piece
  | text (c : Byte)
  | conversion (c : Byte) (place : Nat)

/-- The pieces of a format, from character `i` on. -/
def piecesOf (drops : Bool) : Nat → List Byte → List Piece
  | _, [] => []
  | i, [c] => if c = percent then [.conversion 0#8 (i + 1)] else if c = slash ∧ drops = true then [] else [.text c]
  | i, c :: c' :: rest =>
    if c = percent then .conversion c' (i + 1) :: piecesOf drops (i + 2) rest
    else if c = slash then
      if c' = percent then .text percent :: piecesOf drops (i + 2) rest
      else if drops = true then piecesOf drops (i + 1) (c' :: rest)
      else .text c :: piecesOf drops (i + 1) (c' :: rest)
    else .text c :: piecesOf drops (i + 1) (c' :: rest)

/-- The pieces one after the other, up to a conversion that is not known. -/
def render (conversions : List (Byte × Conversion)) (emit : BitVec 32 → Conversion → Option (List Byte))
    (valist : Nat → BitVec 32) : Nat → List Piece → Option Formatted
  | _, [] => some ⟨[], none⟩
  | arg, .text c :: pieces => (render conversions emit valist arg pieces).map (Formatted.after [c])
  | arg, .conversion c place :: pieces =>
    match conversions.lookup c with
    | none => some ⟨[], some place⟩
    | some conversion => do
      let text ← emit (valist arg) conversion
      (render conversions emit valist (arg + 1) pieces).map (Formatted.after text)

/-- The text of an argument, if it is a number that the printers write right and whose digits fit into `buff`. -/
def expected (stringAt : BitVec 32 → List Byte) (v : BitVec 32) : Conversion → Option (List Byte)
  | .signed base =>
    if v.toInt ≠ -2 ^ 31 ∧ (numeral v.toInt base.toNat).length < 30 then some (numeral v.toInt base.toNat) else none
  | .unsigned base =>
    if (numeralDigits base.toNat v.toInt.natAbs).length = (numeralDigits base.toNat v.toNat).length then
      some (numeral v.toNat base.toNat)
    else none
  | .byte base => some (paddedNumeral (v.setWidth 8).toNat base.toNat 2)
  | .character => some [v.setWidth 8]
  | .shortString => some (cString [v.setWidth 8])
  | .string => some (stringAt v)

/-- The message about a conversion that is not known: the byte that the pointer to it ends with stands for it. -/
def Dialect.message (messages : Dialect) (stringAt : BitVec 32 → List Byte) (v : BitVec 32) : List Byte :=
  unknownText ++ [percent] ++ ((messages.conversions.lookup 0x63#8).bind (expected stringAt v)).getD []

variable {dialect : Dialect} {env : FormatEnv} {pre rest fmt : List Byte} {valist : Nat → BitVec 32} {c c' : Byte}
  {i arg turns : Nat}

/-! ### The loop finds the pieces -/

/-- A percent sign at the end of `pre` would begin a conversion. -/
def Fresh (pre : List Byte) : Prop := pre.getLast? ≠ some slash

instance (pre : List Byte) : Decidable (Fresh pre) := inferInstanceAs (Decidable (_ ≠ _))

theorem fresh_snoc (h : c ≠ slash) : Fresh (pre ++ [c]) := by
  rw [Fresh, List.getLast?_concat, ne_eq, Option.some.injEq]
  exact h

theorem getD_length : (pre ++ c :: rest).getD pre.length 0#8 = c := by
  rw [List.getD_append_right _ _ _ _ (Nat.le_refl _), Nat.sub_self]
  rfl

theorem getD_length_succ : (pre ++ c :: rest).getD (pre.length + 1) 0#8 = rest.getD 0 0#8 := by
  rw [List.getD_append_right _ _ _ _ (Nat.le_add_right _ 1), Nat.add_sub_cancel_left]
  rfl

/-- The look back finds a backslash exactly when a percent sign would not begin a conversion. -/
theorem looksBack_iff :
    (((pre ++ rest).getD (pre.length - 1) 0#8 ≠ slash ∧ pre.length ≠ 0) ∨ pre.length = 0) ↔ Fresh pre := by
  cases pre using List.reverseRecOn with
  | nil => simp [Fresh]
  | append_singleton pre c =>
    have hget : (pre ++ [c] ++ rest).getD ((pre ++ [c]).length - 1) 0#8 = c := by
      rw [List.length_append, List.length_singleton, Nat.add_sub_cancel, List.append_assoc]
      exact getD_length
    rw [hget, Fresh, List.getLast?_concat, List.length_append, List.length_singleton]
    simp

/-- One turn of the loop, by the character it is at. -/
theorem formatFrom_cons (hc : c ≠ 0#8) : formatFrom dialect env (pre ++ c :: rest) valist (turns + 1) pre.length arg =
    if c = percent ∧ Fresh pre then
      match dialect.conversions.lookup (rest.getD 0 0#8) with
      | none => some ⟨[], some (pre.length + 1)⟩
      | some conversion => do
        let text ← env.emit (valist arg) conversion
        (formatFrom dialect env (pre ++ c :: rest) valist turns (pre.length + 2) (arg + 1)).map (Formatted.after text)
    else if c = slash ∧ (dialect.dropsSlashes = true ∨ rest.getD 0 0#8 = percent) then
      formatFrom dialect env (pre ++ c :: rest) valist turns (pre.length + 1) arg
    else (formatFrom dialect env (pre ++ c :: rest) valist turns (pre.length + 1) arg).map (Formatted.after [c]) := by
  rw [formatFrom, getD_length, getD_length_succ, if_neg hc]
  simp only [looksBack_iff]

/-- The bases that the printers have digits for; a byte has two digits in its base. -/
def Conversion.HasDigits : Conversion → Prop
  | .signed base => base = 2#32 ∨ base = 10#32 ∨ base = 16#32
  | .unsigned base => base = 10#32 ∨ base = 16#32
  | .byte base => base = 16#32
  | _ => True

/-- Neither the end of the string nor a backslash is a conversion, and the numbers have digits. -/
structure Dialect.Regular (dialect : Dialect) : Prop where
  nul : dialect.conversions.lookup 0#8 = none
  slash : dialect.conversions.lookup slash = none
  digits : ∀ c conversion, dialect.conversions.lookup c = some conversion → conversion.HasDigits

theorem piecesOf_cons (drops : Bool) (i : Nat) (c : Byte) (rest : List Byte) : piecesOf drops i (c :: rest) =
    if c = percent then .conversion (rest.getD 0 0#8) (i + 1) :: piecesOf drops (i + 2) rest.tail
    else if c = slash ∧ rest.head? = some percent then .text percent :: piecesOf drops (i + 2) rest.tail
    else if c = slash ∧ drops = true then piecesOf drops (i + 1) rest
    else .text c :: piecesOf drops (i + 1) rest := by
  cases rest with
  | nil => simp [piecesOf]
  | cons c' rest =>
    simp only [piecesOf, List.getD_cons_zero, List.tail_cons, List.head?_cons, Option.some.injEq]
    split
    · rfl
    · by_cases hslash : c = slash
      · simp only [hslash, if_true, true_and]
      · simp only [hslash, if_false, false_and]

/-- From a place where no backslash is open, the loop goes through the pieces of what is left. -/
theorem formatFrom_eq_render (hregular : dialect.Regular) (hnul : 0#8 ∉ rest)
    (hfresh : rest.head? = some percent → Fresh pre) (hturns : rest.length < turns) :
    formatFrom dialect env (pre ++ rest) valist turns pre.length arg =
      render dialect.conversions env.emit valist arg (piecesOf dialect.dropsSlashes pre.length rest) := by
  induction hlength : rest.length using Nat.strong_induction_on generalizing pre rest turns arg with
  | _ n ih =>
  obtain ⟨turns, rfl⟩ := Nat.exists_eq_add_of_lt hturns
  cases rest with
  | nil =>
    rw [List.append_nil, formatFrom, List.getD_eq_default _ _ le_rfl, if_pos rfl, piecesOf, render]
  | cons c rest =>
    have hc : c ≠ 0#8 := fun heq => hnul (heq ▸ List.mem_cons_self)
    have hnul' : 0#8 ∉ rest := fun hmem => hnul (List.mem_cons_of_mem _ hmem)
    rw [List.length_cons] at hlength
    rw [List.length_cons, formatFrom_cons hc, piecesOf_cons]
    have hnext : ∀ arg, (rest.head? = some percent → Fresh (pre ++ [c])) →
        formatFrom dialect env (pre ++ c :: rest) valist (rest.length + 1 + turns) (pre.length + 1) arg =
          render dialect.conversions env.emit valist arg (piecesOf dialect.dropsSlashes (pre.length + 1) rest) := by
      intro arg hfresh'
      have hlt : rest.length < rest.length + 1 + turns := by omega
      have hstep := @ih rest.length (by omega) _ rest arg _ hnul' hfresh' hlt rfl
      rw [List.append_assoc, List.length_append] at hstep
      exact hstep
    have hskip : ∀ c' rest' arg turns, rest = c' :: rest' → c' ≠ slash → rest'.length < turns →
        formatFrom dialect env (pre ++ c :: rest) valist turns (pre.length + 2) arg =
          render dialect.conversions env.emit valist arg (piecesOf dialect.dropsSlashes (pre.length + 2) rest') := by
      intro c' rest' arg turns heq hne hturns'
      rw [heq] at hnul' hlength ⊢
      have hnul'' : 0#8 ∉ rest' := fun hmem => hnul' (List.mem_cons_of_mem _ hmem)
      have hfresh' : rest'.head? = some percent → Fresh (pre ++ [c] ++ [c']) := fun _ => fresh_snoc hne
      have hstep := @ih rest'.length (by rw [← hlength, List.length_cons]; omega) _ rest' arg _ hnul'' hfresh' hturns'
        rfl
      rw [List.append_assoc, List.append_assoc, List.length_append, List.length_append] at hstep
      exact hstep
    by_cases hpercent : c = percent
    · have hopen : Fresh pre := hfresh (congrArg some hpercent)
      rw [if_pos ⟨hpercent, hopen⟩, if_pos hpercent, render]
      cases hlookup : dialect.conversions.lookup (rest.getD 0 0#8) with
      | none => rfl
      | some conversion =>
        cases rest with
        | nil =>
          rw [List.getD_nil, hregular.nul] at hlookup
          cases hlookup
        | cons c' rest =>
          have hne : c' ≠ slash := by
            intro heq
            rw [List.getD_cons_zero, heq, hregular.slash] at hlookup
            cases hlookup
          dsimp only
          rw [hskip c' rest _ _ rfl hne (by rw [List.length_cons]; omega), List.tail_cons]
    · rw [if_neg fun h => hpercent h.1, if_neg hpercent]
      by_cases hslash : c = slash
      · by_cases hescape : rest.head? = some percent
        · obtain ⟨rest, rfl⟩ : ∃ rest', rest = percent :: rest' := List.head?_eq_some_iff.mp hescape
          rw [if_pos ⟨hslash, Or.inr rfl⟩, if_pos ⟨hslash, hescape⟩, render, List.tail_cons]
          -- the percent sign looks back at the backslash
          have hturn : formatFrom dialect env (pre ++ [c] ++ percent :: rest) valist (rest.length + 1 + turns + 1)
              (pre ++ [c]).length arg = _ := formatFrom_cons (by decide)
          rw [if_neg fun h => h.2 (by rw [List.getLast?_concat, hslash]), if_neg fun h => absurd h.1 (by decide),
            List.append_assoc, List.length_append] at hturn
          rw [← hskip percent rest arg _ rfl (by decide) (show rest.length < rest.length + 1 + turns by omega),
            List.length_cons, Nat.add_right_comm _ 1 turns]
          exact hturn
        · have hhead : rest.getD 0 0#8 ≠ percent := by
            cases rest with
            | nil => decide
            | cons c' rest => exact fun heq => hescape (congrArg some heq)
          rw [if_neg fun h : _ ∧ _ => hescape h.2]
          by_cases hdrops : dialect.dropsSlashes = true
          · rw [if_pos ⟨hslash, Or.inl hdrops⟩, if_pos ⟨hslash, hdrops⟩, hnext arg fun h => absurd h hescape]
          · rw [if_neg fun h => h.2.elim hdrops hhead, if_neg fun h => hdrops h.2, render,
              hnext arg fun h => absurd h hescape]
      · rw [if_neg fun h => hslash h.1, if_neg fun h => hslash h.1, if_neg fun h => hslash h.1, render,
          hnext arg fun _ => fresh_snoc hslash]

/-! ### Numbers -/

variable {b : Nat} {v : BitVec 32} {str : List Byte} {base : BitVec 32} {conversion : Conversion} {text : List Byte}

theorem cString_append_zero (h : 0#8 ∉ str) (rest : List Byte) : cString (str ++ 0#8 :: rest) = str := by
  rw [cString, List.takeWhile_append_of_pos fun c hc => by simpa using fun heq : c = 0#8 => h (heq ▸ hc),
    List.takeWhile_cons_of_neg (by simp), List.append_nil]

theorem HoldsAt.map_range {memory : Int → Byte} {start : Int} (h : HoldsAt memory start str) :
    (List.range str.length).map (fun k : Nat => memory (start + k)) = str := by
  induction str generalizing start with
  | nil => rfl
  | cons c str ih =>
    have hrest : ((fun k : Nat => memory (start + k)) ∘ Nat.succ) = fun k : Nat => memory (start + 1 + k) := by
      funext k
      rw [Function.comp_apply, Nat.cast_succ, add_comm (k : Int) 1, add_assoc]
    rw [List.length_cons, List.range_succ_eq_map, List.map_cons, List.map_map, hrest, ih h.2, Nat.cast_zero, add_zero,
      h.1]

/-- A string that was put into `buff` is the string there. -/
theorem buffString_eq {out : Printed} (h : Overlay.put env.buff out.writes = putString env.buff 0 (str ++ [0#8]))
    (hnul : 0#8 ∉ str) (hlength : str.length < 34) : env.buffString out = str := by
  obtain ⟨rest, hrest⟩ : ∃ rest, 34 = (str ++ [0#8]).length + rest := by
    rw [List.length_append, List.length_singleton]
    exact Nat.exists_eq_add_of_le hlength
  have hholds := (holdsAt_putString env.buff 0 (str ++ [0#8])).map_range
  simp only [zero_add] at hholds
  rw [FormatEnv.buffString, h, hrest, List.range_add, List.map_append, hholds, List.append_assoc, List.singleton_append,
    cString_append_zero hnul]

theorem not_mem_digits (hb : 2 ≤ b) (hb' : b ≤ 16) (m : Nat) : 0#8 ∉ (numeralDigits b m).reverse.map digitChar := by
  have hchars : ∀ d < 16, digitChar d ≠ 0#8 := by decide
  intro hmem
  obtain ⟨d, hd, heq⟩ := List.mem_map.mp hmem
  exact hchars d ((lt_of_mem_numeralDigits hb (List.mem_reverse.mp hd)).trans_le hb') heq

theorem not_mem_paddedNumeral (hb : 2 ≤ b) (hb' : b ≤ 16) (n padding : Int) : 0#8 ∉ paddedNumeral n b padding := by
  rw [paddedNumeral]
  intro hmem
  obtain hmem | hmem := List.mem_append.mp hmem
  · obtain hmem | hmem := List.mem_append.mp hmem
    · rw [signChars] at hmem
      split at hmem <;> simp at hmem
    · exact absurd (List.eq_of_mem_replicate hmem) (by decide)
  · exact not_mem_digits hb hb' _ hmem

theorem numeral_eq (n : Int) (b : Nat) :
    numeral n b = signChars n ++ (numeralDigits b n.natAbs).reverse.map digitChar := by
  rw [numeral, paddedNumeral, Int.toNat_of_nonpos (by omega), List.replicate_zero, List.append_nil]

theorem emit_signed (hbase : base = 2#32 ∨ base = 10#32 ∨ base = 16#32) (hn : v.toInt ≠ -2 ^ 31)
    (hfits : (numeral v.toInt base.toNat).length < 30) :
    env.emit v (.signed base) = some (numeral v.toInt base.toNat) := by
  have hrange : base.toInt = base.toNat ∧ 2 ≤ base.toNat ∧ base.toNat ≤ 16 := by
    obtain rfl | rfl | rfl := hbase <;> decide
  obtain ⟨hint, hb, hb'⟩ := hrange
  have hpadding : -2 ^ 31 + ((numeral v.toInt base.toNat).length : Int) ≤ (0#32).toInt := by
    rw [BitVec.toInt_zero]
    omega
  obtain ⟨writes, hout, hput⟩ := intToStrPadding_eq env.around hint hb hb' hn hpadding
  rw [FormatEnv.emit, intToStr, hout, Option.map_some, buffString_eq (hput env.buff) (not_mem_paddedNumeral hb hb' _ _)
    (by rw [BitVec.toInt_zero]; exact hfits.trans (by decide))]
  rfl

theorem emit_unsigned (hbase : base = 10#32 ∨ base = 16#32)
    (hn : (numeralDigits base.toNat v.toInt.natAbs).length = (numeralDigits base.toNat v.toNat).length) :
    env.emit v (.unsigned base) = some (numeral v.toNat base.toNat) := by
  have hrange : base.toInt = base.toNat ∧ 2 ≤ base.toNat ∧ base.toNat ≤ 16 ∧ 2 ^ 32 ≤ base.toNat ^ digitTurns ∧
      2 ^ 32 ≤ base.toNat ^ 10 := by
    obtain rfl | rfl := hbase <;> decide
  obtain ⟨hint, hb, hb', hturns, hten⟩ := hrange
  have hlength : (numeralDigits base.toNat v.toNat).length ≤ 10 :=
    (length_numeralDigits_le_iff hb (by decide) _).mpr (v.isLt.trans_le hten)
  rw [FormatEnv.emit, uintToStr, hint, countDigits_toInt hb,
    digitIndices_natCast hb (v.isLt.trans_le hturns) (by decide)]
  dsimp only [Option.bind_eq_bind, Option.bind_some, Option.map_some]
  have hput := put_writeDigits env.buff env.around hb hb' v.toNat (numeralDigits base.toNat v.toNat).length
  rw [Int.sub_self] at hput
  rw [hn, buffString_eq hput (not_mem_digits hb hb' _) (by rw [List.length_map, List.length_reverse]; omega),
    numeral_eq, Int.natAbs_natCast, signChars, if_neg (by omega), List.nil_append]

/-- The first character is written over what was put there before. -/
theorem putString_over (buffer : Int → Byte) (start : Int) {c : Byte} (hstr : str ≠ []) :
    putString (Overlay.put buffer [(start, c)]) start str = putString buffer start str := by
  obtain ⟨c', str, rfl⟩ := List.exists_cons_of_ne_nil hstr
  funext k
  by_cases heq : start = k
  · simp [putString, heq]
  · have hsame : Overlay.put buffer [(start, c)] k = buffer k := Overlay.put_of_not_mem fun w hw => by
      rw [List.mem_singleton.mp hw]
      exact heq
    rw [putString, putString, hsame]

theorem emit_byte : env.emit v (.byte 16#32) = some (paddedNumeral (v.setWidth 8).toNat 16 2) := by
  generalize hm : (v.setWidth 8).toNat = m
  have hlt : m < 16 ^ 2 := hm ▸ (v.setWidth 8).isLt
  have hlength : (numeralDigits 16 m).length ≤ 2 := (length_numeralDigits_le_iff (by decide) (by decide) _).mpr hlt
  have hpos : 0 < (numeralDigits 16 m).length := by
    rw [numeralDigits_eq (by decide), List.length_cons]
    exact Nat.succ_pos _
  have hdigits : (16#32).toInt = ((16 : Nat) : Int) := rfl
  have hpadded : paddedNumeral m 16 2 =
      List.replicate (2 - (numeralDigits 16 m).length) 0x30#8 ++ (numeralDigits 16 m).reverse.map digitChar := by
    rw [paddedNumeral, Int.natAbs_natCast, signChars, if_neg (by omega), List.nil_append, List.length_nil,
      List.length_map, List.length_reverse]
    congr 2
    omega
  rw [FormatEnv.emit, byteToStr, hm, hdigits, digitIndices_natCast (by decide) (hlt.trans_le (by decide)) (by decide)]
  dsimp only [Option.bind_eq_bind, Option.bind_some, Option.map_some]
  have hnul : 0#8 ∉ paddedNumeral m 16 2 := not_mem_paddedNumeral (by decide) (by decide) _ _
  rw [buffString_eq ?_ hnul ?_]
  · dsimp only
    rw [Overlay.put_append, put_writeDigits _ _ (by decide) (by decide), hpadded, List.append_assoc]
    obtain hone | htwo : (numeralDigits 16 m).length = 1 ∨ (numeralDigits 16 m).length = 2 := by omega
    · rw [hone, ← putString_singleton]
      exact putString_append env.buff 0 [0x30#8] _
    · rw [htwo]
      exact putString_over _ _ (List.concat_ne_nil _ _)
  · rw [hpadded, List.length_append, List.length_replicate, List.length_map, List.length_reverse]
    omega

/-- What is expected is printed. -/
theorem emit_of_expected (hdigits : conversion.HasDigits) (h : expected env.stringAt v conversion = some text) :
    env.emit v conversion = some text := by
  cases conversion with
  | signed base =>
    rw [expected] at h
    split at h
    · next hn => rw [emit_signed hdigits hn.1 hn.2, h]
    · cases h
  | unsigned base =>
    rw [expected] at h
    split at h
    · next hn => rw [emit_unsigned hdigits hn, h]
    · cases h
  | byte base =>
    obtain rfl : base = 16#32 := hdigits
    rw [emit_byte, ← h]
    rfl
  | character => exact h
  | shortString => exact h
  | string => exact h

/-- A number is always printed, right or wrong. -/
theorem emit_isSome (hdigits : conversion.HasDigits) : (env.emit v conversion).isSome = true := by
  cases conversion with
  | signed base =>
    have hrange : base.toInt = base.toNat ∧ 2 ≤ base.toNat := by
      obtain rfl | rfl | rfl := hdigits <;> decide
    obtain ⟨out, hout, -⟩ := intToStr_cases (n := v) env.around hrange.1 hrange.2
    rw [FormatEnv.emit, hout, Option.map_some, Option.isSome_some]
  | unsigned base =>
    have hrange : base.toInt = base.toNat ∧ 2 ≤ base.toNat ∧ 2 ^ 32 ≤ base.toNat ^ digitTurns := by
      obtain rfl | rfl := hdigits <;> decide
    rw [FormatEnv.emit, uintToStr, hrange.1, countDigits_toInt hrange.2.1,
      digitIndices_natCast hrange.2.1 (v.isLt.trans_le hrange.2.2) (by decide)]
    rfl
  | byte base =>
    obtain rfl : base = 16#32 := hdigits
    rw [emit_byte, Option.isSome_some]
  | character => rfl
  | shortString => rfl
  | string => rfl

/-! ### Whole formats -/

variable {pieces : List Piece} {formatted : Formatted}

theorem render_isSome (hregular : dialect.Regular) :
    (render dialect.conversions env.emit valist arg pieces).isSome = true := by
  induction pieces generalizing arg with
  | nil => rfl
  | cons piece pieces ih =>
    cases piece with
    | text c => rw [render, Option.isSome_map, ih]
    | conversion c place =>
      rw [render]
      cases hlookup : dialect.conversions.lookup c with
      | none => rfl
      | some conversion =>
        have hsome : (env.emit (valist arg) conversion).isSome = true :=
          emit_isSome (hregular.digits c conversion hlookup)
        obtain ⟨text, htext⟩ := Option.isSome_iff_exists.mp hsome
        dsimp only
        rw [htext, Option.bind_eq_bind, Option.bind_some, Option.isSome_map, ih]

theorem render_of_expected (hregular : dialect.Regular)
    (h : render dialect.conversions (expected env.stringAt) valist arg pieces = some formatted) :
    render dialect.conversions env.emit valist arg pieces = some formatted := by
  induction pieces generalizing arg formatted with
  | nil => exact h
  | cons piece pieces ih =>
    cases piece with
    | text c =>
      rw [render] at h ⊢
      obtain ⟨rest, hrest, rfl⟩ := Option.map_eq_some_iff.mp h
      rw [ih hrest, Option.map_some]
    | conversion c place =>
      rw [render] at h ⊢
      cases hlookup : dialect.conversions.lookup c with
      | none => rwa [hlookup] at h
      | some conversion =>
        rw [hlookup] at h
        dsimp only at h ⊢
        obtain ⟨text, htext, h⟩ := Option.bind_eq_some_iff.mp h
        obtain ⟨rest, hrest, rfl⟩ := Option.map_eq_some_iff.mp h
        rw [emit_of_expected (hregular.digits c conversion hlookup) htext, Option.bind_eq_bind, Option.bind_some,
          ih hrest, Option.map_some]

/-- The whole loop. -/
theorem formatFrom_zero (hregular : dialect.Regular) (hnul : 0#8 ∉ fmt) (hturns : fmt.length < turns) :
    formatFrom dialect env fmt valist turns 0 0 =
      render dialect.conversions env.emit valist 0 (piecesOf dialect.dropsSlashes 0 fmt) := by
  have hfresh : fmt.head? = some percent → Fresh [] := fun _ => by decide
  exact formatFrom_eq_render hregular hnul hfresh hturns

theorem regular_of_all (hnul : dialect.conversions.lookup 0#8 = none) (hslash : dialect.conversions.lookup slash = none)
    (hall : ∀ p ∈ dialect.conversions, p.2.HasDigits) : dialect.Regular where
  nul := hnul
  slash := hslash
  digits c conversion h := by
    obtain ⟨l₁, l₂, heq, -⟩ := List.lookup_eq_some_iff.mp h
    exact hall (c, conversion) (heq ▸ List.mem_append_right l₁ List.mem_cons_self)

theorem regular_vprintf : vprintf.Regular := regular_of_all rfl rfl (by simp [vprintf, Conversion.HasDigits])

theorem regular_sprintf : sprintf.Regular := regular_of_all rfl rfl (by simp [sprintf, Conversion.HasDigits])

theorem regular_deprecatedPrintf : deprecatedPrintf.Regular :=
  regular_of_all rfl rfl (by simp [deprecatedPrintf, Conversion.HasDigits])

/-- The printers with the ones that print their messages. -/
def IsPrinter (dialect messages : Dialect) : Prop :=
  (dialect = vprintf ∨ dialect = sprintf) ∧ messages = vprintf ∨
    dialect = deprecatedPrintf ∧ messages = deprecatedPrintf

/-- The message is a format with one conversion behind a percent sign that is printed. -/
theorem render_unknownFormat (messages : Dialect) (h : messages = vprintf ∨ messages = deprecatedPrintf)
    (v : BitVec 32) :
    render messages.conversions (expected env.stringAt) (fun _ => v) 0
      (piecesOf messages.dropsSlashes 0 unknownFormat) = some ⟨messages.message env.stringAt v, none⟩ := by
  obtain rfl | rfl := h
  · rfl
  · show some (⟨unknownText ++ [percent] ++ (cString [v.setWidth 8] ++ []), none⟩ : Formatted) = _
    rw [List.append_nil]
    rfl

end Akos
