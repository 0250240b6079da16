import Mathlib.Algebra.Ring.Nat

/-!
# Fields packed in bytes

A stream of bytes is a stream of bits, the low bit of each byte first. A little-endian word is a window of 16
bits that begins with a byte, and a table of fields of `w` bits has field `c` in the bits from `w * c` on. What
is proved about tables is that a field can be replaced without a change to the others.
-/

namespace Packed

/-- Bit `n` of a stream of bytes. -/
def bit (bytes : Nat → BitVec 8) (n : Nat) : Bool := (bytes (n / 8)).getLsbD (n % 8)

/-- The word that begins with byte `o`. -/
def word (bytes : Nat → BitVec 8) (o : Nat) : BitVec 16 := bytes (o + 1) ++ bytes o

/-- The bytes with the word at byte `o` replaced. -/
def setWord (bytes : Nat → BitVec 8) (o : Nat) (v : BitVec 16) (n : Nat) : BitVec 8 :=
  if n = o then v.setWidth 8 else if n = o + 1 then (v >>> 8).setWidth 8 else bytes n

variable {bytes bytes' : Nat → BitVec 8} {o n k w c c' : Nat} {v : BitVec 16}

theorem bit_mul_add (hk : k < 8) : bit bytes (8 * o + k) = (bytes o).getLsbD k := by
  rw [bit, Nat.mul_add_div (by decide), Nat.mul_add_mod, Nat.mod_eq_of_lt hk, Nat.div_eq_of_lt hk, Nat.add_zero]

theorem getLsbD_word (hk : k < 16) : (word bytes o).getLsbD k = bit bytes (8 * o + k) := by
  rw [word, BitVec.getLsbD_append]
  split
  · next hlow => rw [bit_mul_add hlow]
  · next hhigh =>
    have hsplit : 8 * o + k = 8 * (o + 1) + (k - 8) := by omega
    rw [hsplit, bit_mul_add (by omega)]

/-- The bits of the stream after a word was replaced. -/
theorem bit_setWord : bit (setWord bytes o v) n =
    if 8 * o ≤ n ∧ n < 8 * o + 16 then v.getLsbD (n - 8 * o) else bit bytes n := by
  have hn : n = 8 * (n / 8) + n % 8 := (Nat.div_add_mod n 8).symm
  have hlt : n % 8 < 8 := Nat.mod_lt n (by decide)
  rw [bit, setWord]
  by_cases hlow : n / 8 = o
  · rw [if_pos hlow, if_pos (by omega), BitVec.getLsbD_setWidth, decide_eq_true hlt, Bool.true_and]
    congr 1
    omega
  rw [if_neg hlow]
  by_cases hhigh : n / 8 = o + 1
  · rw [if_pos hhigh, if_pos (by omega), BitVec.getLsbD_setWidth, decide_eq_true hlt, Bool.true_and,
      BitVec.getLsbD_ushiftRight]
    congr 1
    omega
  rw [if_neg hhigh, if_neg (by omega), bit]

theorem word_setWord_self : word (setWord bytes o v) o = v := by
  refine BitVec.eq_of_getLsbD_eq fun k hk => ?_
  rw [getLsbD_word hk, bit_setWord, if_pos (by omega), Nat.add_sub_cancel_left]

/-- A word keeps its value when another one is replaced. -/
theorem word_setWord_of_apart {o' : Nat} (h : o + 1 < o' ∨ o' + 1 < o) :
    word (setWord bytes o v) o' = word bytes o' := by
  rw [word, word, setWord, setWord, if_neg (by omega), if_neg (by omega), if_neg (by omega), if_neg (by omega)]

/-! ### Tables of fields -/

/-- The value is that of field `c` of a table with fields of `w` bits. -/
def IsField (bytes : Nat → BitVec 8) (w c : Nat) (v : Nat → Bool) : Prop := ∀ k < w, bit bytes (w * c + k) = v k

/-- The second stream is the first one with field `c` replaced. -/
structure Replaces (bytes bytes' : Nat → BitVec 8) (w c : Nat) (v : Nat → Bool) : Prop where
  field : IsField bytes' w c v
  others : ∀ n, ¬ (w * c ≤ n ∧ n < w * c + w) → bit bytes' n = bit bytes n

theorem Replaces.isField_of_ne {v u : Nat → Bool} (h : Replaces bytes bytes' w c v) (hne : c' ≠ c) :
    IsField bytes' w c' u ↔ IsField bytes w c' u := by
  have hbit : ∀ k < w, bit bytes' (w * c' + k) = bit bytes (w * c' + k) := by
    intro k hk
    refine h.others _ fun hin => hne ?_
    obtain ⟨hle, hlt⟩ := hin
    refine Nat.le_antisymm (Nat.le_of_lt_succ ?_) (Nat.le_of_lt_succ ?_)
    · refine Nat.lt_of_mul_lt_mul_left (a := w) ?_
      rw [Nat.mul_succ]
      omega
    · refine Nat.lt_of_mul_lt_mul_left (a := w) ?_
      rw [Nat.mul_succ]
      omega
  exact forall₂_congr fun k hk => by rw [hbit k hk]

end Packed
