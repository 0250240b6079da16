import Akos.Utils.Strings

/-!
# Cutting a string and joining its pieces

The loop of `seperate_and_take` as it runs: it does not keep the characters of a piece but where the piece starts and
how long it is so far. At a separator the length is set to −1, since the round ends with `len++`. What it copies is the
piece between two separators, and the pieces that `count_substrings` counts make up the string.
-/

namespace Akos

/-- The locals of the loop. -/
structure Cutter where
  currIndex : Nat
  len : Int
  strStart : Nat

namespace Cutter

/-- `memcpy (buff, str_start, len)` -/
def buff (s : Cutter) (str : List Byte) : List Byte := (str.drop s.strStart).take s.len.toNat

/-- The rounds from the character at `i` on. -/
def loop (str : List Byte) (seperator : Byte) (index : Nat) : Nat → Cutter → List Byte → List Byte
  | _, s, [] => if s.currIndex = index then s.buff str else str
  | i, s, c :: rest =>
    if c = seperator then
      if s.currIndex = index then s.buff str
      else loop str seperator index (i + 1) ⟨s.currIndex + 1, -1 + 1, i + 1⟩ rest
    else loop str seperator index (i + 1) { s with len := s.len + 1 } rest

def seperateAndTake (str : List Byte) (seperator : Byte) (index : Nat) : List Byte :=
  loop str seperator index 0 ⟨0, 0, 0⟩ str

variable {str pre piece rest : List Byte} {seperator : Byte} {index currIndex : Nat}

theorem buff_eq (hstr : str = pre ++ (piece ++ rest)) : buff ⟨currIndex, piece.length, pre.length⟩ str = piece := by
  rw [buff, hstr, List.drop_left, Int.toNat_natCast, List.take_left]

/-- The start and the length stand for the characters since the last separator. -/
theorem loop_eq (hstr : str = pre ++ (piece ++ rest)) :
    loop str seperator index (pre.length + piece.length) ⟨currIndex, piece.length, pre.length⟩ rest =
      seperateFrom str seperator index rest currIndex piece := by
  induction rest generalizing pre piece currIndex with
  | nil => rw [loop, seperateFrom, buff_eq hstr]
  | cons c rest ih =>
    rw [loop, seperateFrom, buff_eq hstr]
    by_cases hc : c = seperator
    · rw [if_pos hc, if_pos hc]
      -- the next piece is empty and starts behind the separator
      have hnext : str = (pre ++ (piece ++ [c])) ++ ([] ++ rest) := by simp [hstr]
      have ih := @ih _ [] (currIndex + 1) hnext
      simp only [List.length_append, List.length_singleton, List.length_nil, Nat.add_zero] at ih
      rw [← ih, Nat.add_assoc]
      rfl
    · rw [if_neg hc, if_neg hc]
      have hnext : str = pre ++ ((piece ++ [c]) ++ rest) := by simp [hstr]
      rw [← ih hnext, List.length_append, List.length_singleton, Int.natCast_succ, Nat.add_assoc]

theorem seperateAndTake_eq (str : List Byte) (seperator : Byte) (index : Nat) :
    seperateAndTake str seperator index = Akos.seperateAndTake str seperator index :=
  @loop_eq str [] [] str seperator index 0 rfl

end Cutter

section

variable {str : List Byte} {seperator : Byte}

theorem joinPieces_eq_intercalate (pieces : List (List Byte)) :
    joinPieces seperator pieces = [seperator].intercalate ([] :: pieces) := by
  induction pieces with
  | nil => rfl
  | cons p pieces ih =>
    rw [joinPieces, List.flatMap_cons, ← joinPieces, ih]
    cases pieces with
    | nil => simp
    | cons q pieces => simp

theorem not_mem_seperateAndTake {i : Nat} (hi : i < (str.splitOn seperator).length) :
    seperator ∉ seperateAndTake str seperator i := by
  intro hmem
  rw [seperateAndTake_splitOn, List.getElem?_eq_getElem hi, Option.getD_some] at hmem
  exact (mem_of_mem_splitOn (List.getElem_mem hi) hmem).2 rfl

theorem map_seperateAndTake_succ {n : Nat} (hlength : (str.splitOn seperator).length = n + 1) :
    ((List.range n).map fun i => seperateAndTake str seperator (i + 1)) = (str.splitOn seperator).tail := by
  have hall := map_seperateAndTake (Nat.le_of_eq hlength.symm)
  rw [List.range_succ_eq_map, List.map_cons, List.map_map, List.take_of_length_le (Nat.le_of_eq hlength)] at hall
  rw [← hall, List.tail_cons]
  rfl

/-- The pieces of a string make up the string, and none holds the separator. A separator in front makes an empty first
piece, which is not counted. -/
theorem joined_of_cut (str : List Byte) (seperator : Byte) :
    (str.head? ≠ some seperator →
      [seperator].intercalate
          ((List.range (countSubstrings str seperator)).map (Cutter.seperateAndTake str seperator)) = str ∧
        ∀ i < countSubstrings str seperator, seperator ∉ Cutter.seperateAndTake str seperator i) ∧
    (str.head? = some seperator →
      joinPieces seperator ((List.range (countSubstrings str seperator)).map fun i =>
          Cutter.seperateAndTake str seperator (i + 1)) = str ∧
        ∀ i ≤ countSubstrings str seperator, seperator ∉ Cutter.seperateAndTake str seperator i) := by
  have hcut : Cutter.seperateAndTake str seperator = seperateAndTake str seperator :=
    funext (Cutter.seperateAndTake_eq str seperator)
  have hcount := countSubstrings_splitOn str seperator
  rw [hcut]
  constructor
  · intro hhead
    rw [if_neg hhead, Nat.add_zero] at hcount
    rw [hcount]
    constructor
    · rw [map_seperateAndTake (Nat.le_refl _), List.take_length, List.intercalate_splitOn]
    · exact fun i hi => not_mem_seperateAndTake hi
  · intro hhead
    rw [if_pos hhead] at hcount
    constructor
    · have hfirst : str.splitOn seperator = [] :: (str.splitOn seperator).tail := by
        obtain ⟨rest, rfl⟩ := List.head?_eq_some_iff.mp hhead
        rw [List.splitOn_cons_eq_if_modifyHead, if_pos (beq_self_eq_true seperator), List.tail_cons]
      rw [map_seperateAndTake_succ hcount.symm, joinPieces_eq_intercalate, ← hfirst, List.intercalate_splitOn]
    · exact fun i hi => not_mem_seperateAndTake (hcount ▸ Nat.lt_succ_of_le hi)

/-- A command with an argument, and a path. -/
theorem joined_of_cut_path :
    ([0x20#8].intercalate
        ((List.range (countSubstrings [0x63, 0x64, 0x20, 0x61] 0x20)).map
          (Cutter.seperateAndTake [0x63, 0x64, 0x20, 0x61] 0x20)) = [0x63, 0x64, 0x20, 0x61] ∧
      ∀ i < countSubstrings [0x63, 0x64, 0x20, 0x61] 0x20,
        0x20#8 ∉ Cutter.seperateAndTake [0x63, 0x64, 0x20, 0x61] 0x20 i) ∧
    (joinPieces 0x5C
        ((List.range (countSubstrings [0x5C, 0x61, 0x5C, 0x62] 0x5C)).map fun i =>
          Cutter.seperateAndTake [0x5C, 0x61, 0x5C, 0x62] 0x5C (i + 1)) = [0x5C, 0x61, 0x5C, 0x62] ∧
      ∀ i ≤ countSubstrings [0x5C, 0x61, 0x5C, 0x62] 0x5C,
        0x5C#8 ∉ Cutter.seperateAndTake [0x5C, 0x61, 0x5C, 0x62] 0x5C i) :=
  ⟨(joined_of_cut [0x63, 0x64, 0x20, 0x61] 0x20).1 (by decide),
    (joined_of_cut [0x5C, 0x61, 0x5C, 0x62] 0x5C).2 rfl⟩

end

end Akos
