import Mathlib.Algebra.Ring.Nat
import Mathlib.Data.List.Count

/-!
# Strings

The functions of `strings.c` and `memory.c` that take names and paths apart. A string is the list of its
characters, without the terminator; the null pointer is the empty string for them.
-/

namespace Akos

abbrev Byte := BitVec 8

/-- The string in an array of characters. -/
def cString (bytes : List Byte) : List Byte := bytes.takeWhile (· ≠ 0#8)

def strcmp (s1 s2 : List Byte) : Bool := s1 = s2

def toUpper (str : List Byte) : List Byte :=
  str.map fun c => if 0x61#8 ≤ c ∧ c ≤ 0x7A#8 then c - 0x20#8 else c

/-- The loop of `seperate_and_take`, with the characters since the last separator. -/
def seperateFrom (str : List Byte) (seperator : Byte) (index : Nat) : List Byte → Nat → List Byte → List Byte
  | [], currIndex, piece => if currIndex = index then piece else str
  | c :: rest, currIndex, piece =>
    if c = seperator then
      if currIndex = index then piece else seperateFrom str seperator index rest (currIndex + 1) []
    else seperateFrom str seperator index rest currIndex (piece ++ [c])

def seperateAndTake (str : List Byte) (seperator : Byte) (index : Nat) : List Byte :=
  seperateFrom str seperator index str 0 []

/-- A separator in front is not counted. -/
def countSubstrings (str : List Byte) (seperator : Byte) : Nat := 1 + str.tail.count seperator

/-! ### Pieces between separators -/

section

variable {str cs rest : List Byte} {seperator : Byte} {index currIndex : Nat} {piece : List Byte}

/-- The piece that is looked for goes up to the next separator. -/
theorem seperateFrom_self (cs piece : List Byte) :
    seperateFrom str seperator index cs index piece = piece ++ cs.takeWhile (· ≠ seperator) := by
  induction cs generalizing piece with
  | nil => rw [seperateFrom, if_pos rfl, List.takeWhile_nil, List.append_nil]
  | cons c cs ih =>
    rw [seperateFrom]
    split
    · next heq => rw [if_pos rfl, List.takeWhile_cons_of_neg (by simp [heq]), List.append_nil]
    · next hne => rw [ih, List.takeWhile_cons_of_pos (by simp [hne]), List.append_assoc, List.singleton_append]

/-- A piece in front of it is passed over. -/
theorem seperateFrom_pass (hcs : seperator ∉ cs) (hindex : currIndex ≠ index) :
    seperateFrom str seperator index (cs ++ seperator :: rest) currIndex piece =
      seperateFrom str seperator index rest (currIndex + 1) [] := by
  induction cs generalizing piece with
  | nil => rw [List.nil_append, seperateFrom, if_pos rfl, if_neg hindex]
  | cons c cs ih =>
    rw [List.cons_append, seperateFrom, if_neg (List.ne_of_not_mem_cons hcs).symm,
      ih (List.not_mem_of_not_mem_cons hcs)]

theorem seperateFrom_append (hcs : seperator ∉ cs) : seperateFrom str seperator index (cs ++ rest) currIndex piece =
    seperateFrom str seperator index rest currIndex (piece ++ cs) := by
  induction cs generalizing piece with
  | nil => rw [List.nil_append, List.append_nil]
  | cons c cs ih =>
    rw [List.cons_append, seperateFrom, if_neg (List.ne_of_not_mem_cons hcs).symm,
      ih (List.not_mem_of_not_mem_cons hcs), List.append_assoc, List.singleton_append]

/-- A separator in front of every piece. -/
def joinPieces (seperator : Byte) (pieces : List (List Byte)) : List Byte := pieces.flatMap (seperator :: ·)

variable {pieces : List (List Byte)}

theorem takeWhile_append_joinPieces (hcs : seperator ∉ cs) :
    (cs ++ joinPieces seperator pieces).takeWhile (· ≠ seperator) = cs := by
  rw [List.takeWhile_append_of_pos fun c hc => ?_]
  · cases pieces with
    | nil => rw [joinPieces, List.flatMap_nil, List.takeWhile_nil, List.append_nil]
    | cons p pieces =>
      rw [joinPieces, List.flatMap_cons, List.cons_append, List.takeWhile_cons_of_neg (by simp), List.append_nil]
  · rw [decide_eq_true_iff]
    exact fun heq => hcs (heq ▸ hc)

/-- The pieces are found by their number. -/
theorem seperateFrom_joinPieces {i : Nat} (hpieces : ∀ p ∈ pieces, seperator ∉ p) (hi : i < pieces.length) :
    seperateFrom str seperator (currIndex + 1 + i) (joinPieces seperator pieces) currIndex piece = pieces[i] := by
  induction pieces generalizing currIndex piece i with
  | nil => exact absurd hi (Nat.not_lt_zero i)
  | cons p pieces ih =>
    have hp := hpieces p List.mem_cons_self
    rw [joinPieces, List.flatMap_cons, List.cons_append, seperateFrom, if_pos rfl, if_neg (by omega), ← joinPieces]
    cases i with
    | zero => rw [Nat.add_zero, seperateFrom_self, List.nil_append, takeWhile_append_joinPieces hp, List.getElem_cons_zero]
    | succ i =>
      rw [seperateFrom_append hp, List.getElem_cons_succ, Nat.add_comm i, ← Nat.add_assoc]
      exact ih (fun p' hp' => hpieces p' (List.mem_cons_of_mem p hp')) (Nat.lt_of_succ_lt_succ hi)

theorem seperateAndTake_joinPieces {i : Nat} (hpieces : ∀ p ∈ pieces, seperator ∉ p) (hi : i < pieces.length) :
    seperateAndTake (joinPieces seperator pieces) seperator (i + 1) = pieces[i] := by
  rw [seperateAndTake, Nat.add_comm i, ← Nat.zero_add 1]
  exact seperateFrom_joinPieces hpieces hi

theorem countSubstrings_joinPieces (hpieces : ∀ p ∈ pieces, seperator ∉ p) (hne : pieces ≠ []) :
    countSubstrings (joinPieces seperator pieces) seperator = pieces.length := by
  have hcount : (joinPieces seperator pieces).count seperator = pieces.length := by
    clear hne
    induction pieces with
    | nil => rfl
    | cons p pieces ih =>
      rw [joinPieces, List.flatMap_cons, List.cons_append, List.count_cons_self, List.count_append,
        List.count_eq_zero.mpr (hpieces p List.mem_cons_self), Nat.zero_add, List.length_cons, ← joinPieces,
        ih fun p' hp' => hpieces p' (List.mem_cons_of_mem p hp')]
  obtain ⟨p, pieces, rfl⟩ := List.exists_cons_of_ne_nil hne
  rw [joinPieces, List.flatMap_cons, List.cons_append, List.count_cons_self, ← joinPieces] at hcount
  rw [countSubstrings, joinPieces, List.flatMap_cons, List.cons_append, List.tail_cons, ← joinPieces, ← hcount,
    Nat.add_comm]

theorem seperateAndTake_zero : seperateAndTake str seperator 0 = str.takeWhile (· ≠ seperator) := by
  rw [seperateAndTake, seperateFrom_self, List.nil_append]

theorem seperateAndTake_one (hcs : seperator ∉ cs) :
    seperateAndTake (cs ++ seperator :: rest) seperator 1 = rest.takeWhile (· ≠ seperator) := by
  rw [seperateAndTake, seperateFrom_pass hcs Nat.zero_ne_one, seperateFrom_self, List.nil_append]

/-! ### All pieces of a string -/

theorem modifyHead_nil_append (ps : List (List Byte)) : ps.modifyHead ([] ++ ·) = ps := by cases ps <;> rfl

/-- A piece is found by its number, and the whole string for a number that is too large. -/
theorem seperateFrom_splitOn (i : Nat) (cs piece : List Byte) :
    seperateFrom str seperator (currIndex + i) cs currIndex piece =
      ((cs.splitOn seperator).modifyHead (piece ++ ·))[i]?.getD str := by
  induction cs generalizing currIndex i piece with
  | nil =>
    rw [seperateFrom, List.splitOn_nil, List.modifyHead_cons, List.append_nil]
    cases i with
    | zero => rw [if_pos (Nat.add_zero _).symm]; rfl
    | succ i => rw [if_neg (by omega)]; rfl
  | cons c cs ih =>
    rw [seperateFrom, List.splitOn_cons_eq_if_modifyHead]
    split
    · next heq =>
      rw [if_pos (beq_iff_eq.mpr heq), List.modifyHead_cons, List.append_nil]
      cases i with
      | zero => rw [if_pos (Nat.add_zero _).symm]; rfl
      | succ i =>
        have hindex : currIndex + (i + 1) = currIndex + 1 + i := by omega
        rw [if_neg (by omega), hindex, ih, modifyHead_nil_append, List.getElem?_cons_succ]
    · next hne =>
      rw [if_neg (fun h => hne (beq_iff_eq.mp h)), ih, List.modifyHead_modifyHead]
      congr 3
      funext p
      exact List.append_cons piece c p |>.symm

theorem seperateAndTake_splitOn (str : List Byte) (seperator : Byte) (i : Nat) :
    seperateAndTake str seperator i = (str.splitOn seperator)[i]?.getD str := by
  have h := @seperateFrom_splitOn str seperator 0 i str []
  rw [Nat.zero_add] at h
  rw [seperateAndTake, h, modifyHead_nil_append]

theorem length_splitOn (str : List Byte) (seperator : Byte) :
    (str.splitOn seperator).length = str.count seperator + 1 := by
  induction str with
  | nil => rfl
  | cons c str ih =>
    rw [List.splitOn_cons_eq_if_modifyHead, List.count_cons]
    split
    · rw [List.length_cons, ih]
    · rw [List.length_modifyHead, ih, Nat.add_zero]

theorem mem_of_mem_splitOn {c : Byte} (hpiece : piece ∈ str.splitOn seperator) (hc : c ∈ piece) :
    c ∈ str ∧ c ≠ seperator := by
  induction str generalizing piece with
  | nil =>
    obtain rfl := List.mem_singleton.mp hpiece
    cases hc
  | cons x str ih =>
    rw [List.splitOn_cons_eq_if_modifyHead] at hpiece
    split at hpiece
    · obtain rfl | hpiece := List.mem_cons.mp hpiece
      · cases hc
      · exact (ih hpiece hc).imp_left (List.mem_cons_of_mem x)
    · next hne =>
      obtain ⟨p, ps, hps⟩ := List.exists_cons_of_ne_nil (List.splitOn_ne_nil seperator str)
      rw [hps, List.modifyHead_cons] at hpiece
      rw [hps] at ih
      obtain rfl | hpiece := List.mem_cons.mp hpiece
      · obtain rfl | hc := List.mem_cons.mp hc
        · exact ⟨List.mem_cons_self, fun heq => hne (beq_iff_eq.mpr heq)⟩
        · exact (ih List.mem_cons_self hc).imp_left (List.mem_cons_of_mem x)
      · exact (ih (List.mem_cons_of_mem p hpiece) hc).imp_left (List.mem_cons_of_mem x)

/-- The pieces that are counted are the first ones. -/
theorem map_seperateAndTake {n : Nat} (hle : n ≤ (str.splitOn seperator).length) :
    (List.range n).map (seperateAndTake str seperator) = (str.splitOn seperator).take n := by
  refine List.ext_getElem (by simp [hle]) fun i hi hi' => ?_
  rw [List.length_map, List.length_range] at hi
  rw [List.getElem_map, List.getElem_range, List.getElem_take, seperateAndTake_splitOn,
    List.getElem?_eq_getElem (by omega), Option.getD_some]

/-- All pieces are counted, but for one when there is a separator in front. -/
theorem countSubstrings_splitOn (str : List Byte) (seperator : Byte) :
    countSubstrings str seperator + (if str.head? = some seperator then 1 else 0) = (str.splitOn seperator).length := by
  rw [countSubstrings, length_splitOn]
  cases str with
  | nil => rfl
  | cons c str =>
    rw [List.tail_cons, List.count_cons, List.head?_cons]
    by_cases heq : c = seperator
    · rw [if_pos (congrArg some heq), if_pos (beq_iff_eq.mpr heq)]
      omega
    · rw [if_neg (fun h => heq (Option.some.inj h)), if_neg (fun h => heq (beq_iff_eq.mp h))]
      omega
end

/-- `memcpy (dest + first, source + start, count)` -/
def memcpy (dest : Nat → Byte) (first : Nat) (source : Nat → Byte) (start count : Nat) : Nat → Byte :=
  fun k => if first ≤ k ∧ k < first + count then source (start + (k - first)) else dest k

theorem memcpy_zero (dest : Nat → Byte) (first : Nat) (source : Nat → Byte) (start : Nat) :
    memcpy dest first source start 0 = dest := by
  funext k
  rw [memcpy, if_neg (by omega)]

/-- Two pieces that follow each other, in the source and in the destination. -/
theorem memcpy_memcpy {dest source : Nat → Byte} {first start count n : Nat} (h : count ≤ n) :
    memcpy (memcpy dest first source start count) (first + count) source (start + count) (n - count)
      = memcpy dest first source start n := by
  funext k
  unfold memcpy
  by_cases hsecond : first + count ≤ k ∧ k < first + count + (n - count)
  · rw [if_pos hsecond, if_pos (by omega)]
    congr 1
    omega
  rw [if_neg hsecond]
  by_cases hfirst : first ≤ k ∧ k < first + count
  · rw [if_pos hfirst, if_pos (by omega)]
  · rw [if_neg hfirst, if_neg (by omega)]

end Akos
