import Akos.Lib.Overlay
import Akos.Lib.StepBound
import Akos.Utils.Strings
import Mathlib.Algebra.Ring.Int.Defs
import Mathlib.Data.List.Induction

/-!
# Strings in memory

Memory is read at addresses that count up by one, those of the machine or distances from some place. A string is held
from an address on when its characters follow each other there, and its length is found by going on to its end.
-/

namespace Akos

section

variable {ι : Type} [AddCommMonoidWithOne ι] {memory : ι → Byte} {start : ι} {xs ys str : List Byte} {c : Byte}

/-- The characters follow each other from an address on. -/
def HoldsAt (memory : ι → Byte) : ι → List Byte → Prop
  | _, [] => True
  | start, c :: cs => memory start = c ∧ HoldsAt memory (start + 1) cs

theorem holdsAt_append :
    HoldsAt memory start (xs ++ ys) ↔ HoldsAt memory start xs ∧ HoldsAt memory (start + xs.length) ys := by
  induction xs generalizing start with
  | nil => simp [HoldsAt]
  | cons x xs ih =>
    rw [List.cons_append, HoldsAt, HoldsAt, ih, and_assoc, List.length_cons, Nat.cast_succ,
      add_comm (xs.length : ι) 1, ← add_assoc]

theorem holdsAt_of_getElem? (h : ∀ (i : Nat) c, str[i]? = some c → memory (start + (i : ι)) = c) :
    HoldsAt memory start str := by
  induction str generalizing start with
  | nil => trivial
  | cons c str ih =>
    constructor
    · have hfirst := h 0 c rfl
      rwa [Nat.cast_zero, add_zero] at hfirst
    · refine ih fun i c' hi => ?_
      rw [add_assoc, add_comm 1, ← Nat.cast_succ]
      exact h (i + 1) c' hi

/-- What is held depends on the bytes of the string only. -/
theorem HoldsAt.congr {memory' : ι → Byte} (h : HoldsAt memory start xs)
    (heq : ∀ i < xs.length, memory' (start + (i : ι)) = memory (start + (i : ι))) : HoldsAt memory' start xs := by
  induction xs generalizing start with
  | nil => trivial
  | cons x xs ih =>
    constructor
    · have hfirst := heq 0 (Nat.zero_lt_succ _)
      rw [Nat.cast_zero, add_zero] at hfirst
      exact hfirst.trans h.1
    · refine ih h.2 fun i hi => ?_
      rw [add_assoc, add_comm 1, ← Nat.cast_succ]
      exact heq (i + 1) (Nat.succ_lt_succ hi)

theorem HoldsAt.last (h : HoldsAt memory start (xs ++ [c])) : memory (start + xs.length) = c :=
  (holdsAt_append.mp h).2.1

/-- A string of memory, with its end. -/
structure HoldsString (memory : ι → Byte) (str : List Byte) : Prop where
  holds : HoldsAt memory 0 (str ++ [0#8])
  not_mem : 0#8 ∉ str

/-- Two strings at one address are the same. -/
theorem HoldsAt.unique (h : HoldsAt memory start (xs ++ [0#8])) (h' : HoldsAt memory start (ys ++ [0#8]))
    (hxs : 0#8 ∉ xs) (hys : 0#8 ∉ ys) : xs = ys := by
  induction xs generalizing start ys with
  | nil =>
    cases ys with
    | nil => rfl
    | cons y ys => exact absurd (h.1.symm.trans h'.1 ▸ List.mem_cons_self) hys
  | cons x xs ih =>
    cases ys with
    | nil => exact absurd (h'.1.symm.trans h.1 ▸ List.mem_cons_self) hxs
    | cons y ys =>
      rw [ih h.2 h'.2 (fun hmem => hxs (List.mem_cons_of_mem _ hmem)) (fun hmem => hys (List.mem_cons_of_mem _ hmem)),
        h.1.symm.trans h'.1]

theorem HoldsString.unique (h : HoldsString memory xs) (h' : HoldsString memory ys) : xs = ys :=
  h.holds.unique h'.holds h.not_mem h'.not_mem

def strlenFrom (memory : ι → Byte) : Nat → ι → Option ι
  | 0, _ => none
  | turns + 1, len => if memory len = 0#8 then some len else strlenFrom memory turns (len + 1)

def strlen (memory : ι → Byte) (turns : Nat) : Option ι := strlenFrom memory turns 0

theorem strlenFrom_eq (h : HoldsAt memory start (str ++ [0#8])) (hmem : 0#8 ∉ str) {turns : Nat}
    (hturns : str.length < turns) : strlenFrom memory turns start = some (start + str.length) := by
  induction str generalizing start turns with
  | nil =>
    obtain ⟨turns, rfl⟩ := Nat.exists_eq_add_of_lt hturns
    rw [strlenFrom, if_pos h.1, List.length_nil, Nat.cast_zero, add_zero]
  | cons c str ih =>
    obtain ⟨turns, rfl⟩ := Nat.exists_eq_add_of_lt hturns
    have hne : memory start ≠ 0#8 := by
      rw [h.1]
      exact fun heq => hmem (heq ▸ List.mem_cons_self)
    rw [strlenFrom, if_neg hne, ih h.2 (fun hmem' => hmem (List.mem_cons_of_mem _ hmem'))
      (by rw [List.length_cons]; omega), List.length_cons, Nat.cast_succ, add_comm (str.length : ι) 1, ← add_assoc]

theorem strlen_eq (h : HoldsString memory str) {turns : Nat} (hturns : str.length < turns) :
    strlen memory turns = some (str.length : ι) := by
  rw [strlen, strlenFrom_eq h.holds h.not_mem hturns, zero_add]

end

/-! ### Strings in buffers -/

/-- A string at some place of a buffer. -/
def putString (buffer : Int → Byte) (start : Int) (str : List Byte) : Int → Byte := fun k =>
  if start ≤ k then (str[(k - start).toNat]?).getD (buffer k) else buffer k

variable {buffer : Int → Byte} {start : Int} {xs ys : List Byte}

/-- A string that was moved down. -/
theorem HoldsAt.move {memory memory' : Int → Byte} {distance : Int} (h : HoldsAt memory (start + distance) xs)
    (heq : ∀ k, start ≤ k → k < start + xs.length → memory' k = memory (k + distance)) : HoldsAt memory' start xs := by
  induction xs generalizing start with
  | nil => trivial
  | cons x xs ih =>
    rw [List.length_cons] at heq
    constructor
    · rw [heq start (by omega) (by omega)]
      exact h.1
    · refine ih ?_ fun k hle hlt => heq k (by omega) (by omega)
      rw [show start + 1 + distance = start + distance + 1 by omega]
      exact h.2

theorem holdsAt_putString (buffer : Int → Byte) (start : Int) (str : List Byte) :
    HoldsAt (putString buffer start str) start str := by
  refine holdsAt_of_getElem? fun i c hi => ?_
  rw [putString, if_pos (by omega), show (start + (i : Int) - start).toNat = i by omega, hi, Option.getD_some]

theorem putString_nil (buffer : Int → Byte) (start : Int) : putString buffer start [] = buffer := by
  funext k
  simp [putString]

theorem putString_append (buffer : Int → Byte) (start : Int) (xs ys : List Byte) :
    putString (putString buffer start xs) (start + xs.length) ys = putString buffer start (xs ++ ys) := by
  funext k
  simp only [putString]
  by_cases hfirst : start ≤ k
  · by_cases hlast : start + xs.length ≤ k
    · have hindex : (k - start).toNat = xs.length + (k - (start + xs.length)).toNat := by omega
      rw [if_pos hlast, if_pos hfirst, if_pos hfirst, hindex, List.getElem?_append_right (by omega),
        Nat.add_sub_cancel_left, List.getElem?_eq_none (Nat.le_add_right _ _), Option.getD_none]
    · rw [if_neg hlast, if_pos hfirst, if_pos hfirst, List.getElem?_append_left (by omega)]
  · rw [if_neg (by omega), if_neg hfirst, if_neg hfirst]

theorem putString_singleton (buffer : Int → Byte) (start : Int) (c : Byte) :
    putString buffer start [c] = Overlay.put buffer [(start, c)] := by
  funext k
  rw [putString, Overlay.put, List.foldl_cons, List.foldl_nil]
  by_cases heq : start = k
  · simp [heq]
  · rw [if_neg heq]
    split
    · rw [List.getElem?_eq_none (by simp; omega), Option.getD_none]
    · rfl

theorem putString_cons (buffer : Int → Byte) (start : Int) (c : Byte) (xs : List Byte) :
    putString buffer start (c :: xs) = Overlay.put (putString buffer (start + 1) xs) [(start, c)] := by
  funext k
  rw [Overlay.put, List.foldl_cons, List.foldl_nil, putString, putString]
  by_cases heq : start = k
  · simp [heq]
  · rw [if_neg heq]
    by_cases hle : start + 1 ≤ k
    · rw [if_pos hle, if_pos (by omega), show (k - start).toNat = (k - (start + 1)).toNat + 1 by omega,
        List.getElem?_cons_succ]
    · rw [if_neg hle, if_neg (by omega)]

theorem putString_start_le {start start' : Int} (hxs : xs ≠ [])
    (h : ∀ buffer, putString buffer start xs = putString buffer start' ys) : start' ≤ start := by
  by_contra hlt
  obtain ⟨x, xs, rfl⟩ := List.exists_cons_of_ne_nil hxs
  have hat := congrFun (h fun _ => x + 1#8) start
  simp [putString, hlt] at hat

/-- Two strings that are always the same in a buffer start at one place. -/
theorem start_eq_of_putString {start start' : Int} (hxs : xs ≠ []) (hys : ys ≠ [])
    (h : ∀ buffer, putString buffer start xs = putString buffer start' ys) : start = start' :=
  Int.le_antisymm (putString_start_le hys fun buffer => (h buffer).symm) (putString_start_le hxs h)

/-- Equal characters from one place on. -/
theorem put_range (buffer : Int → Byte) (start : Int) (c : Byte) (n : Nat) :
    Overlay.put buffer ((List.range n).map fun k : Nat => (start + (k : Int), c)) =
      putString buffer start (List.replicate n c) := by
  induction n with
  | zero => rw [List.replicate_zero, putString_nil, List.range_zero, List.map_nil, Overlay.put_nil]
  | succ n ih =>
    rw [List.range_succ, List.map_append, Overlay.put_append, ih, List.replicate_succ', ← putString_append,
      List.length_replicate, putString_singleton]
    rfl

/-- Characters from the last one down. -/
theorem put_mapIdx {α : Type} (buffer : Int → Byte) (stop : Int) (f : α → Byte) (ds : List α) :
    Overlay.put buffer (ds.mapIdx fun i d => (stop - 1 - (i : Int), f d)) =
      putString buffer (stop - ds.length) (ds.reverse.map f) := by
  induction ds using List.reverseRecOn with
  | nil => rw [List.reverse_nil, List.map_nil, putString_nil, List.mapIdx_nil, Overlay.put_nil]
  | append_singleton ds d ih =>
    rw [List.mapIdx_concat, Overlay.put_append, ih, List.reverse_append, List.reverse_singleton,
      List.singleton_append, List.map_cons, putString_cons, List.length_append, List.length_singleton]
    have hstart : stop - ((ds.length + 1 : Nat) : Int) = stop - 1 - ds.length := by omega
    rw [hstart, show stop - 1 - (ds.length : Int) + 1 = stop - ds.length by omega]

end Akos
