import Akos.Utils.StringMemory
import Mathlib.Data.List.DropRight

/-!
# Stripping

`strip_character`, `strip_from_start` and `strip_from_end` of `strings.c` delete characters in place: what is behind
one is moved down. The shell strips the spaces from both ends of its command line.
-/

namespace Akos

/-! ### The loops -/

/-- `for (int j = i; j < len; j++) str[j] = str[j+1];`, with the turns that are left. -/
def shiftFrom (str : Int → Byte) : Nat → Int → List (Int × Byte)
  | 0, _ => []
  | turns + 1, j => (j, str (j + 1)) :: shiftFrom (Overlay.put str [(j, str (j + 1))]) turns (j + 1)

def shift (str : Int → Byte) (i len : Int) : List (Int × Byte) := shiftFrom str (len - i).toNat i

/-- The loop over the characters from the start on, which goes on or stops at another character. -/
def stripLoop (stops : Bool) (character : Byte) : Nat → (Int → Byte) → Int → Int → Option (List (Int × Byte))
  | 0, _, _, _ => none
  | turns + 1, str, i, len =>
    if i < len then
      if str i = character then
        let writes := shift str i len
        -- `len--; i--;`, and `i++` in the head of the loop
        (stripLoop stops character turns (Overlay.put str writes) (i - 1 + 1) (len - 1)).map (writes ++ ·)
      else if stops then some [] else stripLoop stops character turns str (i + 1) len
    else some []

def stripCharacter (str : Int → Byte) (character : Byte) (turns : Nat) : Option (List (Int × Byte)) := do
  let len ← strlen str turns
  stripLoop false character turns str 0 len

def stripFromStart (str : Int → Byte) (character : Byte) (turns : Nat) : Option (List (Int × Byte)) := do
  let len ← strlen str turns
  stripLoop true character turns str 0 len

/-- The loop over the characters from the end on. -/
def stripEndLoop (character : Byte) (len : Int) : Nat → (Int → Byte) → Int → Option (List (Int × Byte))
  | 0, _, _ => none
  | turns + 1, str, i =>
    if 0 ≤ i then
      if str i = character then
        let writes := shift str i len
        -- `i--;` in the body and once more in the head of the loop
        (stripEndLoop character len turns (Overlay.put str writes) (i - 1 - 1)).map (writes ++ ·)
      else some []
    else some []

def stripFromEnd (str : Int → Byte) (character : Byte) (turns : Nat) : Option (List (Int × Byte)) := do
  let len ← strlen str turns
  stripEndLoop character len turns str (len - 1)

/-! ### Deleting a character -/

variable {str : Int → Byte} {xs ys rev s : List Byte} {c : Byte} {len : Int}

theorem put_shiftFrom (str : Int → Byte) (turns : Nat) (j k : Int) :
    Overlay.put str (shiftFrom str turns j) k = if j ≤ k ∧ k < j + turns then str (k + 1) else str k := by
  induction turns generalizing str j with
  | zero => rw [shiftFrom, Overlay.put_nil, if_neg (by omega)]
  | succ turns ih =>
    have hone : ∀ k, Overlay.put str [(j, str (j + 1))] k = if j = k then str (j + 1) else str k := fun _ => rfl
    rw [shiftFrom, Overlay.put_cons, ih, hone, hone]
    by_cases hj : j = k
    · subst hj
      rw [if_neg (by omega), if_pos rfl, if_pos (by omega)]
    · by_cases hk : j + 1 ≤ k ∧ k < j + 1 + turns
      · rw [if_pos hk, if_neg (by omega), if_pos (by omega)]
      · rw [if_neg hk, if_neg hj, if_neg (by omega)]

theorem mem_shiftFrom {w : Int × Byte} {turns : Nat} {j : Int} (h : w ∈ shiftFrom str turns j) :
    j ≤ w.1 ∧ w.1 < j + turns := by
  induction turns generalizing str j with
  | zero => cases h
  | succ turns ih =>
    obtain rfl | h := List.mem_cons.mp h
    · dsimp only
      omega
    · have hrange := ih h
      omega

theorem mem_shift {w : Int × Byte} {i : Int} (h : w ∈ shift str i len) : i ≤ w.1 ∧ w.1 < len := by
  have hrange := mem_shiftFrom h
  omega

/-- The character in the middle is gone. -/
theorem HoldsAt.shift (h : HoldsAt str 0 (xs ++ c :: ys)) (hlen : (xs.length : Int) + ys.length ≤ len) :
    HoldsAt (Overlay.put str (shift str xs.length len)) 0 (xs ++ ys) := by
  have hparts := holdsAt_append.mp h
  refine holdsAt_append.mpr ⟨@HoldsAt.move _ _ _ _ 0 hparts.1 fun k _ hlt => ?_, hparts.2.2.move fun k hle hlt => ?_⟩
  · rw [Akos.shift, put_shiftFrom, if_neg (by omega), add_zero]
  · rw [Akos.shift, put_shiftFrom, if_pos (by omega)]

/-! ### From the start -/

/-- What is left of the characters from the index on. -/
def stripped (stops : Bool) (c : Byte) (ys : List Byte) : List Byte :=
  if stops then ys.dropWhile (· = c) else ys.filter (· ≠ c)

/-- The characters before the index stay, and those from it on are stripped. -/
theorem stripLoop_holds (stops : Bool) (c : Byte) (xs : List Byte) (h : HoldsAt str 0 (xs ++ (ys ++ [0#8]))) : ∃ ws,
    (∀ turns > ys.length, stripLoop stops c turns str xs.length (xs.length + ys.length) = some ws) ∧
    (∀ w ∈ ws, 0 ≤ w.1 ∧ w.1 < xs.length + ys.length) ∧
    HoldsAt (Overlay.put str ws) 0 (xs ++ (stripped stops c ys ++ [0#8])) := by
  induction ys generalizing str xs with
  | nil =>
    refine ⟨[], fun turns hturns => ?_, fun w hw => absurd hw List.not_mem_nil, ?_⟩
    · obtain ⟨turns, rfl⟩ := Nat.exists_eq_add_of_lt hturns
      rw [stripLoop, if_neg (by simp)]
    · rwa [stripped, List.dropWhile_nil, List.filter_nil, ite_self]
  | cons y ys ih =>
    have hread : str xs.length = y := by
      have hy := (holdsAt_append.mp h).2.1
      rwa [zero_add] at hy
    have hlt : (xs.length : Int) < xs.length + (y :: ys).length := by
      rw [List.length_cons]
      omega
    have hturn : ∀ turns > (y :: ys).length, ∃ left > ys.length, turns = left + 1 := by
      intro turns hturns
      rw [List.length_cons] at hturns
      exact ⟨turns - 1, by omega, by omega⟩
    by_cases hy : y = c
    · subst hy
      obtain ⟨ws, hrun, hws, hholds⟩ := ih xs (@HoldsAt.shift _ _ _ _ (xs.length + (y :: ys).length) h (by simp))
      refine ⟨shift str xs.length (xs.length + (y :: ys).length) ++ ws, fun turns hturns => ?_, fun w hw => ?_, ?_⟩
      · obtain ⟨left, hleft, rfl⟩ := hturn turns hturns
        have hlen : (xs.length : Int) + (y :: ys).length - 1 = xs.length + ys.length := by
          rw [List.length_cons]
          omega
        rw [stripLoop, if_pos hlt, if_pos hread, Int.sub_add_cancel, hlen]
        dsimp only
        rw [hrun left hleft, Option.map_some]
      · rw [List.length_cons] at hw ⊢
        obtain hw | hw := List.mem_append.mp hw
        · have hrange := mem_shift hw
          omega
        · have hrange := hws w hw
          omega
      · have hsame : stripped stops y (y :: ys) = stripped stops y ys := by
          simp [stripped]
        rw [Overlay.put_append, hsame]
        exact hholds
    · have hne : ¬ str xs.length = c := fun heq => hy (hread.symm.trans heq)
      cases stops with
      | true =>
        refine ⟨[], fun turns hturns => ?_, fun w hw => absurd hw List.not_mem_nil, ?_⟩
        · obtain ⟨left, -, rfl⟩ := hturn turns hturns
          rw [stripLoop, if_pos hlt, if_neg hne, if_pos rfl]
        · have hsame : stripped true c (y :: ys) = y :: ys := by simp [stripped, hy]
          rw [hsame]
          exact h
      | false =>
        have hnext : xs ++ (y :: ys ++ [0#8]) = (xs ++ [y]) ++ (ys ++ [0#8]) := by simp
        rw [hnext] at h
        obtain ⟨ws, hrun, hws, hholds⟩ := ih (xs ++ [y]) h
        rw [List.length_append, List.length_singleton] at hrun hws
        have hlen : (xs.length : Int) + (y :: ys).length = ((xs.length + 1 : Nat) : Int) + ys.length := by
          rw [List.length_cons]
          omega
        refine ⟨ws, fun turns hturns => ?_, ?_, ?_⟩
        · obtain ⟨left, hleft, rfl⟩ := hturn turns hturns
          rw [stripLoop, if_pos hlt, if_neg hne, if_neg Bool.false_ne_true, hlen]
          exact hrun left hleft
        · rw [hlen]
          exact hws
        · have hsame : xs ++ (stripped false c (y :: ys) ++ [0#8]) = (xs ++ [y]) ++ (stripped false c ys ++ [0#8]) := by
            simp [stripped, hy]
          rw [hsame]
          exact hholds

/-! ### From the end -/

/-- What the loop from the end leaves of the reversed characters: the one in front of a deleted one stays. -/
def endStripped (c : Byte) : List Byte → List Byte
  | [] => []
  | [x] => if x = c then [] else [x]
  | x :: y :: xs => if x = c then y :: endStripped c xs else x :: y :: xs

theorem endStripped_nil (c : Byte) : endStripped c [] = [] := rfl

theorem endStripped_singleton (c : Byte) : endStripped c [c] = [] := if_pos rfl

theorem endStripped_cons_cons (c y : Byte) (xs : List Byte) : endStripped c (c :: y :: xs) = y :: endStripped c xs :=
  if_pos rfl

/-- Another character stops it. -/
theorem endStripped_of_ne {x : Byte} (hne : x ≠ c) (xs : List Byte) : endStripped c (x :: xs) = x :: xs := by
  cases xs with
  | nil => exact if_neg hne
  | cons y xs => exact if_neg hne

/-- A turn of the loop from the end. -/
theorem stripEndLoop_succ (c : Byte) (len : Int) (turns : Nat) (str : Int → Byte) (i : Int) :
    stripEndLoop c len (turns + 1) str i =
      if 0 ≤ i then
        if str i = c then
          (stripEndLoop c len turns (Overlay.put str (shift str i len)) (i - 1 - 1)).map (shift str i len ++ ·)
        else some []
      else some [] := rfl

theorem read_last {x : Byte} (h : HoldsAt str 0 ((x :: rev).reverse ++ ys)) : str rev.length = x := by
  rw [List.reverse_cons] at h
  have hlast := (holdsAt_append.mp h).1.last
  rwa [zero_add, List.length_reverse] at hlast

theorem HoldsAt.shift_last (h : HoldsAt str 0 ((c :: rev).reverse ++ ys))
    (hlen : (rev.length : Int) + ys.length ≤ len) :
    HoldsAt (Overlay.put str (Akos.shift str rev.length len)) 0 (rev.reverse ++ ys) := by
  rw [List.reverse_cons, List.append_assoc, List.singleton_append] at h
  have hle : (rev.reverse.length : Int) + ys.length ≤ len := by rwa [List.length_reverse]
  have hmoved := h.shift hle
  rwa [List.length_reverse] at hmoved

/-- What the loop from an index on comes to: its writes inside the string, and what the string is afterwards. -/
def EndLoopGives (c : Byte) (len : Int) (str : Int → Byte) (i : Int) (bound : Nat) (left : List Byte) : Prop := ∃ ws,
  (∀ turns > bound, stripEndLoop c len turns str i = some ws) ∧ (∀ w ∈ ws, 0 ≤ w.1 ∧ w.1 < len) ∧
    HoldsAt (Overlay.put str ws) 0 left

theorem endLoopGives_neg {i : Int} (hi : i < 0) (bound : Nat) (h : HoldsAt str 0 ys) :
    EndLoopGives c len str i bound ys := by
  refine ⟨[], fun turns hturns => ?_, fun w hw => absurd hw List.not_mem_nil, h⟩
  obtain ⟨turns, rfl⟩ := Nat.exists_eq_add_of_lt hturns
  rw [stripEndLoop_succ, if_neg (by omega)]

theorem endLoopGives_of_ne {x : Byte} (h : HoldsAt str 0 ((x :: rev).reverse ++ ys)) (hne : x ≠ c) (bound : Nat) :
    EndLoopGives c len str rev.length bound ((x :: rev).reverse ++ ys) := by
  refine ⟨[], fun turns hturns => ?_, fun w hw => absurd hw List.not_mem_nil, h⟩
  obtain ⟨turns, rfl⟩ := Nat.exists_eq_add_of_lt hturns
  rw [stripEndLoop_succ, read_last h, if_neg hne, ite_self]

/-- A character is deleted, and the one in front of it is passed over. -/
theorem endLoopGives_delete {bound bound' : Nat} {left : List Byte} (h : HoldsAt str 0 ((c :: rev).reverse ++ ys))
    (hrest : EndLoopGives c len (Overlay.put str (shift str rev.length len)) (rev.length - 1 - 1) bound left)
    (hbound : bound < bound') : EndLoopGives c len str rev.length bound' left := by
  obtain ⟨ws, hrun, hws, hholds⟩ := hrest
  refine ⟨shift str rev.length len ++ ws, fun turns hturns => ?_, fun w hw => ?_, ?_⟩
  · cases turns with
    | zero => exact absurd hturns (Nat.not_lt_zero _)
    | succ turns =>
      rw [stripEndLoop_succ, read_last h, if_pos (Int.natCast_nonneg _), if_pos rfl, hrun turns (by omega), Option.map_some]
  · obtain hw | hw := List.mem_append.mp hw
    · have hrange := mem_shift hw
      omega
    · exact hws w hw
  · rw [Overlay.put_append]
    exact hholds

/-- The characters up to the index are stripped, and those behind it move down. -/
theorem endLoopGives (c : Byte) (h : HoldsAt str 0 (rev.reverse ++ ys)) (hlen : (rev.length : Int) + ys.length ≤ len + 1) :
    EndLoopGives c len str (rev.length - 1) rev.length ((endStripped c rev).reverse ++ ys) := by
  have hindex : ∀ x xs, rev = x :: xs → (rev.length : Int) - 1 = xs.length := by
    rintro x xs rfl
    rw [List.length_cons, Nat.cast_succ, Int.add_sub_cancel]
  induction rev using endStripped.induct c generalizing str ys with
  | case1 => exact endLoopGives_neg (by decide) _ h
  | case2 =>
    rw [endStripped_singleton, hindex c [] rfl]
    rw [List.length_singleton] at hlen
    exact endLoopGives_delete h (endLoopGives_neg (by decide) 0 (h.shift_last (by simp; omega))) Nat.one_pos
  | case3 x hne =>
    rw [endStripped_of_ne hne, hindex x [] rfl]
    exact endLoopGives_of_ne h hne _
  | case4 y xs ih =>
    rw [endStripped_cons_cons, hindex c (y :: xs) rfl, List.reverse_cons, List.append_assoc, List.singleton_append]
    have hlen' : ((y :: xs).length : Int) + ys.length ≤ len := by
      rw [List.length_cons] at hlen
      omega
    have hmoved := h.shift_last hlen'
    rw [List.reverse_cons, List.append_assoc, List.singleton_append] at hmoved
    have hrest := ih hmoved (by rw [List.length_cons] at hlen' ⊢; omega) fun x xs heq => by
      rw [heq, List.length_cons, Nat.cast_succ, Int.add_sub_cancel]
    refine endLoopGives_delete h ?_ (show xs.length < (c :: y :: xs).length from Nat.lt_add_of_pos_right Nat.two_pos)
    rw [List.length_cons, Nat.cast_succ, Int.add_sub_cancel]
    exact hrest
  | case5 x y xs hne =>
    rw [endStripped_of_ne hne, hindex x (y :: xs) rfl]
    exact endLoopGives_of_ne h hne _

/-! ### Both ends -/

theorem endStripped_sublist (c : Byte) (rev : List Byte) : List.Sublist (endStripped c rev) rev := by
  induction rev using endStripped.induct c with
  | case1 => exact List.Sublist.refl _
  | case2 =>
    rw [endStripped_singleton]
    exact List.nil_sublist _
  | case3 x hne => rw [endStripped_of_ne hne]
  | case4 y xs ih =>
    rw [endStripped_cons_cons]
    exact (ih.cons_cons y).cons c
  | case5 x y xs hne => rw [endStripped_of_ne hne]

theorem endStripped_eq_self_iff (c : Byte) (rev : List Byte) : endStripped c rev = rev ↔ ¬ [c] <+: rev := by
  cases rev with
  | nil => simp [endStripped_nil]
  | cons x xs =>
    by_cases hx : x = c
    · subst hx
      refine iff_of_false (fun heq => ?_) (not_not_intro (List.prefix_append [x] xs))
      cases xs with
      | nil => simp [endStripped_singleton] at heq
      | cons y xs =>
        have hle := (endStripped_sublist x xs).length_le
        rw [endStripped_cons_cons] at heq
        have hlength := congrArg List.length heq
        rw [List.length_cons, List.length_cons, List.length_cons] at hlength
        omega
    · refine iff_of_true (endStripped_of_ne hx xs) fun hprefix => hx ?_
      exact (List.cons_prefix_cons.mp hprefix).1.symm

/-- The whole run is deleted unless a second one of the character is right behind the first one or behind another
character. -/
theorem endStripped_eq_iff (c : Byte) (rev : List Byte) :
    endStripped c rev = rev.dropWhile (· = c) ↔ ¬ [c, c] <+: rev ∧ ∀ x, ¬ [c, x, c] <+: rev := by
  cases rev with
  | nil => simp [endStripped_nil]
  | cons x xs =>
    by_cases hx : x = c
    · subst hx
      cases xs with
      | nil => simp [endStripped_singleton]
      | cons y xs =>
        rw [endStripped_cons_cons, List.dropWhile_cons_of_pos (by simp)]
        simp only [List.cons_prefix_cons, true_and]
        by_cases hy : y = x
        · subst hy
          refine iff_of_false (fun heq => ?_) (fun h => h.1 (by simp))
          have hhead := List.head?_dropWhile_not (· = y) (y :: xs)
          rw [← heq] at hhead
          simp at hhead
        · rw [List.dropWhile_cons_of_neg (by simp [hy]), List.cons.injEq, endStripped_eq_self_iff]
          simp [Ne.symm hy]
    · rw [endStripped_of_ne hx, List.dropWhile_cons_of_neg (by simp [hx])]
      simp only [List.cons_prefix_cons]
      simp [Ne.symm hx]

/-- All characters but one are kept, and nothing outside the string is written. -/
def StripsCharacter (s : List Byte) (c : Byte) : Prop :=
  ∀ memory : Int → Byte, HoldsString memory s → ∃ ws, StepBound.Gives (stripCharacter memory c) ws ∧
    (∀ w ∈ ws, 0 ≤ w.1 ∧ w.1 < s.length) ∧ HoldsString (Overlay.put memory ws) (s.filter (· ≠ c))

/-- The run of a character at the start is gone, and neither of both loops writes outside the string. -/
def StripsStart (s : List Byte) (c : Byte) : Prop :=
  ∀ memory : Int → Byte, HoldsString memory s → ∃ ws ws', StepBound.Gives (stripFromStart memory c) ws ∧
    StepBound.Gives (stripFromEnd (Overlay.put memory ws) c) ws' ∧ (∀ w ∈ ws ++ ws', 0 ≤ w.1 ∧ w.1 < s.length) ∧
    HoldsString (Overlay.put memory ws) (s.dropWhile (· = c))

/-- After both loops the runs of a character at both ends are gone. -/
def StripsEnds (s : List Byte) (c : Byte) : Prop :=
  ∀ memory : Int → Byte, HoldsString memory s → ∃ ws ws', StepBound.Gives (stripFromStart memory c) ws ∧
    StepBound.Gives (stripFromEnd (Overlay.put memory ws) c) ws' ∧
    HoldsString (Overlay.put memory (ws ++ ws')) ((s.dropWhile (· = c)).rdropWhile (· = c))

theorem stripsCharacter (s : List Byte) (c : Byte) : StripsCharacter s c := by
  intro memory h
  obtain ⟨ws, hrun, hws, hholds⟩ := stripLoop_holds false c [] h.holds
  rw [List.length_nil, Nat.cast_zero, zero_add] at hrun hws
  refine ⟨ws, ⟨s.length + 1, fun turns hturns => ?_⟩, hws, hholds, fun hmem => h.not_mem (List.mem_of_mem_filter hmem)⟩
  rw [stripCharacter, strlen_eq h (by omega)]
  exact hrun turns (by omega)

theorem stripFromStart_holds (c : Byte) {memory : Int → Byte} (h : HoldsString memory s) : ∃ ws,
    StepBound.Gives (stripFromStart memory c) ws ∧ (∀ w ∈ ws, 0 ≤ w.1 ∧ w.1 < s.length) ∧
    HoldsString (Overlay.put memory ws) (s.dropWhile (· = c)) := by
  obtain ⟨ws, hrun, hws, hholds⟩ := stripLoop_holds true c [] h.holds
  rw [List.length_nil, Nat.cast_zero, zero_add] at hrun hws
  refine ⟨ws, ⟨s.length + 1, fun turns hturns => ?_⟩, hws, hholds,
    fun hmem => h.not_mem ((List.dropWhile_sublist _).subset hmem)⟩
  rw [stripFromStart, strlen_eq h (by omega)]
  exact hrun turns (by omega)

theorem stripFromEnd_holds (c : Byte) {memory : Int → Byte} (h : HoldsString memory s) : ∃ ws,
    StepBound.Gives (stripFromEnd memory c) ws ∧ (∀ w ∈ ws, 0 ≤ w.1 ∧ w.1 < s.length) ∧
    HoldsString (Overlay.put memory ws) (endStripped c s.reverse).reverse := by
  have hholds := h.holds
  rw [← List.reverse_reverse s] at hholds
  have hlen : (s.reverse.length : Int) + [0#8].length ≤ (s.length : Int) + 1 := by simp
  obtain ⟨ws, hrun, hws, hend⟩ := endLoopGives c hholds hlen
  rw [List.length_reverse] at hrun
  refine ⟨ws, ⟨s.length + 1, fun turns hturns => ?_⟩, hws, hend, fun hmem => h.not_mem ?_⟩
  · rw [stripFromEnd, strlen_eq h (by omega)]
    exact hrun turns (by omega)
  · exact List.mem_reverse.mp ((endStripped_sublist c s.reverse).subset (List.mem_reverse.mp hmem))

theorem stripsEnds_iff_endStripped (hs : 0#8 ∉ s) (c : Byte) : StripsEnds s c ↔
    endStripped c (s.dropWhile (· = c)).reverse = (s.dropWhile (· = c)).reverse.dropWhile (· = c) := by
  constructor
  · intro h
    have hmemory : HoldsString (putString (fun _ => 0#8) 0 (s ++ [0#8])) s := ⟨holdsAt_putString _ _ _, hs⟩
    obtain ⟨ws, ws', hrun, hrun', hends⟩ := h _ hmemory
    obtain ⟨ws₁, hrun₁, -, hstart⟩ := stripFromStart_holds c hmemory
    obtain rfl := hrun.unique hrun₁
    obtain ⟨ws₂, hrun₂, -, hend⟩ := stripFromEnd_holds c hstart
    obtain rfl := hrun'.unique hrun₂
    rw [← Overlay.put_append] at hend
    exact List.reverse_injective (hend.unique hends)
  · intro heq memory h
    obtain ⟨ws, hrun, -, hstart⟩ := stripFromStart_holds c h
    obtain ⟨ws', hrun', -, hend⟩ := stripFromEnd_holds c hstart
    rw [heq, ← Overlay.put_append] at hend
    exact ⟨ws, ws', hrun, hrun', hend⟩

/-- Both strips of every string return and write inside it, and the one of all characters and the one from the start are
right. The one from the end is right unless the string ends with two of the character, or with one behind another
character behind one. -/
theorem stripsEnds_iff (hs : 0#8 ∉ s) (c : Byte) : StripsCharacter s c ∧ StripsStart s c ∧
    (StripsEnds s c ↔ ¬ [c, c] <:+ s.dropWhile (· = c) ∧ ∀ x, ¬ [c, x, c] <:+ s.dropWhile (· = c)) := by
  refine ⟨stripsCharacter s c, fun memory h => ?_, ?_⟩
  · obtain ⟨ws, hrun, hws, hstart⟩ := stripFromStart_holds c h
    obtain ⟨ws', hrun', hws', -⟩ := stripFromEnd_holds c hstart
    refine ⟨ws, ws', hrun, hrun', fun w hw => ?_, hstart⟩
    obtain hw | hw := List.mem_append.mp hw
    · exact hws w hw
    · have hle : (s.dropWhile (· = c)).length ≤ s.length := (List.dropWhile_sublist _).length_le
      have hrange := hws' w hw
      omega
  · have hsuffix : ∀ l, l.reverse = l → (l <+: (s.dropWhile (· = c)).reverse ↔ l <:+ s.dropWhile (· = c)) :=
      fun l hl => by rw [← List.reverse_prefix, hl]
    rw [stripsEnds_iff_endStripped hs, endStripped_eq_iff, hsuffix _ rfl,
      forall_congr' fun x => not_congr (hsuffix [c, x, c] rfl)]

theorem stripsEnds_iff_word : StripsEnds [0x20#8, 0x20#8, 0x6C#8, 0x73#8, 0x20#8] 0x20#8 := by
  refine (stripsEnds_iff (by decide) 0x20#8).2.2.mpr ⟨by decide, fun x hx => ?_⟩
  exact absurd (hx.eq_of_length rfl) (by decide +revert)

/-- Of `a b` with a space behind it `ab` is left. -/
theorem not_stripsEnds : ¬ (∀ (s : List Byte) c, c ≠ 0#8 → 0#8 ∉ s → StripsEnds s c) := by
  intro h
  have hends := h [0x61#8, 0x20#8, 0x62#8, 0x20#8] 0x20#8 (by decide) (by decide)
  exact absurd ((stripsEnds_iff_endStripped (by decide) _).mp hends) (by decide)

end Akos
