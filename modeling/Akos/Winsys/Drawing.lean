import Akos.Utils.Graphics
import Mathlib.Data.BitVec
import Mathlib.Tactic.Ring

/-!
# Drawing in windows

`gfx_fill_rect` and `gfx_paint_char` are there twice: `window_sys.c` has them over windows with signed fields, and
`cstdlib/gfx.c` over windows with unsigned ones.
-/

namespace Akos

namespace ByteMemory

variable {mem mem' : ByteMemory} {color p b : BitVec 32} {l : List (BitVec 32)}

/-- Pixels of one color, one after the other. -/
def paint (mem : ByteMemory) (color : BitVec 32) (l : List (BitVec 32)) : ByteMemory :=
  l.foldl (fun mem p => mem.setPixel p color) mem

/-- Which byte of its pixel a byte is, if it was painted. -/
def shown (l : List (BitVec 32)) (b : BitVec 32) : Option Nat :=
  l.foldl (fun k p => if (b - p).toNat < 3 then some (b - p).toNat else k) none

/-- A pixel was painted in front of the byte after the byte itself was, if it was. -/
def behind (l : List (BitVec 32)) (b : BitVec 32) : Bool :=
  l.foldl (fun top p => if (b - p).toNat < 3 then false else top || (b - p).toNat = 3) false

/-- A byte ends with its part of the color, and with the fourth byte of the color if that came over it. -/
theorem paint_apply (mem : ByteMemory) (color : BitVec 32) (l : List (BitVec 32)) (b : BitVec 32) :
    mem.paint color l b = (shown l b).elim (mem b) (colorByte color) |||
      if behind l b then colorByte color 3 else 0#8 := by
  induction l using List.reverseRecOn with
  | nil => simp [paint, shown, behind]
  | append_singleton l p ih =>
    rw [paint, List.foldl_append, List.foldl_cons, List.foldl_nil, setPixel_apply]
    rw [paint] at ih
    rw [shown, behind, List.foldl_append, List.foldl_append, List.foldl_cons, List.foldl_cons, List.foldl_nil,
      List.foldl_nil]
    split
    · simp
    · rw [← shown, ← behind, ih]
      by_cases hthree : (b - p).toNat = 3
      · cases behind l b <;> simp [hthree, BitVec.or_assoc, -BitVec.toNat_sub]
      · simp [hthree, -BitVec.toNat_sub]

theorem shown_isSome_iff : (shown l b).isSome ↔ ∃ p ∈ l, (b - p).toNat < 3 := by
  induction l using List.reverseRecOn with
  | nil => simp [shown]
  | append_singleton l p ih =>
    rw [shown, List.foldl_append, List.foldl_cons, List.foldl_nil, ← shown]
    by_cases hlt : (b - p).toNat < 3
    · simp [hlt, -BitVec.toNat_sub]
    · rw [if_neg hlt, ih]
      simp [hlt, -BitVec.toNat_sub]

theorem shown_lt {k : Nat} (h : shown l b = some k) : k < 3 := by
  induction l using List.reverseRecOn with
  | nil => cases h
  | append_singleton l p ih =>
    rw [shown, List.foldl_append, List.foldl_cons, List.foldl_nil, ← shown] at h
    split at h
    · next hlt => exact Option.some.inj h ▸ hlt
    · exact ih h

/-- Pixels of a color without its fourth byte. -/
theorem paint_masked_apply (mem : ByteMemory) (color : BitVec 32) (l : List (BitVec 32)) (b : BitVec 32) :
    mem.paint (color &&& 0xffffff#32) l b = (shown l b).elim (mem b) (colorByte color) := by
  rw [paint_apply, colorByte_and color _ 3, show colorByte 0xffffff#32 3 = 0#8 by decide, BitVec.and_zero, ite_self,
    BitVec.or_zero]
  cases hshown : shown l b with
  | none => rfl
  | some k =>
    have hmask : ∀ k < 3, colorByte 0xffffff#32 k = BitVec.allOnes 8 := by decide
    rw [Option.elim_some, Option.elim_some, colorByte_and, hmask k (shown_lt hshown), BitVec.and_allOnes]

/-- Painting a pixel changes the memory that has other bytes there. -/
theorem exists_paint_ne (color : BitVec 32) {l : List (BitVec 32)} {p : BitVec 32} (hp : p ∈ l) :
    ∃ mem : ByteMemory, mem.paint color l p ≠ mem p := by
  have hshown : (shown l p).isSome := shown_isSome_iff.mpr ⟨p, hp, by simp⟩
  obtain ⟨k, hk⟩ := Option.isSome_iff_exists.mp hshown
  -- what is painted does not depend on what was there
  refine ⟨fun _ => (colorByte color k ||| if behind l p then colorByte color 3 else 0#8) + 1#8, ?_⟩
  rw [paint_apply, hk, Option.elim_some]
  generalize colorByte color k ||| _ = v
  intro heq
  have hsucc := (BitVec.add_right_eq_self (x := v) (y := 1#8)).mp heq.symm
  cases hsucc

end ByteMemory

namespace Gfx

/-- What the functions read of a window. In the kernel width and height are signed, in the user's library they are
not. -/
structure Win where
  width : BitVec 32
  height : BitVec 32
  wBuffer : BitVec 32

/-- The pixel at `(x, y)`, counted in rows from the start of the buffer. -/
def Win.pixel (win : Win) (x y : BitVec 32) : BitVec 32 := win.wBuffer + (y * win.width + x) * 3#32

/-- The byte is one of the window's. -/
def Win.Holds (win : Win) (b : BitVec 32) : Prop := (b - win.wBuffer).toNat < 3 * (win.width.toNat * win.height.toNat)

/-- A side of a rectangle that ends behind the window is cut, where `le` is the comparison with the field. -/
def cut (le : BitVec 32 → BitVec 32 → Bool) (start size limit : BitVec 32) : BitVec 32 :=
  if le limit (start + size) then limit - start else size

/-- The pixels of a row that `gfx_fill_rect` paints. -/
def columns (le : BitVec 32 → BitVec 32 → Bool) (win : Win) (x buff width : BitVec 32) : List (BitVec 32) :=
  ((List.range width.toInt.toNat).filter fun j =>
    !(le win.width (x + BitVec.ofNat 32 j) || (x + BitVec.ofNat 32 j).slt 0#32)).map fun j =>
      buff + BitVec.ofNat 32 j * 3#32

/-- The pixels of a character in the order of painting. -/
def glyph (font : Int → BitVec 8) (c : BitVec 8) : List (Nat × Nat) :=
  (List.range 16).flatMap fun (row : Nat) =>
    ((List.range 8).filter fun bit => (font (c.toInt * 16 + row)).getLsbD bit).map fun bit => (row, bit)

/-- Where a pixel of a character is painted. -/
def Win.glyphPixel (win : Win) (x y : BitVec 32) (p : Nat × Nat) : BitVec 32 :=
  win.pixel x y + BitVec.ofNat 32 p.1 * (win.width * 3#32) + BitVec.ofNat 32 p.2 * 3#32

/-! ### `window_sys.c` -/

namespace Kernel

/-- The rows of `gfx_fill_rect`. -/
def rows (win : Win) (x y buff width : BitVec 32) (n : Nat) : List (BitVec 32) :=
  (List.range n).flatMap fun i =>
    if (y + BitVec.ofNat 32 i).slt win.height && BitVec.sle 0#32 (y + BitVec.ofNat 32 i) then
      columns BitVec.sle win x (buff + BitVec.ofNat 32 i * (win.width * 3#32)) width
    else []

def gfxFillRect (win : Win) (x y width height color : BitVec 32) (mem : ByteMemory) : ByteMemory :=
  if win.width.sle x || win.height.sle y then mem
  else mem.paint (color &&& 0xffffff#32) (rows win x y (win.pixel x y) (cut BitVec.sle x width win.width)
    (cut BitVec.sle y height win.height).toInt.toNat)

/-- The color goes in with all its bytes. -/
def gfxPaintChar (win : Win) (font : Int → BitVec 8) (c : BitVec 8) (x y fgcolor : BitVec 32) (mem : ByteMemory) :
    ByteMemory :=
  if win.width.slt (x + 8#32) || win.height.slt (y + 16#32) || x.slt 0#32 || y.slt 0#32 then mem
  else mem.paint fgcolor (((glyph font c).filter fun p =>
    (x + BitVec.ofNat 32 p.2).slt win.width && BitVec.sle 0#32 (x + BitVec.ofNat 32 p.2) &&
      BitVec.sle 0#32 (y + BitVec.ofNat 32 p.1) && (y + BitVec.ofNat 32 p.1).slt win.height).map (win.glyphPixel x y))

end Kernel

/-! ### `cstdlib/gfx.c` -/

namespace User

/-- The rows of `gfx_fill_rect`. A row that is left out does not move the pointer on. -/
def rows (win : Win) (x y width : BitVec 32) : Nat → BitVec 32 → BitVec 32 → List (BitVec 32)
  | 0, _, _ => []
  | n + 1, i, buff =>
    if win.height.ule (y + i) || (y + i).slt 0#32 then rows win x y width n (i + 1#32) buff
    else columns BitVec.ule win x buff width ++ rows win x y width n (i + 1#32) (buff + win.width * 3#32)

def gfxFillRect (win : Win) (x y width height color : BitVec 32) (mem : ByteMemory) : ByteMemory :=
  if win.width.ule x || win.height.ule y then mem
  else mem.paint (color &&& 0xffffff#32) (rows win x y (cut BitVec.ule x width win.width)
    (cut BitVec.ule y height win.height).toInt.toNat 0#32 (win.pixel x y))

def gfxPaintChar (win : Win) (font : Int → BitVec 8) (c : BitVec 8) (x y fgcolor : BitVec 32) (mem : ByteMemory) :
    ByteMemory :=
  if win.width.ult (x + 8#32) || win.height.ult (y + 16#32) || x.slt 0#32 || y.slt 0#32 then mem
  else mem.paint (fgcolor &&& 0xffffff#32) ((glyph font c).map (win.glyphPixel x y))

end User

/-! ### Which pixels are painted -/

section Pixels

variable {win : Win} {x y p buff width height start size limit v : BitVec 32} {i j n : Nat}

theorem toInt_add_natCast (hj : j < 2 ^ 31) :
    (x.toInt + j < 2 ^ 31 ∧ (x + BitVec.ofNat 32 j).toInt = x.toInt + j) ∨
      (2 ^ 31 ≤ x.toInt + j ∧ (x + BitVec.ofNat 32 j).toInt < 0) := by
  have hoffset : (BitVec.ofNat 32 j).toInt = j := by
    rw [BitVec.toInt_ofNat', Int.bmod_eq_of_le (by omega) (by omega)]
  have hlow := x.le_toInt
  have hhigh := x.toInt_lt
  have hcases := toInt_add_cases x (BitVec.ofNat 32 j)
  rw [hoffset] at hcases
  omega

theorem toInt_of_nonneg (h : 0 ≤ v.toInt) : v.toInt = v.toNat := by
  rw [BitVec.toInt_eq_toNat_cond] at h ⊢
  split at h <;> omega

theorem ule_iff (hlimit : 0 ≤ limit.toInt) : limit.ule v ↔ v.toInt < 0 ∨ limit.toInt ≤ v.toInt := by
  have hlt := limit.isLt
  have hlt' := v.isLt
  rw [BitVec.ule_iff_toNat_le]
  rw [BitVec.toInt_eq_toNat_cond] at hlimit
  rw [BitVec.toInt_eq_toNat_cond, BitVec.toInt_eq_toNat_cond]
  split <;> split <;> omega

/-- The test on a column or a row is the same with both comparisons. -/
theorem inside_iff :
    (!(limit.sle v || v.slt 0#32)) = true ↔ 0 ≤ v.toInt ∧ v.toInt < limit.toInt := by
  rw [Bool.not_eq_true', Bool.or_eq_false_iff, ← Bool.not_eq_true, ← Bool.not_eq_true, BitVec.sle_iff_toInt_le,
    BitVec.slt_iff_toInt_lt, BitVec.toInt_zero]
  omega

theorem inside_ule_iff (hlimit : 0 ≤ limit.toInt) :
    (!(limit.ule v || v.slt 0#32)) = true ↔ 0 ≤ v.toInt ∧ v.toInt < limit.toInt := by
  rw [Bool.not_eq_true', Bool.or_eq_false_iff, ← Bool.not_eq_true, ← Bool.not_eq_true, ule_iff hlimit,
    BitVec.slt_iff_toInt_lt, BitVec.toInt_zero]
  omega

theorem columns_ule (hwidth : 0 ≤ win.width.toInt) :
    columns BitVec.ule win x buff width = columns BitVec.sle win x buff width := by
  rw [columns, columns]
  refine congrArg _ (List.filter_congr fun j _ => ?_)
  rw [Bool.eq_iff_iff, inside_iff, inside_ule_iff hwidth]

/-- A column is painted when it lies in the window. -/
theorem mem_columns_iff : p ∈ columns BitVec.sle win x buff width ↔
    ∃ j : Nat, j < width.toInt.toNat ∧ 0 ≤ x.toInt + j ∧ x.toInt + j < win.width.toInt ∧
      p = buff + BitVec.ofNat 32 j * 3#32 := by
  have hwin := win.width.toInt_lt
  have hsize := width.toInt_lt
  simp only [columns, List.mem_map, List.mem_filter, List.mem_range, inside_iff]
  refine exists_congr fun j => ?_
  constructor
  · rintro ⟨⟨hj, hlow, hhigh⟩, rfl⟩
    have hcases := @toInt_add_natCast x j (by omega)
    exact ⟨hj, by omega, by omega, rfl⟩
  · rintro ⟨hj, hlow, hhigh, rfl⟩
    have hcases := @toInt_add_natCast x j (by omega)
    exact ⟨⟨hj, by omega, by omega⟩, rfl⟩

theorem mem_kernel_rows_iff (hn : n < 2 ^ 31) :
    p ∈ Kernel.rows win x y buff width n ↔ ∃ i j : Nat, i < n ∧ 0 ≤ y.toInt + i ∧ y.toInt + i < win.height.toInt ∧
      j < width.toInt.toNat ∧ 0 ≤ x.toInt + j ∧ x.toInt + j < win.width.toInt ∧
      p = buff + BitVec.ofNat 32 i * (win.width * 3#32) + BitVec.ofNat 32 j * 3#32 := by
  have hwin := win.height.toInt_lt
  simp only [Kernel.rows, List.mem_flatMap, List.mem_range, List.mem_ite_nil_right, mem_columns_iff,
    Bool.and_eq_true, BitVec.slt_iff_toInt_lt, BitVec.sle_iff_toInt_le, BitVec.toInt_zero]
  refine exists_congr fun i => ?_
  constructor
  · rintro ⟨hi, ⟨hhigh, hlow⟩, j, hj⟩
    have hcases := @toInt_add_natCast y i (by omega)
    exact ⟨j, hi, by omega, by omega, hj⟩
  · rintro ⟨j, hi, hlow, hhigh, hj⟩
    have hcases := @toInt_add_natCast y i (by omega)
    exact ⟨hi, ⟨by omega, by omega⟩, j, hj⟩

/-! ### Rectangles that begin in the window -/

theorem filter_range_lt (n m : Nat) : (List.range n).filter (fun j => decide (j < m)) = List.range (min n m) := by
  induction n with
  | zero => simp
  | succ n ih =>
    rw [List.range_succ, List.filter_append, ih]
    by_cases hlt : n < m
    · rw [List.filter_singleton, decide_eq_true hlt, cond_true, Nat.min_eq_left (Nat.le_of_lt hlt), ← List.range_succ,
        Nat.min_eq_left hlt]
    · rw [List.filter_singleton, decide_eq_false hlt, cond_false, List.append_nil]
      exact congrArg List.range (by omega)

theorem flatMap_ite {α β : Type} (f : α → List β) (q : α → Bool) (l : List α) :
    (l.flatMap fun a => if q a then f a else []) = (l.filter q).flatMap f := by
  induction l with
  | nil => rfl
  | cons a l ih =>
    rw [List.flatMap_cons, ih, List.filter_cons]
    cases q a <;> rfl

/-- The pixels of `a` columns and `b` rows from the one at `p` on. -/
def Win.grid (win : Win) (p : BitVec 32) (a b : Nat) : List (BitVec 32) :=
  (List.range b).flatMap fun i => (List.range a).map fun j =>
    p + BitVec.ofNat 32 i * (win.width * 3#32) + BitVec.ofNat 32 j * 3#32

theorem columns_eq (hx : 0 ≤ x.toInt) : columns BitVec.sle win x buff width
    = (List.range (min width.toInt.toNat (win.width.toInt - x.toInt).toNat)).map fun j =>
      buff + BitVec.ofNat 32 j * 3#32 := by
  have hsize := width.toInt_lt
  rw [columns, ← filter_range_lt]
  refine congrArg _ (List.filter_congr fun j hj => ?_)
  have hlt := List.mem_range.mp hj
  have hcases := @toInt_add_natCast x j (by omega)
  rw [Bool.eq_iff_iff, inside_iff, decide_eq_true_iff]
  have hwin := win.width.toInt_lt
  omega

theorem kernel_rows_eq (hx : 0 ≤ x.toInt) (hy : 0 ≤ y.toInt) (hn : n < 2 ^ 31) : Kernel.rows win x y p width n
    = win.grid p (min width.toInt.toNat (win.width.toInt - x.toInt).toNat)
      (min n (win.height.toInt - y.toInt).toNat) := by
  have hwin := win.height.toInt_lt
  rw [Kernel.rows, Win.grid, ← filter_range_lt n, ← flatMap_ite]
  refine List.flatMap_congr fun i hi => ?_
  have hlt := List.mem_range.mp hi
  have hcases := @toInt_add_natCast y i (by omega)
  have htest : ((y + BitVec.ofNat 32 i).slt win.height && BitVec.sle 0#32 (y + BitVec.ofNat 32 i)) = true ↔
      i < (win.height.toInt - y.toInt).toNat := by
    rw [Bool.and_eq_true, BitVec.slt_iff_toInt_lt, BitVec.sle_iff_toInt_le, BitVec.toInt_zero]
    omega
  simp only [htest, decide_eq_true_iff, columns_eq hx]

/-- No row of the user's library is left out. -/
theorem user_rows_eq (hwidth : 0 ≤ win.width.toInt) (hheight : 0 ≤ win.height.toInt) (hx : 0 ≤ x.toInt)
    (hy : 0 ≤ y.toInt) (hn : y.toInt + (i + n : Nat) ≤ win.height.toInt) :
    User.rows win x y width n (BitVec.ofNat 32 i) (p + BitVec.ofNat 32 i * (win.width * 3#32))
      = (List.range' i n).flatMap fun i =>
        (List.range (min width.toInt.toNat (win.width.toInt - x.toInt).toNat)).map fun j =>
          p + BitVec.ofNat 32 i * (win.width * 3#32) + BitVec.ofNat 32 j * 3#32 := by
  induction n generalizing i with
  | zero => rfl
  | succ n ih =>
    have hwin := win.height.toInt_lt
    have hcases := @toInt_add_natCast y i (by omega)
    have hin := (@inside_ule_iff win.height (y + BitVec.ofNat 32 i) hheight).mpr (by omega)
    have hnext := @ih (i + 1) (by omega)
    have hstep : p + BitVec.ofNat 32 i * (win.width * 3#32) + win.width * 3#32
        = p + BitVec.ofNat 32 (i + 1) * (win.width * 3#32) := by
      rw [BitVec.ofNat_add, BitVec.add_mul, BitVec.one_mul, BitVec.add_assoc]
    rw [Bool.not_eq_true', ← Bool.not_eq_true] at hin
    rw [User.rows, if_neg hin, columns_ule hwidth, columns_eq hx, hstep,
      ← BitVec.ofNat_add, hnext, List.range'_succ, List.flatMap_cons]

theorem toInt_cut_sle : (cut BitVec.sle start size limit).toInt
    = if limit.toInt ≤ (start + size).toInt then (limit - start).toInt else size.toInt := by
  rw [cut]
  simp only [BitVec.sle_iff_toInt_le]
  split <;> rfl

theorem toInt_cut_ule (hlimit : 0 ≤ limit.toInt) : (cut BitVec.ule start size limit).toInt
    = if (start + size).toInt < 0 ∨ limit.toInt ≤ (start + size).toInt then (limit - start).toInt else size.toInt := by
  rw [cut]
  simp only [ule_iff hlimit]
  split <;> rfl

/-- What is left of a side in the kernel, and in the user's library. -/
theorem toNat_cut (hstart : 0 ≤ start.toInt) (hlt : start.toInt < limit.toInt) :
    min (cut BitVec.sle start size limit).toInt.toNat (limit.toInt - start.toInt).toNat
        = min size.toInt.toNat (limit.toInt - start.toInt).toNat ∧
      (cut BitVec.ule start size limit).toInt.toNat ≤ (limit.toInt - start.toInt).toNat ∧
      (cut BitVec.ule start size limit).toInt.toNat = if start.toInt + size.toInt < 0
        then (limit.toInt - start.toInt).toNat else min size.toInt.toNat (limit.toInt - start.toInt).toNat := by
  have hsum := toInt_add_cases start size
  have hlimit := limit.toInt_lt
  have hsize := size.toInt_lt
  have hsize' := size.le_toInt
  rw [toInt_cut_sle, toInt_cut_ule (by omega), toInt_sub_of_fits (by omega) (by omega)]
  refine ⟨?_, ?_, ?_⟩
  · split <;> omega
  · split <;> omega
  · split <;> split <;> omega

/-! ### The same rectangles -/

/-- The kernel paints something on an axis, where the start is in front of the limit. A sum that goes below -2^31
is cut like one that goes behind the window. -/
def KernelPaints (start size limit : Int) : Prop :=
  0 < limit ∧ (0 < size ∧ 0 < start + size ∨ start + size < -2 ^ 31 ∧ limit - start < 2 ^ 31)

/-- The user's library paints something on an axis, where the start is in the window. -/
def UserPaints (start size : Int) : Prop := 0 < size ∨ start + size < 0

theorem kernelPaints_iff (hlt : start.toInt < limit.toInt) : KernelPaints start.toInt size.toInt limit.toInt ↔
    ∃ j : Nat, j < (cut BitVec.sle start size limit).toInt.toNat ∧ 0 ≤ start.toInt + j ∧
      start.toInt + j < limit.toInt := by
  have hsum := toInt_add_cases start size
  have hsub := toInt_sub_cases limit start
  have hstart := start.le_toInt
  have hlimit := limit.toInt_lt
  have hsize := size.toInt_lt
  have hsize' := size.le_toInt
  rw [toInt_cut_sle, KernelPaints]
  constructor
  · intro hpaints
    refine ⟨(-start.toInt).toNat, ?_, by omega, by omega⟩
    split <;> omega
  · rintro ⟨j, hj, hlow, hhigh⟩
    split at hj <;> omega

/-- When the two functions fill the same pixels: the corner is outside where both return, in the window with no end
below 0, or above or left of it with nothing of the rectangle inside. -/
def FillMatches (win : Win) (x y width height : BitVec 32) : Prop :=
  win.width.toInt ≤ x.toInt ∨ win.height.toInt ≤ y.toInt ∨
    0 ≤ x.toInt ∧ 0 ≤ y.toInt ∧ (0 ≤ x.toInt + width.toInt ∧ 0 ≤ y.toInt + height.toInt ∨
      ¬ (UserPaints x.toInt width.toInt ∧ UserPaints y.toInt height.toInt)) ∨
    (x.toInt < 0 ∨ y.toInt < 0) ∧ ¬ (KernelPaints x.toInt width.toInt win.width.toInt ∧
      KernelPaints y.toInt height.toInt win.height.toInt)

/-- They leave the same buffer, whatever it held. -/
def FillAgrees (win : Win) (x y width height color : BitVec 32) : Prop :=
  ∀ mem : ByteMemory, ∀ b, win.Holds b → Kernel.gfxFillRect win x y width height color mem b
    = User.gfxFillRect win x y width height color mem b

/-- A pixel of the window lies in its buffer. -/
theorem holds_pixel (hwidth : 0 ≤ win.width.toInt) (hheight : 0 ≤ win.height.toInt) (hx : 0 ≤ x.toInt + j)
    (hx' : x.toInt + j < win.width.toInt) (hy : 0 ≤ y.toInt + i) (hy' : y.toInt + i < win.height.toInt) :
    win.Holds (win.pixel x y + BitVec.ofNat 32 i * (win.width * 3#32) + BitVec.ofNat 32 j * 3#32) := by
  have hoffset : win.pixel x y + BitVec.ofNat 32 i * (win.width * 3#32) + BitVec.ofNat 32 j * 3#32 - win.wBuffer
      = BitVec.ofInt 32 (((y.toInt + i) * win.width.toInt + (x.toInt + j)) * 3) := by
    simp only [BitVec.ofInt_mul, BitVec.ofInt_add, BitVec.ofInt_toInt, BitVec.ofInt_natCast]
    rw [Win.pixel, show BitVec.ofInt 32 3 = 3#32 from rfl]
    ring
  have hrow : (y.toInt + i) * win.width.toInt ≤ (win.height.toInt - 1) * win.width.toInt :=
    Int.mul_le_mul_of_nonneg_right (by omega) hwidth
  have hrow' : 0 ≤ (y.toInt + i) * win.width.toInt := Int.mul_nonneg hy hwidth
  have hsize : (win.width.toNat * win.height.toNat : Nat) = win.height.toInt * win.width.toInt := by
    rw [toInt_of_nonneg hwidth, toInt_of_nonneg hheight, Nat.mul_comm, Int.natCast_mul]
  rw [Int.sub_mul, Int.one_mul] at hrow
  rw [Win.Holds, hoffset, BitVec.toNat_ofInt]
  generalize (y.toInt + i) * win.width.toInt = row at hrow hrow' ⊢
  generalize win.height.toInt * win.width.toInt = size at hrow hsize
  have hlt : (row + (x.toInt + j)) * 3 < 3 * (win.width.toNat * win.height.toNat : Nat) := by omega
  obtain ⟨n, hn⟩ := Int.eq_ofNat_of_zero_le (show 0 ≤ (row + (x.toInt + j)) * 3 by omega)
  have hmod := Nat.mod_le n (2 ^ 32)
  rw [hn] at hlt ⊢
  rw [← Int.natCast_mod, Int.toNat_natCast]
  omega

theorem mem_grid_zero {a b : Nat} (ha : 0 < a) (hb : 0 < b) : p ∈ win.grid p a b := by
  refine List.mem_flatMap.mpr ⟨0, List.mem_range.mpr hb, List.mem_map.mpr ⟨0, List.mem_range.mpr ha, ?_⟩⟩
  simp

theorem grid_eq_nil {a b : Nat} (h : a = 0 ∨ b = 0) : win.grid p a b = [] := by
  refine List.flatMap_eq_nil_iff.mpr fun i hi => ?_
  rcases h with rfl | rfl
  · rfl
  · cases hi

/-- Whoever paints a pixel of the window changes what some memory holds there. -/
theorem not_unchanged {l : List (BitVec 32)} {color : BitVec 32} (hp : p ∈ l) (hholds : win.Holds p) :
    ¬ ∀ mem : ByteMemory, ∀ b, win.Holds b → mem.paint color l b = mem b := by
  intro hall
  obtain ⟨mem, hne⟩ := ByteMemory.exists_paint_ne color hp
  exact hne (hall mem p hholds)

theorem fillAgrees_iff (hwidth : 0 ≤ win.width.toInt) (hheight : 0 ≤ win.height.toInt) (color : BitVec 32) :
    FillAgrees win x y width height color ↔ FillMatches win x y width height := by
  rw [FillAgrees, FillMatches]
  by_cases hout : win.width.toInt ≤ x.toInt ∨ win.height.toInt ≤ y.toInt
  · have hkernel : (win.width.sle x || win.height.sle y) = true := by
      rw [Bool.or_eq_true, BitVec.sle_iff_toInt_le, BitVec.sle_iff_toInt_le]
      exact hout
    have huser : (win.width.ule x || win.height.ule y) = true := by
      rw [Bool.or_eq_true, ule_iff hwidth, ule_iff hheight]
      omega
    refine iff_of_true (fun mem b _ => ?_) (by omega)
    rw [Kernel.gfxFillRect, User.gfxFillRect, if_pos hkernel, if_pos huser]
  rw [not_or] at hout
  have hkernel : ¬ (win.width.sle x || win.height.sle y) = true := by
    rw [Bool.or_eq_true, BitVec.sle_iff_toInt_le, BitVec.sle_iff_toInt_le]
    omega
  simp only [Kernel.gfxFillRect, if_neg hkernel]
  by_cases hcorner : 0 ≤ x.toInt ∧ 0 ≤ y.toInt
  · have huser : ¬ (win.width.ule x || win.height.ule y) = true := by
      rw [Bool.or_eq_true, ule_iff hwidth, ule_iff hheight]
      omega
    obtain ⟨hx, hy⟩ := hcorner
    obtain ⟨hxkernel, hxle, hxuser⟩ := @toNat_cut x width win.width hx (by omega)
    obtain ⟨hykernel, hyle, hyuser⟩ := @toNat_cut y height win.height hy (by omega)
    have hsize := (cut BitVec.sle y height win.height).toInt_lt
    have hkernelRows := @kernel_rows_eq win x y (win.pixel x y) (cut BitVec.sle x width win.width)
      (cut BitVec.sle y height win.height).toInt.toNat hx hy (by omega)
    have huserRows := @user_rows_eq win x y (win.pixel x y) (cut BitVec.ule x width win.width) 0
      (cut BitVec.ule y height win.height).toInt.toNat hwidth hheight hx hy (by omega)
    rw [hxkernel, hykernel] at hkernelRows
    rw [Nat.min_eq_left hxle, ← List.range_eq_range', BitVec.zero_mul, BitVec.add_zero, ← Win.grid] at huserRows
    simp only [User.gfxFillRect, if_neg huser, hkernelRows]
    simp only [huserRows]
    simp only [hxuser, hyuser]
    rw [or_iff_right hout.1, or_iff_right hout.2, or_iff_left (by omega), and_iff_right hx, and_iff_right hy]
    constructor
    · intro hall
      by_contra hnot
      rw [not_or, not_not] at hnot
      obtain ⟨hneg, hxpaints, hypaints⟩ := hnot
      rw [UserPaints] at hxpaints hypaints
      rw [grid_eq_nil (by omega)] at hall
      have hfirst := @holds_pixel win x y 0 0 hwidth hheight (by omega) (by omega) (by omega) (by omega)
      rw [BitVec.zero_mul, BitVec.zero_mul, BitVec.add_zero, BitVec.add_zero] at hfirst
      refine not_unchanged (mem_grid_zero ?_ ?_) hfirst fun mem b hb => (hall mem b hb).symm
      · split <;> omega
      · split <;> omega
    · intro hmatches mem b _
      rcases hmatches with hends | hnone
      · rw [if_neg (by omega), if_neg (by omega)]
      · rw [UserPaints, UserPaints] at hnone
        rw [grid_eq_nil (by omega), grid_eq_nil (by split <;> split <;> omega)]
  · have huser : (win.width.ule x || win.height.ule y) = true := by
      rw [Bool.or_eq_true, ule_iff hwidth, ule_iff hheight]
      omega
    have hsize := (cut BitVec.sle y height win.height).toInt_lt
    simp only [User.gfxFillRect, if_pos huser]
    rw [or_iff_right hout.1, or_iff_right hout.2, or_iff_right (fun h => hcorner ⟨h.1, h.2.1⟩),
      and_iff_right (by omega)]
    constructor
    · rintro hall ⟨hxpaints, hypaints⟩
      obtain ⟨j, hj, hjlow, hjhigh⟩ := (kernelPaints_iff (by omega)).mp hxpaints
      obtain ⟨i, hi, hilow, hihigh⟩ := (kernelPaints_iff (by omega)).mp hypaints
      exact not_unchanged ((mem_kernel_rows_iff (by omega)).mpr ⟨i, j, hi, hilow, hihigh, hj, hjlow, hjhigh, rfl⟩)
        (holds_pixel hwidth hheight hjlow hjhigh hilow hihigh) hall
    · intro hnone mem b _
      have hnil : Kernel.rows win x y (win.pixel x y) (cut BitVec.sle x width win.width)
          (cut BitVec.sle y height win.height).toInt.toNat = [] := by
        refine List.eq_nil_iff_forall_not_mem.mpr fun p hp => ?_
        obtain ⟨i, j, hi, hilow, hihigh, hj, hjlow, hjhigh, -⟩ := (mem_kernel_rows_iff (by omega)).mp hp
        exact hnone ⟨(kernelPaints_iff (by omega)).mpr ⟨j, hj, hjlow, hjhigh⟩,
          (kernelPaints_iff (by omega)).mpr ⟨i, hi, hilow, hihigh⟩⟩
      rw [hnil]
      rfl

/-! ### The same characters -/

variable {font : Int → BitVec 8} {c : BitVec 8} {fgcolor : BitVec 32}

theorem lt_of_mem_glyph {q : Nat × Nat} (h : q ∈ glyph font c) : q.1 < 16 ∧ q.2 < 8 := by
  obtain ⟨row, hrow, hq⟩ := List.mem_flatMap.mp h
  obtain ⟨bit, hbit, rfl⟩ := List.mem_map.mp hq
  exact ⟨List.mem_range.mp hrow, List.mem_range.mp (List.mem_filter.mp hbit).1⟩

theorem ult_iff (hlimit : 0 ≤ limit.toInt) : limit.ult v ↔ v.toInt < 0 ∨ limit.toInt < v.toInt := by
  have hlt := limit.isLt
  have hlt' := v.isLt
  rw [BitVec.ult_iff_toNat_lt]
  rw [BitVec.toInt_eq_toNat_cond] at hlimit
  rw [BitVec.toInt_eq_toNat_cond, BitVec.toInt_eq_toNat_cond]
  split <;> split <;> omega

/-- The fourth byte of the color is 0, or it shows in no byte of the window: where it comes last it goes over a byte
of the character that has its bits. -/
def FourthByteHidden (win : Win) (color : BitVec 32) (l : List (BitVec 32)) : Prop :=
  colorByte color 3 = 0#8 ∨ ∀ b, win.Holds b → ByteMemory.behind l b = true →
    ∃ k, ByteMemory.shown l b = some k ∧ colorByte color k ||| colorByte color 3 = colorByte color k

/-- When the two functions paint the same character: it is in the window and the color's fourth byte does not show,
or it is not and nothing of it is painted where a sum goes over 2^31. -/
def CharMatches (win : Win) (font : Int → BitVec 8) (c : BitVec 8) (x y fgcolor : BitVec 32) : Prop :=
  if 0 ≤ x.toInt ∧ 0 ≤ y.toInt ∧ x.toInt + 8 ≤ win.width.toInt ∧ y.toInt + 16 ≤ win.height.toInt then
    FourthByteHidden win fgcolor ((glyph font c).map (win.glyphPixel x y))
  else
    x.toInt < 0 ∨ y.toInt < 0 ∨ (win.width.toInt < x.toInt + 8 ∧ x.toInt + 8 < 2 ^ 31) ∨
      (win.height.toInt < y.toInt + 16 ∧ y.toInt + 16 < 2 ^ 31) ∨
      ∀ q ∈ glyph font c, win.width.toInt ≤ x.toInt + q.2 ∨ win.height.toInt ≤ y.toInt + q.1

/-- They leave the same buffer, whatever it held. -/
def CharAgrees (win : Win) (font : Int → BitVec 8) (c : BitVec 8) (x y fgcolor : BitVec 32) : Prop :=
  ∀ mem : ByteMemory, ∀ b, win.Holds b →
    Kernel.gfxPaintChar win font c x y fgcolor mem b = User.gfxPaintChar win font c x y fgcolor mem b

/-- Colors with and without the fourth byte. -/
theorem paint_agrees_iff {color : BitVec 32} {l : List (BitVec 32)} :
    (∀ mem : ByteMemory, ∀ b, win.Holds b → mem.paint color l b = mem.paint (color &&& 0xffffff#32) l b) ↔
      FourthByteHidden win color l := by
  simp only [ByteMemory.paint_apply _ color, ByteMemory.paint_masked_apply]
  constructor
  · intro hall
    refine or_iff_not_imp_left.mpr fun hne b hb hbehind => ?_
    have hbyte := fun mem => hall mem b hb
    simp only [hbehind, if_true] at hbyte
    cases hshown : ByteMemory.shown l b with
    | none =>
      have hzero := hbyte fun _ => 0#8
      rw [hshown, Option.elim_none, BitVec.zero_or] at hzero
      exact absurd hzero hne
    | some k =>
      have hk := hbyte fun _ => 0#8
      rw [hshown, Option.elim_some] at hk
      exact ⟨k, rfl, hk⟩
  · intro hhidden mem b hb
    cases hbehind : ByteMemory.behind l b with
    | false => rw [if_neg Bool.false_ne_true, BitVec.or_zero]
    | true =>
      rw [if_pos rfl]
      obtain hzero | hover := hhidden
      · rw [hzero, BitVec.or_zero]
      · obtain ⟨k, hshown, hk⟩ := hover b hb hbehind
        rw [hshown, Option.elim_some, hk]

theorem charAgrees_iff (hwidth : 0 ≤ win.width.toInt) (hheight : 0 ≤ win.height.toInt) :
    CharAgrees win font c x y fgcolor ↔ CharMatches win font c x y fgcolor := by
  have hxsum := @toInt_add_natCast x 8 (by decide)
  have hysum := @toInt_add_natCast y 16 (by decide)
  have hwidth' := win.width.toInt_lt
  have hheight' := win.height.toInt_lt
  have hkernel : (win.width.slt (x + 8#32) || win.height.slt (y + 16#32) || x.slt 0#32 || y.slt 0#32) = true ↔
      win.width.toInt < (x + 8#32).toInt ∨ win.height.toInt < (y + 16#32).toInt ∨ x.toInt < 0 ∨ y.toInt < 0 := by
    simp only [Bool.or_eq_true, BitVec.slt_iff_toInt_lt, BitVec.toInt_zero, or_assoc]
  have huser : (win.width.ult (x + 8#32) || win.height.ult (y + 16#32) || x.slt 0#32 || y.slt 0#32) = true ↔
      ¬ (0 ≤ x.toInt ∧ 0 ≤ y.toInt ∧ x.toInt + 8 ≤ win.width.toInt ∧ y.toInt + 16 ≤ win.height.toInt) := by
    simp only [Bool.or_eq_true, ult_iff hwidth, ult_iff hheight, BitVec.slt_iff_toInt_lt, BitVec.toInt_zero]
    omega
  have htest : ∀ q ∈ glyph font c, ((x + BitVec.ofNat 32 q.2).slt win.width &&
      BitVec.sle 0#32 (x + BitVec.ofNat 32 q.2) && BitVec.sle 0#32 (y + BitVec.ofNat 32 q.1) &&
      (y + BitVec.ofNat 32 q.1).slt win.height) = true ↔
      (0 ≤ x.toInt + q.2 ∧ x.toInt + q.2 < win.width.toInt) ∧ 0 ≤ y.toInt + q.1 ∧
        y.toInt + q.1 < win.height.toInt := by
    intro q hq
    obtain ⟨hrow, hbit⟩ := lt_of_mem_glyph hq
    have hxcases := @toInt_add_natCast x q.2 (by omega)
    have hycases := @toInt_add_natCast y q.1 (by omega)
    simp only [Bool.and_eq_true, BitVec.slt_iff_toInt_lt, BitVec.sle_iff_toInt_le, BitVec.toInt_zero]
    omega
  rw [CharAgrees, CharMatches]
  by_cases hin : 0 ≤ x.toInt ∧ 0 ≤ y.toInt ∧ x.toInt + 8 ≤ win.width.toInt ∧ y.toInt + 16 ≤ win.height.toInt
  · rw [if_pos hin, ← paint_agrees_iff]
    simp only [Kernel.gfxPaintChar, User.gfxPaintChar, if_neg (hkernel.not.mpr (by omega)),
      if_neg (huser.not.mpr (not_not_intro hin))]
    rw [List.filter_eq_self.mpr fun q hq => ?_]
    obtain ⟨hrow, hbit⟩ := lt_of_mem_glyph hq
    exact (htest q hq).mpr ⟨by omega, by omega⟩
  · rw [if_neg hin]
    simp only [User.gfxPaintChar, if_pos (huser.mpr hin)]
    by_cases hout : win.width.toInt < (x + 8#32).toInt ∨ win.height.toInt < (y + 16#32).toInt ∨ x.toInt < 0 ∨
        y.toInt < 0
    · simp only [Kernel.gfxPaintChar, if_pos (hkernel.mpr hout)]
      exact iff_of_true (fun _ _ _ => trivial) (by omega)
    · simp only [Kernel.gfxPaintChar, if_neg (hkernel.not.mpr hout)]
      rw [or_iff_right (by omega), or_iff_right (by omega), or_iff_right (by omega), or_iff_right (by omega)]
      constructor
      · intro hall q hq
        by_contra hpainted
        have hpixel := @holds_pixel win x y q.1 q.2 hwidth hheight (by omega) (by omega) (by omega) (by omega)
        refine not_unchanged ?_ hpixel hall
        exact List.mem_map_of_mem (List.mem_filter.mpr ⟨hq, (htest q hq).mpr (by omega)⟩)
      · intro hnone mem b _
        rw [List.filter_eq_nil_iff.mpr fun q hq hpainted => ?_]
        · rfl
        have hpixel := (htest q hq).mp hpainted
        have houtside := hnone q hq
        omega

/-- Kernel and user library fill alike exactly if the rectangle does not reach below 0 where one of them cuts it and
the other does not, and paint characters alike exactly if the color has no fourth byte that shows. -/
theorem drawing_agrees_iff (hwidth : 0 ≤ win.width.toInt) (hheight : 0 ≤ win.height.toInt) (x' y' color : BitVec 32) :
    (FillAgrees win x y width height color ↔ FillMatches win x y width height) ∧
      (CharAgrees win font c x' y' fgcolor ↔ CharMatches win font c x' y' fgcolor) :=
  ⟨fillAgrees_iff hwidth hheight color, charAgrees_iff hwidth hheight⟩

end Pixels

/-- A window of 16 columns and 32 rows. -/
def smallWindow : Win := ⟨16#32, 32#32, 0x100000#32⟩

/-- A font whose characters are one pixel in the corner. -/
def cornerFont (i : Int) : BitVec 8 := if i % 16 = 0 then 1#8 else 0#8

theorem drawing_agrees_corner : FillAgrees smallWindow 0#32 0#32 4#32 4#32 0xAABBCC#32 ∧
    CharAgrees smallWindow cornerFont 0x41#8 0#32 0#32 0xAABBCC#32 := by
  obtain ⟨hfill, hchar⟩ := @drawing_agrees_iff smallWindow 0#32 0#32 4#32 4#32 cornerFont 0x41#8 0xAABBCC#32 (by decide)
    (by decide) 0#32 0#32 0xAABBCC#32
  refine ⟨hfill.mpr (.inr (.inr (.inl ⟨by decide, by decide, .inl ⟨by decide, by decide⟩⟩))), hchar.mpr ?_⟩
  rw [CharMatches, if_pos (by decide)]
  exact .inl (by decide)

/-- A rectangle that begins a column left of the window is filled by the kernel alone, and a color with a fourth byte
shows in the pixel behind. -/
theorem not_drawing_agrees : ¬ FillAgrees smallWindow (-1#32) 0#32 4#32 4#32 0xAABBCC#32 ∧
    ¬ CharAgrees smallWindow cornerFont 0x41#8 0#32 0#32 0xFFAABBCC#32 := by
  constructor
  · rw [fillAgrees_iff (by decide) (by decide), FillMatches, KernelPaints, KernelPaints, UserPaints, UserPaints]
    decide
  · rw [charAgrees_iff (by decide) (by decide), CharMatches, if_pos (by decide)]
    rintro (hzero | hhidden)
    · exact absurd hzero (by decide)
    · obtain ⟨k, hshown, -⟩ := hhidden 0x100003#32 (by unfold Win.Holds; decide) (by decide)
      rw [show ByteMemory.shown _ 0x100003#32 = none by decide] at hshown
      cases hshown

end Gfx

end Akos
