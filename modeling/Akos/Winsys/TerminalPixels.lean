import Akos.Winsys.Bitmaps
import Akos.Winsys.TerminalCursor

/-!
# The pixels of a terminal

`gfx_print_char` with what it draws: a cell of the window is cleared and a character is painted in it, and a window that
scrolls is copied up five rows. The memory of the window shows cells, blank or with a character, when every cell has the
pixels of its character.
-/

namespace Akos

/-- `memcpy (dest, source, count)` -/
def ByteMemory.memcpy (mem : ByteMemory) (dest source : BitVec 32) (count : Nat) : ByteMemory :=
  (List.range count).foldl
    (fun mem k => Function.update mem (dest + BitVec.ofNat 32 k) (mem (source + BitVec.ofNat 32 k))) mem

namespace Gfx

/-! ### Printing -/

/-- `gfx_paint_char_bg`, which paints every pixel of the character. -/
def Kernel.gfxPaintCharBg (win : Win) (font : Int → BitVec 8) (c : BitVec 8) (x y bgcolor fgcolor : BitVec 32)
    (mem : ByteMemory) : ByteMemory :=
  if win.width.slt (x + 8#32) || win.height.slt (y + 16#32) || x.slt 0#32 || y.slt 0#32 then mem
  else paintAll mem ((((List.range 16).flatMap fun row : Nat => (List.range 8).map fun bit : Nat => (row, bit)).filter
    fun p => (x + BitVec.ofNat 32 p.2).slt win.width && BitVec.sle 0#32 (x + BitVec.ofNat 32 p.2) &&
      BitVec.sle 0#32 (y + BitVec.ofNat 32 p.1) && (y + BitVec.ofNat 32 p.1).slt win.height).map fun p =>
        (win.glyphPixel x y p, if (font (c.toInt * 16 + p.1)).getLsbD p.2 then fgcolor else bgcolor))

def Win.text (win : Win) : Winsys.TextWindow := ⟨win.width, win.height⟩

variable (win : Win) (font : Int → BitVec 8) (task : Bool)

open Gfx.Kernel

/-- The rows of text that are copied up, and the blank ones at the bottom, of `gfx_handle_scrolling`. -/
def scrollRows (mem : ByteMemory) : ByteMemory :=
  let charLineSize := win.width * 16#32 * 3#32
  let scrollDiffSize := 5#32 * charLineSize
  let copied := (List.range (win.text.rows - Winsys.scrollRows).toNat).foldl (fun mem i =>
    let buff := win.wBuffer + BitVec.ofNat 32 i * charLineSize
    mem.memcpy buff (buff + scrollDiffSize) charLineSize.toNat) mem
  gfxFillRect win 0#32 (win.height - 80#32) win.width 80#32 0#32 copied

/-- The three points that `gfx_handle_scrolling` shows when there is a task that can wait for a key, and their end. -/
def pause (offsetY : Int) (mem : ByteMemory) : ByteMemory :=
  if task then
    let point := fun (col : Int) => gfxPaintCharBg win font 0x2E#8 (BitVec.ofInt 32 (Winsys.gfxGetWinX col))
      (BitVec.ofInt 32 (Winsys.gfxGetWinY offsetY)) 0#32 0xAA0000#32
    gfxFillRect win 0#32 (win.height - 16#32) 24#32 16#32 0#32 (point 2 (point 1 (point 0 mem)))
  else mem

/-- `gfx_handle_scrolling`: what it leaves in the buffer of the window. -/
def handleScrolling (offsetY : Int) (mem : ByteMemory) : ByteMemory :=
  if offsetY < win.text.rows - 1 then mem else scrollRows win (pause win font task offsetY mem)

def clearCell (offset : Int × Int) (mem : ByteMemory) : ByteMemory :=
  gfxFillRect win (BitVec.ofInt 32 (Winsys.gfxGetWinX offset.1)) (BitVec.ofInt 32 (Winsys.gfxGetWinY offset.2)) 8#32
    16#32 0#32 mem

/-- What `gfx_print_char` draws once it has scrolled. -/
def drawAt (character color : BitVec 8) (offset : Int × Int) (mem : ByteMemory) : ByteMemory :=
  if character = 0x08#8 then clearCell win (Winsys.backspace win.text offset) mem
  else if character = 0x0A#8 then mem
  else gfxPaintChar win font character (BitVec.ofInt 32 (Winsys.gfxGetWinX offset.1))
    (BitVec.ofInt 32 (Winsys.gfxGetWinY offset.2)) (color.signExtend 32) (clearCell win offset mem)

/-- A terminal: `INPINFO` and the memory with the buffer of its window. -/
structure Terminal where
  info : Winsys.InpInfo
  mem : ByteMemory

/-- `gfx_print_char` at the cursor, of a character that is not a tab. -/
def printPlain (t : Terminal) (character color : BitVec 8) : Terminal :=
  if Winsys.Skipped character then t
  else
    let color := if color = 0#8 then 0x0F#8 else color
    let offset := Winsys.printOffset t.info (-1) (-1)
    let scrolled := Winsys.gfxHandleScrolling win.text t.info offset.2
    ⟨(Winsys.printAt win.text scrolled.2 character (offset.1, scrolled.1)).1,
      drawAt win font character color (offset.1, scrolled.1) (handleScrolling win font task offset.2 t.mem)⟩

/-- `gfx_putchar(win, inp_info, ' ')` a few times. -/
def putBlanks : Nat → Terminal → Terminal
  | 0, t => t
  | n + 1, t => putBlanks n (printPlain win font task t 0x20#8 0xFF#8)

/-- `gfx_print_char` at the cursor. -/
def gfxPrintChar (t : Terminal) (character color : BitVec 8) : Terminal :=
  if character = 0x09#8 then
    let offset := Winsys.printOffset t.info (-1) (-1)
    putBlanks win font task 4 ⟨(Winsys.gfxHandleScrolling win.text t.info offset.2).2,
      handleScrolling win font task offset.2 t.mem⟩
  else printPlain win font task t character color

/-- `gfx_print_color`; `gfx_print_char` takes the last byte of the color. -/
def gfxPrintColor (s : List (BitVec 8)) (color : BitVec 32) (t : Terminal) : Terminal :=
  s.foldl (fun t c => gfxPrintChar win font task t c (color.setWidth 8)) t

/-! ### Bytes of the buffer -/

section Bytes

variable {win : Win} {font : Int → BitVec 8} {task : Bool} {mem : ByteMemory} {color : BitVec 32} {n o : Nat}

/-- Byte `o` of the buffer. -/
def Win.byteAt (win : Win) (o : Nat) : BitVec 32 := win.wBuffer + BitVec.ofNat 32 o

theorem Win.byteAt_add (win : Win) (o k : Nat) : win.byteAt o + BitVec.ofNat 32 k = win.byteAt (o + k) := by
  rw [Win.byteAt, Win.byteAt, BitVec.ofNat_add, BitVec.add_assoc]

theorem Win.toNat_byteAt_sub (win : Win) (hn : n < 2 ^ 32) (ho : o < 2 ^ 32) :
    (win.byteAt o - win.byteAt n).toNat = if n ≤ o then o - n else o + 2 ^ 32 - n := by
  rw [Win.byteAt, Win.byteAt, ByteMemory.toNat_sub_add, add_sub_cancel_left, BitVec.toNat_ofNat, BitVec.toNat_ofNat,
    Nat.mod_eq_of_lt hn, Nat.mod_eq_of_lt ho]
  split <;> split <;> omega

theorem Win.byteAt_eq_iff (win : Win) (hn : n < 2 ^ 32) (ho : o < 2 ^ 32) : win.byteAt o = win.byteAt n ↔ o = n := by
  rw [← sub_eq_zero, ← BitVec.toNat_inj, win.toNat_byteAt_sub hn ho, show (0 : BitVec 32).toNat = 0 from rfl]
  split <;> omega

/-- Pixel `n` is painted. -/
theorem setPixel_byteAt (hn : 3 * n + 3 < 2 ^ 32) (ho : o < 2 ^ 32) :
    mem.setPixel (win.byteAt (3 * n)) color (win.byteAt o) = if o / 3 = n then colorByte color (o % 3)
      else if o = 3 * n + 3 then mem (win.byteAt o) ||| colorByte color 3 else mem (win.byteAt o) := by
  rw [ByteMemory.setPixel_apply, win.toNat_byteAt_sub (by omega) ho]
  by_cases hpixel : o / 3 = n
  · rw [if_pos (show 3 * n ≤ o by omega), if_pos (show o - 3 * n < 3 by omega), if_pos hpixel]
    congr 1
    omega
  · rw [if_neg hpixel]
    by_cases hbehind : o = 3 * n + 3
    · rw [if_pos (show 3 * n ≤ o by omega), if_neg (show ¬ o - 3 * n < 3 by omega),
        if_pos (show o - 3 * n = 3 by omega), if_pos hbehind]
    · rw [if_neg hbehind]
      by_cases hle : 3 * n ≤ o
      · rw [if_pos hle, if_neg (show ¬ o - 3 * n < 3 by omega), if_neg (show ¬ o - 3 * n = 3 by omega)]
      · rw [if_neg hle, if_neg (show ¬ o + 2 ^ 32 - 3 * n < 3 by omega),
          if_neg (show ¬ o + 2 ^ 32 - 3 * n = 3 by omega)]

/-- Pixels painted in their order: the fourth byte of the color is left behind a pixel whose neighbour is not
painted. -/
theorem paint_byteAt {ns : List Nat} (hinc : ns.Pairwise (· < ·)) (hns : ∀ n ∈ ns, 3 * n + 3 < 2 ^ 32)
    (ho : o < 2 ^ 32) : mem.paint color (ns.map fun n => win.byteAt (3 * n)) (win.byteAt o) =
      if o / 3 ∈ ns then colorByte color (o % 3)
      else if ∃ n ∈ ns, o = 3 * n + 3 then mem (win.byteAt o) ||| colorByte color 3 else mem (win.byteAt o) := by
  induction ns using List.reverseRecOn with
  | nil => simp [ByteMemory.paint]
  | append_singleton ns n ih =>
    obtain ⟨hinc', -, hlast⟩ := List.pairwise_append.mp hinc
    have hlt : ∀ m ∈ ns, m < n := fun m hm => hlast m hm n List.mem_cons_self
    have ih := ih hinc' fun m hm => hns m (List.mem_append_left _ hm)
    rw [ByteMemory.paint] at ih ⊢
    rw [List.map_append, List.foldl_append, List.map_singleton, List.foldl_cons, List.foldl_nil,
      setPixel_byteAt (hns n List.mem_concat_self) ho, ih]
    by_cases hpixel : o / 3 = n
    · rw [if_pos hpixel, if_pos (List.mem_append_right _ (hpixel ▸ List.mem_cons_self))]
    · rw [if_neg hpixel]
      have hmem : o / 3 ∈ ns ++ [n] ↔ o / 3 ∈ ns := by
        rw [List.mem_append, List.mem_singleton, or_iff_left hpixel]
      simp only [hmem]
      by_cases hbehind : o = 3 * n + 3
      · have hnot : o / 3 ∉ ns := fun hm => absurd (hlt _ hm) (by omega)
        have hnone : ¬ ∃ m ∈ ns, o = 3 * m + 3 := by
          rintro ⟨m, hm, heq⟩
          exact absurd (hlt m hm) (by omega)
        rw [if_pos hbehind, if_neg hnot, if_neg hnone, if_neg hnot, if_pos ⟨n, List.mem_concat_self, hbehind⟩]
      · have hsame : (∃ m ∈ ns ++ [n], o = 3 * m + 3) ↔ ∃ m ∈ ns, o = 3 * m + 3 := by
          simp only [List.mem_append, List.mem_singleton, or_and_right, exists_or, exists_eq_left, or_iff_left hbehind]
        rw [if_neg hbehind]
        simp only [hsame]

/-- Pixels of one color without a fourth byte. -/
theorem paint_masked_byteAt {ns : List Nat} (hns : ∀ n ∈ ns, 3 * n + 3 < 2 ^ 32) (ho : o < 2 ^ 32) :
    mem.paint (color &&& 0xffffff#32) (ns.map fun n => win.byteAt (3 * n)) (win.byteAt o) =
      if o / 3 ∈ ns then colorByte color (o % 3) else mem (win.byteAt o) := by
  have hcolor : ∀ k < 3, colorByte (color &&& 0xffffff#32) k = colorByte color k := by
    intro k hk
    have hmask : ∀ k < 3, colorByte 0xffffff#32 k = BitVec.allOnes 8 := by decide
    rw [ByteMemory.colorByte_and, hmask k hk, BitVec.and_allOnes]
  induction ns using List.reverseRecOn with
  | nil => simp [ByteMemory.paint]
  | append_singleton ns n ih =>
    have ih := ih fun m hm => hns m (List.mem_append_left _ hm)
    rw [ByteMemory.paint] at ih ⊢
    rw [List.map_append, List.foldl_append, List.map_singleton, List.foldl_cons, List.foldl_nil,
      setPixel_byteAt (hns n List.mem_concat_self) ho, ih, ByteMemory.colorByte_and color _ 3,
      show colorByte 0xffffff#32 3 = 0#8 by decide, BitVec.and_zero, BitVec.or_zero, ite_self,
      hcolor _ (Nat.mod_lt _ (by decide))]
    simp only [List.mem_append, List.mem_singleton]
    by_cases hpixel : o / 3 = n
    · rw [if_pos hpixel, if_pos (Or.inr hpixel)]
    · rw [if_neg hpixel]
      simp only [or_iff_left hpixel]

theorem memcpy_byteAt {d s : Nat} (hbelow : d + n ≤ s) (hend : s + n ≤ 2 ^ 32) (ho : o < 2 ^ 32) :
    mem.memcpy (win.byteAt d) (win.byteAt s) n (win.byteAt o) =
      if d ≤ o ∧ o < d + n then mem (win.byteAt (s + (o - d))) else mem (win.byteAt o) := by
  induction n generalizing o with
  | zero => rw [if_neg (by omega)]; rfl
  | succ n ih =>
    have ih : ∀ {o}, o < 2 ^ 32 → mem.memcpy (win.byteAt d) (win.byteAt s) n (win.byteAt o) = _ :=
      ih (by omega) (by omega)
    rw [ByteMemory.memcpy] at ih ⊢
    rw [List.range_succ, List.foldl_concat, win.byteAt_add, win.byteAt_add, ih (by omega), if_neg (by omega)]
    by_cases hlast : o = d + n
    · rw [hlast, Function.update_self, if_pos (by omega), Nat.add_sub_cancel_left]
    · rw [Function.update_of_ne fun heq => hlast ((win.byteAt_eq_iff (by omega) ho).mp heq), ih ho]
      by_cases hin : d ≤ o ∧ o < d + n
      · rw [if_pos hin, if_pos (by omega)]
      · rw [if_neg hin, if_neg (by omega)]

/-! ### Rectangles -/

/-- Width and height are not negative, and the addresses of the buffer do not wrap. -/
structure Win.Sized (win : Win) : Prop where
  width : 0 ≤ win.width.toInt
  height : 0 ≤ win.height.toInt
  size : 3 * (win.width.toNat * win.height.toNat) < 2 ^ 32

/-- The pixel in a column and a row, counted in rows. -/
def Win.index (win : Win) (c r : Nat) : Nat := r * win.width.toNat + c

variable {a b c r wd ht k : Nat}

theorem Win.index_inj {c' r' : Nat} (hc : c < win.width.toNat) (hc' : c' < win.width.toNat) :
    win.index c r = win.index c' r' ↔ c = c' ∧ r = r' := by
  constructor
  · intro h
    have hmod := congrArg (· % win.width.toNat) h
    have hdiv := congrArg (· / win.width.toNat) h
    simp only [Win.index, Nat.add_comm _ c, Nat.add_comm _ c', Nat.add_mul_mod_self_right, Nat.mod_eq_of_lt hc,
      Nat.mod_eq_of_lt hc'] at hmod
    simp only [Win.index, Nat.add_comm _ c, Nat.add_comm _ c', Nat.add_mul_div_right _ _ (Nat.zero_lt_of_lt hc),
      Nat.div_eq_of_lt hc, Nat.div_eq_of_lt hc', Nat.zero_add] at hdiv
    exact ⟨hmod, hdiv⟩
  · rintro ⟨rfl, rfl⟩
    rfl

theorem Win.Sized.index_lt (h : win.Sized) (hc : c < win.width.toNat) (hr : r < win.height.toNat) :
    3 * win.index c r + 3 < 2 ^ 32 := by
  have hsize := h.size
  have hle : (r + 1) * win.width.toNat ≤ win.height.toNat * win.width.toNat := Nat.mul_le_mul_right _ hr
  rw [Nat.succ_mul, Nat.mul_comm win.height.toNat] at hle
  rw [Win.index]
  omega

theorem Win.Sized.toNat_lt (h : win.Sized) : win.width.toNat < 2 ^ 31 ∧ win.height.toNat < 2 ^ 31 := by
  have hwidth := win.width.toInt_lt
  have hheight := win.height.toInt_lt
  rw [toInt_of_nonneg h.width] at hwidth
  rw [toInt_of_nonneg h.height] at hheight
  omega

theorem toInt_natCast (ha : a < 2 ^ 31) : (BitVec.ofNat 32 a).toInt = a := by
  rw [BitVec.toInt_ofNat', Int.bmod_eq_of_le (by omega) (by omega)]

/-- The pixels of a rectangle. -/
def Win.rectangle (win : Win) (a b wd ht : Nat) : List Nat :=
  (List.range ht).flatMap fun i => (List.range wd).map fun j => win.index (a + j) (b + i)

theorem mem_rectangle_iff (ha : a + wd ≤ win.width.toNat) (hc : c < win.width.toNat) :
    win.index c r ∈ win.rectangle a b wd ht ↔ a ≤ c ∧ c < a + wd ∧ b ≤ r ∧ r < b + ht := by
  simp only [Win.rectangle, List.mem_flatMap, List.mem_map, List.mem_range]
  constructor
  · rintro ⟨i, hi, j, hj, heq⟩
    obtain ⟨rfl, rfl⟩ := (Win.index_inj (by omega) hc).mp heq
    omega
  · rintro ⟨hac, hca, hbr, hrb⟩
    refine ⟨r - b, by omega, c - a, by omega, ?_⟩
    rw [Nat.add_sub_cancel' hac, Nat.add_sub_cancel' hbr]

theorem pixel_eq (win : Win) (a b i j : Nat) : win.pixel (BitVec.ofNat 32 a) (BitVec.ofNat 32 b) +
    BitVec.ofNat 32 i * (win.width * 3#32) + BitVec.ofNat 32 j * 3#32 = win.byteAt (3 * win.index (a + j) (b + i)) := by
  have hwidth : BitVec.ofNat 32 win.width.toNat = win.width := by
    rw [BitVec.ofNat_toNat, BitVec.setWidth_eq]
  rw [Win.pixel, Win.byteAt, Win.index, BitVec.ofNat_mul, BitVec.ofNat_add, BitVec.ofNat_mul, hwidth, BitVec.ofNat_add,
    BitVec.ofNat_add, show BitVec.ofNat 32 3 = 3#32 from rfl]
  ring

theorem grid_eq (win : Win) (a b wd ht : Nat) : win.grid (win.pixel (BitVec.ofNat 32 a) (BitVec.ofNat 32 b)) wd ht =
    (win.rectangle a b wd ht).map fun n => win.byteAt (3 * n) := by
  rw [Win.grid, Win.rectangle, List.map_flatMap]
  refine List.flatMap_congr fun i _ => ?_
  rw [List.map_map]
  exact List.map_congr_left fun j _ => pixel_eq win a b i j

/-- A rectangle is filled as far as it is in the window, and nothing else. -/
theorem fillRect_byteAt (h : win.Sized) (ha : a + wd < 2 ^ 31) (hb : b + ht < 2 ^ 31)
    (hc : c < win.width.toNat) (hr : r < win.height.toNat) (hk : k < 3) :
    gfxFillRect win (BitVec.ofNat 32 a) (BitVec.ofNat 32 b) (BitVec.ofNat 32 wd) (BitVec.ofNat 32 ht) color mem
        (win.byteAt (3 * win.index c r + k)) =
      if a ≤ c ∧ c < a + wd ∧ b ≤ r ∧ r < b + ht then colorByte color k
      else mem (win.byteAt (3 * win.index c r + k)) := by
  obtain ⟨hwidth, hheight⟩ := h.toNat_lt
  have hx := toInt_natCast (a := a) (by omega)
  have hy := toInt_natCast (a := b) (by omega)
  have hwd := toInt_natCast (a := wd) (by omega)
  have hht := toInt_natCast (a := ht) (by omega)
  have hW := toInt_of_nonneg h.width
  have hH := toInt_of_nonneg h.height
  have hlt := h.index_lt hc hr
  rw [gfxFillRect]
  by_cases hout : win.width.toNat ≤ a ∨ win.height.toNat ≤ b
  · have hguard : (win.width.sle (BitVec.ofNat 32 a) || win.height.sle (BitVec.ofNat 32 b)) = true := by
      rw [Bool.or_eq_true, BitVec.sle_iff_toInt_le, BitVec.sle_iff_toInt_le]
      omega
    rw [if_pos hguard, if_neg (by omega)]
  · have hguard : ¬ (win.width.sle (BitVec.ofNat 32 a) || win.height.sle (BitVec.ofNat 32 b)) = true := by
      rw [Bool.or_eq_true, BitVec.sle_iff_toInt_le, BitVec.sle_iff_toInt_le]
      omega
    have hcutx := (@toNat_cut (BitVec.ofNat 32 a) (BitVec.ofNat 32 wd) win.width (by omega) (by omega)).1
    have hcuty := (@toNat_cut (BitVec.ofNat 32 b) (BitVec.ofNat 32 ht) win.height (by omega) (by omega)).1
    have hcut := (cut BitVec.sle (BitVec.ofNat 32 b) (BitVec.ofNat 32 ht) win.height).toInt_lt
    rw [if_neg hguard, kernel_rows_eq (by omega) (by omega) (by omega), hcutx, hcuty, hwd, hht, hx, hy, hW, hH,
      show min (wd : Int).toNat ((win.width.toNat : Int) - a).toNat = min wd (win.width.toNat - a) by omega,
      show min (ht : Int).toNat ((win.height.toNat : Int) - b).toNat = min ht (win.height.toNat - b) by omega, grid_eq,
      paint_masked_byteAt (fun n hn => ?_) (by omega), show (3 * win.index c r + k) / 3 = win.index c r by omega,
      show (3 * win.index c r + k) % 3 = k by omega]
    · have hinside : win.index c r ∈ win.rectangle a b (min wd (win.width.toNat - a)) (min ht (win.height.toNat - b)) ↔
          a ≤ c ∧ c < a + wd ∧ b ≤ r ∧ r < b + ht := by
        rw [mem_rectangle_iff (by omega) hc]
        omega
      simp only [hinside]
    · obtain ⟨i, hi, hn⟩ := List.mem_flatMap.mp hn
      obtain ⟨j, hj, rfl⟩ := List.mem_map.mp hn
      rw [List.mem_range] at hi hj
      exact h.index_lt (by omega) (by omega)

/-! ### Characters -/

/-- The bit of a pixel in the font. -/
def inked (font : Int → BitVec 8) (c : BitVec 8) (i j : Nat) : Bool := (font (c.toInt * 16 + i)).getLsbD j

variable {ch : BitVec 8} {i j : Nat}

theorem mem_glyph_iff {q : Nat × Nat} : q ∈ glyph font ch ↔ q.1 < 16 ∧ q.2 < 8 ∧ inked font ch q.1 q.2 = true := by
  simp only [glyph, List.mem_flatMap, List.mem_map, List.mem_filter, List.mem_range]
  constructor
  · rintro ⟨row, hrow, bit, ⟨hbit, hink⟩, rfl⟩
    exact ⟨hrow, hbit, hink⟩
  · rintro ⟨hrow, hbit, hink⟩
    exact ⟨q.1, hrow, q.2, ⟨hbit, hink⟩, rfl⟩

/-- The pixels of a character are painted in the order in which they are in memory. -/
theorem pairwise_glyph (win : Win) (ha : a + 8 ≤ win.width.toNat) :
    ((glyph font ch).map fun q => win.index (a + q.2) (b + q.1)).Pairwise (· < ·) := by
  have hrow : ∀ i i', i < i' → (i + 1) * win.width.toNat ≤ i' * win.width.toNat := fun i i' hlt =>
    Nat.mul_le_mul_right _ hlt
  rw [List.pairwise_map, glyph, List.pairwise_flatMap]
  constructor
  · intro i _
    rw [List.pairwise_map]
    refine (List.pairwise_lt_range.filter _).imp fun {j j'} hlt => ?_
    dsimp only
    rw [Win.index, Win.index]
    omega
  · refine List.pairwise_lt_range.imp fun {i i'} hlt q hq q' hq' => ?_
    obtain ⟨j, hj, rfl⟩ := List.mem_map.mp hq
    obtain ⟨j', hj', rfl⟩ := List.mem_map.mp hq'
    have hj := List.mem_range.mp (List.mem_filter.mp hj).1
    have hle := hrow (b + i) (b + i') (by omega)
    rw [Nat.succ_mul] at hle
    dsimp only
    rw [Win.index, Win.index]
    omega

/-- Nothing is left behind the last column of a character. -/
def Narrow (font : Int → BitVec 8) (ch : BitVec 8) (color : BitVec 32) : Prop :=
  colorByte color 3 = 0#8 ∨ ∀ i < 16, inked font ch i 7 = false

/-- A character is painted into its own pixels. -/
theorem paintChar_byteAt (h : win.Sized) (hnarrow : Narrow font ch color) (ha : a + 8 ≤ win.width.toNat)
    (hb : b + 16 ≤ win.height.toNat) (hc : c < win.width.toNat) (hr : r < win.height.toNat) (hk : k < 3) :
    gfxPaintChar win font ch (BitVec.ofNat 32 a) (BitVec.ofNat 32 b) color mem (win.byteAt (3 * win.index c r + k)) =
      if a ≤ c ∧ c < a + 8 ∧ b ≤ r ∧ r < b + 16 ∧ inked font ch (r - b) (c - a) = true then colorByte color k
      else if k = 0 ∧ a < c ∧ c < a + 8 ∧ b ≤ r ∧ r < b + 16 ∧ inked font ch (r - b) (c - a - 1) = true then
        mem (win.byteAt (3 * win.index c r + k)) ||| colorByte color 3
      else mem (win.byteAt (3 * win.index c r + k)) := by
  obtain ⟨hwidth, hheight⟩ := h.toNat_lt
  have hx : ∀ j < 8, (BitVec.ofNat 32 a + BitVec.ofNat 32 j).toInt = a + j := fun j hj => by
    rw [← BitVec.ofNat_add, toInt_natCast (by omega), Int.natCast_add]
  have hy : ∀ i < 16, (BitVec.ofNat 32 b + BitVec.ofNat 32 i).toInt = b + i := fun i hi => by
    rw [← BitVec.ofNat_add, toInt_natCast (by omega), Int.natCast_add]
  have hx8 : (BitVec.ofNat 32 a + 8#32).toInt = a + 8 := by
    rw [show (8#32) = BitVec.ofNat 32 8 from rfl, ← BitVec.ofNat_add, toInt_natCast (by omega)]
    rfl
  have hy16 : (BitVec.ofNat 32 b + 16#32).toInt = b + 16 := by
    rw [show (16#32) = BitVec.ofNat 32 16 from rfl, ← BitVec.ofNat_add, toInt_natCast (by omega)]
    rfl
  have hx0 := toInt_natCast (a := a) (by omega)
  have hy0 := toInt_natCast (a := b) (by omega)
  have hW := toInt_of_nonneg h.width
  have hH := toInt_of_nonneg h.height
  have hlt := h.index_lt hc hr
  have hguard : ¬ (win.width.slt (BitVec.ofNat 32 a + 8#32) || win.height.slt (BitVec.ofNat 32 b + 16#32) ||
      (BitVec.ofNat 32 a).slt 0#32 || (BitVec.ofNat 32 b).slt 0#32) = true := by
    simp only [Bool.or_eq_true, BitVec.slt_iff_toInt_lt, BitVec.toInt_zero]
    omega
  rw [gfxPaintChar, if_neg hguard, List.filter_eq_self.mpr fun q hq => ?_]
  · have hlist : (glyph font ch).map (win.glyphPixel (BitVec.ofNat 32 a) (BitVec.ofNat 32 b)) =
        ((glyph font ch).map fun q => win.index (a + q.2) (b + q.1)).map fun n => win.byteAt (3 * n) := by
      rw [List.map_map]
      exact List.map_congr_left fun q _ => pixel_eq win a b q.1 q.2
    have hindex : ∀ n ∈ (glyph font ch).map (fun q => win.index (a + q.2) (b + q.1)), 3 * n + 3 < 2 ^ 32 := by
      intro n hn
      obtain ⟨q, hq, rfl⟩ := List.mem_map.mp hn
      obtain ⟨hrow, hbit⟩ := lt_of_mem_glyph hq
      exact h.index_lt (by omega) (by omega)
    rw [hlist, paint_byteAt (pairwise_glyph win ha) hindex (by omega),
      show (3 * win.index c r + k) / 3 = win.index c r by omega, show (3 * win.index c r + k) % 3 = k by omega]
    have hpainted : win.index c r ∈ (glyph font ch).map (fun q => win.index (a + q.2) (b + q.1)) ↔
        a ≤ c ∧ c < a + 8 ∧ b ≤ r ∧ r < b + 16 ∧ inked font ch (r - b) (c - a) = true := by
      rw [List.mem_map]
      constructor
      · rintro ⟨q, hq, heq⟩
        obtain ⟨hrow, hbit, hink⟩ := mem_glyph_iff.mp hq
        obtain ⟨rfl, rfl⟩ := (Win.index_inj (by omega) hc).mp heq
        rw [Nat.add_sub_cancel_left, Nat.add_sub_cancel_left]
        exact ⟨by omega, by omega, by omega, by omega, hink⟩
      · rintro ⟨hac, hca, hbr, hrb, hink⟩
        refine ⟨(r - b, c - a), mem_glyph_iff.mpr ⟨by dsimp only; omega, by dsimp only; omega, hink⟩, ?_⟩
        rw [Nat.add_sub_cancel' hac, Nat.add_sub_cancel' hbr]
    simp only [hpainted]
    split
    · rfl
    · obtain hnone | hlast := hnarrow
      · rw [hnone, BitVec.or_zero, ite_self, ite_self]
      · -- the last column is blank, and the pixel behind another one is in the same row
        have hbehind : (∃ n ∈ (glyph font ch).map (fun q => win.index (a + q.2) (b + q.1)),
            3 * win.index c r + k = 3 * n + 3) ↔
            k = 0 ∧ a < c ∧ c < a + 8 ∧ b ≤ r ∧ r < b + 16 ∧ inked font ch (r - b) (c - a - 1) = true := by
          constructor
          · rintro ⟨n, hn, heq⟩
            obtain ⟨q, hq, rfl⟩ := List.mem_map.mp hn
            obtain ⟨hrow, hbit, hink⟩ := mem_glyph_iff.mp hq
            have hseven : q.2 ≠ 7 := by
              intro hseven
              rw [hseven, hlast q.1 hrow] at hink
              exact absurd hink Bool.false_ne_true
            have hnext : win.index c r = win.index (a + q.2 + 1) (b + q.1) := by
              rw [Win.index, Win.index] at heq ⊢
              omega
            obtain ⟨rfl, rfl⟩ := (Win.index_inj hc (by omega)).mp hnext
            rw [Nat.add_sub_cancel_left, show a + q.2 + 1 - a - 1 = q.2 by omega]
            exact ⟨by omega, by omega, by omega, by omega, by omega, hink⟩
          · rintro ⟨rfl, hac, hca, hbr, hrb, hink⟩
            refine ⟨win.index (c - 1) r, List.mem_map.mpr ⟨(r - b, c - a - 1), mem_glyph_iff.mpr ⟨?_, ?_, hink⟩, ?_⟩,
              ?_⟩
            · dsimp only
              omega
            · dsimp only
              omega
            · rw [Nat.add_sub_cancel' hbr, show a + (c - a - 1) = c - 1 by omega]
            · rw [Win.index, Win.index]
              omega
        simp only [hbehind]
  · obtain ⟨hrow, hbit⟩ := lt_of_mem_glyph hq
    have hcol := hx q.2 hbit
    have hrow' := hy q.1 hrow
    simp only [Bool.and_eq_true, BitVec.slt_iff_toInt_lt, BitVec.sle_iff_toInt_le, BitVec.toInt_zero]
    omega

/-- A character with its background changes no pixel beside its own. -/
theorem paintCharBg_byteAt (h : win.Sized) {bgcolor fgcolor : BitVec 32} (ha : a < 2 ^ 31) (hb : b < 2 ^ 31)
    (hc : c < win.width.toNat) (hr : r < win.height.toNat) (hk : k < 3)
    (hout : ¬ (a ≤ c ∧ c < a + 8 ∧ b ≤ r ∧ r < b + 16)) :
    gfxPaintCharBg win font ch (BitVec.ofNat 32 a) (BitVec.ofNat 32 b) bgcolor fgcolor mem
      (win.byteAt (3 * win.index c r + k)) = mem (win.byteAt (3 * win.index c r + k)) := by
  obtain ⟨hwidth, hheight⟩ := h.toNat_lt
  have hlt := h.index_lt hc hr
  rw [gfxPaintCharBg]
  split
  · rfl
  · refine paintAll_of_forall_not fun q hq hpixel => hout ?_
    obtain ⟨p, hp, rfl⟩ := List.mem_map.mp hq
    obtain ⟨hp, hinside⟩ := List.mem_filter.mp hp
    obtain ⟨row, hrow, hp⟩ := List.mem_flatMap.mp hp
    obtain ⟨bit, hbit, rfl⟩ := List.mem_map.mp hp
    rw [List.mem_range] at hrow hbit
    have hx := @toInt_add_natCast (BitVec.ofNat 32 a) bit (by omega)
    have hy := @toInt_add_natCast (BitVec.ofNat 32 b) row (by omega)
    rw [toInt_natCast (by omega)] at hx hy
    have hW := toInt_of_nonneg h.width
    have hH := toInt_of_nonneg h.height
    simp only [Bool.and_eq_true, BitVec.slt_iff_toInt_lt, BitVec.sle_iff_toInt_le, BitVec.toInt_zero] at hinside
    have hindex := h.index_lt (c := a + bit) (r := b + row) (by omega) (by omega)
    dsimp only at hpixel
    rw [Win.glyphPixel, pixel_eq] at hpixel
    dsimp only at hpixel
    rw [win.toNat_byteAt_sub (by omega) (by omega)] at hpixel
    have hsame : win.index c r = win.index (a + bit) (b + row) := by
      split at hpixel <;> omega
    obtain ⟨rfl, rfl⟩ := (Win.index_inj hc (by omega)).mp hsame
    omega

/-! ### Scrolling -/

/-- The rows of text that were copied so far. -/
theorem foldl_memcpy_byteAt {size rows : Nat} (hend : (rows + 5) * size < 2 ^ 32) (ho : o < 2 ^ 32) :
    (List.range rows).foldl (fun mem i => mem.memcpy (win.byteAt (i * size)) (win.byteAt ((i + 5) * size)) size) mem
      (win.byteAt o) = if o < rows * size then mem (win.byteAt (o + 5 * size)) else mem (win.byteAt o) := by
  induction rows generalizing o with
  | zero => rw [if_neg (by omega)]; rfl
  | succ rows ih =>
    have hsix : (rows + 1 + 5) * size = rows * size + 6 * size := by ring
    have hfive : (rows + 5) * size = rows * size + 5 * size := Nat.add_mul rows 5 size
    have hone : (rows + 1) * size = rows * size + size := Nat.succ_mul rows size
    rw [hsix] at hend
    rw [List.range_succ, List.foldl_concat, memcpy_byteAt (by omega) (by omega) ho, hone]
    by_cases hlast : rows * size ≤ o ∧ o < rows * size + size
    · rw [if_pos hlast, if_pos (by omega), ih (by omega) (by omega), if_neg (by omega)]
      congr 2
      omega
    · rw [if_neg hlast, ih (by omega) ho]
      by_cases hbefore : o < rows * size
      · rw [if_pos hbefore, if_pos (by omega)]
      · rw [if_neg hbefore, if_neg (by omega)]

theorem Win.Sized.rows (h : win.Sized) : win.text.rows = ((win.height.toNat / 16 : Nat) : Int) := by
  rw [Winsys.TextWindow.rows, Winsys.gfxGetLogicalRow, Win.text, toInt_of_nonneg h.height]
  exact Int.ofNat_tdiv _ _ |>.symm

theorem Win.Sized.columns (h : win.Sized) : win.text.columns = ((win.width.toNat / 8 : Nat) : Int) := by
  rw [Winsys.TextWindow.columns, Winsys.gfxGetLogicalCol, Win.text, toInt_of_nonneg h.width]
  exact Int.ofNat_tdiv _ _ |>.symm

theorem Win.ofNat_width (win : Win) : BitVec.ofNat 32 win.width.toNat = win.width := by
  rw [BitVec.ofNat_toNat, BitVec.setWidth_eq]

/-- Places from the bottom of the window. -/
theorem Win.height_sub (win : Win) {n : Nat} (hle : n ≤ win.height.toNat) :
    win.height - BitVec.ofNat 32 n = BitVec.ofNat 32 (win.height.toNat - n) := by
  have hH : win.height = BitVec.ofNat 32 (win.height.toNat - n) + BitVec.ofNat 32 n := by
    rw [← BitVec.ofNat_add, Nat.sub_add_cancel hle, BitVec.ofNat_toNat, BitVec.setWidth_eq]
  conv_lhs => rw [hH]
  exact BitVec.add_sub_cancel _ _

/-- One row of text has 48 bytes for each column of pixels. -/
theorem scrollRows_eq (h : win.Sized) (hsix : 96 ≤ win.height.toNat) (mem : ByteMemory) : scrollRows win mem =
    gfxFillRect win (BitVec.ofNat 32 0) (BitVec.ofNat 32 (win.height.toNat - 80)) (BitVec.ofNat 32 win.width.toNat)
      (BitVec.ofNat 32 80) 0#32 ((List.range (win.height.toNat / 16 - 5)).foldl (fun mem i =>
        mem.memcpy (win.byteAt (i * (48 * win.width.toNat))) (win.byteAt ((i + 5) * (48 * win.width.toNat)))
          (48 * win.width.toNat)) mem) := by
  have hline : win.width * 16#32 * 3#32 = BitVec.ofNat 32 (48 * win.width.toNat) := by
    rw [BitVec.ofNat_mul, win.ofNat_width, show BitVec.ofNat 32 48 = 16#32 * 3#32 from rfl]
    ring
  have hsmall : 48 * win.width.toNat < 2 ^ 32 := by
    have hsize := h.size
    have hle := Nat.mul_le_mul_left win.width.toNat hsix
    omega
  have hcount : (win.text.rows - (Winsys.scrollRows : Int)).toNat = win.height.toNat / 16 - 5 := by
    rw [h.rows, show Winsys.scrollRows = 5 from rfl]
    omega
  have hcopies : ∀ (mem : ByteMemory) i,
      mem.memcpy (win.wBuffer + BitVec.ofNat 32 i * BitVec.ofNat 32 (48 * win.width.toNat))
        (win.wBuffer + BitVec.ofNat 32 i * BitVec.ofNat 32 (48 * win.width.toNat) +
          5#32 * BitVec.ofNat 32 (48 * win.width.toNat)) (BitVec.ofNat 32 (48 * win.width.toNat)).toNat =
        mem.memcpy (win.byteAt (i * (48 * win.width.toNat))) (win.byteAt ((i + 5) * (48 * win.width.toNat)))
          (48 * win.width.toNat) := by
    intro mem i
    rw [BitVec.toNat_ofNat, Nat.mod_eq_of_lt hsmall, show 5#32 = BitVec.ofNat 32 5 from rfl, ← BitVec.ofNat_mul,
      ← BitVec.ofNat_mul, Win.byteAt, Win.byteAt, Nat.add_mul, BitVec.ofNat_add, BitVec.add_assoc]
  rw [scrollRows]
  dsimp only
  rw [hcount, hline, show 80#32 = BitVec.ofNat 32 80 from rfl, win.height_sub (by omega), win.ofNat_width]
  simp only [hcopies]

/-- The window goes up five rows of text, and the last five ones are blank. -/
theorem scrollRows_byteAt (h : win.Sized) (hsix : 96 ≤ win.height.toNat) (hheight : 16 ∣ win.height.toNat)
    (hc : c < win.width.toNat) (hr : r < win.height.toNat) (hk : k < 3) :
    scrollRows win mem (win.byteAt (3 * win.index c r + k)) =
      if r + 80 < win.height.toNat then mem (win.byteAt (3 * win.index c (r + 80) + k)) else 0#8 := by
  obtain ⟨rows, hrows⟩ := hheight
  have hlt := h.index_lt hc hr
  have hfits := h.toNat_lt
  have hsize := h.size
  rw [Nat.mul_comm win.width.toNat, hrows, Nat.mul_assoc] at hsize
  rw [scrollRows_eq h hsix, fillRect_byteAt h (by omega) (by omega) hc hr hk,
    show win.height.toNat / 16 - 5 = rows - 5 by omega]
  by_cases hup : r + 80 < win.height.toNat
  · have hlines : (rows - 5 + 5) * (48 * win.width.toNat) = 48 * (rows * win.width.toNat) := by
      rw [Nat.sub_add_cancel (by omega)]
      ring
    have hrow : (r + 1) * win.width.toNat ≤ (16 * (rows - 5)) * win.width.toNat := Nat.mul_le_mul_right _ (by omega)
    have hinside : 3 * win.index c r + k < (rows - 5) * (48 * win.width.toNat) := by
      have hthree : (rows - 5) * (48 * win.width.toNat) = 3 * (16 * (rows - 5) * win.width.toNat) := by ring
      rw [Nat.succ_mul] at hrow
      rw [Win.index]
      omega
    rw [if_neg (by omega), if_pos hup, foldl_memcpy_byteAt (by omega) (by omega), if_pos hinside]
    congr 2
    rw [Win.index, Win.index, Nat.add_mul]
    ring
  · have hzero : ∀ k < 3, colorByte 0#32 k = 0#8 := by decide
    rw [if_pos (by omega), if_neg hup, hzero k hk]

/-! ### Cells -/

/-- What is in a cell: nothing, or a character and its color. -/
abbrev Ink := Option (BitVec 8 × BitVec 8)

/-- Byte `k` of the pixel in row `i` and column `j` of a cell. -/
def cellByte (font : Int → BitVec 8) (ink : Ink) (i j k : Nat) : BitVec 8 :=
  match ink with
  | none => 0#8
  | some (ch, color) =>
    if inked font ch i j = true then colorByte (color.signExtend 32) k
    -- the fourth byte of the color is the first one of the next pixel
    else if k = 0 ∧ 0 < j ∧ inked font ch i (j - 1) = true then colorByte (color.signExtend 32) 3
    else 0#8

/-- Every cell has the pixels of what is in it; the cells are counted by rows and columns. -/
def Shows (win : Win) (font : Int → BitVec 8) (mem : ByteMemory) (cells : Nat → Nat → Ink) : Prop :=
  ∀ r < win.height.toNat / 16, ∀ c < win.width.toNat / 8, ∀ i < 16, ∀ j < 8, ∀ k < 3,
    mem (win.byteAt (3 * win.index (8 * c + j) (16 * r + i) + k)) = cellByte font (cells r c) i j k

def setCell (cells : Nat → Nat → Ink) (r c : Nat) (ink : Ink) : Nat → Nat → Ink :=
  fun r' c' => if r' = r ∧ c' = c then ink else cells r' c'

variable {cells : Nat → Nat → Ink} {col : BitVec 8}

theorem ofInt_winX (c : Nat) : BitVec.ofInt 32 (Winsys.gfxGetWinX c) = BitVec.ofNat 32 (8 * c) := by
  rw [Winsys.gfxGetWinX, ← BitVec.ofInt_natCast, Nat.cast_mul, mul_comm]
  rfl

theorem ofInt_winY (r : Nat) : BitVec.ofInt 32 (Winsys.gfxGetWinY r) = BitVec.ofNat 32 (16 * r) := by
  rw [Winsys.gfxGetWinY, ← BitVec.ofInt_natCast, Nat.cast_mul, mul_comm]
  rfl

theorem Shows.clearCell (h : win.Sized) (hs : Shows win font mem cells) (hr : r < win.height.toNat / 16)
    (hc : c < win.width.toNat / 8) : Shows win font (clearCell win (c, r) mem) (setCell cells r c none) := by
  intro r' hr' c' hc' i hi j hj k hk
  have hfits := h.toNat_lt
  have hfill := @fillRect_byteAt win mem 0#32 (8 * c) (16 * r) (8 * c' + j) (16 * r' + i) 8 16 k h (by omega) (by omega)
    (by omega) (by omega) hk
  rw [Gfx.clearCell, ofInt_winX, ofInt_winY]
  refine hfill.trans ?_
  rw [setCell]
  by_cases hcell : r' = r ∧ c' = c
  · have hzero : ∀ k < 3, colorByte 0#32 k = 0#8 := by decide
    rw [if_pos hcell, if_pos (by omega), cellByte, hzero k hk]
  · rw [if_neg hcell, if_neg (by omega), hs r' hr' c' hc' i hi j hj k hk]

theorem Shows.paintChar (h : win.Sized) (hs : Shows win font mem cells) (hr : r < win.height.toNat / 16)
    (hc : c < win.width.toNat / 8) (hblank : cells r c = none) (hnarrow : Narrow font ch (col.signExtend 32)) :
    Shows win font (gfxPaintChar win font ch (BitVec.ofInt 32 (Winsys.gfxGetWinX c))
      (BitVec.ofInt 32 (Winsys.gfxGetWinY r)) (col.signExtend 32) mem) (setCell cells r c (some (ch, col))) := by
  intro r' hr' c' hc' i hi j hj k hk
  rw [ofInt_winX, ofInt_winY, paintChar_byteAt h hnarrow (by omega) (by omega) (by omega) (by omega) hk,
    hs r' hr' c' hc' i hi j hj k hk, setCell]
  by_cases hcell : r' = r ∧ c' = c
  · obtain ⟨rfl, rfl⟩ := hcell
    have hhere : 8 * c' ≤ 8 * c' + j ∧ 8 * c' + j < 8 * c' + 8 ∧ 16 * r' ≤ 16 * r' + i ∧
        16 * r' + i < 16 * r' + 16 := by
      omega
    have hbehind : 8 * c' < 8 * c' + j ↔ 0 < j := by omega
    rw [if_pos (show r' = r' ∧ c' = c' from ⟨rfl, rfl⟩), hblank, Nat.add_sub_cancel_left, Nat.add_sub_cancel_left]
    simp only [cellByte, hhere, hbehind, true_and, BitVec.zero_or]
  · have hout : ¬ (8 * c ≤ 8 * c' + j ∧ 8 * c' + j < 8 * c + 8 ∧ 16 * r ≤ 16 * r' + i ∧
        16 * r' + i < 16 * r + 16) := by
      omega
    rw [if_neg hcell, if_neg fun hin => hout ⟨hin.1, hin.2.1, hin.2.2.1, hin.2.2.2.1⟩,
      if_neg fun hin => hout ⟨Nat.le_of_lt hin.2.1, hin.2.2.1, hin.2.2.2.1, hin.2.2.2.2.1⟩]

/-- The cells of a window that has gone up five rows. -/
def scrolledCells (win : Win) (cells : Nat → Nat → Ink) : Nat → Nat → Ink :=
  fun r c => if r + 5 < win.height.toNat / 16 then cells (r + 5) c else none

theorem Shows.scrollRows (h : win.Sized) (hs : Shows win font mem cells) (hsix : 96 ≤ win.height.toNat)
    (hheight : 16 ∣ win.height.toNat) : Shows win font (scrollRows win mem) (scrolledCells win cells) := by
  intro r hr c hc i hi j hj k hk
  rw [scrollRows_byteAt h hsix hheight (by omega) (by omega) hk, scrolledCells]
  by_cases hup : r + 5 < win.height.toNat / 16
  · have hfrom := hs (r + 5) hup c hc i hi j hj k hk
    rw [if_pos (by omega), if_pos hup, ← hfrom]
    congr 5
    omega
  · rw [if_neg (by omega), if_neg hup, cellByte]

/-- The points are shown in the last row, where nothing was, and taken away again. -/
theorem Shows.pause (h : win.Sized) (hs : Shows win font mem cells) (hheight : 16 ∣ win.height.toNat)
    (hr : r + 1 = win.height.toNat / 16) (hblank : ∀ c < win.width.toNat / 8, cells r c = none) (task : Bool) :
    Shows win font (pause win font task r mem) cells := by
  rw [Gfx.pause]
  split
  · intro r' hr' c hc i hi j hj k hk
    have hfits := h.toNat_lt
    have hbottom : win.height - 16#32 = BitVec.ofNat 32 (16 * r) :=
      (win.height_sub (n := 16) (by omega)).trans (by congr 1; omega)
    have hpoint : ∀ (p : Nat) (mem : ByteMemory), p < 3 →
        ¬ (r' = r ∧ 8 * c + j < 24) → gfxPaintCharBg win font 0x2E#8 (BitVec.ofInt 32 (Winsys.gfxGetWinX p))
          (BitVec.ofInt 32 (Winsys.gfxGetWinY r)) 0#32 0xAA0000#32 mem
            (win.byteAt (3 * win.index (8 * c + j) (16 * r' + i) + k)) =
          mem (win.byteAt (3 * win.index (8 * c + j) (16 * r' + i) + k)) := by
      intro p mem hp hout
      rw [ofInt_winX, ofInt_winY]
      exact paintCharBg_byteAt h (by omega) (by omega) (by omega) (by omega) hk (by omega)
    have hfill := fun mem => @fillRect_byteAt win mem 0#32 0 (16 * r) (8 * c + j) (16 * r' + i) 24 16 k h (by omega)
      (by omega) (by omega) (by omega) hk
    rw [hbottom]
    refine (hfill _).trans ?_
    by_cases hcleared : r' = r ∧ 8 * c + j < 24
    · have hzero : ∀ k < 3, colorByte 0#32 k = 0#8 := by decide
      rw [if_pos (by omega), hcleared.1, hblank c hc, cellByte, hzero k hk]
    · rw [if_neg (by omega)]
      refine (hpoint 2 _ (by decide) hcleared).trans ?_
      refine (hpoint 1 _ (by decide) hcleared).trans ?_
      exact (hpoint 0 _ (by decide) hcleared).trans (hs r' hr' c hc i hi j hj k hk)
  · exact hs

end Bytes

end Gfx

end Akos
