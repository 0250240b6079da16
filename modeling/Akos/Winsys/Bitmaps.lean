import Akos.Utils.Strings
import Akos.Winsys.Drawing

/-!
# Bitmaps in windows

`gfx_paint_bmp16` reads a bitmap of 16 colors and paints it into a window from the bottom row up. It is there twice,
in `window_sys.c` and in `cstdlib/gfx.c`, and of the place that it is given it looks only whether that is in the
window.
-/

namespace Akos.Gfx

/-- `vga_palette` -/
def vgaPalette (i : Byte) : BitVec 32 :=
  [0x00000000#32, 0x000000AA#32, 0x0000AA00#32, 0x0000AAAA#32, 0x00AA0000#32, 0x00AA00AA#32, 0x00AA5500#32,
    0x00AAAAAA#32, 0x00555555#32, 0x005555FF#32, 0x0055FF55#32, 0x0055FFFF#32, 0x00FF5555#32, 0x00FF55FF#32,
    0x00FFFF55#32, 0x00FFFFFF#32].getD i.toNat 0#32

/-- `BMP_SIGNATURE` -/
abbrev bmpSignature : BitVec 16 := 0x4D42#16

/-- What is used of the headers of a bitmap, and the bytes of the file behind its palette. -/
structure Bitmap where
  signature : BitVec 16
  bpp : BitVec 16
  width : BitVec 32
  height : BitVec 32
  data : Nat → Byte

/-- `padding_bytes` -/
def paddingBytes (width : BitVec 32) : BitVec 32 :=
  let paddingBytes := 4#32 - (width / 2#32 + width % 2#32) % 4#32
  if paddingBytes = 4#32 then 0#32 else paddingBytes

def imgBufferSize (width height : BitVec 32) : BitVec 32 :=
  let size := width * height / 2#32
  size + (paddingBytes width * height + size % 2#32)

/-- `img_buffer` behind the four reads, where `junk` is what was in memory from there on. -/
def Bitmap.imgBuffer (bmp : Bitmap) (junk : Nat → Byte) : Nat → Byte :=
  let part := (imgBufferSize bmp.width bmp.height / 4#32).toNat
  (List.range 4).foldl (fun buffer i => memcpy buffer (i * part) bmp.data (i * part) part) junk

/-- The variables of the loops, with the places in `img_buffer` that were read. -/
structure Painter where
  imgBufferPtr : BitVec 32
  twoPixels : Byte
  buff : BitVec 32
  mem : ByteMemory
  reads : List (BitVec 32)

/-- The body of the inner loop, where `pix_count` is the column. -/
def paintPixel (img : Nat → Byte) (s : Painter) (j : Nat) : Painter :=
  let s := if j % 2 = 0 then
      { s with
        twoPixels := img s.imgBufferPtr.toNat, imgBufferPtr := s.imgBufferPtr + 1#32,
        reads := s.reads ++ [s.imgBufferPtr] }
    else { s with twoPixels := s.twoPixels >>> 4 }
  let color := vgaPalette (s.twoPixels &&& 0xF#8)
  { s with mem := s.mem.setPixel (s.buff + BitVec.ofNat 32 j * 3#32) (color &&& 0xffffff#32) }

/-- The body of the outer loop. -/
def paintRow (win : Win) (bmp : Bitmap) (img : Nat → Byte) (s : Painter) : Painter :=
  let s := (List.range bmp.width.toNat).foldl (paintPixel img) s
  { s with imgBufferPtr := s.imgBufferPtr + paddingBytes bmp.width, buff := s.buff - win.width * 3#32 }

def paintRows (win : Win) (bmp : Bitmap) (img : Nat → Byte) (n : Nat) (s : Painter) : Painter :=
  (List.range n).foldl (fun s _ => paintRow win bmp img s) s

/-- The memory and the reads, where `le` is the comparison with the fields of the window. -/
def paintBmp16 (le : BitVec 32 → BitVec 32 → Bool) (win : Win) (bmp : Bitmap) (x y : BitVec 32) (junk : Nat → Byte)
    (mem : ByteMemory) : ByteMemory × List (BitVec 32) :=
  if le win.width x || le win.height y then (mem, [])
  else if bmp.signature ≠ bmpSignature then (mem, [])
  else if bmp.bpp ≠ 4#16 then (mem, [])
  else
    let s := paintRows win bmp (bmp.imgBuffer junk) bmp.height.toNat
      ⟨0#32, 0#8, win.wBuffer + (bmp.height - 1#32) * win.width * 3#32, mem, []⟩
    (s.mem, s.reads)

/-- `window_sys.c` -/
def Kernel.gfxPaintBmp16 := paintBmp16 BitVec.sle

/-- `cstdlib/gfx.c` -/
def User.gfxPaintBmp16 := paintBmp16 BitVec.ule

/-! ### What is to be painted -/

/-- A row of a bitmap in its file, with the padding. -/
def Bitmap.stride (bmp : Bitmap) : Nat := (bmp.width.toNat + 1) / 2 + (paddingBytes bmp.width).toNat

/-- The pixel of a byte that is in an even column is the upper half. -/
def pixelHalf (j : Nat) (c : Byte) : Byte := if j % 2 = 0 then c >>> 4 else c &&& 0xF#8

/-- The pixel in column `j` of row `i` from the top. The rows are in the file from the bottom up. -/
def Bitmap.pixel (bmp : Bitmap) (j i : Nat) : Byte :=
  pixelHalf j (bmp.data ((bmp.height.toNat - 1 - i) * bmp.stride + j / 2))

/-- Which pixel of the window a byte belongs to, counted in rows. -/
def Win.column (win : Win) (b : BitVec 32) : Nat := (b - win.wBuffer).toNat / 3 % win.width.toNat

def Win.row (win : Win) (b : BitVec 32) : Nat := (b - win.wBuffer).toNat / 3 / win.width.toNat

/-- The byte is one of the window's, and of a pixel that the bitmap lies on when it is at `(x, y)`. -/
def InPlace (win : Win) (bmp : Bitmap) (x y b : BitVec 32) : Prop :=
  (b - win.wBuffer).toNat < 3 * (win.width.toNat * win.height.toNat) ∧
    x.toNat ≤ win.column b ∧ win.column b - x.toNat < bmp.width.toNat ∧
    y.toNat ≤ win.row b ∧ win.row b - y.toNat < bmp.height.toNat

instance (win : Win) (bmp : Bitmap) (x y b : BitVec 32) : Decidable (InPlace win bmp x y b) :=
  inferInstanceAs (Decidable (_ ∧ _))

/-- The bitmap at `(x, y)` in the window, as far as it is in the window. -/
def placed (win : Win) (bmp : Bitmap) (x y : BitVec 32) (mem : ByteMemory) : ByteMemory := fun b =>
  if InPlace win bmp x y b then
    colorByte (vgaPalette (bmp.pixel (win.column b - x.toNat) (win.row b - y.toNat))) ((b - win.wBuffer).toNat % 3)
  else mem b

/-- The function leaves the window with the bitmap at its place and nothing else, and reads only what it allocated,
whatever was in memory. -/
def Places (paint : Win → Bitmap → BitVec 32 → BitVec 32 → (Nat → Byte) → ByteMemory → ByteMemory × List (BitVec 32))
    (win : Win) (bmp : Bitmap) (x y : BitVec 32) : Prop :=
  ∀ junk mem, (paint win bmp x y junk mem).1 = placed win bmp x y mem ∧
    ∀ k ∈ (paint win bmp x y junk mem).2, k < imgBufferSize bmp.width bmp.height

/-- When the bitmap is painted as it is to be: it is empty, or it is in the corner of the window and not larger than
that, the part of `img_buffer` that the file was read into has all its bytes, and both halves of each are equal. -/
def PlacesWhen (win : Win) (bmp : Bitmap) (x y : BitVec 32) : Prop :=
  bmp.width = 0#32 ∨ bmp.height = 0#32 ∨
    x = 0#32 ∧ y = 0#32 ∧ bmp.width.toNat ≤ win.width.toNat ∧ bmp.height.toNat ≤ win.height.toNat ∧
      ∀ i < bmp.height.toNat, ∀ j < bmp.width.toNat,
        i * bmp.stride + j / 2 < 4 * ((imgBufferSize bmp.width bmp.height).toNat / 4) ∧
          bmp.data (i * bmp.stride + j / 2) >>> 4 = bmp.data (i * bmp.stride + j / 2) &&& 0xF#8

/-! ### Pixels of several colors -/

variable {win : Win} {bmp : Bitmap} {x y p b : BitVec 32} {mem mem' : ByteMemory} {img junk : Nat → Byte}
  {l : List (BitVec 32 × BitVec 32)} {n : Nat} {s : Painter}

/-- Pixels and their colors, one after the other. -/
def paintAll (mem : ByteMemory) (l : List (BitVec 32 × BitVec 32)) : ByteMemory :=
  l.foldl (fun mem q => mem.setPixel q.1 (q.2 &&& 0xffffff#32)) mem

theorem paintAll_append (mem : ByteMemory) (l l' : List (BitVec 32 × BitVec 32)) :
    paintAll mem (l ++ l') = paintAll (paintAll mem l) l' := List.foldl_append

theorem paintAll_singleton_apply (mem : ByteMemory) (q : BitVec 32 × BitVec 32) (b : BitVec 32) :
    paintAll mem [q] b = if (b - q.1).toNat < 3 then colorByte q.2 (b - q.1).toNat else mem b :=
  ByteMemory.setPixel_masked mem q.1 q.2 b

theorem paintAll_of_forall_not (h : ∀ q ∈ l, ¬ (b - q.1).toNat < 3) : paintAll mem l b = mem b := by
  induction l using List.reverseRecOn with
  | nil => rfl
  | append_singleton l q ih =>
    rw [paintAll_append, paintAll_singleton_apply, if_neg (h q List.mem_concat_self),
      ih fun q' hq' => h q' (List.mem_append_left _ hq')]

/-- A byte that is painted does not keep what it held. -/
theorem paintAll_congr (h : ∃ q ∈ l, (b - q.1).toNat < 3) (mem mem' : ByteMemory) :
    paintAll mem l b = paintAll mem' l b := by
  induction l using List.reverseRecOn with
  | nil => exact absurd h (by simp)
  | append_singleton l q ih =>
    rw [paintAll_append, paintAll_append, paintAll_singleton_apply, paintAll_singleton_apply]
    by_cases hlt : (b - q.1).toNat < 3
    · rw [if_pos hlt, if_pos hlt]
    · rw [if_neg hlt, if_neg hlt]
      obtain ⟨q', hq', hlt'⟩ := h
      obtain hq' | hq' := List.mem_append.mp hq'
      · exact ih ⟨q', hq', hlt'⟩
      · exact absurd (List.mem_singleton.mp hq' ▸ hlt') hlt

/-- A byte in which all its pixels agree. -/
theorem paintAll_of_forall {v : BitVec 8} (h : ∃ q ∈ l, (b - q.1).toNat < 3)
    (hall : ∀ q ∈ l, (b - q.1).toNat < 3 → colorByte q.2 (b - q.1).toNat = v) : paintAll mem l b = v := by
  induction l using List.reverseRecOn with
  | nil => exact absurd h (by simp)
  | append_singleton l q ih =>
    rw [paintAll_append, paintAll_singleton_apply]
    by_cases hlt : (b - q.1).toNat < 3
    · rw [if_pos hlt]
      exact hall q List.mem_concat_self hlt
    · rw [if_neg hlt]
      refine ih ?_ fun q' hq' => hall q' (List.mem_append_left _ hq')
      obtain ⟨q', hq', hlt'⟩ := h
      obtain hq' | hq' := List.mem_append.mp hq'
      · exact ⟨q', hq', hlt'⟩
      · exact absurd (List.mem_singleton.mp hq' ▸ hlt') hlt

/-! ### The loops -/

/-- The half of a byte that the loop takes for a column. -/
def loopHalf (j : Nat) (c : Byte) : Byte := if j % 2 = 0 then c &&& 0xF#8 else c >>> 4

/-- The pixels of a row, with their colors, when the reading begins at `ptr`. -/
def rowPixels (img : Nat → Byte) (ptr buff : BitVec 32) (n : Nat) : List (BitVec 32 × BitVec 32) :=
  (List.range n).map fun j =>
    (buff + BitVec.ofNat 32 j * 3#32, vgaPalette (loopHalf j (img (ptr + BitVec.ofNat 32 (j / 2)).toNat)))

/-- What the inner loop has done after some columns: behind an even number of them the byte is used up, else its upper
half is the next pixel. -/
structure RowPainted (img : Nat → Byte) (s t : Painter) (n : Nat) : Prop where
  ptr : t.imgBufferPtr = s.imgBufferPtr + BitVec.ofNat 32 ((n + 1) / 2)
  twoPixels : n % 2 = 1 → t.twoPixels = img (s.imgBufferPtr + BitVec.ofNat 32 (n / 2)).toNat
  buff : t.buff = s.buff
  mem : t.mem = paintAll s.mem (rowPixels img s.imgBufferPtr s.buff n)
  reads : ∀ k ∈ t.reads, k ∈ s.reads ∨ ∃ j < n, k = s.imgBufferPtr + BitVec.ofNat 32 (j / 2)

theorem shiftRight_and (c : Byte) : c >>> 4 &&& 0xF#8 = c >>> 4 := by
  revert c
  decide

theorem rowPixels_succ (img : Nat → Byte) (ptr buff : BitVec 32) (n : Nat) :
    rowPixels img ptr buff (n + 1) = rowPixels img ptr buff n ++
      [(buff + BitVec.ofNat 32 n * 3#32, vgaPalette (loopHalf n (img (ptr + BitVec.ofNat 32 (n / 2)).toNat)))] := by
  rw [rowPixels, List.range_succ, List.map_append, List.map_singleton, ← rowPixels]

/-- One more column. -/
theorem RowPainted.next {t : Painter} (h : RowPainted img s t n) : RowPainted img s (paintPixel img t n) (n + 1) := by
  have hmem (c : BitVec 32) : t.mem.setPixel (t.buff + BitVec.ofNat 32 n * 3#32) (c &&& 0xffffff#32) =
      paintAll s.mem (rowPixels img s.imgBufferPtr s.buff n ++ [(s.buff + BitVec.ofNat 32 n * 3#32, c)]) := by
    rw [paintAll_append, ← h.mem, h.buff]
    rfl
  obtain heven | hodd := Nat.mod_two_eq_zero_or_one n
  · have hhalf : (n + 1) / 2 = n / 2 := by omega
    have hptr := h.ptr
    rw [hhalf] at hptr
    rw [paintPixel, if_pos heven]
    refine ⟨?_, fun _ => ?_, h.buff, ?_, fun k hk => ?_⟩
    · rw [show (n + 1 + 1) / 2 = n / 2 + 1 by omega, BitVec.ofNat_add, ← BitVec.add_assoc, ← hptr]
    · rw [hhalf, ← hptr]
    · rw [rowPixels_succ, loopHalf, if_pos heven, ← hptr]
      exact hmem _
    · obtain hk | hk := List.mem_append.mp hk
      · refine (h.reads k hk).imp_right fun hj => ?_
        obtain ⟨j, hj, rfl⟩ := hj
        exact ⟨j, Nat.lt_succ_of_lt hj, rfl⟩
      · obtain rfl := List.mem_singleton.mp hk
        exact Or.inr ⟨n, Nat.lt_succ_self n, hptr⟩
  · rw [paintPixel, if_neg (by omega)]
    refine ⟨?_, fun hlast => by omega, h.buff, ?_, fun k hk => ?_⟩
    · rw [show (n + 1 + 1) / 2 = (n + 1) / 2 by omega]
      exact h.ptr
    · dsimp only
      rw [rowPixels_succ, loopHalf, if_neg (by omega), h.twoPixels hodd, shiftRight_and]
      exact hmem _
    · refine (h.reads k hk).imp_right fun hj => ?_
      obtain ⟨j, hj, rfl⟩ := hj
      exact ⟨j, Nat.lt_succ_of_lt hj, rfl⟩

theorem rowPainted (img : Nat → Byte) (s : Painter) (n : Nat) :
    RowPainted img s ((List.range n).foldl (paintPixel img) s) n := by
  induction n with
  | zero =>
    exact ⟨(BitVec.add_zero _).symm, fun h => by omega, rfl, rfl, fun k hk => Or.inl hk⟩
  | succ n ih =>
    rw [List.range_succ, List.foldl_concat]
    exact ih.next

/-- Where the reading of a row begins. -/
def rowPtr (bmp : Bitmap) (i : Nat) : BitVec 32 := BitVec.ofNat 32 (i * bmp.stride)

/-- The pixels of some rows, with their colors. -/
def rowsPixels (win : Win) (bmp : Bitmap) (img : Nat → Byte) (buff : BitVec 32) (n : Nat) :
    List (BitVec 32 × BitVec 32) :=
  (List.range n).flatMap fun i =>
    rowPixels img (rowPtr bmp i) (buff - BitVec.ofNat 32 i * (win.width * 3#32)) bmp.width.toNat

structure RowsPainted (win : Win) (bmp : Bitmap) (img : Nat → Byte) (s t : Painter) (n : Nat) : Prop where
  ptr : t.imgBufferPtr = rowPtr bmp n
  buff : t.buff = s.buff - BitVec.ofNat 32 n * (win.width * 3#32)
  mem : t.mem = paintAll s.mem (rowsPixels win bmp img s.buff n)
  reads : ∀ k ∈ t.reads, ∃ i < n, ∃ j < bmp.width.toNat, k = BitVec.ofNat 32 (i * bmp.stride + j / 2)

theorem rowsPixels_succ (win : Win) (bmp : Bitmap) (img : Nat → Byte) (buff : BitVec 32) (n : Nat) :
    rowsPixels win bmp img buff (n + 1) = rowsPixels win bmp img buff n ++
      rowPixels img (rowPtr bmp n) (buff - BitVec.ofNat 32 n * (win.width * 3#32)) bmp.width.toNat := by
  rw [rowsPixels, List.range_succ, List.flatMap_append, List.flatMap_singleton, ← rowsPixels]

theorem rowPtr_succ (bmp : Bitmap) (n : Nat) :
    rowPtr bmp (n + 1) = rowPtr bmp n + BitVec.ofNat 32 ((bmp.width.toNat + 1) / 2) + paddingBytes bmp.width := by
  rw [rowPtr, Nat.succ_mul, BitVec.ofNat_add, Bitmap.stride, BitVec.ofNat_add ((bmp.width.toNat + 1) / 2),
    BitVec.ofNat_toNat, BitVec.setWidth_eq, BitVec.add_assoc, ← Bitmap.stride, ← rowPtr]

/-- One more row. -/
theorem RowsPainted.next {t : Painter} (h : RowsPainted win bmp img s t n) :
    RowsPainted win bmp img s (paintRow win bmp img t) (n + 1) := by
  have hrow := rowPainted img t bmp.width.toNat
  refine ⟨?_, ?_, ?_, fun k hk => ?_⟩
  · rw [rowPtr_succ, ← h.ptr, ← hrow.ptr]
    rfl
  · rw [BitVec.ofNat_add, BitVec.add_mul, BitVec.one_mul, ← sub_sub, ← h.buff]
    exact congrArg (· - win.width * 3#32) hrow.buff
  · rw [rowsPixels_succ, paintAll_append, ← h.mem, ← h.buff, ← h.ptr]
    exact hrow.mem
  · obtain hk | ⟨j, hj, rfl⟩ := hrow.reads k hk
    · obtain ⟨i, hi, hread⟩ := h.reads k hk
      exact ⟨i, Nat.lt_succ_of_lt hi, hread⟩
    · exact ⟨n, Nat.lt_succ_self n, j, hj, by rw [h.ptr, rowPtr, BitVec.ofNat_add]⟩

theorem rowsPainted (win : Win) (bmp : Bitmap) (img : Nat → Byte) (hptr : s.imgBufferPtr = 0#32) (hreads : s.reads = [])
    (n : Nat) : RowsPainted win bmp img s (paintRows win bmp img n s) n := by
  induction n with
  | zero =>
    refine ⟨by rw [rowPtr, Nat.zero_mul]; exact hptr, ?_, rfl, fun k hk => ?_⟩
    · rw [BitVec.zero_mul, BitVec.sub_zero]
      rfl
    · rw [show paintRows win bmp img 0 s = s from rfl, hreads] at hk
      cases hk
  | succ n ih =>
    rw [paintRows, List.range_succ, List.foldl_concat]
    exact ih.next

/-! ### The file in memory -/

theorem foldl_memcpy (data junk : Nat → Byte) (part n : Nat) :
    (List.range n).foldl (fun buffer i => memcpy buffer (i * part) data (i * part) part) junk =
      fun k => if k < n * part then data k else junk k := by
  induction n with
  | zero =>
    funext k
    rw [Nat.zero_mul, if_neg (Nat.not_lt_zero k)]
    rfl
  | succ n ih =>
    funext k
    rw [List.range_succ, List.foldl_concat, ih, memcpy, Nat.succ_mul]
    by_cases hlast : n * part ≤ k ∧ k < n * part + part
    · rw [if_pos hlast, if_pos hlast.2, Nat.add_sub_cancel' hlast.1]
    · rw [if_neg hlast]
      by_cases hlt : k < n * part
      · rw [if_pos hlt, if_pos (by omega)]
      · rw [if_neg hlt, if_neg (by omega)]

theorem imgBuffer_apply (bmp : Bitmap) (junk : Nat → Byte) (k : Nat) : bmp.imgBuffer junk k =
    if k < 4 * ((imgBufferSize bmp.width bmp.height).toNat / 4) then bmp.data k else junk k := by
  rw [Bitmap.imgBuffer, foldl_memcpy, BitVec.toNat_udiv]
  rfl

/-! ### Pixels of a window -/

/-- The pixel in a column and a row of the window. -/
def Win.cell (win : Win) (c r : Nat) : BitVec 32 := win.wBuffer + BitVec.ofNat 32 (3 * (r * win.width.toNat + c))

/-- The bytes of a pixel that is in the address space behind the start of the window. -/
theorem toNat_sub_cell_lt_iff {c r : Nat} (h : 3 * (r * win.width.toNat + c) + 3 ≤ 2 ^ 32) :
    (b - win.cell c r).toNat < 3 ↔ (b - win.wBuffer).toNat / 3 = r * win.width.toNat + c := by
  have hoffset : (BitVec.ofNat 32 (3 * (r * win.width.toNat + c))).toNat = 3 * (r * win.width.toNat + c) := by
    rw [BitVec.toNat_ofNat, Nat.mod_eq_of_lt (by omega)]
  rw [Win.cell, ByteMemory.toNat_sub_add, hoffset]
  have hlt := (b - win.wBuffer).isLt
  split <;> omega

theorem toNat_sub_cell {c r : Nat} (h : 3 * (r * win.width.toNat + c) + 3 ≤ 2 ^ 32)
    (hb : (b - win.wBuffer).toNat / 3 = r * win.width.toNat + c) :
    (b - win.cell c r).toNat = (b - win.wBuffer).toNat % 3 := by
  have hoffset : (BitVec.ofNat 32 (3 * (r * win.width.toNat + c))).toNat = 3 * (r * win.width.toNat + c) := by
    rw [BitVec.toNat_ofNat, Nat.mod_eq_of_lt (by omega)]
  rw [Win.cell, ByteMemory.toNat_sub_add, hoffset, if_neg (by omega)]
  omega

/-- The rows are painted from the bottom of the bitmap, at its height in the window. -/
theorem rowsPixels_address (win : Win) (bmp : Bitmap) {i : Nat} (hi : i < bmp.height.toNat) (j : Nat) :
    win.wBuffer + (bmp.height - 1#32) * win.width * 3#32 - BitVec.ofNat 32 i * (win.width * 3#32) +
      BitVec.ofNat 32 j * 3#32 = win.cell j (bmp.height.toNat - 1 - i) := by
  have hheight : bmp.height = BitVec.ofNat 32 (bmp.height.toNat - 1 - i) + BitVec.ofNat 32 i + 1#32 := by
    rw [← BitVec.ofNat_add, show (1#32) = BitVec.ofNat 32 1 from rfl, ← BitVec.ofNat_add,
      show bmp.height.toNat - 1 - i + i + 1 = bmp.height.toNat by omega, BitVec.ofNat_toNat, BitVec.setWidth_eq]
  have hwidth : BitVec.ofNat 32 win.width.toNat = win.width := by
    rw [BitVec.ofNat_toNat, BitVec.setWidth_eq]
  rw [Win.cell, BitVec.ofNat_mul, BitVec.ofNat_add, BitVec.ofNat_mul, hwidth]
  generalize BitVec.ofNat 32 (bmp.height.toNat - 1 - i) = r at hheight
  rw [hheight, show BitVec.ofNat 32 3 = 3#32 from rfl]
  ring

/-- All that is painted. -/
def pixels (win : Win) (bmp : Bitmap) (img : Nat → Byte) : List (BitVec 32 × BitVec 32) :=
  rowsPixels win bmp img (win.wBuffer + (bmp.height - 1#32) * win.width * 3#32) bmp.height.toNat

/-- The color that the loops give the pixel in column `j` of row `i` from the bottom. -/
def loopColor (bmp : Bitmap) (img : Nat → Byte) (i j : Nat) : BitVec 32 :=
  vgaPalette (loopHalf j (img ((i * bmp.stride + j / 2) % 2 ^ 32)))

theorem mem_pixels_iff {q : BitVec 32 × BitVec 32} : q ∈ pixels win bmp img ↔
    ∃ i < bmp.height.toNat, ∃ j < bmp.width.toNat,
      (win.cell j (bmp.height.toNat - 1 - i), loopColor bmp img i j) = q := by
  simp only [pixels, rowsPixels, rowPixels, List.mem_flatMap, List.mem_map, List.mem_range]
  refine exists_congr fun i => and_congr_right fun hi => exists_congr fun j => and_congr_right fun hj => ?_
  rw [rowsPixels_address win bmp hi, rowPtr, ← BitVec.ofNat_add, BitVec.toNat_ofNat, loopColor]

theorem placed_of_not (h : ¬ InPlace win bmp x y b) (mem : ByteMemory) : placed win bmp x y mem b = mem b := if_neg h

/-- What is painted is in its place, when the function paints what it should on whatever there was. -/
theorem inPlace_of_painted (h : ∀ mem, paintAll mem l = placed win bmp x y mem)
    (hb : ∃ q ∈ l, (b - q.1).toNat < 3) : InPlace win bmp x y b := by
  by_contra hnot
  have hsame := paintAll_congr hb (fun _ => 0#8) (fun _ => 1#8)
  rw [h, h, placed_of_not hnot, placed_of_not hnot] at hsame
  exact absurd hsame (by decide)

theorem column_row {c r : Nat} (hc : c < win.width.toNat) (h : (b - win.wBuffer).toNat / 3 = r * win.width.toNat + c) :
    win.column b = c ∧ win.row b = r := by
  rw [Win.column, Win.row, h, Nat.add_comm, Nat.add_mul_mod_self_right, Nat.mod_eq_of_lt hc,
    Nat.add_mul_div_right _ _ (by omega), Nat.div_eq_of_lt hc, Nat.zero_add]
  exact ⟨rfl, rfl⟩

theorem toNat_cell_sub {c r : Nat} (h : 3 * (r * win.width.toNat + c) < 2 ^ 32) :
    (win.cell c r - win.wBuffer).toNat = 3 * (r * win.width.toNat + c) := by
  rw [Win.cell, add_sub_cancel_left, BitVec.toNat_ofNat, Nat.mod_eq_of_lt h]

theorem painted_cell {i j : Nat} (hi : i < bmp.height.toNat) (hj : j < bmp.width.toNat) :
    ∃ q ∈ pixels win bmp img, (win.cell j (bmp.height.toNat - 1 - i) - q.1).toNat < 3 := by
  refine ⟨_, mem_pixels_iff.mpr ⟨i, hi, j, hj, rfl⟩, ?_⟩
  rw [sub_self]
  decide

/-- A bitmap that is not empty has to be in the corner of the window and not larger than that. -/
theorem corner_of_paintAll (hwin : 0 < win.width.toNat) (hsize : 3 * (win.width.toNat * win.height.toNat) < 2 ^ 32)
    (hw : 0 < bmp.width.toNat) (hh : 0 < bmp.height.toNat)
    (h : ∀ mem, paintAll mem (pixels win bmp img) = placed win bmp x y mem) :
    x.toNat = 0 ∧ y.toNat = 0 ∧ bmp.width.toNat ≤ win.width.toNat ∧ bmp.height.toNat ≤ win.height.toNat := by
  have hin {i j : Nat} (hi : i < bmp.height.toNat) (hj : j < bmp.width.toNat) :
      InPlace win bmp x y (win.cell j (bmp.height.toNat - 1 - i)) := inPlace_of_painted h (painted_cell hi hj)
  -- the last row goes to the first of the window
  have hfirst := @hin (bmp.height.toNat - 1) 0 (by omega) hw
  rw [Nat.sub_self] at hfirst
  have hoffset : (win.cell 0 0 - win.wBuffer).toNat / 3 = 0 * win.width.toNat + 0 := by
    rw [toNat_cell_sub (by omega), Nat.mul_div_cancel_left _ (by decide)]
  obtain ⟨hcolumn, hrow⟩ := column_row hwin hoffset
  obtain ⟨-, hx, -, hy, -⟩ := hfirst
  rw [hcolumn] at hx
  rw [hrow] at hy
  have hheight : bmp.height.toNat ≤ win.height.toNat := by
    by_contra hgt
    have hbelow := @hin (bmp.height.toNat - 1 - win.height.toNat) 0 (by omega) hw
    rw [show bmp.height.toNat - 1 - (bmp.height.toNat - 1 - win.height.toNat) = win.height.toNat by omega] at hbelow
    have hlt := hbelow.1
    rw [toNat_cell_sub (by rw [Nat.mul_comm win.height.toNat]; omega), Nat.mul_comm win.height.toNat] at hlt
    omega
  have hwidth : bmp.width.toNat ≤ win.width.toNat := by
    by_contra hgt
    have hright := @hin 0 win.width.toNat hh (by omega)
    have hend : (bmp.height.toNat - 1) * win.width.toNat + win.width.toNat =
        bmp.height.toNat * win.width.toNat + 0 := by
      rw [← Nat.succ_mul, Nat.succ_eq_add_one, Nat.sub_add_cancel hh, Nat.add_zero]
    have hle : bmp.height.toNat * win.width.toNat ≤ win.width.toNat * win.height.toNat := by
      rw [Nat.mul_comm]
      exact Nat.mul_le_mul_left _ hheight
    have hcell := @toNat_cell_sub win win.width.toNat (bmp.height.toNat - 1) (by omega)
    rw [hend] at hcell
    rw [Nat.sub_zero] at hright
    obtain ⟨-, hrow'⟩ := column_row hwin (show _ / 3 = bmp.height.toNat * win.width.toNat + 0 by
      rw [hcell, Nat.mul_div_cancel_left _ (by decide)])
    have hlast := hright.2.2.2.2
    rw [hrow'] at hlast
    omega
  exact ⟨by omega, by omega, hwidth, hheight⟩

/-- The pixels of a bitmap that the window holds are in its address space. -/
theorem pixel_le {i j : Nat} (hwidth : bmp.width.toNat ≤ win.width.toNat)
    (hheight : bmp.height.toNat ≤ win.height.toNat) (hi : i < bmp.height.toNat) (hj : j < bmp.width.toNat) :
    3 * ((bmp.height.toNat - 1 - i) * win.width.toNat + j) + 3 ≤ 3 * (win.width.toNat * win.height.toNat) := by
  have hrow : (bmp.height.toNat - 1 - i + 1) * win.width.toNat ≤ win.height.toNat * win.width.toNat :=
    Nat.mul_le_mul_right _ (by omega)
  rw [Nat.succ_mul, Nat.mul_comm win.height.toNat] at hrow
  omega

/-- In a window that holds them no two pixels meet. -/
theorem paintAll_pixels_apply {i j : Nat} (hsize : 3 * (win.width.toNat * win.height.toNat) < 2 ^ 32)
    (hwidth : bmp.width.toNat ≤ win.width.toNat) (hheight : bmp.height.toNat ≤ win.height.toNat)
    (hi : i < bmp.height.toNat) (hj : j < bmp.width.toNat)
    (hb : (b - win.wBuffer).toNat / 3 = (bmp.height.toNat - 1 - i) * win.width.toNat + j) :
    paintAll mem (pixels win bmp img) b = colorByte (loopColor bmp img i j) ((b - win.wBuffer).toNat % 3) := by
  have hbound {i' j' : Nat} (hi' : i' < bmp.height.toNat) (hj' : j' < bmp.width.toNat) :
      3 * ((bmp.height.toNat - 1 - i') * win.width.toNat + j') + 3 ≤ 2 ^ 32 :=
    (pixel_le hwidth hheight hi' hj').trans (by omega)
  refine paintAll_of_forall ⟨_, mem_pixels_iff.mpr ⟨i, hi, j, hj, rfl⟩, ?_⟩ fun q hq hlt => ?_
  · exact (toNat_sub_cell_lt_iff (hbound hi hj)).mpr hb
  · obtain ⟨i', hi', j', hj', rfl⟩ := mem_pixels_iff.mp hq
    have hb' := (toNat_sub_cell_lt_iff (hbound hi' hj')).mp hlt
    obtain ⟨hcolumn, hrow⟩ := column_row (by omega) hb
    obtain ⟨hcolumn', hrow'⟩ := column_row (by omega) hb'
    obtain rfl : j' = j := hcolumn'.symm.trans hcolumn
    obtain rfl : i' = i := by
      rw [hrow] at hrow'
      omega
    have hbyte := toNat_sub_cell (hbound hi' hj') hb'
    dsimp only
    rw [hbyte]

/-! ### Colors -/

theorem half_lt (j : Nat) (c : Byte) : (loopHalf j c).toNat < 16 ∧ (pixelHalf j c).toNat < 16 := by
  have hlow : ∀ c : Byte, (c &&& 0xF#8).toNat < 16 := by decide
  have hhigh : ∀ c : Byte, (c >>> 4).toNat < 16 := by decide
  rw [loopHalf, pixelHalf]
  split
  · exact ⟨hlow c, hhigh c⟩
  · exact ⟨hhigh c, hlow c⟩

/-- The colors of the palette differ in the bytes that are painted. -/
theorem eq_of_colorByte {u v : Byte} (hu : u.toNat < 16) (hv : v.toNat < 16)
    (h : ∀ o < 3, colorByte (vgaPalette u) o = colorByte (vgaPalette v) o) : u = v := by
  have hall : ∀ m < 16, ∀ n < 16, (∀ o < 3, colorByte (vgaPalette (BitVec.ofNat 8 m)) o =
      colorByte (vgaPalette (BitVec.ofNat 8 n)) o) → m = n := by decide +kernel
  refine BitVec.eq_of_toNat_eq (hall _ hu _ hv ?_)
  rwa [BitVec.ofNat_toNat, BitVec.ofNat_toNat, BitVec.setWidth_eq, BitVec.setWidth_eq]

/-! ### Where the bitmap is painted as it is to be -/

theorem pixel_bottom {i : Nat} (hi : i < bmp.height.toNat) (j : Nat) :
    bmp.pixel j (bmp.height.toNat - 1 - i) = pixelHalf j (bmp.data (i * bmp.stride + j / 2)) := by
  rw [Bitmap.pixel, show bmp.height.toNat - 1 - (bmp.height.toNat - 1 - i) = i by omega]

theorem inPlace_corner {i j : Nat} (hwidth : bmp.width.toNat ≤ win.width.toNat)
    (hheight : bmp.height.toNat ≤ win.height.toNat) (hi : i < bmp.height.toNat) (hj : j < bmp.width.toNat)
    (hb : (b - win.wBuffer).toNat / 3 = (bmp.height.toNat - 1 - i) * win.width.toNat + j) :
    InPlace win bmp 0#32 0#32 b := by
  have hle := pixel_le hwidth hheight hi hj
  have hzero : (0#32).toNat = 0 := rfl
  obtain ⟨hcolumn, hrow⟩ := column_row (by omega) hb
  refine ⟨by omega, Nat.zero_le _, ?_, Nat.zero_le _, ?_⟩
  · rw [hcolumn, hzero]
    omega
  · rw [hrow, hzero]
    omega

/-- A pixel of the bitmap in the corner. -/
theorem placed_corner {i j : Nat} (hwidth : bmp.width.toNat ≤ win.width.toNat)
    (hheight : bmp.height.toNat ≤ win.height.toNat) (hi : i < bmp.height.toNat) (hj : j < bmp.width.toNat)
    (hb : (b - win.wBuffer).toNat / 3 = (bmp.height.toNat - 1 - i) * win.width.toNat + j) :
    placed win bmp 0#32 0#32 mem b = colorByte (vgaPalette (pixelHalf j (bmp.data (i * bmp.stride + j / 2))))
      ((b - win.wBuffer).toNat % 3) := by
  obtain ⟨hcolumn, hrow⟩ := column_row (by omega) hb
  rw [placed, if_pos (inPlace_corner hwidth hheight hi hj hb), hcolumn, hrow, show (0#32).toNat = 0 from rfl,
    Nat.sub_zero, Nat.sub_zero, pixel_bottom hi]

/-- A byte of the bitmap in the corner is one of a pixel. -/
theorem exists_pixel (hin : InPlace win bmp 0#32 0#32 b) : ∃ i < bmp.height.toNat, ∃ j < bmp.width.toNat,
    (b - win.wBuffer).toNat / 3 = (bmp.height.toNat - 1 - i) * win.width.toNat + j := by
  obtain ⟨-, -, hcolumn, -, hrow⟩ := hin
  have hzero : (0#32).toNat = 0 := rfl
  rw [hzero, Nat.sub_zero] at hcolumn hrow
  refine ⟨bmp.height.toNat - 1 - win.row b, by omega, win.column b, hcolumn, ?_⟩
  rw [show bmp.height.toNat - 1 - (bmp.height.toNat - 1 - win.row b) = win.row b by omega, Nat.mul_comm, Win.row,
    Win.column, Nat.div_add_mod]

/-- What the loops paint is the bitmap if that is in the corner and they take the right halves. -/
theorem forall_paintAll_iff (hwin : 0 < win.width.toNat) (hsize : 3 * (win.width.toNat * win.height.toNat) < 2 ^ 32)
    (hw : 0 < bmp.width.toNat) (hh : 0 < bmp.height.toNat) :
    (∀ mem, paintAll mem (pixels win bmp img) = placed win bmp x y mem) ↔
      x = 0#32 ∧ y = 0#32 ∧ bmp.width.toNat ≤ win.width.toNat ∧ bmp.height.toNat ≤ win.height.toNat ∧
        ∀ i < bmp.height.toNat, ∀ j < bmp.width.toNat, loopHalf j (img ((i * bmp.stride + j / 2) % 2 ^ 32)) =
          pixelHalf j (bmp.data (i * bmp.stride + j / 2)) := by
  constructor
  · intro h
    obtain ⟨hx, hy, hwidth, hheight⟩ := corner_of_paintAll hwin hsize hw hh h
    obtain rfl : x = 0#32 := BitVec.eq_of_toNat_eq hx
    obtain rfl : y = 0#32 := BitVec.eq_of_toNat_eq hy
    refine ⟨rfl, rfl, hwidth, hheight, fun i hi j hj => ?_⟩
    refine eq_of_colorByte (half_lt _ _).1 (half_lt _ _).2 fun o ho => ?_
    have hle := pixel_le hwidth hheight hi hj
    -- byte `o` of the pixel
    have hoffset : (win.wBuffer + BitVec.ofNat 32 (3 * ((bmp.height.toNat - 1 - i) * win.width.toNat + j) + o) -
        win.wBuffer).toNat = 3 * ((bmp.height.toNat - 1 - i) * win.width.toNat + j) + o := by
      rw [add_sub_cancel_left, BitVec.toNat_ofNat, Nat.mod_eq_of_lt (by omega)]
    have hdiv := congrArg (· / 3) hoffset
    rw [Nat.mul_add_div (by decide), Nat.div_eq_of_lt ho, Nat.add_zero] at hdiv
    have hcolor := @paintAll_pixels_apply win bmp _ (fun _ => 0#8) img i j hsize hwidth hheight hi hj hdiv
    rw [h, placed_corner hwidth hheight hi hj hdiv, hoffset, Nat.mul_add_mod, Nat.mod_eq_of_lt ho] at hcolor
    exact hcolor.symm
  · rintro ⟨rfl, rfl, hwidth, hheight, hhalf⟩ mem
    funext b
    by_cases hin : InPlace win bmp 0#32 0#32 b
    · obtain ⟨i, hi, j, hj, hb⟩ := exists_pixel hin
      rw [paintAll_pixels_apply hsize hwidth hheight hi hj hb, placed_corner hwidth hheight hi hj hb, loopColor,
        hhalf i hi j hj]
    · rw [placed_of_not hin]
      refine paintAll_of_forall_not fun q hq hlt => hin ?_
      obtain ⟨i, hi, j, hj, rfl⟩ := mem_pixels_iff.mp hq
      have hle := pixel_le hwidth hheight hi hj
      exact inPlace_corner hwidth hheight hi hj ((toNat_sub_cell_lt_iff (by omega)).mp hlt)

/-- A bitmap without pixels has no place. -/
theorem placed_of_empty (h : bmp.width.toNat = 0 ∨ bmp.height.toNat = 0) : placed win bmp x y mem = mem := by
  funext b
  refine placed_of_not (fun hin => ?_) mem
  obtain ⟨-, -, hcolumn, -, hrow⟩ := hin
  omega

theorem pixels_of_empty (h : bmp.width.toNat = 0 ∨ bmp.height.toNat = 0) : pixels win bmp img = [] := by
  refine List.eq_nil_iff_forall_not_mem.mpr fun q hq => ?_
  obtain ⟨i, hi, j, hj, -⟩ := mem_pixels_iff.mp hq
  omega

/-- Where the bitmap is looked at, the loops paint it whole. -/
theorem paintBmp16_eq {le : BitVec 32 → BitVec 32 → Bool} (hx : le win.width x = false) (hy : le win.height y = false)
    (hsignature : bmp.signature = bmpSignature) (hbpp : bmp.bpp = 4#16) (junk : Nat → Byte) (mem : ByteMemory) :
    (paintBmp16 le win bmp x y junk mem).1 = paintAll mem (pixels win bmp (bmp.imgBuffer junk)) ∧
      ∀ k ∈ (paintBmp16 le win bmp x y junk mem).2,
        ∃ i < bmp.height.toNat, ∃ j < bmp.width.toNat, k = BitVec.ofNat 32 (i * bmp.stride + j / 2) := by
  have hnot : ¬ ((le win.width x || le win.height y) = true) := by
    rw [hx, hy]
    decide
  rw [paintBmp16, if_neg hnot, if_neg (not_not.mpr hsignature), if_neg (not_not.mpr hbpp)]
  have hrows := @rowsPainted ⟨0#32, 0#8, win.wBuffer + (bmp.height - 1#32) * win.width * 3#32, mem, []⟩ win bmp
    (bmp.imgBuffer junk) rfl rfl bmp.height.toNat
  exact ⟨hrows.mem, hrows.reads⟩

theorem toNat_paddingBytes (width : BitVec 32) :
    (paddingBytes width).toNat = (4 - (width.toNat + 1) / 2 % 4) % 4 := by
  have hlt := width.isLt
  have hhalf : (width / 2#32 + width % 2#32).toNat = (width.toNat + 1) / 2 := by
    rw [BitVec.toNat_add, BitVec.toNat_udiv, BitVec.toNat_umod, show (2#32).toNat = 2 from rfl]
    omega
  have hsub : (4#32 - (width / 2#32 + width % 2#32) % 4#32).toNat = 4 - (width.toNat + 1) / 2 % 4 := by
    rw [BitVec.toNat_sub, BitVec.toNat_umod, hhalf, show (4#32).toNat = 4 from rfl]
    omega
  rw [paddingBytes]
  split
  · next hfour =>
    rw [hfour, show (4#32).toNat = 4 from rfl] at hsub
    rw [← hsub]
    rfl
  · next hne =>
    have hne' : (4#32 - (width / 2#32 + width % 2#32) % 4#32).toNat ≠ 4 := fun h => hne (BitVec.eq_of_toNat_eq h)
    omega

/-- A row has its bytes rounded up. -/
theorem stride_eq (hw : 0 < bmp.width.toNat) : bmp.stride = 4 * ((bmp.width.toNat - 1) / 2 / 4 + 1) := by
  rw [Bitmap.stride, toNat_paddingBytes]
  omega

/-- The index into `img_buffer` does not get around the address space without a byte on the way that was not read. -/
theorem lt_of_mod_lt {filled : Nat} (hw : 0 < bmp.width.toNat) (hfilled : 4 * filled < 2 ^ 32)
    (h : ∀ i < bmp.height.toNat, ∀ j < bmp.width.toNat, (i * bmp.stride + j / 2) % 2 ^ 32 < 4 * filled) :
    ∀ i < bmp.height.toNat, ∀ j < bmp.width.toNat, i * bmp.stride + j / 2 < 4 * filled := by
  have hstride := stride_eq hw
  have hrow {i : Nat} (hi : i < bmp.height.toNat) (hstart : i * bmp.stride < 2 ^ 32) :
      i * bmp.stride + (bmp.width.toNat - 1) / 2 < 4 * filled := by
    have hlast := h i hi (bmp.width.toNat - 1) (by omega)
    by_cases hlt : i * bmp.stride + (bmp.width.toNat - 1) / 2 < 2 ^ 32
    · rwa [Nat.mod_eq_of_lt hlt] at hlast
    · -- the column at the end of the address space
      have htop := h i hi (2 * (2 ^ 32 - 1 - i * bmp.stride)) (by omega)
      rw [Nat.mul_div_cancel_left _ (by decide),
        show i * bmp.stride + (2 ^ 32 - 1 - i * bmp.stride) = 2 ^ 32 - 1 by omega] at htop
      omega
  have hstart (i : Nat) (hi : i < bmp.height.toNat) : i * bmp.stride < 2 ^ 32 := by
    induction i with
    | zero => omega
    | succ i ih =>
      have hlast := hrow (by omega) (ih (by omega))
      have hmul : i * bmp.stride = 4 * (i * ((bmp.width.toNat - 1) / 2 / 4 + 1)) := by
        rw [hstride]
        ring
      rw [Nat.succ_mul]
      omega
  intro i hi j hj
  have hlast := hrow hi (hstart i hi)
  omega

theorem loopHalf_eq_iff (j : Nat) (c : Byte) : loopHalf j c = pixelHalf j c ↔ c >>> 4 = c &&& 0xF#8 := by
  rw [loopHalf, pixelHalf]
  split
  · exact eq_comm
  · exact Iff.rfl

/-- A byte that the file was not read into may be any. -/
theorem forall_junk_iff (hw : 0 < bmp.width.toNat) :
    (∀ junk, ∀ i < bmp.height.toNat, ∀ j < bmp.width.toNat,
      loopHalf j (bmp.imgBuffer junk ((i * bmp.stride + j / 2) % 2 ^ 32)) =
        pixelHalf j (bmp.data (i * bmp.stride + j / 2))) ↔
    ∀ i < bmp.height.toNat, ∀ j < bmp.width.toNat,
      i * bmp.stride + j / 2 < 4 * ((imgBufferSize bmp.width bmp.height).toNat / 4) ∧
        bmp.data (i * bmp.stride + j / 2) >>> 4 = bmp.data (i * bmp.stride + j / 2) &&& 0xF#8 := by
  have hsize := (imgBufferSize bmp.width bmp.height).isLt
  constructor
  · intro h
    have hall : ∀ i < bmp.height.toNat, ∀ j < bmp.width.toNat,
        i * bmp.stride + j / 2 < 4 * ((imgBufferSize bmp.width bmp.height).toNat / 4) := by
      refine lt_of_mod_lt hw (by omega) fun i hi j hj => ?_
      by_contra hnot
      have h0 := h (fun _ => 0x00#8) i hi j hj
      have h1 := h (fun _ => 0x11#8) i hi j hj
      rw [imgBuffer_apply, if_neg hnot] at h0 h1
      have hne : loopHalf j 0x00#8 ≠ loopHalf j 0x11#8 := by
        rw [loopHalf, loopHalf]
        split <;> decide
      exact hne (h0.trans h1.symm)
    intro i hi j hj
    have hlt := hall i hi j hj
    refine ⟨hlt, (loopHalf_eq_iff j _).mp ?_⟩
    have hhalf := h (fun _ => 0#8) i hi j hj
    rwa [Nat.mod_eq_of_lt (by omega), imgBuffer_apply, if_pos hlt] at hhalf
  · intro h junk i hi j hj
    obtain ⟨hlt, hhalf⟩ := h i hi j hj
    rw [Nat.mod_eq_of_lt (by omega), imgBuffer_apply, if_pos hlt]
    exact (loopHalf_eq_iff j _).mpr hhalf

theorem places_iff_placesWhen {le : BitVec 32 → BitVec 32 → Bool} (hx : le win.width x = false)
    (hy : le win.height y = false) (hsignature : bmp.signature = bmpSignature) (hbpp : bmp.bpp = 4#16)
    (hwin : 0 < win.width.toNat) (hsize : 3 * (win.width.toNat * win.height.toNat) < 2 ^ 32) :
    Places (paintBmp16 le) win bmp x y ↔ PlacesWhen win bmp x y := by
  have heq := @paintBmp16_eq win bmp x y le hx hy hsignature hbpp
  by_cases hempty : bmp.width.toNat = 0 ∨ bmp.height.toNat = 0
  · refine iff_of_true (fun junk mem => ⟨?_, fun k hk => ?_⟩) ?_
    · rw [(heq junk mem).1, pixels_of_empty hempty, placed_of_empty hempty]
      rfl
    · obtain ⟨i, hi, j, hj, -⟩ := (heq junk mem).2 k hk
      omega
    · exact hempty.imp BitVec.eq_of_toNat_eq fun h => Or.inl (BitVec.eq_of_toNat_eq h)
  · have hw : 0 < bmp.width.toNat := by omega
    have hh : 0 < bmp.height.toNat := by omega
    have hwidth0 : bmp.width ≠ 0#32 := fun h => by
      rw [h] at hw
      exact absurd hw (by decide)
    have hheight0 : bmp.height ≠ 0#32 := fun h => by
      rw [h] at hh
      exact absurd hh (by decide)
    rw [PlacesWhen, or_iff_right hwidth0, or_iff_right hheight0, ← forall_junk_iff hw]
    constructor
    · intro h
      have hpaint junk := (forall_paintAll_iff hwin hsize hw hh).mp fun mem =>
        (heq junk mem).1.symm.trans (h junk mem).1
      obtain ⟨hx0, hy0, hwidth, hheight, -⟩ := hpaint fun _ => 0#8
      exact ⟨hx0, hy0, hwidth, hheight, fun junk => (hpaint junk).2.2.2.2⟩
    · rintro ⟨hx0, hy0, hwidth, hheight, hhalf⟩ junk mem
      refine ⟨?_, fun k hk => ?_⟩
      · rw [(heq junk mem).1]
        exact (forall_paintAll_iff hwin hsize hw hh).mpr ⟨hx0, hy0, hwidth, hheight, hhalf junk⟩ mem
      · obtain ⟨i, hi, j, hj, rfl⟩ := (heq junk mem).2 k hk
        have hfilled := ((forall_junk_iff hw).mp hhalf i hi j hj).1
        rw [BitVec.lt_def, BitVec.toNat_ofNat]
        exact (Nat.mod_le _ _).trans_lt (by omega)

/-- Two rows of eight pixels. -/
def smallBitmap (data : Nat → Byte) : Bitmap := ⟨bmpSignature, 4#16, 8#32, 2#32, data⟩

end Akos.Gfx
