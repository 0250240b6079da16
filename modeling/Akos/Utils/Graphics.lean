import Akos.Memory.Heap
import Mathlib.Algebra.Ring.Int.Defs

/-!
# Pixels in memory

`graphics.c` stores a pixel of three bytes with two steps on the word at its address, and `fill_rect` clips a
rectangle to the screen and stores it row by row.
-/

namespace Akos

/-- Byte `k` of a color. -/
def colorByte (color : BitVec 32) (k : Nat) : BitVec 8 := color.extractLsb' (8 * k) 8

namespace ByteMemory

variable {mem : ByteMemory} {p b color : BitVec 32} {k : Nat}

/-- `*(uint32_t *)p &= 0xFF000000; *(uint32_t *)p |= color;` -/
def setPixel (mem : ByteMemory) (p color : BitVec 32) : ByteMemory :=
  let cleared := mem.storeWord p (mem.loadWord p &&& 0xFF000000#32)
  cleared.storeWord p (cleared.loadWord p ||| color)

theorem eq_add_iff_sub (hk : k < 2 ^ 32) : b = p + BitVec.ofNat 32 k ↔ (b - p).toNat = k := by
  rw [BitVec.add_comm, ← BitVec.sub_eq_iff_eq_add, ← BitVec.toNat_inj, BitVec.toNat_ofNat, Nat.mod_eq_of_lt hk]

/-- The byte at `b` is one of the word at `p` by the distance between them. -/
theorem storeWord_apply (mem : ByteMemory) (p value b : BitVec 32) :
    mem.storeWord p value b = if (b - p).toNat < 4 then colorByte value (b - p).toNat else mem b := by
  have h0 : b = p ↔ (b - p).toNat = 0 := by simpa using @eq_add_iff_sub p b 0 (by decide)
  have h1 : b = p + 1#32 ↔ (b - p).toNat = 1 := eq_add_iff_sub (by decide)
  have h2 : b = p + 2#32 ↔ (b - p).toNat = 2 := eq_add_iff_sub (by decide)
  have h3 : b = p + 3#32 ↔ (b - p).toNat = 3 := eq_add_iff_sub (by decide)
  rw [storeWord]
  simp only [h0, h1, h2, h3]
  generalize (b - p).toNat = k
  by_cases hk : k < 4
  · obtain rfl | rfl | rfl | rfl : k = 0 ∨ k = 1 ∨ k = 2 ∨ k = 3 := by omega
    all_goals rfl
  · rw [if_neg (by omega), if_neg (by omega), if_neg (by omega), if_neg (by omega), if_neg hk]

theorem colorByte_loadWord (mem : ByteMemory) (p : BitVec 32) (hk : k < 4) :
    colorByte (mem.loadWord p) k = mem (p + BitVec.ofNat 32 k) := by
  ext i hi
  rw [colorByte, loadWord, BitVec.getElem_extractLsb', BitVec.getLsbD_append, BitVec.getLsbD_append,
    BitVec.getLsbD_append, ← BitVec.getLsbD_eq_getElem]
  obtain rfl | rfl | rfl | rfl : k = 0 ∨ k = 1 ∨ k = 2 ∨ k = 3 := by omega
  · simp [hi]
  · simp [hi]
  · rw [if_neg (by omega), if_neg (by omega), if_pos (by omega)]
    congr 1
    omega
  · rw [if_neg (by omega), if_neg (by omega), if_neg (by omega)]
    congr 1
    omega

@[simp] theorem colorByte_and (v v' : BitVec 32) (k : Nat) :
    colorByte (v &&& v') k = colorByte v k &&& colorByte v' k := BitVec.extractLsb'_and

@[simp] theorem colorByte_or (v v' : BitVec 32) (k : Nat) :
    colorByte (v ||| v') k = colorByte v k ||| colorByte v' k := BitVec.extractLsb'_or

/-- The three bytes of a pixel get the color, and the byte behind it gets what the color has above them, too. -/
theorem setPixel_apply (mem : ByteMemory) (p color b : BitVec 32) :
    mem.setPixel p color b = if (b - p).toNat < 3 then colorByte color (b - p).toNat
      else if (b - p).toNat = 3 then mem b ||| colorByte color 3 else mem b := by
  rw [setPixel, loadWord_storeWord, storeWord_apply, storeWord_apply]
  by_cases hlt : (b - p).toNat < 4
  · have hbyte : p + BitVec.ofNat 32 (b - p).toNat = b := (eq_add_iff_sub (b - p).isLt).mpr rfl |>.symm
    rw [if_pos hlt, colorByte_or, colorByte_and, colorByte_loadWord mem p hlt, hbyte]
    generalize (b - p).toNat = k at hlt ⊢
    obtain rfl | rfl | rfl | rfl : k = 0 ∨ k = 1 ∨ k = 2 ∨ k = 3 := by omega
    · simp [show colorByte 0xFF000000#32 0 = 0#8 by decide]
    · simp [show colorByte 0xFF000000#32 1 = 0#8 by decide]
    · simp [show colorByte 0xFF000000#32 2 = 0#8 by decide]
    · rw [show colorByte 0xFF000000#32 3 = BitVec.allOnes 8 by decide, BitVec.and_allOnes]; rfl
  · rw [if_neg hlt, if_neg hlt, if_neg (by omega), if_neg (by omega)]

/-- A pixel of a color without a fourth byte. -/
theorem setPixel_masked (mem : ByteMemory) (p color b : BitVec 32) :
    mem.setPixel p (color &&& 0xffffff#32) b =
      if (b - p).toNat < 3 then colorByte color (b - p).toNat else mem b := by
  rw [setPixel_apply]
  have hmask : ∀ k < 3, colorByte 0xffffff#32 k = BitVec.allOnes 8 := by decide
  split
  · next hlt => rw [colorByte_and, hmask _ hlt, BitVec.and_allOnes]
  · split
    · rw [colorByte_and, show colorByte 0xffffff#32 3 = 0#8 by decide, BitVec.and_zero, BitVec.or_zero]
    · rfl

/-- How far a byte is from an address behind. -/
theorem toNat_sub_add (b p c : BitVec 32) : (b - (p + c)).toNat =
    if (b - p).toNat < c.toNat then (b - p).toNat + 2 ^ 32 - c.toNat else (b - p).toNat - c.toNat := by
  have hsub : b - (p + c) = b - p - c := by bv_omega
  have hlt := (b - p).isLt
  rw [hsub, BitVec.toNat_sub]
  split <;> omega

end ByteMemory

/-! ### Signed sums -/

theorem toInt_add_of_fits {a b : BitVec 32} (hle : -2 ^ 31 ≤ a.toInt + b.toInt) (hlt : a.toInt + b.toInt < 2 ^ 31) :
    (a + b).toInt = a.toInt + b.toInt := by
  rw [BitVec.toInt_add]
  exact Int.bmod_eq_of_le (by omega) (by omega)

/-- A sum is what it is in the integers, or went over one of the ends. -/
theorem toInt_add_cases (a b : BitVec 32) :
    (-2 ^ 31 ≤ a.toInt + b.toInt ∧ a.toInt + b.toInt < 2 ^ 31 ∧ (a + b).toInt = a.toInt + b.toInt) ∨
      (2 ^ 31 ≤ a.toInt + b.toInt ∧ (a + b).toInt = a.toInt + b.toInt - 2 ^ 32) ∨
      (a.toInt + b.toInt < -2 ^ 31 ∧ (a + b).toInt = a.toInt + b.toInt + 2 ^ 32) := by
  have hmod := BitVec.toInt_add a b
  have ha := a.toInt_lt
  have ha' := a.le_toInt
  have hb := b.toInt_lt
  have hb' := b.le_toInt
  rw [Int.bmod_def] at hmod
  omega

theorem toInt_sub_cases (a b : BitVec 32) :
    (-2 ^ 31 ≤ a.toInt - b.toInt ∧ a.toInt - b.toInt < 2 ^ 31 ∧ (a - b).toInt = a.toInt - b.toInt) ∨
      (2 ^ 31 ≤ a.toInt - b.toInt ∧ (a - b).toInt = a.toInt - b.toInt - 2 ^ 32) ∨
      (a.toInt - b.toInt < -2 ^ 31 ∧ (a - b).toInt = a.toInt - b.toInt + 2 ^ 32) := by
  have hmod := @BitVec.toInt_sub 32 a b
  have ha := a.toInt_lt
  have ha' := a.le_toInt
  have hb := b.toInt_lt
  have hb' := b.le_toInt
  rw [Int.bmod_def] at hmod
  omega

theorem toInt_sub_of_fits {a b : BitVec 32} (hle : -2 ^ 31 ≤ a.toInt - b.toInt) (hlt : a.toInt - b.toInt < 2 ^ 31) :
    (a - b).toInt = a.toInt - b.toInt := by
  rw [BitVec.toInt_sub]
  exact Int.bmod_eq_of_le (by omega) (by omega)

namespace Graphics

/-- `VIDEO_ADDRESS` -/
abbrev videoAddress : BitVec 32 := 0xCD000000#32

/-- `PIXEL_WIDTH` -/
abbrev pixelWidth : BitVec 32 := 1280#32

/-- `PIXEL_HEIGHT` -/
abbrev pixelHeight : BitVec 32 := 1024#32

/-! ### Rectangles -/

/-- A side of a rectangle. -/
structure Extent where
  start : BitVec 32
  size : BitVec 32

/-- A side that begins below 0 loses that part, and then what is behind the limit. -/
def clip (start size limit : BitVec 32) : Extent :=
  let low : Extent := if start.slt 0#32 then ⟨0#32, size + start⟩ else ⟨start, size⟩
  if limit.sle (low.start + low.size) then ⟨low.start, limit - low.start⟩ else low

/-- The inner loop of `fill_rect`. -/
def fillRow (color : BitVec 32) : Nat → BitVec 32 → ByteMemory → ByteMemory
  | 0, _, mem => mem
  | n + 1, vram, mem => fillRow color n (vram + 3#32) (mem.setPixel vram (color &&& 0xffffff#32))

/-- The outer loop. -/
def fillRows (color : BitVec 32) (width : Nat) : Nat → BitVec 32 → ByteMemory → ByteMemory
  | 0, _, mem => mem
  | n + 1, vram, mem => fillRows color width n (vram + pixelWidth * 3#32) (fillRow color width vram mem)

def fillRect (mem : ByteMemory) (x y width height color : BitVec 32) : ByteMemory :=
  if pixelWidth.sle x ∨ pixelHeight.sle y then mem
  else
    let xs := clip x width pixelWidth
    let ys := clip y height pixelHeight
    fillRows color xs.size.toInt.toNat ys.size.toInt.toNat
      (videoAddress + (ys.start * pixelWidth + xs.start) * 3#32) mem

variable {mem : ByteMemory} {start size limit x y width height color p b : BitVec 32} {n rows : Nat}

/-- The sides meet the integers that a limit leaves of them. -/
theorem clip_spec (hstart : start.toInt < limit.toInt)
    (hle : -2 ^ 31 ≤ start.toInt + size.toInt) (hlt : start.toInt + size.toInt < 2 ^ 31) :
    (clip start size limit).start.toInt = max start.toInt 0 ∧ (clip start size limit).size.toInt
      = min (start.toInt + size.toInt) limit.toInt - max start.toInt 0 := by
  have hlimit' := limit.toInt_lt
  rw [clip]
  by_cases hneg : start.toInt < 0
  · have hsum : (size + start).toInt = start.toInt + size.toInt := by
      rw [BitVec.add_comm]
      exact toInt_add_of_fits hle hlt
    rw [if_pos (BitVec.slt_iff_toInt_lt.mpr hneg)]
    dsimp only
    rw [BitVec.zero_add, BitVec.sub_zero]
    split
    · next hover =>
      rw [BitVec.sle_iff_toInt_le, hsum] at hover
      exact ⟨by rw [BitVec.toInt_zero]; omega, by dsimp only; omega⟩
    · next hover =>
      rw [BitVec.sle_iff_toInt_le, hsum] at hover
      exact ⟨by rw [BitVec.toInt_zero]; omega, by dsimp only; omega⟩
  · have hsum := toInt_add_of_fits hle hlt
    rw [if_neg (fun h => hneg (BitVec.slt_iff_toInt_lt.mp h))]
    dsimp only
    split
    · next hover =>
      rw [BitVec.sle_iff_toInt_le, hsum] at hover
      refine ⟨by dsimp only; omega, ?_⟩
      dsimp only
      rw [toInt_sub_of_fits (by omega) (by omega)]
      omega
    · next hover =>
      rw [BitVec.sle_iff_toInt_le, hsum] at hover
      exact ⟨by dsimp only; omega, by dsimp only; omega⟩

/-- A row of pixels. -/
theorem fillRow_apply (hn : 3 * n < 2 ^ 32) : fillRow color n p mem b =
    if (b - p).toNat < 3 * n then colorByte color ((b - p).toNat % 3) else mem b := by
  induction n generalizing p mem with
  | zero => simp [fillRow]
  | succ n ih =>
    rw [fillRow, ih (by omega), ByteMemory.setPixel_masked, ByteMemory.toNat_sub_add, show (3#32).toNat = 3 from rfl]
    have hlt := (b - p).isLt
    generalize (b - p).toNat = o at hlt ⊢
    by_cases hfirst : o < 3
    · rw [if_pos hfirst, if_neg (by omega), if_pos hfirst, if_pos (by omega), Nat.mod_eq_of_lt hfirst]
    · rw [if_neg hfirst, if_neg hfirst]
      by_cases hin : o < 3 * (n + 1)
      · rw [if_pos (by omega), if_pos hin, show o = o - 3 + 3 by omega, Nat.add_mod_right]
        rfl
      · rw [if_neg (by omega), if_neg hin]

/-- Rows of pixels, each a line of the screen below the one before. -/
theorem fillRows_apply (hn : n ≤ 1280) (hrows : rows ≤ 1024) : fillRows color n rows p mem b =
    if (b - p).toNat / 3840 < rows ∧ (b - p).toNat % 3840 < 3 * n then colorByte color ((b - p).toNat % 3)
    else mem b := by
  induction rows generalizing p mem with
  | zero => simp [fillRows]
  | succ rows ih =>
    rw [fillRows, ih (by omega), fillRow_apply (by omega), ByteMemory.toNat_sub_add,
      show (pixelWidth * 3#32).toNat = 3840 from rfl]
    have hlt := (b - p).isLt
    generalize (b - p).toNat = o at hlt ⊢
    by_cases hfirst : o < 3840
    · rw [if_pos hfirst, if_neg (by omega)]
      exact if_congr (by omega) rfl rfl
    · rw [if_neg hfirst, if_neg (show ¬ o < 3 * n by omega)]
      exact if_congr (by omega) (congrArg (colorByte color) (by omega)) rfl

/-! ### The screen -/

/-- Byte `k` of a pixel. -/
def pixelByte (px py : Int) (k : Nat) : BitVec 32 := videoAddress + BitVec.ofInt 32 ((py * 1280 + px) * 3 + k)

/-- The pixel lies in the rectangle and on the screen. -/
def InRect (x y width height px py : Int) : Prop :=
  max x 0 ≤ px ∧ px < min (x + width) 1280 ∧ max y 0 ≤ py ∧ py < min (y + height) 1024

theorem pixelByte_add (px py : Int) (o : Nat) : pixelByte px py 0 + BitVec.ofNat 32 o
    = pixelByte (px + (o % 3840 / 3 : Nat)) (py + (o / 3840 : Nat)) (o % 3) := by
  rw [pixelByte, pixelByte, BitVec.add_assoc, ← BitVec.ofInt_natCast, ← BitVec.ofInt_add]
  exact congrArg (fun o => videoAddress + BitVec.ofInt 32 o) (by omega)

theorem pixelByte_start {xs ys : BitVec 32} :
    videoAddress + (ys * pixelWidth + xs) * 3#32 = pixelByte xs.toInt ys.toInt 0 := by
  rw [pixelByte, Int.natCast_zero, Int.add_zero, BitVec.ofInt_mul, BitVec.ofInt_add, BitVec.ofInt_mul,
    BitVec.ofInt_toInt, BitVec.ofInt_toInt]
  rfl

/-- `fill_rect` gives the color to the pixels of the rectangle that are on the screen, and changes no other byte. -/
theorem fillRect_clips (mem : ByteMemory) (color : BitVec 32) (hx : x.saddOverflow width = false)
    (hy : y.saddOverflow height = false) :
    (∀ px py, InRect x.toInt y.toInt width.toInt height.toInt px py → ∀ k < 3,
      fillRect mem x y width height color (pixelByte px py k) = colorByte color k) ∧
    ∀ b, (∀ px py, InRect x.toInt y.toInt width.toInt height.toInt px py → ∀ k < 3, b ≠ pixelByte px py k) →
      fillRect mem x y width height color b = mem b := by
  simp only [BitVec.saddOverflow, Bool.or_eq_false_iff, decide_eq_false_iff_not] at hx hy
  rw [fillRect]
  split
  · next hout =>
    rw [BitVec.sle_iff_toInt_le, BitVec.sle_iff_toInt_le, show pixelWidth.toInt = 1280 from rfl,
      show pixelHeight.toInt = 1024 from rfl] at hout
    refine ⟨fun px py hin => ?_, fun b _ => rfl⟩
    obtain ⟨hleft, hright, htop, hbottom⟩ := hin
    omega
  · next hon =>
    rw [BitVec.sle_iff_toInt_le, BitVec.sle_iff_toInt_le, show pixelWidth.toInt = 1280 from rfl,
      show pixelHeight.toInt = 1024 from rfl, not_or] at hon
    obtain ⟨hxstart, hxsize⟩ := @clip_spec x width pixelWidth (by rw [show pixelWidth.toInt = 1280 from rfl]; omega)
      (by omega) (by omega)
    obtain ⟨hystart, hysize⟩ := @clip_spec y height pixelHeight (by rw [show pixelHeight.toInt = 1024 from rfl]; omega)
      (by omega) (by omega)
    rw [show pixelWidth.toInt = 1280 from rfl] at hxsize
    rw [show pixelHeight.toInt = 1024 from rfl] at hysize
    dsimp only
    rw [pixelByte_start, hxstart, hystart]
    generalize (clip x width pixelWidth).size = w at hxsize ⊢
    generalize (clip y height pixelHeight).size = h at hysize ⊢
    have happly := fun b => @fillRows_apply mem color (pixelByte (max x.toInt 0) (max y.toInt 0) 0) b
      w.toInt.toNat h.toInt.toNat (by omega) (by omega)
    refine ⟨fun px py hin k hk => ?_, fun b hout => ?_⟩
    · obtain ⟨hleft, hright, htop, hbottom⟩ := hin
      obtain ⟨j, hj⟩ := Int.eq_ofNat_of_zero_le (Int.sub_nonneg_of_le hleft)
      obtain ⟨i, hi⟩ := Int.eq_ofNat_of_zero_le (Int.sub_nonneg_of_le htop)
      have hbyte : pixelByte px py k
          = pixelByte (max x.toInt 0) (max y.toInt 0) 0 + BitVec.ofNat 32 (3840 * i + 3 * j + k) := by
        rw [pixelByte_add]
        exact congr (congrArg₂ pixelByte (by omega) (by omega)) (by omega)
      rw [happly, (ByteMemory.eq_add_iff_sub (by omega)).mp hbyte, if_pos (by omega)]
      exact congrArg (colorByte color) (by omega)
    · rw [happly]
      have hbyte := (@ByteMemory.eq_add_iff_sub (pixelByte (max x.toInt 0) (max y.toInt 0) 0) b _
        (BitVec.isLt _)).mpr rfl
      rw [pixelByte_add] at hbyte
      refine if_neg fun hin => hout _ _ ?_ _ (Nat.mod_lt _ (by decide)) hbyte
      generalize (b - _).toNat = o at hin
      refine ⟨?_, ?_, ?_, ?_⟩ <;> omega

/-- A rectangle that begins two columns in front of the screen. -/
theorem fillRect_clips_corner :
    fillRect (fun _ => 0#8) (-2#32) 0#32 4#32 1#32 0xAABBCC#32 (pixelByte 1 0 2) = 0xAA#8 ∧
      fillRect (fun _ => 0#8) (-2#32) 0#32 4#32 1#32 0xAABBCC#32 (pixelByte 2 0 0) = 0#8 := by
  obtain ⟨hin, hout⟩ := @fillRect_clips (-2#32) 0#32 4#32 1#32 (fun _ => 0#8) 0xAABBCC#32 (by decide) (by decide)
  refine ⟨(hin 1 0 ⟨by decide, by decide, by decide, by decide⟩ 2 (by decide)).trans (by decide), hout _ ?_⟩
  intro px py hrect k hk heq
  obtain ⟨hleft, hright, htop, hbottom⟩ := hrect
  have hpx : px = 0 ∨ px = 1 := by
    simp at hleft hright
    omega
  obtain rfl : py = 0 := by
    simp at htop hbottom
    omega
  rcases hpx with rfl | rfl
  · exact (show ∀ k < 3, pixelByte 2 0 0 ≠ pixelByte 0 0 k by decide) k hk heq
  · exact (show ∀ k < 3, pixelByte 2 0 0 ≠ pixelByte 1 0 k by decide) k hk heq

end Graphics

end Akos
