import Mathlib.Tactic.Ring
import Akos.Winsys.MouseCursor

/-!
# What the windows show together

A program draws into the buffer of its window and has the section displayed. The section is painted over everything,
and then the parts of the higher windows that lie over it are painted again, with their frames. Wherever there is no
frame the screen shows, after every such display, the highest window that covers the place.
-/

namespace Akos.Winsys

open Overlay

/-! ### Pixels -/

/-- A pixel that the screen has. -/
def OnScreen (px py : Int) : Prop := 0 ≤ px ∧ px < pixelWidth ∧ 0 ≤ py ∧ py < pixelHeight

/-- The content of the window covers a pixel. -/
def Window.Covers (w : Window) (px py : Int) : Prop := w.x ≤ px ∧ px < w.x + w.width ∧ w.y ≤ py ∧ py < w.y + w.height

instance (w : Window) (px py : Int) : Decidable (w.Covers px py) := inferInstanceAs (Decidable (_ ∧ _))

/-- A pixel of the border or of the title bar. -/
def Window.Frames (w : Window) (px py : Int) : Prop :=
  w.hasFrame = true ∧ w.x - winFrameSize ≤ px ∧ px < w.x + w.width + winFrameSize ∧ w.y - titleBarHeight ≤ py ∧
    py < w.y + w.height + winFrameSize ∧ ¬ w.Covers px py

/-- Everything is written to bytes of pixels of the region. -/
def PaintsOnly (ws : List Write) (region : Int → Int → Prop) : Prop :=
  ∀ w ∈ ws, ∃ px py, ∃ k : Nat, OnScreen px py ∧ region px py ∧ k < 3 ∧ w.1 = pixelAddress px py + k

/-- A byte of memory that a byte of a pixel is copied from. -/
def Pictures.content (m : Pictures) (w : Window) (px py : Int) (k : Nat) : Byte :=
  m.memory (w.buffer + BitVec.ofInt 32 (((py - w.y) * w.width + (px - w.x)) * 3 + k))

variable {ws ws' : List Write} {region region' : Int → Int → Prop} {x y width height px py qx qy mx my : Int}
  {k k' : Nat} {m m' : Pictures} {w t : Window} {screen : Int → Byte}

theorem pixelAddress_inj (hpx : 0 ≤ px ∧ px < pixelWidth) (hqx : 0 ≤ qx ∧ qx < pixelWidth) (hk : k < 3) (hk' : k' < 3)
    (h : pixelAddress px py + k = pixelAddress qx qy + k') : px = qx ∧ py = qy ∧ k = k' := by
  rw [pixelAddress, pixelAddress, pixelWidth] at h
  rw [pixelWidth] at hpx hqx
  omega

namespace PaintsOnly

theorem nil : PaintsOnly [] region := fun _ hw => absurd hw List.not_mem_nil

theorem append (h : PaintsOnly ws region) (h' : PaintsOnly ws' region) : PaintsOnly (ws ++ ws') region := fun w hw =>
  (List.mem_append.mp hw).elim (h w) (h' w)

theorem flatMap {α : Type} {l : List α} {f : α → List Write} (h : ∀ a ∈ l, PaintsOnly (f a) region) :
    PaintsOnly (l.flatMap f) region := by
  intro w hw
  obtain ⟨a, ha, hw⟩ := List.mem_flatMap.mp hw
  exact h a ha w hw

theorem mono (h : PaintsOnly ws region) (hle : ∀ px py, region px py → region' px py) : PaintsOnly ws region' := by
  intro w hw
  obtain ⟨px, py, k, hon, hin, hrest⟩ := h w hw
  exact ⟨px, py, k, hon, hle px py hin, hrest⟩

/-- Other pixels stay. -/
theorem put_eq (h : PaintsOnly ws region) (hon : OnScreen px py) (hk : k < 3) (hout : ¬ region px py)
    (screen : Int → Byte) : put screen ws (pixelAddress px py + k) = screen (pixelAddress px py + k) := by
  refine put_of_not_mem fun w hw heq => ?_
  obtain ⟨qx, qy, k', hon', hin, hk', heq'⟩ := h w hw
  obtain ⟨rfl, rfl, -⟩ := pixelAddress_inj ⟨hon.1, hon.2.1⟩ ⟨hon'.1, hon'.2.1⟩ hk hk' (heq.symm.trans heq')
  exact hout hin

end PaintsOnly

theorem paintsOnly_setPixel (h : region x y) (color : BitVec 32) : PaintsOnly (setPixel x y color) region := by
  intro w hw
  rw [setPixel] at hw
  split at hw
  · cases hw
  · next hon =>
    obtain ⟨k, hk, heq⟩ := Display.mem_paintPixel hw
    exact ⟨x, y, k, ⟨by omega, by omega, by omega, by omega⟩, h, hk, heq⟩

/-! ### Frames -/

theorem paintsOnly_fillColumns (x y width height : Int) (color : Int → Int → BitVec 32) :
    PaintsOnly (fillColumns x y width height color) fun px py =>
      x ≤ px ∧ px < x + width ∧ y ≤ py ∧ py < y + height := by
  rw [fillColumns]
  split
  · exact .nil
  · have hx : 0 ≤ (clip x width pixelWidth).1 ∧ x ≤ (clip x width pixelWidth).1 ∧
        (clip x width pixelWidth).1 + (clip x width pixelWidth).2 ≤ x + width ∧
        (clip x width pixelWidth).1 + (clip x width pixelWidth).2 ≤ pixelWidth := by
      simp only [clip]
      split <;> split <;> dsimp only <;> omega
    have hy : 0 ≤ (clip y height pixelHeight).1 ∧ y ≤ (clip y height pixelHeight).1 ∧
        (clip y height pixelHeight).1 + (clip y height pixelHeight).2 ≤ y + height ∧
        (clip y height pixelHeight).1 + (clip y height pixelHeight).2 ≤ pixelHeight := by
      simp only [clip]
      split <;> split <;> dsimp only <;> omega
    dsimp only
    refine .flatMap fun i hi => .flatMap fun j hj w hw => ?_
    replace hi := List.mem_range.mp hi
    replace hj := List.mem_range.mp hj
    rw [← pixelAddress_add] at hw
    obtain ⟨k, hk, heq⟩ := Display.mem_paintPixel hw
    exact ⟨_, _, k, ⟨by omega, by omega, by omega, by omega⟩, ⟨by omega, by omega, by omega, by omega⟩, hk, heq⟩

theorem paintsOnly_displayChar (font : Int → Byte) (c : Byte) (x y : Int) (fgcolor : BitVec 32)
    (bgcolor : Option (BitVec 32)) : PaintsOnly (displayChar font c x y fgcolor bgcolor) fun px py =>
      0 ≤ x ∧ x ≤ px ∧ px < x + charWidth ∧ y ≤ py ∧ py < y + charHeight := by
  rw [displayChar]
  split
  · exact .nil
  · refine .flatMap fun i hi => .flatMap fun j hj => ?_
    replace hi := List.mem_range.mp hi
    replace hj := List.mem_range.mp hj
    have hin : 0 ≤ x ∧ x ≤ x + (j : Int) ∧ x + (j : Int) < x + charWidth ∧ y ≤ y + (i : Int) ∧
        y + (i : Int) < y + charHeight := by
      rw [charWidth, charHeight]
      omega
    split
    · exact paintsOnly_setPixel hin fgcolor
    · cases bgcolor with
      | none => exact .nil
      | some bgcolor => exact paintsOnly_setPixel hin bgcolor

/-- A window that is not left of the screen and has room for the sign that closes it. -/
structure Window.Placed (w : Window) : Prop where
  width : charWidth ≤ w.width
  height : 0 ≤ w.height
  left : -2 ^ 31 ≤ w.x
  ends : 0 ≤ w.x + w.width
  right : w.x + w.width < 2 ^ 31

/-- The title stays above the content, whose right end it does not reach. -/
theorem paintsOnly_paintName (hw : w.Placed) (nameY : Int) (turns : Nat) (tmp nameX : BitVec 32)
    (hleft : w.x ≤ nameX.toInt) :
    PaintsOnly (m.paintName nameY (BitVec.ofInt 32 (w.x + w.width)) turns tmp nameX) fun px py =>
      w.x ≤ px ∧ px < w.x + w.width ∧ nameY ≤ py ∧ py < nameY + charHeight := by
  induction turns generalizing tmp nameX with
  | zero => exact .nil
  | succ turns ih =>
    rw [Pictures.paintName]
    split
    · next hmore =>
      have hlimit : (BitVec.ofInt 32 (w.x + w.width)).toNat = (w.x + w.width).toNat := by
        have hends := hw.ends
        have hright := hw.right
        rw [BitVec.toNat_ofInt]
        omega
      have hlt : (nameX + 16#32).toNat < (BitVec.ofInt 32 (w.x + w.width)).toNat := hmore.2
      rw [hlimit, BitVec.toNat_add, BitVec.toNat_ofNat] at hlt
      have hends := hw.ends
      have hright := hw.right
      refine .append ((paintsOnly_displayChar m.font _ _ _ _ none).mono fun px py hin => ?_) (ih _ _ ?_)
      · rw [charWidth] at hin
        have hcond := BitVec.toInt_eq_toNat_cond nameX
        split at hcond <;> omega
      · have hcond := BitVec.toInt_eq_toNat_cond nameX
        have hcond' := BitVec.toInt_eq_toNat_cond (nameX + 8#32)
        rw [BitVec.toNat_add, BitVec.toNat_ofNat] at hcond'
        split at hcond <;> split at hcond' <;> omega
    · exact .nil

/-- A frame is painted where the window's frame is. -/
theorem paintsOnly_paintWindowFrame (hw : w.Placed) (hframe : w.hasFrame = true) (working : Bool) :
    PaintsOnly (m.paintWindowFrame working w) w.Frames := by
  have hwidth := hw.width
  have hheight := hw.height
  have hleft : (BitVec.ofInt 32 w.x).toInt = w.x := by
    have hright := hw.right
    have hleft := hw.left
    rw [charWidth] at hwidth
    rw [BitVec.toInt_ofInt, Int.bmod_eq_of_le (by omega) (by omega)]
  rw [charWidth] at hwidth
  have hnameY : (titleBarHeight + charHeight).tdiv 2 = 23 := by decide
  rw [Pictures.paintWindowFrame]
  refine .append (.append (.append (.append (.append (.append (.append ?_ ?_) ?_) ?_) ?_) ?_) ?_) ?_
  · split
    all_goals
      refine (paintsOnly_fillColumns _ _ _ _ _).mono fun px py hin => ⟨hframe, ?_⟩
      simp only [Window.Covers, winFrameSize, titleBarHeight] at *
      omega
  iterate 5
    refine (paintsOnly_fillColumns _ _ _ _ _).mono fun px py hin => ⟨hframe, ?_⟩
    simp only [Window.Covers, winFrameSize, titleBarHeight] at *
    omega
  · refine (paintsOnly_paintName hw _ _ _ _ hleft.ge).mono fun px py hin => ⟨hframe, ?_⟩
    rw [hnameY] at hin
    simp only [Window.Covers, winFrameSize, titleBarHeight, charHeight] at *
    omega
  · split
    · refine (paintsOnly_displayChar _ _ _ _ _ _).mono fun px py hin => ⟨hframe, ?_⟩
      rw [hnameY] at hin
      simp only [Window.Covers, winFrameSize, titleBarHeight, charHeight, charWidth] at *
      omega
    · exact .nil

/-! ### Sections -/

/-- A section of a window that lies on the screen; it may hang over the bottom edge. -/
structure Window.HasSection (w : Window) (x y width height : Int) : Prop where
  left : 0 ≤ x
  top : 0 ≤ y
  wide : 0 ≤ width
  tall : 0 ≤ height
  right : x + width ≤ w.width
  bottom : y + height ≤ w.height
  screenLeft : 0 ≤ w.x + x
  screenTop : 0 ≤ w.y + y
  screenRight : w.x + x + width ≤ pixelWidth

/-- A pixel of the section. -/
def Window.InSection (w : Window) (x y width height px py : Int) : Prop :=
  w.x + x ≤ px ∧ px < w.x + x + width ∧ w.y + y ≤ py ∧ py < w.y + y + height

instance (w : Window) (x y width height px py : Int) : Decidable (w.InSection x y width height px py) :=
  inferInstanceAs (Decidable (_ ∧ _))

/-- A row is the bytes of the buffer from its beginning on. -/
theorem mem_paintRow_iff {vram count : Int} {buff : BitVec 32} (hcount : 0 ≤ count) {u : Write} :
    u ∈ m.paintRow vram buff count ↔
      ∃ q : Nat, q < count ∧ u = (vram + q, m.memory (buff + BitVec.ofInt 32 q)) := by
  have hdiv : count.tdiv 4 = count / 4 := Int.tdiv_eq_ediv_of_nonneg hcount
  have hmod : count.tmod 4 = count % 4 := Int.tmod_eq_emod_of_nonneg hcount
  rw [Pictures.paintRow, hdiv, hmod, List.mem_append, List.mem_map, List.mem_map]
  constructor
  · intro h
    obtain ⟨q, hq, rfl⟩ | ⟨q, hq, rfl⟩ := h
    · replace hq := List.mem_range.mp hq
      refine ⟨q, by omega, ?_⟩
      dsimp only
      rw [Int.add_zero, Int.zero_add]
    · replace hq := List.mem_range.mp hq
      refine ⟨(count - count % 4 % 256 + q).toNat, by omega, ?_⟩
      have hplace : ((count - count % 4 % 256 + q).toNat : Int) = count - count % 4 % 256 + q :=
        Int.toNat_of_nonneg (by omega)
      dsimp only
      rw [hplace, Int.add_assoc]
  · intro h
    obtain ⟨q, hq, rfl⟩ := h
    by_cases hwords : q < 4 * (count / 4).toNat
    · refine Or.inl ⟨q, List.mem_range.mpr hwords, ?_⟩
      dsimp only
      rw [Int.add_zero, Int.zero_add]
    · refine Or.inr ⟨(q - (count - count % 4 % 256)).toNat, List.mem_range.mpr (by omega), ?_⟩
      have hplace : ((q - (count - count % 4 % 256)).toNat : Int) = q - (count - count % 4 % 256) :=
        Int.toNat_of_nonneg (by omega)
      dsimp only
      rw [hplace, Int.add_assoc, add_sub_cancel]

/-- A section on the screen is not cut, but at the bottom. -/
theorem sectionSpan_eq {place size start length screen : Int} (hstart : 0 ≤ place + start)
    (hends : start + length ≤ size) :
    sectionSpan place size start length screen = ⟨start, length, min (start + length) (screen - place)⟩ := by
  have hfirst : max start (-place) = start := by omega
  have hsize : min (size - start) length = length := by omega
  rw [sectionSpan, hfirst, hsize]

/-- The rows of a section: their bytes are those of the buffer. -/
theorem mem_rows_iff (h : w.HasSection x y width height) {u : Write} {rows : Nat} :
    u ∈ (List.range rows).flatMap (fun i : Nat => m.paintRow
      (pixelAddress (w.x + x) (w.y + y) + i * (pixelWidth * 3))
      (w.buffer + BitVec.ofInt 32 ((y * w.width + x) * 3) + BitVec.ofInt 32 (i * (w.width * 3))) (width * 3)) ↔
    ∃ px py, ∃ k : Nat, w.x + x ≤ px ∧ px < w.x + x + width ∧ w.y + y ≤ py ∧ py < w.y + y + rows ∧ k < 3 ∧
      u = (pixelAddress px py + k, m.content w px py k) := by
  have hwidth := h.wide
  have hbytes : ∀ (i q : Int), w.buffer + BitVec.ofInt 32 ((y * w.width + x) * 3) +
      BitVec.ofInt 32 (i * (w.width * 3)) + BitVec.ofInt 32 q =
        w.buffer + BitVec.ofInt 32 (((y + i) * w.width + x) * 3 + q) := by
    intro i q
    rw [BitVec.add_assoc, BitVec.add_assoc, ← BitVec.ofInt_add, ← BitVec.ofInt_add]
    congr 2
    ring
  rw [List.mem_flatMap]
  constructor
  · intro hmem
    obtain ⟨i, hi, hrow⟩ := hmem
    obtain ⟨q, hq, rfl⟩ := (mem_paintRow_iff (by omega)).mp hrow
    replace hi := List.mem_range.mp hi
    have hq3 : (q : Int) = ((q / 3 : Nat) : Int) * 3 + (q % 3 : Nat) := by omega
    refine ⟨w.x + x + (q / 3 : Nat), w.y + y + i, q % 3, by omega, by omega, by omega, by omega, by omega, ?_⟩
    rw [Pictures.content, hbytes, pixelAddress_add (w.x + x)]
    refine Prod.ext ?_ (congrArg (fun v => m.memory (w.buffer + BitVec.ofInt 32 v)) ?_)
    · dsimp only
      omega
    · have hrow' : w.y + y + i - w.y = y + (i : Int) := by ring
      have hcolumn : w.x + x + ((q / 3 : Nat) : Int) - w.x = x + ((q / 3 : Nat) : Int) := by ring
      rw [hrow', hcolumn]
      omega
  · intro hmem
    obtain ⟨px, py, k, hleft, hright, htop, hbottom, hk, rfl⟩ := hmem
    obtain ⟨i, hi⟩ := Int.eq_ofNat_of_zero_le (show 0 ≤ py - (w.y + y) by omega)
    obtain ⟨j, hj⟩ := Int.eq_ofNat_of_zero_le (show 0 ≤ px - (w.x + x) by omega)
    obtain rfl : py = w.y + y + i := by omega
    obtain rfl : px = w.x + x + j := by omega
    refine ⟨i, List.mem_range.mpr (by omega), (mem_paintRow_iff (by omega)).mpr ⟨3 * j + k, by omega, ?_⟩⟩
    rw [Pictures.content, hbytes, pixelAddress_add (w.x + x)]
    refine Prod.ext ?_ (congrArg (fun v => m.memory (w.buffer + BitVec.ofInt 32 v)) ?_)
    · dsimp only
      omega
    · have hrow' : w.y + y + i - w.y = y + (i : Int) := by ring
      have hcolumn : w.x + x + (j : Int) - w.x = x + (j : Int) := by ring
      rw [hrow', hcolumn]
      push_cast
      ring

/-- Painting a section shows what the buffer has for its pixels, and leaves the others alone. -/
theorem putAll_paintWindowSection (h : w.HasSection x y width height) (hon : OnScreen px py) (hk : k < 3)
    (screen : Int → Byte) :
    putAll screen (m.paintWindowSection mx my w x y width height) (pixelAddress px py + k) =
      if w.InSection x y width height px py then m.content w px py k else screen (pixelAddress px py + k) := by
  have hright := h.right
  have hbottom := h.bottom
  rw [Pictures.paintWindowSection]
  split
  · next hempty =>
    refine (if_neg fun hin : _ ∧ _ => ?_).symm
    have hwidth := h.wide
    have hheight := h.tall
    omega
  · rw [sectionSpan_eq h.screenLeft hright, sectionSpan_eq h.screenTop hbottom]
    have hcount : min (x + width) (pixelWidth - w.x) - x = width := by
      have hscreen := h.screenRight
      omega
    dsimp only
    rw [hcount, putAll_singleton]
    split
    · next hin =>
      obtain ⟨hleft, hlt, htop, hlt'⟩ := hin
      refine put_of_forall ⟨_, (mem_rows_iff h).mpr ⟨px, py, k, hleft, hlt, htop, ?_, hk, rfl⟩, rfl⟩ ?_ screen
      · obtain ⟨-, -, -, hscreen⟩ := hon
        omega
      · intro u hu heq
        obtain ⟨qx, qy, k', hleft', hlt', -, -, hk', rfl⟩ := (mem_rows_iff h).mp hu
        have hscreen := h.screenLeft
        have hscreen' := h.screenRight
        obtain ⟨rfl, rfl, rfl⟩ := pixelAddress_inj ⟨by omega, by omega⟩ ⟨hon.1, hon.2.1⟩ hk' hk heq
        rfl
    · next hout =>
      refine put_of_not_mem fun u hu heq => hout ?_
      obtain ⟨qx, qy, k', hleft', hlt', htop', hrows, hk', rfl⟩ := (mem_rows_iff h).mp hu
      have hscreen := h.screenLeft
      have hscreen' := h.screenRight
      obtain ⟨rfl, rfl, rfl⟩ := pixelAddress_inj ⟨by omega, by omega⟩ ⟨hon.1, hon.2.1⟩ hk' hk heq
      exact ⟨hleft', hlt', htop', by omega⟩

/-! ### The windows above -/

variable {c : Scene} {s : Windows} {l l₁ l₂ : List (BitVec 32 × Window)} {e : BitVec 32 × Window}
  {strokes : Strokes} {back : Int → Byte} {d d' : Display} {b : Bare}

/-- A pixel that no frame of these windows covers. -/
def Unframed (l : List (BitVec 32 × Window)) (px py : Int) : Prop := ∀ e ∈ l, ¬ e.2.Frames px py

/-- The highest window that covers a pixel. -/
def topmost (l : List (BitVec 32 × Window)) (px py : Int) : Option (BitVec 32 × Window) :=
  l.reverse.find? fun e => e.2.Covers px py

/-- What is painted of a window: nothing, or the part of it that the section covers. -/
def Repairs (c : Scene) (w : Window) (x y width height : Int) (t : Window) (strokes : Strokes) : Prop :=
  strokes = [] ∧ (∀ px py, ¬ (w.InSection x y width height px py ∧ t.Covers px py)) ∨
    ∃ x' y' width' height', t.HasSection x' y' width' height' ∧ strokes = c.paintSection t x' y' width' height' ∧
      ∀ px py, t.InSection x' y' width' height' px py ↔ w.InSection x y width height px py ∧ t.Covers px py

/-- On one axis the overlap of two windows matters only through the section. -/
theorem overlap_eq {place size place' size' start length : Int} (hstart : place ≤ start)
    (hends : start + length ≤ place + size) : max (max place place') start = max place' start ∧
      min (max place place' + (min (place + size) (place' + size') - max place place')) (start + length) =
        min (place' + size') (start + length) := by
  refine ⟨by omega, ?_⟩
  rw [add_sub_cancel]
  omega

theorem displaySectionAbove_cases (h : w.HasSection x y width height) (e : BitVec 32 × Window) :
    ∃ strokes frames, c.displaySectionAbove w x y width height e = strokes ++ frames ∧
      Repairs c w x y width height e.2 strokes ∧
      (frames = [] ∨ e.2.hasFrame = true ∧ frames = [⟨true, c.paintFrame e.1 e.2⟩]) := by
  obtain ⟨hleft, htop, hwide, htall, hright, hbottom, hscreenLeft, hscreenTop, hscreenRight⟩ := h
  have hwidth : min w.width width = width := by omega
  have hheight : min w.height height = height := by omega
  have hends : w.x + x + width ≤ w.x + w.width := by omega
  have hends' : w.y + y + height ≤ w.y + w.height := by omega
  obtain ⟨hfirst, hlast⟩ := overlap_eq (show w.x ≤ w.x + x by omega) hends
  obtain ⟨hfirst', hlast'⟩ := overlap_eq (show w.y ≤ w.y + y by omega) hends'
  rw [Scene.displaySectionAbove, Int.max_eq_left hleft, Int.max_eq_left htop, hwidth, hheight, hfirst, hlast, hfirst',
    hlast', Scene.checkCollide, checkCollideRectRect]
  clear hfirst hlast hfirst' hlast' hwidth hheight
  simp only [decide_eq_true_eq]
  refine ⟨_, _, rfl, ?_, ?_⟩
  · split
    · next hoverlap =>
      obtain ⟨-, -, -, hoverlapWidth, hoverlapHeight⟩ := hoverlap
      refine Or.inr ⟨_, _, _, _, ?_, rfl, fun px py => ?_⟩
      · constructor <;> omega
      · have hcolumns : e.2.x + (max e.2.x (w.x + x) - e.2.x) ≤ px ∧ px < e.2.x + (max e.2.x (w.x + x) - e.2.x) +
            (min (e.2.x + e.2.width) (w.x + x + width) - max e.2.x (w.x + x)) ↔
            (w.x + x ≤ px ∧ px < w.x + x + width) ∧ e.2.x ≤ px ∧ px < e.2.x + e.2.width := by omega
        have hrows : e.2.y + (max e.2.y (w.y + y) - e.2.y) ≤ py ∧ py < e.2.y + (max e.2.y (w.y + y) - e.2.y) +
            (min (e.2.y + e.2.height) (w.y + y + height) - max e.2.y (w.y + y)) ↔
            (w.y + y ≤ py ∧ py < w.y + y + height) ∧ e.2.y ≤ py ∧ py < e.2.y + e.2.height := by omega
        rw [Window.InSection, Window.InSection, Window.Covers, ← and_assoc, hcolumns, hrows]
        constructor
        · intro hboth
          obtain ⟨⟨⟨hl, hr⟩, hl', hr'⟩, ⟨ht, hb⟩, ht', hb'⟩ := hboth
          exact ⟨⟨hl, hr, ht, hb⟩, hl', hr', ht', hb'⟩
        · intro hboth
          obtain ⟨⟨hl, hr, ht, hb⟩, hl', hr', ht', hb'⟩ := hboth
          exact ⟨⟨⟨hl, hr⟩, hl', hr'⟩, ⟨ht, hb⟩, ht', hb'⟩
    · next hapart =>
      refine Or.inl ⟨rfl, fun px py hboth => hapart ?_⟩
      obtain ⟨⟨hl, hr, ht, hb⟩, hl', hr', ht', hb'⟩ := hboth
      refine ⟨⟨?_, ?_, ?_, ?_⟩, ?_, ?_, ?_, ?_⟩ <;> omega
  · split
    · next hframe => exact Or.inr ⟨hframe.2, rfl⟩
    · exact Or.inl rfl

/-- A window above repairs what it covers of the section, and where its frame is not it changes nothing else. -/
theorem putAll_displaySectionAbove (h : w.HasSection x y width height) (hplaced : e.2.Placed) (hon : OnScreen px py)
    (hk : k < 3) (hunframed : ¬ e.2.Frames px py) (screen : Int → Byte) :
    putAll screen (c.displaySectionAbove w x y width height e) (pixelAddress px py + k) =
      if w.InSection x y width height px py ∧ e.2.Covers px py then c.pictures.content e.2 px py k
      else screen (pixelAddress px py + k) := by
  obtain ⟨strokes, frames, heq, hpainted, hframes⟩ := displaySectionAbove_cases (c := c) h e
  have hframe : ∀ screen, putAll screen frames (pixelAddress px py + k) = screen (pixelAddress px py + k) := by
    intro screen
    obtain rfl | ⟨hhas, rfl⟩ := hframes
    · rfl
    · rw [putAll_singleton, Scene.paintFrame, if_pos hhas]
      exact (paintsOnly_paintWindowFrame hplaced hhas _).put_eq hon hk hunframed screen
  rw [heq, putAll_append, hframe]
  obtain ⟨rfl, hapart⟩ | ⟨x', y', width', height', hsection, rfl, hiff⟩ := hpainted
  · rw [if_neg (hapart px py)]
    rfl
  · rw [Scene.paintSection, putAll_paintWindowSection hsection hon hk]
    exact if_congr (hiff px py) rfl rfl

/-- The section is painted, and then each window above repairs its part. -/
theorem displayWindowSectionOperation_eq (hlisted : c.windows.Listed (l₁ ++ e :: l₂)) :
    c.displayWindowSectionOperation e.1 x y width height =
      some (c.paintSection e.2 x y width height ++ l₂.flatMap (c.displaySectionAbove e.2 x y width height)) := by
  obtain ⟨q, hload, hchain⟩ := hlisted.chain.drop
  have hne : e.1 ≠ 0#32 :=
    hlisted.chain.ne_zero (List.mem_map_of_mem (List.mem_append_right l₁ List.mem_cons_self))
  have hfold : ∀ strokes, Linked.foldFrom c.windows.nodes
      (fun strokes tmp => strokes ++ c.displaySectionAbove e.2 x y width height tmp) Linked.maxSteps strokes q =
        some (strokes ++ l₂.flatMap (c.displaySectionAbove e.2 x y width height)) := by
    intro strokes
    rw [hchain.foldFrom_eq _ _ hchain.length_lt, List.foldl_append_eq_append, List.flatMap_def]
  rw [Scene.displayWindowSectionOperation, if_neg hne, Linked.load_of_ne hne, hload, Option.bind_eq_bind,
    Option.bind_some, hfold]

/-- Within the section the highest window shows, and nothing else changes. -/
theorem putAll_displaySection (h : e.2.HasSection x y width height) (hplaced : ∀ e' ∈ l₂, e'.2.Placed)
    (hon : OnScreen px py) (hk : k < 3) (hunframed : Unframed l₂ px py) (screen : Int → Byte) :
    putAll screen (c.paintSection e.2 x y width height ++ l₂.flatMap (c.displaySectionAbove e.2 x y width height))
        (pixelAddress px py + k) =
      if e.2.InSection x y width height px py then
        (topmost (e :: l₂) px py).elim (screen (pixelAddress px py + k)) fun e' => c.pictures.content e'.2 px py k
      else screen (pixelAddress px py + k) := by
  have habove : ∀ e' ∈ l₂, ∀ screen, putAll screen (c.displaySectionAbove e.2 x y width height e')
      (pixelAddress px py + k) = if decide (e.2.InSection x y width height px py ∧ e'.2.Covers px py) = true then
        c.pictures.content e'.2 px py k else screen (pixelAddress px py + k) := by
    intro e' he' screen
    rw [putAll_displaySectionAbove h (hplaced e' he') hon hk (hunframed e' he')]
    simp only [decide_eq_true_eq]
  rw [putAll_append, putAll_layers habove, Scene.paintSection, putAll_paintWindowSection h hon hk]
  split
  · next hin =>
    have hcovers : e.2.Covers px py := by
      obtain ⟨hleft, htop, -, -, hright, hbottom, -, -, -⟩ := h
      rw [Window.InSection] at hin
      rw [Window.Covers]
      omega
    simp only [hin, true_and, topmost, List.reverse_cons, List.find?_append, List.find?_singleton, hcovers,
      decide_true, if_true]
    cases l₂.reverse.find? fun e' => decide (e'.2.Covers px py) with
    | none => rfl
    | some e' => rfl
  · next hout =>
    have hnone : l₂.reverse.find? (fun e' =>
        decide (e.2.InSection x y width height px py ∧ e'.2.Covers px py)) = none :=
      List.find?_eq_none.mpr fun e' _ h => hout (of_decide_eq_true h).1
    rw [hnone]
    rfl

/-! ### Runs -/

/-- Wherever no frame is, the screen shows the highest window, or what is behind the windows. -/
def Composed (l : List (BitVec 32 × Window)) (back : Int → Byte) (m : Pictures) (screen : Int → Byte) : Prop :=
  ∀ px py, ∀ k : Nat, OnScreen px py → k < 3 → Unframed l px py →
    screen (pixelAddress px py + k) =
      (topmost l px py).elim (back (pixelAddress px py + k)) fun e => m.content e.2 px py k

/-- Between two displays nothing is drawn but in the section of the window. -/
def Draws (l : List (BitVec 32 × Window)) (e : BitVec 32 × Window) (x y width height : Int) (m m' : Pictures) : Prop :=
  ∀ e' ∈ l, ∀ px py, ∀ k : Nat, e'.2.Covers px py → k < 3 → (e' = e → ¬ e.2.InSection x y width height px py) →
    m'.content e'.2 px py k = m.content e'.2 px py k

theorem Window.HasSection.covers (h : w.HasSection x y width height) (hin : w.InSection x y width height px py) :
    w.Covers px py := by
  obtain ⟨hleft, htop, -, -, hright, hbottom, -, -, -⟩ := h
  rw [Window.InSection] at hin
  rw [Window.Covers]
  omega

theorem covers_of_topmost (h : topmost l px py = some e) : e ∈ l ∧ e.2.Covers px py := by
  rw [topmost] at h
  have hcovers := List.find?_some h
  exact ⟨List.mem_reverse.mp (List.mem_of_find?_eq_some h), of_decide_eq_true hcovers⟩

/-- Whatever covers a pixel is highest in the part of the list from there on. -/
theorem topmost_append (h : e.2.Covers px py) : ∃ e', topmost (e :: l₂) px py = some e' ∧
    topmost (l₁ ++ e :: l₂) px py = some e' := by
  obtain ⟨e', he'⟩ : ∃ e', topmost (e :: l₂) px py = some e' := by
    refine Option.isSome_iff_exists.mp (List.find?_isSome.mpr ⟨e, ?_, decide_eq_true h⟩)
    exact List.mem_reverse.mpr List.mem_cons_self
  refine ⟨e', he', ?_⟩
  rw [topmost] at he' ⊢
  rw [List.reverse_append, List.find?_append, he']
  rfl

theorem Composed.displaySection (hcomposed : Composed (l₁ ++ e :: l₂) back m screen)
    (hplaced : ∀ e' ∈ l₁ ++ e :: l₂, e'.2.Placed) (h : e.2.HasSection x y width height)
    (hdraws : Draws (l₁ ++ e :: l₂) e x y width height m c.pictures) :
    Composed (l₁ ++ e :: l₂) back c.pictures (putAll screen
      (c.paintSection e.2 x y width height ++ l₂.flatMap (c.displaySectionAbove e.2 x y width height))) := by
  intro px py k hon hk hunframed
  have hsub : ∀ e' ∈ l₂, e' ∈ l₁ ++ e :: l₂ := fun e' he' =>
    List.mem_append_right l₁ (List.mem_cons_of_mem e he')
  rw [putAll_displaySection h (fun e' he' => hplaced e' (hsub e' he')) hon hk fun e' he' => hunframed e' (hsub e' he')]
  split
  · next hin =>
    obtain ⟨e', htop, hwhole⟩ := topmost_append (h.covers hin)
    rw [htop, hwhole]
    rfl
  · next hout =>
    rw [hcomposed px py k hon hk hunframed]
    cases htop : topmost (l₁ ++ e :: l₂) px py with
    | none => rfl
    | some e' =>
      obtain ⟨hmem, hcovers⟩ := covers_of_topmost htop
      exact (hdraws e' hmem px py k hcovers hk fun _ => hout).symm

/-- The cursor is beside what is painted, or is taken away before. -/
theorem Window.HasSection.avoids (h : w.HasSection x y width height) (hleft : 0 ≤ mx) (hright : mx + 10 ≤ pixelWidth) :
    ∀ s ∈ m.paintWindowSection mx my w x y width height, s.Avoids (mouseCells mx my) := by
  refine Display.paintWindowSection_avoids hleft hright ?_
  rw [sectionSpan_eq h.screenLeft h.right]
  have hwide := h.wide
  have hscreen := h.screenRight
  dsimp only
  omega

theorem displaySection_avoids (h : e.2.HasSection x y width height) (hleft : 0 ≤ c.mx)
    (hright : c.mx + 10 ≤ pixelWidth) : ∀ s ∈ c.paintSection e.2 x y width height ++
      l₂.flatMap (c.displaySectionAbove e.2 x y width height), s.Avoids (mouseCells c.mx c.my) := by
  intro s hs
  obtain hs | hs := List.mem_append.mp hs
  · exact h.avoids hleft hright s hs
  obtain ⟨e', he', hs⟩ := List.mem_flatMap.mp hs
  obtain ⟨strokes, frames, heq, hpainted, hframes⟩ := displaySectionAbove_cases (c := c) h e'
  rw [heq] at hs
  obtain hs | hs := List.mem_append.mp hs
  · obtain ⟨rfl, -⟩ | ⟨x', y', width', height', hsection, rfl, -⟩ := hpainted
    · cases hs
    · exact hsection.avoids hleft hright s hs
  · obtain rfl | ⟨-, rfl⟩ := hframes
    · cases hs
    · obtain rfl := List.mem_singleton.mp hs
      exact fun hshown => absurd hshown Bool.noConfusion

/-- The screen with the cursor, and what the programs have drawn. -/
structure Shown where
  display : Display
  pictures : Pictures

/-- A program draws into a section of its window and has it displayed, or the mouse moves and stays on the screen. -/
inductive Shown.Step (l : List (BitVec 32 × Window)) : Shown → DisplayEvent → Shown → Prop
  | displaySection {d d' : Display} {m m' : Pictures} {e : BitVec 32 × Window} {x y width height : Int} :
      e ∈ l → e.2.HasSection x y width height → Draws l e x y width height m m' →
      d.Called (.operation (.displaySection e.2.id x y width height) m') d' →
      Step l ⟨d, m⟩ (.operation (.displaySection e.2.id x y width height) m') ⟨d', m'⟩
  | moveMouse {d d' : Display} {m : Pictures} {x y : Int} : 0 ≤ x → x + 10 ≤ pixelWidth →
      d.Called (.moveMouse x y) d' → Step l ⟨d, m⟩ (.moveMouse x y) ⟨d', m⟩

/-- The cursor is on the screen and leaves no trace, and without it the windows are composed. -/
structure Shown.Proper (l : List (BitVec 32 × Window)) (back : Int → Byte) (s : Shown) (b : Bare) : Prop where
  traceless : Traceless s.display b
  listed : s.display.windows.Listed l
  left : 0 ≤ s.display.mx
  right : s.display.mx + 10 ≤ pixelWidth
  composed : Composed l back s.pictures b.screen

theorem Shown.Proper.step {s s' : Shown} {event : DisplayEvent} (h : s.Proper l back b)
    (hplaced : ∀ e ∈ l, e.2.Placed) (hstep : Shown.Step l s event s') : ∃ b', s'.Proper l back b' := by
  obtain ⟨htraceless, hlisted, hleft, hright, hcomposed⟩ := h
  cases hstep with
  | @displaySection d d' m m' e x y width height he hsection hdraws hcalled =>
    obtain ⟨l₁, l₂, rfl⟩ := List.append_of_mem he
    have hoperation : (d.scene m').doOperation (.displaySection e.2.id x y width height) =
        some ((d.scene m').paintSection e.2 x y width height ++
          l₂.flatMap ((d.scene m').displaySectionAbove e.2 x y width height)) := by
      have hget : (d.scene m').windows.winsysGetWindowById e.2.id = some e.1 := hlisted.getWindowById_of_mem he
      rw [Scene.doOperation, hget, Option.bind_some]
      exact displayWindowSectionOperation_eq hlisted
    have havoids : d.Avoids (.operation (.displaySection e.2.id x y width height) m') := by
      intro strokes hstrokes
      obtain rfl := Option.some.inj (hoperation.symm.trans hstrokes)
      exact displaySection_avoids hsection hleft hright
    obtain ⟨b', hbare, htraceless'⟩ := Display.traceless_step htraceless ⟨havoids, hcalled⟩
    rw [Bare.Step, Bare.apply, ← htraceless.windows, ← htraceless.mx, ← htraceless.my] at hbare
    obtain ⟨strokes, hstrokes, hrest⟩ := Option.bind_eq_some_iff.mp hbare
    obtain rfl := Option.some.inj (hoperation.symm.trans hstrokes)
    obtain rfl := Option.some.inj hrest
    refine ⟨_, htraceless', ?_, ?_, ?_, hcomposed.displaySection hplaced hsection hdraws⟩
    · rw [htraceless'.windows]
      exact hlisted
    · rw [htraceless'.mx]
      exact hleft
    · rw [htraceless'.mx]
      exact hright
  | @moveMouse d d' m x y hx hx' hcalled =>
    have havoids : d.Avoids (.moveMouse x y) := trivial
    obtain ⟨b', hbare, htraceless'⟩ := Display.traceless_step htraceless ⟨havoids, hcalled⟩
    obtain rfl := Option.some.inj hbare
    refine ⟨_, htraceless', ?_, ?_, ?_, hcomposed⟩
    · rw [htraceless'.windows, ← htraceless.windows]
      exact hlisted
    · rw [htraceless'.mx]
      exact hx
    · rw [htraceless'.mx]
      exact hx'

/-- Two windows, the upper one over the right end of the lower one. -/
def overlapping : List (BitVec 32 × Window) :=
  [(0x1000#32, Windows.kernelWindow 0x4000#32 0x5000#32 10 40 16 2 true 2#32 1#32),
    (0x2000#32, Windows.kernelWindow 0x6000#32 0x5000#32 20 41 16 2 true 2#32 2#32)]

/-- The cursor lies over both. -/
def overlappingScreen : Bare where
  windows := {
    nodes := fun a => if a = 0x1000#32 then (overlapping[0]?).map fun e => ⟨e.2, 0x2000#32⟩
      else if a = 0x2000#32 then (overlapping[1]?).map fun e => ⟨e.2, 0#32⟩ else none
    winList := 0x1000#32
    workingWindow := 0x2000#32 }
  mx := 18
  my := 40
  screen _ := 0#8

/-- A byte of the pixel in the upper left corner of the lower window. -/
def corner : Pictures := ⟨fun a => if a = 0x4000#32 then 7#8 else 0#8, fun _ => 0#8⟩

theorem listed_overlapping : overlappingScreen.windows.Listed overlapping where
  chain := .cons (by decide) rfl (.cons (by decide) rfl .nil)
  distinct := by decide
  readable := by decide

theorem placed_overlapping : ∀ e ∈ overlapping, e.2.Placed := by
  intro e he
  obtain rfl | he := List.mem_cons.mp he
  · constructor <;> decide
  · obtain rfl := List.mem_singleton.mp he
    constructor <;> decide

theorem draws_corner : Draws overlapping (overlapping[0]) 0 0 16 2 Display.blank corner := by
  intro e he px py k hcovers hk hout
  refine if_neg fun heq => ?_
  replace heq := congrArg BitVec.toNat heq
  rw [BitVec.toNat_add, BitVec.toNat_ofInt] at heq
  obtain rfl | he := List.mem_cons.mp he
  · exact hout rfl hcovers
  · obtain rfl := List.mem_singleton.mp he
    obtain ⟨offset, hoffset⟩ : ∃ offset : Int, offset = ((py - 41) * 16 + (px - 20)) * 3 + k := ⟨_, rfl⟩
    simp only [Window.buffer, Windows.kernelWindow, ← hoffset] at heq
    simp only [Window.Covers, Windows.kernelWindow] at hcovers
    have hsmall : 0 ≤ offset ∧ offset < 200 := by omega
    simp at heq
    omega

end Akos.Winsys
