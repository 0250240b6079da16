import Akos.Winsys.Painting

/-!
# The cursor of the mouse

The window system saves 18 rows of 30 bytes before it draws the cursor over them, and puts them back to take the
cursor away. Whole rows of bytes are saved, and beyond the right edge these are the first pixels of the next row.
-/

namespace Akos.Winsys

open Overlay

/-- `mouse_bitmap` -/
def mouseBitmap : List (List Nat) :=
  [[1, 0, 0, 0, 0, 0, 0, 0, 0, 0],
    [1, 1, 0, 0, 0, 0, 0, 0, 0, 0],
    [1, 2, 1, 0, 0, 0, 0, 0, 0, 0],
    [1, 2, 2, 1, 0, 0, 0, 0, 0, 0],
    [1, 2, 2, 2, 1, 0, 0, 0, 0, 0],
    [1, 2, 2, 2, 2, 1, 0, 0, 0, 0],
    [1, 2, 2, 2, 2, 2, 1, 0, 0, 0],
    [1, 2, 2, 2, 2, 2, 2, 1, 0, 0],
    [1, 2, 2, 2, 2, 2, 2, 2, 1, 0],
    [1, 2, 2, 2, 2, 2, 1, 1, 1, 1],
    [1, 2, 2, 1, 2, 2, 1, 0, 0, 0],
    [1, 2, 1, 1, 2, 2, 1, 0, 0, 0],
    [1, 1, 0, 0, 1, 2, 1, 0, 0, 0],
    [1, 0, 0, 0, 0, 1, 2, 1, 0, 0],
    [0, 0, 0, 0, 0, 1, 2, 1, 0, 0],
    [0, 0, 0, 0, 0, 0, 1, 2, 1, 0],
    [0, 0, 0, 0, 0, 0, 1, 2, 1, 0],
    [0, 0, 0, 0, 0, 0, 0, 1, 0, 0]]

/-- The bytes that `winsys_save_to_mouse_buffer` and `winsys_clear_mouse` copy, with the cursor at `(mx, my)`. -/
def mouseCells (mx my : Int) : List Int :=
  (List.range 18).flatMap fun (i : Nat) => (List.range 30).map fun (k : Nat) =>
    pixelAddress mx my + i * (pixelWidth * 3) + k

/-- `winsys_print_mouse` -/
def printMouse (mx my : Int) : List Write :=
  (List.range 18).flatMap fun (i : Nat) => (List.range 10).flatMap fun (j : Nat) =>
    match (mouseBitmap.getD i []).getD j 0 with
    | 1 => setPixel (mx + j) (my + i) 0xFFFFFF#32
    | 2 => setPixel (mx + j) (my + i) 0#32
    | _ => []

/-- The windows, the cursor, and the screen with the bytes saved under the cursor. -/
structure Display where
  windows : Windows
  mx : Int
  my : Int
  covered : Covered Int Byte

/-- The same without a cursor on the screen. -/
structure Bare where
  windows : Windows
  mx : Int
  my : Int
  screen : Int → Byte

/-- An operation of the listener, with what memory shows at the time, or a move of the mouse. -/
inductive DisplayEvent
  | operation (op : Operation) (pictures : Pictures)
  | moveMouse (x y : Int)

namespace Display

/-- The cursor is drawn, and what it covers is saved. -/
def start (b : Bare) : Display :=
  ⟨b.windows, b.mx, b.my, place (mouseCells b.mx b.my) (printMouse b.mx b.my) b.screen⟩

/-- `winsys_clear_mouse` -/
def clearMouse (d : Display) : Int → Byte := erase (mouseCells d.mx d.my) d.covered

def scene (d : Display) (pictures : Pictures) : Scene := ⟨d.windows, pictures, d.mx, d.my⟩

/-- What happens to the screen: strokes that hide the cursor or do not, or `winsys_move_mouse_operation`. -/
def apply (d : Display) : DisplayEvent → Option Display
  | .operation op pictures => do
    let strokes ← (d.scene pictures).doOperation op
    let windows ← d.windows.doOperation op
    some { d with
      windows
      covered := strokes.foldl (stroke (mouseCells d.mx d.my) (printMouse d.mx d.my)) d.covered }
  | .moveMouse x y => some (start ⟨d.windows, x, y, d.clearMouse⟩)

/-- While the cursor is there nothing is painted over the bytes that were saved. -/
def Avoids (d : Display) : DisplayEvent → Prop
  | .operation op pictures => ∀ strokes, (d.scene pictures).doOperation op = some strokes →
      ∀ s ∈ strokes, s.Avoids (mouseCells d.mx d.my)
  | .moveMouse _ _ => True

def Called (d : Display) (e : DisplayEvent) (d' : Display) : Prop := d.apply e = some d'

def Step (d : Display) (e : DisplayEvent) (d' : Display) : Prop := d.Avoids e ∧ d.Called e d'

end Display

namespace Bare

def apply (b : Bare) : DisplayEvent → Option Bare
  | .operation op pictures => do
    let strokes ← Scene.doOperation ⟨b.windows, pictures, b.mx, b.my⟩ op
    let windows ← b.windows.doOperation op
    some { b with windows, screen := putAll b.screen strokes }
  | .moveMouse x y => some { b with mx := x, my := y }

def Step (b : Bare) (e : DisplayEvent) (b' : Bare) : Prop := b.apply e = some b'

end Bare

/-- Both have the same windows, and the cursor leaves no trace. -/
structure Traceless (d : Display) (b : Bare) : Prop where
  windows : d.windows = b.windows
  mx : d.mx = b.mx
  my : d.my = b.my
  screen : d.clearMouse = b.screen
  saved : d.covered.saved.length = (mouseCells d.mx d.my).length

namespace Display

variable {d d' : Display} {b b' : Bare} {mx my : Int} {w : Write}

theorem mem_paintPixel {vram : Int} {color : BitVec 32} (h : w ∈ paintPixel vram color) :
    ∃ k : Nat, k < 3 ∧ w.1 = vram + k := by
  rcases List.mem_cons.mp h with rfl | h
  · exact ⟨0, by omega, by simp⟩
  rcases List.mem_cons.mp h with rfl | h
  · exact ⟨1, by omega, rfl⟩
  obtain rfl := List.mem_singleton.mp h
  exact ⟨2, by omega, rfl⟩

theorem mem_setPixel {x y : Int} {color : BitVec 32} (h : w ∈ setPixel x y color) :
    ∃ k : Nat, k < 3 ∧ w.1 = pixelAddress x y + k := by
  rw [setPixel] at h
  split at h
  · cases h
  · exact mem_paintPixel h

/-- The cursor is drawn on bytes that were saved. -/
theorem printMouse_subset (h : w ∈ printMouse mx my) : w.1 ∈ mouseCells mx my := by
  obtain ⟨i, hi, h⟩ := List.mem_flatMap.mp h
  obtain ⟨j, hj, h⟩ := List.mem_flatMap.mp h
  have hpixel : ∃ color, w ∈ setPixel (mx + j) (my + i) color := by
    split at h
    · exact ⟨_, h⟩
    · exact ⟨_, h⟩
    · cases h
  obtain ⟨color, hpixel⟩ := hpixel
  obtain ⟨k, hk, haddress⟩ := mem_setPixel hpixel
  have hlt := List.mem_range.mp hj
  refine List.mem_flatMap.mpr ⟨i, hi, List.mem_map.mpr ⟨3 * j + k, List.mem_range.mpr (by omega), ?_⟩⟩
  rw [haddress, pixelAddress_add]
  omega

theorem traceless_start (b : Bare) : Traceless (start b) b where
  windows := rfl
  mx := rfl
  my := rfl
  screen := erase_place (fun _ hw => printMouse_subset hw) b.screen
  saved := length_place _ _ _

/-- What one step does with the cursor drawn, it does without one. -/
theorem traceless_step (h : Traceless d b) {e : DisplayEvent} (hstep : d.Step e d') :
    ∃ b', b.Step e b' ∧ Traceless d' b' := by
  obtain ⟨havoids, happly⟩ := hstep
  obtain ⟨hwindows, hmx, hmy, hscreen, hsaved⟩ := h
  cases e with
  | operation op pictures =>
    obtain ⟨strokes, hstrokes, hrest⟩ := Option.bind_eq_some_iff.mp happly
    obtain ⟨windows, hdone, hend⟩ := Option.bind_eq_some_iff.mp hrest
    obtain rfl := Option.some.inj hend
    refine ⟨{ b with windows, screen := putAll b.screen strokes }, ?_, rfl, hmx, hmy, ?_,
      length_strokes hsaved strokes⟩
    · rw [Bare.Step, Bare.apply, ← hwindows, ← hmx, ← hmy]
      have hscene : Scene.doOperation ⟨d.windows, pictures, d.mx, d.my⟩ op = some strokes := hstrokes
      rw [hscene, hdone]
      rfl
    · rw [← hscreen]
      exact erase_strokes (fun _ hw => printMouse_subset hw) hsaved (havoids strokes hstrokes)
  | moveMouse x y =>
    obtain rfl := Option.some.inj happly
    refine ⟨{ b with mx := x, my := y }, rfl, ?_⟩
    have hstart := traceless_start ⟨d.windows, x, y, d.clearMouse⟩
    exact ⟨hwindows, rfl, rfl, hstart.screen.trans hscreen, hstart.saved⟩

/-- A row that is not of a negative length lies within it. -/
theorem mem_paintRow {m : Pictures} {vram count : Int} {buff : BitVec 32} (hcount : 0 ≤ count)
    (h : w ∈ m.paintRow vram buff count) : vram ≤ w.1 ∧ w.1 < vram + count := by
  have hdiv : count.tdiv 4 = count / 4 := Int.tdiv_eq_ediv_of_nonneg hcount
  have hmod : count.tmod 4 = count % 4 := Int.tmod_eq_emod_of_nonneg hcount
  rw [Pictures.paintRow, hdiv, hmod] at h
  obtain h | h := List.mem_append.mp h
  · obtain ⟨k, hk, rfl⟩ := List.mem_map.mp h
    have hlt := List.mem_range.mp hk
    dsimp only
    omega
  · obtain ⟨k, hk, rfl⟩ := List.mem_map.mp h
    have hlt := List.mem_range.mp hk
    dsimp only
    omega

/-- Two bytes of the screen are the same only in the same row, if both are counted from the left edge. -/
theorem row_eq_of_address {x y r u v q : Int} (hx : 0 ≤ x * 3 + r) (hr : x * 3 + r < pixelWidth * 3)
    (hu : 0 ≤ u * 3 + q) (hq : u * 3 + q < pixelWidth * 3) (h : pixelAddress x y + r = pixelAddress u v + q) :
    y = v ∧ x * 3 + r = u * 3 + q := by
  simp only [pixelAddress, pixelWidth] at *
  omega

theorem sectionSpan_bounds (place size start length screen : Int) :
    let span := sectionSpan place size start length screen
    0 ≤ place + span.first ∧ span.limit ≤ span.first + span.size ∧ place + span.limit ≤ screen := by
  simp only [sectionSpan]
  omega

/-- A section that begins on the screen and does not hide a cursor that is all on the screen lies beside it. -/
theorem paintWindowSection_avoids {m : Pictures} {win : Window} {x y width height : Int} (hleft : 0 ≤ mx)
    (hright : mx + 10 ≤ pixelWidth)
    (hspan : (sectionSpan win.x win.width x width pixelWidth).first ≤
      (sectionSpan win.x win.width x width pixelWidth).limit) :
    ∀ s ∈ m.paintWindowSection mx my win x y width height, s.Avoids (mouseCells mx my) := by
  intro s hs hshown w hw hmem
  rw [Pictures.paintWindowSection] at hs
  split at hs
  · cases hs
  obtain rfl := List.mem_singleton.mp hs
  obtain ⟨i, hi, hrow⟩ := List.mem_flatMap.mp hw
  obtain ⟨hfirst, hlast⟩ := mem_paintRow (by omega) hrow
  obtain ⟨i', hi', hcell⟩ := List.mem_flatMap.mp hmem
  obtain ⟨k, hk, haddress⟩ := List.mem_map.mp hcell
  replace hi := List.mem_range.mp hi
  replace hi' := List.mem_range.mp hi'
  replace hk := List.mem_range.mp hk
  obtain ⟨hx, hxlimit, hxscreen⟩ := sectionSpan_bounds win.x win.width x width pixelWidth
  obtain ⟨-, hylimit, -⟩ := sectionSpan_bounds win.y win.height y height pixelHeight
  generalize sectionSpan win.x win.width x width pixelWidth = xs at *
  generalize sectionSpan win.y win.height y height pixelHeight = ys at *
  have hrows := pixelAddress_add (win.x + xs.first) (win.y + ys.first) i 0
  have hcells := pixelAddress_add mx my i' 0
  rw [Int.add_zero] at hrows hcells
  obtain ⟨hsame, hplace⟩ := row_eq_of_address (x := win.x + xs.first) (y := win.y + ys.first + i) (u := mx)
    (v := my + i') (r := w.1 - pixelAddress (win.x + xs.first) (win.y + ys.first + i)) (q := k)
    (by omega) (by omega) (by omega) (by omega) (by omega)
  have hcollides : hidesMouse win xs ys mx my = true := by
    rw [hidesMouse, checkCollideRectRect, decide_eq_true_eq]
    omega
  exact Bool.false_ne_true (hshown.symm.trans hcollides)

/-- A window of four pixels with a frame. -/
def smallWindow (id : BitVec 32) : Window :=
  Windows.kernelWindow 0x4000#32 0x5000#32 10 40 4 1 false 2#32 id

/-- Two windows in the same place, the upper one the working one, and the cursor over their title bars. -/
def twoSmall : Bare where
  windows := {
    nodes := Linked.store (Linked.store (fun _ => none) 0x1000#32 ⟨smallWindow 1#32, 0x2000#32⟩)
      0x2000#32 ⟨smallWindow 2#32, 0#32⟩
    winList := 0x1000#32
    workingWindow := 0x2000#32 }
  mx := 10
  my := 12
  screen _ := 0#8

/-- Empty buffers, names and characters. -/
def blank : Pictures := ⟨fun _ => 0#8, fun _ => 0#8⟩

/-- The upper window goes elsewhere. -/
def moveAway : DisplayEvent := .operation (.move 2#32 100 200) blank

/-- The lower window comes up beside the cursor. -/
def comeUp : DisplayEvent := .operation (.setWorking 1#32) blank

/-- The cursor beside the two windows. -/
def beside : Display := start ⟨twoSmall.windows, 500, 300, (start twoSmall).clearMouse⟩

end Display

end Akos.Winsys
