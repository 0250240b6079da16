import Akos.Lib.Overlay
import Akos.Utils.Strings
import Akos.Winsys.Dragging

/-!
# What the window system paints

`graphics.c` writes three bytes for a pixel, and `window_sys.c` paints windows row by row and frames out of rectangles
and characters. An address is counted from `VIDEO_ADDRESS` on. Some pieces are painted between a call that takes the
cursor away and one that draws it again, and some are not.
-/

namespace Akos.Winsys

open Overlay (Stroke)

/-! ### Pixels -/

/-- A byte that is written to the screen. -/
abbrev Write := Int × Byte

/-- Where a pixel lies. -/
def pixelAddress (x y : Int) : Int := (y * pixelWidth + x) * 3

theorem pixelAddress_add (x y i j : Int) :
    pixelAddress (x + j) (y + i) = pixelAddress x y + i * (pixelWidth * 3) + j * 3 := by
  simp only [pixelAddress, pixelWidth]
  omega

/-- `*(uint32_t *)vram &= 0xFF000000; *(uint32_t *)vram |= color & 0xffffff;`: the fourth byte stays. -/
def paintPixel (vram : Int) (color : BitVec 32) : List Write :=
  [(vram, color.extractLsb' 0 8), (vram + 1, color.extractLsb' 8 8), (vram + 2, color.extractLsb' 16 8)]

def setPixel (x y : Int) (color : BitVec 32) : List Write :=
  if x ≥ pixelWidth ∨ y ≥ pixelHeight ∨ x < 0 ∨ y < 0 then [] else paintPixel (pixelAddress x y) color

/-- The part of a side of a rectangle that is on the screen: where it begins, and how long it is. -/
def clip (start size limit : Int) : Int × Int :=
  let (start, size) := if start < 0 then (0, size + start) else (start, size)
  if start + size ≥ limit then (start, limit - start) else (start, size)

/-- The loops of `fill_rect` and `fill_gradient`. The color of a column depends on the width that is left. -/
def fillColumns (x y width height : Int) (color : Int → Int → BitVec 32) : List Write :=
  if x ≥ pixelWidth ∨ y ≥ pixelHeight then []
  else
    let (x, width) := clip x width pixelWidth
    let (y, height) := clip y height pixelHeight
    (List.range height.toNat).flatMap fun (i : Nat) => (List.range width.toNat).flatMap fun (j : Nat) =>
      paintPixel (pixelAddress x y + i * (pixelWidth * 3) + j * 3) (color j width)

def fillRect (x y width height : Int) (color : BitVec 32) : List Write :=
  fillColumns x y width height fun _ _ => color

/-- One component of the color of column `j`. -/
def gradientPart (start stop : Nat) (j width : Int) : BitVec 32 :=
  BitVec.ofInt 32 (start + ((stop - start : Int) * j).tdiv width)

def gradientColor (startColor endColor : BitVec 32) (j width : Int) : BitVec 32 :=
  let r := gradientPart (startColor &&& 0xff#32).toNat (endColor &&& 0xff#32).toNat j width
  let g := gradientPart (startColor >>> 8 &&& 0xff#32).toNat (endColor >>> 8 &&& 0xff#32).toNat j width
  let b := gradientPart (startColor >>> 16 &&& 0xff#32).toNat (endColor >>> 16 &&& 0xff#32).toNat j width
  r ||| (g <<< 8 ||| b <<< 16)

def fillGradient (x y width height : Int) (startColor endColor : BitVec 32) : List Write :=
  fillColumns x y width height (gradientColor startColor endColor)

/-- The pixels of a character: a bit of the font that is off has the second color, or is left alone. -/
def displayChar (font : Int → Byte) (c : Byte) (x y : Int) (fgcolor : BitVec 32) (bgcolor : Option (BitVec 32)) :
    List Write :=
  if x + charWidth > pixelWidth ∨ y + charHeight > pixelHeight ∨ x < 0 ∨ y < 0 then []
  else
    (List.range 16).flatMap fun (row : Nat) => (List.range 8).flatMap fun (j : Nat) =>
      if (font (c.toInt * 16 + row)).getLsbD j then setPixel (x + j) (y + row) fgcolor
      else bgcolor.elim [] fun bgcolor => setPixel (x + j) (y + row) bgcolor

/-- `display_psf1_8x16_char` -/
def displayPsf1Char (font : Int → Byte) (c : Byte) (x y : Int) (fgcolor : BitVec 32) : List Write :=
  displayChar font c x y fgcolor none

/-- `display_psf1_8x16_char_bg` -/
def displayPsf1CharBg (font : Int → Byte) (c : Byte) (x y : Int) (bgcolor fgcolor : BitVec 32) : List Write :=
  displayChar font c x y fgcolor (some bgcolor)

/-! ### Windows -/

/-- `WIN_FRAME_COLOR` -/
abbrev winFrameColor : BitVec 32 := 0xdfdfdf#32

/-- `TITLE_NAME_COLOR` -/
abbrev titleNameColor : BitVec 32 := 0xFFFFFF#32

/-- `WORKING_TITLE_COLOR_LEFT` -/
abbrev workingTitleColorLeft : BitVec 32 := 0x7b#32

/-- `WORKING_TITLE_COLOR_RIGHT` -/
abbrev workingTitleColorRight : BitVec 32 := 0x1b88d4#32

/-- `BG_COLOR` -/
abbrev bgColor : BitVec 32 := 0x247171#32

/-- What painting reads: memory with the buffers and the names of the windows, and the font. -/
structure Pictures where
  memory : BitVec 32 → Byte
  font : Int → Byte

namespace Pictures

/-- The loop over a name, whose place is an unsigned number. It takes no more turns than there are places. -/
def paintName (m : Pictures) (nameY : Int) (limit : BitVec 32) : Nat → BitVec 32 → BitVec 32 → List Write
  | 0, _, _ => []
  | turns + 1, tmp, nameX =>
    if m.memory tmp ≠ 0#8 ∧ nameX + 16#32 < limit then
      displayPsf1Char m.font (m.memory tmp) nameX.toInt nameY titleNameColor ++
        m.paintName nameY limit turns (tmp + 1#32) (nameX + 8#32)
    else []

/-- `winsys_paint_window_frame` -/
def paintWindowFrame (m : Pictures) (working : Bool) (w : Window) : List Write :=
  let nameY := w.y - (titleBarHeight + charHeight).tdiv 2
  (if working then
    fillGradient w.x (w.y - titleBarHeight + winFrameSize) w.width (titleBarHeight - winFrameSize)
      workingTitleColorLeft workingTitleColorRight
  else
    fillGradient w.x (w.y - titleBarHeight + winFrameSize) w.width (titleBarHeight - winFrameSize) 0#32
      winFrameColor) ++
  fillRect w.x (w.y - winFrameSize) w.width winFrameSize winFrameColor ++
  fillRect w.x (w.y - titleBarHeight) w.width winFrameSize winFrameColor ++
  fillRect (w.x - winFrameSize) (w.y - titleBarHeight) winFrameSize (w.height + titleBarHeight) winFrameColor ++
  fillRect (w.x + w.width) (w.y - titleBarHeight) winFrameSize (w.height + titleBarHeight) winFrameColor ++
  fillRect (w.x - winFrameSize) (w.y + w.height) (w.width + winFrameSize * 2) winFrameSize winFrameColor ++
  m.paintName nameY (BitVec.ofInt 32 (w.x + w.width)) (2 ^ 32) w.wName (BitVec.ofInt 32 w.x) ++
  if w.closable then
    displayPsf1CharBg m.font 0x78#8 (w.x + w.width - charWidth) nameY winFrameColor 0#32
  else []

/-- One row of a section: words first, and the bytes that are left. A negative count leaves 253 bytes or more. -/
def paintRow (m : Pictures) (vram : Int) (buff : BitVec 32) (count : Int) : List Write :=
  let discrepancy := count.tmod 4 % 256
  let copy := fun (first k : Int) => (vram + first + k, m.memory (buff + BitVec.ofInt 32 (first + k)))
  ((List.range (4 * (count.tdiv 4).toNat)).map fun (k : Nat) => copy 0 k) ++
    (List.range discrepancy.toNat).map fun (k : Nat) => copy (count - discrepancy) k

end Pictures

/-- Where `winsys_paint_window_section` begins and ends on one axis, from the section's place and size. -/
structure Span where
  first : Int
  size : Int
  limit : Int

/-- `max_x`, `min_width` and `lim_x`, or those of the other axis. -/
def sectionSpan (place size start length screen : Int) : Span :=
  let first := max start (-place)
  let size := min (size - first) length
  ⟨first, size, min (first + size) (screen - place)⟩

/-- The test for the cursor at `(mx, my)`. -/
def hidesMouse (w : Window) (xs ys : Span) (mx my : Int) : Bool :=
  checkCollideRectRect (w.x + xs.first) (w.y + ys.first) xs.size ys.size mx my 10 18

/-- `winsys_paint_window_section`, with the cursor at `(mx, my)`. -/
def Pictures.paintWindowSection (m : Pictures) (mx my : Int) (w : Window) (x y width height : Int) :
    List (Stroke Int Byte) :=
  if x + width > w.width ∨ y + height > w.height ∨ x ≥ w.width ∨ y ≥ w.height then []
  else
    let xs := sectionSpan w.x w.width x width pixelWidth
    let ys := sectionSpan w.y w.height y height pixelHeight
    let buff := w.buffer + BitVec.ofInt 32 ((ys.first * w.width + xs.first) * 3)
    let vram := pixelAddress (w.x + xs.first) (w.y + ys.first)
    [⟨hidesMouse w xs ys mx my, (List.range (ys.limit - ys.first).toNat).flatMap fun (i : Nat) =>
      m.paintRow (vram + i * (pixelWidth * 3)) (buff + BitVec.ofInt 32 (i * (w.width * 3)))
        ((xs.limit - xs.first) * 3)⟩]

/-! ### Operations -/

/-- Windows and what they show, with the cursor at `(mx, my)`. -/
structure Scene where
  windows : Windows
  pictures : Pictures
  mx : Int
  my : Int

/-- What is painted. Nothing is the result where a null pointer is followed. -/
abbrev Strokes := List (Stroke Int Byte)

namespace Scene

def paintSection (c : Scene) (w : Window) (x y width height : Int) : Strokes :=
  c.pictures.paintWindowSection c.mx c.my w x y width height

def paintFrame (c : Scene) (win : BitVec 32) (w : Window) : List Write :=
  if w.hasFrame then c.pictures.paintWindowFrame (c.windows.workingWindow = win) w else []

/-- `winsys_paint_window` -/
def paintWindow (c : Scene) (win : BitVec 32) : Option Strokes :=
  if win = 0#32 then some []
  else do
    let node ← Linked.load c.windows.nodes win
    let w := node.value
    some (c.paintSection w 0 0 w.width w.height ++ [⟨true, c.paintFrame win w⟩])

/-- `winsys_clear_whole_window` -/
def clearWholeWindow (w : Window) : Strokes :=
  [⟨true, fillRect (w.x - winFrameSize) (w.y - titleBarHeight) (w.width + winFrameSize * 2)
    (w.height + titleBarHeight + winFrameSize) bgColor⟩]

/-- The part of `tmp` that lies under `w` with its frame, as the code has the frame. -/
def paintOverlap (c : Scene) (w tmp : Window) : Strokes :=
  let overlapX := max (w.x - winFrameSize) tmp.x
  let overlapY := max (w.y - titleBarHeight) tmp.y
  let overlapW := min (w.x + w.width + winFrameSize * 2) (tmp.x + tmp.width) - overlapX
  let overlapH := min (w.y + w.height + titleBarHeight + winFrameSize) (tmp.y + tmp.height) - overlapY
  if overlapW > 0 ∧ overlapH > 0 then c.paintSection tmp (overlapX - tmp.x) (overlapY - tmp.y) overlapW overlapH
  else []

/-- `winsys_check_collide` -/
def checkCollide (w tmp : Window) : Bool :=
  checkCollideRectRect w.x w.y w.width w.height tmp.x tmp.y tmp.width tmp.height

/-- A window above the one that is displayed. Its frame is painted as it is. -/
def displayAbove (c : Scene) (w : Window) (tmp : BitVec 32 × Window) : Strokes :=
  let t := tmp.2
  (if checkCollide w t then c.paintOverlap w t else []) ++
  if checkCollideRectRect (w.x - winFrameSize) (w.y - titleBarHeight) (w.width + winFrameSize * 2)
      (w.height + titleBarHeight + winFrameSize) (t.x - winFrameSize) (t.y - titleBarHeight)
      (t.width + winFrameSize * 2) titleBarHeight ∧ t.hasFrame ∧ w.hasFrame then
    [⟨false, c.paintFrame tmp.1 t⟩]
  else []

/-- `winsys_display_window_operation` -/
def displayWindowOperation (c : Scene) (win : BitVec 32) : Option Strokes :=
  if win = 0#32 then some []
  else do
    let node ← Linked.load c.windows.nodes win
    let painted ← c.paintWindow win
    Linked.foldFrom c.windows.nodes (fun strokes tmp => strokes ++ c.displayAbove node.value tmp) Linked.maxSteps
      painted node.next

/-- A window above the one of which a section is displayed. -/
def displaySectionAbove (c : Scene) (w : Window) (x y width height : Int) (tmp : BitVec 32 × Window) : Strokes :=
  let t := tmp.2
  let overlapX := max w.x t.x
  let overlapY := max w.y t.y
  let overlapW := min (w.x + w.width) (t.x + t.width) - overlapX
  let overlapH := min (w.y + w.height) (t.y + t.height) - overlapY
  let sectX := w.x + max x 0
  let sectY := w.y + max y 0
  let sectW := min w.width width
  let sectH := min w.height height
  let overlapSectX := max overlapX sectX
  let overlapSectY := max overlapY sectY
  let overlapSectW := min (overlapX + overlapW) (sectX + sectW) - overlapSectX
  let overlapSectH := min (overlapY + overlapH) (sectY + sectH) - overlapSectY
  (if checkCollide w t ∧ overlapW > 0 ∧ overlapH > 0 ∧ overlapSectW > 0 ∧ overlapSectH > 0 then
    c.paintSection t (overlapSectX - t.x) (overlapSectY - t.y) overlapSectW overlapSectH
  else []) ++
  if checkCollideRectRect w.x w.y w.width w.height (t.x - winFrameSize) (t.y - titleBarHeight)
      (t.width + winFrameSize * 2) titleBarHeight ∧ t.hasFrame then
    [⟨true, c.paintFrame tmp.1 t⟩]
  else []

/-- `winsys_display_window_section_operation` -/
def displayWindowSectionOperation (c : Scene) (win : BitVec 32) (x y width height : Int) : Option Strokes :=
  if win = 0#32 then some []
  else do
    let node ← Linked.load c.windows.nodes win
    Linked.foldFrom c.windows.nodes
      (fun strokes tmp => strokes ++ c.displaySectionAbove node.value x y width height tmp) Linked.maxSteps
      (c.paintSection node.value x y width height) node.next

/-- One turn of the loop of `winsys_display_collided_windows`, with the window behind. The frame is painted as it
is. -/
def displayCollided (c : Scene) (win : BitVec 32) (w : Window) (acc : Option (BitVec 32 × Window) × Strokes)
    (tmp : BitVec 32 × Window) : Option (BitVec 32 × Window) × Strokes :=
  let t := tmp.2
  let collided :=
    if tmp.1 ≠ win ∧ checkCollideWhole w t then
      c.paintOverlap w t ++ if t.hasFrame then [⟨false, c.paintFrame tmp.1 t⟩] else []
    else []
  let behind := acc.1.elim [] fun prev =>
    if tmp.1 ≠ win ∧ prev.1 ≠ win ∧ prev.2.hasFrame ∧ checkCollideWhole w prev.2 then c.paintOverlap prev.2 t
    else []
  (some tmp, acc.2 ++ collided ++ behind)

/-- `winsys_display_collided_windows` -/
def displayCollidedWindows (c : Scene) (win : BitVec 32) (w : Window) : Option Strokes :=
  (Linked.foldFrom c.windows.nodes (c.displayCollided win w) Linked.maxSteps (none, []) c.windows.winList).map Prod.snd

/-- The two windows that `winsys_set_working_window_operation` paints in the end. -/
def paintWorking (c : Scene) (oldWorking : BitVec 32) : Option Strokes := do
  let old ←
    if oldWorking = 0#32 then some []
    else do
      let node ← Linked.load c.windows.nodes oldWorking
      let still ← c.windows.winsysGetWindowById node.value.id
      if still = 0#32 then some [] else c.paintWindow oldWorking
  let new ← c.paintWindow c.windows.workingWindow
  some (old ++ new)

/-- `winsys_set_working_window_operation` -/
def setWorkingWindowOperation (c : Scene) (wid : BitVec 32) : Option Strokes := do
  let tmp ← c.windows.winsysGetWindowById wid
  if tmp = 0#32 ∨ tmp = c.windows.workingWindow then some []
  else
    let head ← Linked.load c.windows.nodes c.windows.winList
    if head.next = 0#32 then some []
    else
      let moved ← { c.windows with workingWindow := tmp }.moveToEnd wid tmp
      { c with windows := moved }.paintWorking c.windows.workingWindow

/-- `winsys_move_window_operation` -/
def moveWindowOperation (c : Scene) (win : BitVec 32) (x y : Int) : Option Strokes :=
  if win = 0#32 then some []
  else do
    let node ← Linked.load c.windows.nodes win
    let collided ← c.displayCollidedWindows win node.value
    let nodes := Linked.store c.windows.nodes win ⟨{ node.value with x, y }, node.next⟩
    let moved := { c with windows := { c.windows with nodes } }
    let painted ←
      if c.windows.workingWindow ≠ win then moved.setWorkingWindowOperation node.value.id else moved.paintWindow win
    some (clearWholeWindow node.value ++ collided ++ painted)

/-- What is painted when the last window takes over from the one that was removed. -/
def replaceWorking (c : Scene) (w : Window) : Option Strokes := do
  let working ← Linked.load c.windows.nodes c.windows.workingWindow
  if working.value.id ≠ w.id then some []
  else if c.windows.winList = 0#32 ∧ w.isUser = false then some []
  else
    let last ← Linked.lastFrom c.windows.nodes Linked.maxSteps c.windows.winList
    let node ← Linked.load c.windows.nodes last
    { c with windows := { c.windows with workingWindow := 0#32 } }.setWorkingWindowOperation node.value.id

/-- `winsys_remove_window_operation` and `winsys_remove_window_user` -/
def removeWindowOperation (c : Scene) (win : BitVec 32) : Option Strokes :=
  if win = 0#32 then some []
  else do
    let node ← Linked.load c.windows.nodes win
    let unlinked ← c.windows.unlinkWindow node.value.id node.next
    let replaced ← { c with windows := unlinked.2 }.replaceWorking node.value
    let windows ← unlinked.2.replaceWorking node.value
    let collided ← { c with windows }.displayCollidedWindows win node.value
    some (clearWholeWindow node.value ++ replaced ++ collided)

end Scene

/-- An operation of the listener. -/
inductive Operation
  | display (wid : BitVec 32)
  | displaySection (wid : BitVec 32) (x y width height : Int)
  | move (wid : BitVec 32) (x y : Int)
  | setWorking (wid : BitVec 32)
  | remove (wid : BitVec 32)

/-- What `winsys_do_operation` paints. -/
def Scene.doOperation (c : Scene) : Operation → Option Strokes
  | .display wid => (c.windows.winsysGetWindowById wid).bind c.displayWindowOperation
  | .displaySection wid x y width height =>
    (c.windows.winsysGetWindowById wid).bind fun win => c.displayWindowSectionOperation win x y width height
  | .move wid x y => (c.windows.winsysGetWindowById wid).bind fun win => c.moveWindowOperation win x y
  | .setWorking wid => c.setWorkingWindowOperation wid
  | .remove wid => (c.windows.winsysGetWindowById wid).bind c.removeWindowOperation

/-- What it does to the windows. -/
def Windows.doOperation (s : Windows) : Operation → Option Windows
  | .display _ => some s
  | .displaySection _ _ _ _ _ => some s
  | .move wid x y => s.apply (.move wid x y)
  | .setWorking wid => s.apply (.setWorking wid)
  | .remove wid => s.apply (.remove wid)

end Akos.Winsys
