import Mathlib.Data.BitVec

/-!
# The cursor of a terminal

`window_sys.c`: characters are printed at a cursor that counts columns and rows of a window, and where an input began
is saved. The window scrolls before a character is printed on its last row, and the saved row scrolls with it.
-/

namespace Akos.Winsys

/-- `CHAR_WIDTH` -/
abbrev charWidth : Int := 8

/-- `CHAR_HEIGHT` -/
abbrev charHeight : Int := 16

/-- `SCROLL_ROWS` -/
abbrev scrollRows : Nat := 5

def gfxGetWinX (col : Int) : Int := col * charWidth

def gfxGetWinY (row : Int) : Int := row * charHeight

def gfxGetLogicalRow (y : Int) : Int := y.tdiv charHeight

def gfxGetLogicalCol (x : Int) : Int := x.tdiv charWidth

/-- The size of a window. -/
structure TextWindow where
  width : BitVec 32
  height : BitVec 32

namespace TextWindow

def columns (win : TextWindow) : Int := gfxGetLogicalCol win.width.toInt

def rows (win : TextWindow) : Int := gfxGetLogicalRow win.height.toInt

end TextWindow

/-- `INPINFO` -/
structure InpInfo where
  cursorInputRow : BitVec 32
  cursorInputCol : BitVec 32
  cursorOffsetX : BitVec 32
  cursorOffsetY : BitVec 32
  isTakingInput : Bool
  inputBufferIndex : BitVec 32
  inputBufferLimit : BitVec 32
  inputBuffer : BitVec 32
  didScroll : Bool

/-- What `kcalloc` gives. -/
def InpInfo.zeroed : InpInfo := ⟨0#32, 0#32, 0#32, 0#32, false, 0#32, 0#32, 0#32, false⟩

def InpInfo.setCursor (info : InpInfo) (offset : Int × Int) : InpInfo :=
  { info with cursorOffsetX := BitVec.ofInt 32 offset.1, cursorOffsetY := BitVec.ofInt 32 offset.2 }

/-- The upper left corner of a character that is drawn or cleared. -/
abbrev Corner := Int × Int

def cornerOf (offset : Int × Int) : Corner := (gfxGetWinX offset.1, gfxGetWinY offset.2)

variable (win : TextWindow)

/-! ### Printing -/

/-- `gfx_handle_scrolling`, after the wait for a key. -/
def gfxHandleScrolling (info : InpInfo) (offsetY : Int) : Int × InpInfo :=
  if offsetY < win.rows - 1 then (offsetY, info)
  else
    (offsetY - scrollRows,
      { info with cursorInputRow := info.cursorInputRow - BitVec.ofNat 32 scrollRows, didScroll := true })

/-- Where a backspace puts the cursor. -/
def backspace (offset : Int × Int) : Int × Int :=
  let back := if offset.1 - 1 < 0 then (win.columns - 1, offset.2 - 1) else (offset.1 - 1, offset.2)
  if back.2 < 0 then (0, 0) else back

/-- Where another character puts it. -/
def advance (character : BitVec 8) (offset : Int × Int) : Int × Int :=
  let next := if character = 0x0A#8 then (0, offset.2 + 1) else (offset.1 + 1, offset.2)
  if win.columns ≤ next.1 then (0, next.2 + 1) else next

/-- `gfx_print_char` once it has scrolled, but for a tab. -/
def printAt (info : InpInfo) (character : BitVec 8) (offset : Int × Int) : InpInfo × List Corner :=
  if character = 0x08#8 then (info.setCursor (backspace win offset), [cornerOf (backspace win offset)])
  else (info.setCursor (advance win character offset), if character = 0x0A#8 then [] else [cornerOf offset])

/-- Where `gfx_print_char` begins. -/
def printOffset (info : InpInfo) (row col : Int) : Int × Int :=
  if 0 ≤ col ∧ 0 ≤ row then (gfxGetWinX col, gfxGetWinY row)
  else (info.cursorOffsetX.toInt, info.cursorOffsetY.toInt)

/-- The escape character and the carriage return are not printed. -/
def Skipped (character : BitVec 8) : Prop := character = 27#8 ∨ character = 0x0D#8

instance (character : BitVec 8) : Decidable (Skipped character) := inferInstanceAs (Decidable (_ ∨ _))

/-- `gfx_print_char` of a character that is not a tab, with what it draws. -/
def printPlain (info : InpInfo) (character : BitVec 8) (row col : Int) : InpInfo × List Corner :=
  if Skipped character then (info, [])
  else
    let offset := printOffset info row col
    let scrolled := gfxHandleScrolling win info offset.2
    printAt win scrolled.2 character (offset.1, scrolled.1)

/-- `gfx_putchar(win, inp_info, ' ')` a few times. -/
def putBlanks : Nat → InpInfo → InpInfo × List Corner
  | 0, info => (info, [])
  | n + 1, info =>
    let first := printPlain win info 0x20#8 (-1) (-1)
    let rest := putBlanks n first.1
    (rest.1, first.2 ++ rest.2)

/-- `gfx_print_char`. For a tab it scrolls, and then prints blanks at the cursor as it was. -/
def gfxPrintChar (info : InpInfo) (character : BitVec 8) (row col : Int) : InpInfo × List Corner :=
  if character = 0x09#8 then putBlanks win 4 (gfxHandleScrolling win info (printOffset info row col).2).2
  else printPlain win info character row col

/-! ### Input -/

def gfxKeyboardInput (info : InpInfo) (col row : Int) (buffer bfSize : BitVec 32) : InpInfo :=
  let row := if row < 0 then info.cursorOffsetY.toInt else row
  let col := if col < 0 then info.cursorOffsetX.toInt else col
  { info with
    cursorInputRow := BitVec.ofInt 32 row
    cursorInputCol := BitVec.ofInt 32 col
    inputBufferIndex := 0#32
    inputBufferLimit := bfSize
    inputBuffer := buffer
    isTakingInput := true }

/-- `gfx_keyboard_input_character`: the result, the byte that is stored and what is left. -/
def gfxKeyboardInputCharacter (info : InpInfo) (character : BitVec 8) :
    Int × Option (BitVec 32 × BitVec 8) × InpInfo :=
  let info := { info with cursorOffsetX := info.cursorInputCol, cursorOffsetY := info.cursorInputRow }
  if character = 0x08#8 then
    if info.inputBufferIndex = 0#32 then (-1, none, info)
    else (0, none, { info with inputBufferIndex := info.inputBufferIndex - 1#32 })
  else if character = 0x0A#8 then
    (1, some (info.inputBuffer + info.inputBufferIndex, 0#8), { info with isTakingInput := false })
  else if info.inputBufferIndex = info.inputBufferLimit - 1#32 then (-1, none, info)
  else
    (0, some (info.inputBuffer + info.inputBufferIndex, character),
      { info with inputBufferIndex := info.inputBufferIndex + 1#32 })

/-! ### Runs -/

/-- The calls on one terminal. -/
inductive TerminalOp
  | printChar (character : BitVec 8)
  | keyboardInput (buffer bfSize : BitVec 32)
  | keyboardInputCharacter (character : BitVec 8)

def applyTerminal (info : InpInfo) : TerminalOp → InpInfo × List Corner
  | .printChar character => gfxPrintChar win info character (-1) (-1)
  | .keyboardInput buffer bfSize => (gfxKeyboardInput info (-1) (-1) buffer bfSize, [])
  | .keyboardInputCharacter character => ((gfxKeyboardInputCharacter info character).2.2, [])

/-- The cursor is in a column and a row of the window. -/
def CursorOnGrid (info : InpInfo) : Prop :=
  (info.cursorOffsetX.toNat : Int) < win.columns ∧ (info.cursorOffsetY.toNat : Int) < win.rows

/-- So is the place where the input began. -/
def InputOnGrid (info : InpInfo) : Prop :=
  (info.cursorInputCol.toNat : Int) < win.columns ∧ (info.cursorInputRow.toNat : Int) < win.rows

/-- A character there is inside the window. -/
def Inside (corner : Corner) : Prop :=
  0 ≤ corner.1 ∧ corner.1 + charWidth ≤ win.width.toInt ∧ 0 ≤ corner.2 ∧ corner.2 + charHeight ≤ win.height.toInt

/-- In every state both places are on the grid, and every character is drawn inside the window. -/
def StaysOnGrid (info : InpInfo) : List TerminalOp → Prop
  | [] => CursorOnGrid win info ∧ InputOnGrid win info
  | op :: ops => (CursorOnGrid win info ∧ InputOnGrid win info) ∧
      (∀ corner ∈ (applyTerminal win info op).2, Inside win corner) ∧
      StaysOnGrid (applyTerminal win info op).1 ops

/-- Whether a character that is printed at the cursor makes the window scroll. -/
def scrolls (info : InpInfo) : Nat := if info.cursorOffsetY.toInt < win.rows - 1 then 0 else 1

/-- How often the blanks of a tab do. -/
def blankScrolls : Nat → InpInfo → Nat
  | 0, _ => 0
  | n + 1, info => scrolls win info + blankScrolls n (printPlain win info 0x20#8 (-1) (-1)).1

/-- How often a call makes the window scroll. -/
def scrollsOf (info : InpInfo) : TerminalOp → Nat
  | .printChar character =>
    if Skipped character then 0
    else if character = 0x09#8 then
      scrolls win info + blankScrolls win 4 (gfxHandleScrolling win info info.cursorOffsetY.toInt).2
    else scrolls win info
  | _ => 0

/-- No scrolling takes the row where the input began above the first row. -/
def KeepsInputRow (info : InpInfo) : List TerminalOp → Prop
  | [] => True
  | op :: ops => scrollRows * scrollsOf win info op ≤ info.cursorInputRow.toNat ∧
      KeepsInputRow (applyTerminal win info op).1 ops

instance decidableKeepsInputRow (win : TextWindow) :
    (info : InpInfo) → (ops : List TerminalOp) → Decidable (KeepsInputRow win info ops)
  | _, [] => .isTrue trivial
  | info, op :: ops =>
    have := decidableKeepsInputRow win (applyTerminal win info op).1 ops
    inferInstanceAs (Decidable (_ ∧ _))

/-! ### Places on the grid -/

/-- A column and a row of the window. -/
structure InGrid (offset : Int × Int) : Prop where
  left : 0 ≤ offset.1
  right : offset.1 < win.columns
  top : 0 ≤ offset.2
  bottom : offset.2 < win.rows

variable {win} {info info' : InpInfo} {offset : Int × Int} {character : BitVec 8}

/-- A quotient that is not zero is rounded down. -/
theorem tdiv_mul_le {a k : Int} (hk : 0 < k) (h : 1 ≤ a.tdiv k) : a.tdiv k * k ≤ a := by
  have hpos : 0 ≤ a := by
    by_contra hneg
    have hnonneg : 0 ≤ (-a).tdiv k := Int.tdiv_nonneg (by omega) (Int.le_of_lt hk)
    rw [Int.neg_tdiv] at hnonneg
    omega
  rw [Int.tdiv_eq_ediv_of_nonneg hpos]
  exact Int.ediv_mul_le a (Int.ne_of_gt hk)

theorem columns_mul_le (h : 1 ≤ win.columns) : win.columns * charWidth ≤ win.width.toInt :=
  tdiv_mul_le (by decide) h

theorem rows_mul_le (h : 1 ≤ win.rows) : win.rows * charHeight ≤ win.height.toInt := tdiv_mul_le (by decide) h

theorem columns_lt (win : TextWindow) : win.columns < 2 ^ 31 := by
  have hwidth := BitVec.toInt_lt (x := win.width)
  by_contra hle
  have hmul : win.columns * charWidth ≤ win.width.toInt := columns_mul_le (by omega)
  rw [charWidth] at hmul
  omega

theorem rows_lt (win : TextWindow) : win.rows < 2 ^ 28 := by
  have hheight := BitVec.toInt_lt (x := win.height)
  by_contra hle
  have hmul : win.rows * charHeight ≤ win.height.toInt := rows_mul_le (by omega)
  rw [charHeight] at hmul
  omega

theorem toNat_ofInt {v : Int} (h : 0 ≤ v) (h' : v < 2 ^ 31) : ((BitVec.ofInt 32 v).toNat : Int) = v := by
  rw [BitVec.toNat_ofInt]
  omega

theorem toInt_eq {x : BitVec 32} (h : (x.toNat : Int) < 2 ^ 31) : x.toInt = x.toNat := by
  rw [BitVec.toInt_eq_toNat_cond]
  omega

theorem InGrid.cursorOnGrid (h : InGrid win offset) (info : InpInfo) : CursorOnGrid win (info.setCursor offset) := by
  have hcolumns := columns_lt win
  have hrows := rows_lt win
  obtain ⟨hleft, hright, htop, hbottom⟩ := h
  refine ⟨?_, ?_⟩
  · show ((BitVec.ofInt 32 offset.1).toNat : Int) < win.columns
    rwa [toNat_ofInt hleft (by omega)]
  · show ((BitVec.ofInt 32 offset.2).toNat : Int) < win.rows
    rwa [toNat_ofInt htop (by omega)]

theorem CursorOnGrid.inGrid (h : CursorOnGrid win info) :
    InGrid win (info.cursorOffsetX.toInt, info.cursorOffsetY.toInt) := by
  have hcolumns := columns_lt win
  have hrows := rows_lt win
  obtain ⟨hx, hy⟩ := h
  rw [toInt_eq (by omega : (info.cursorOffsetX.toNat : Int) < 2 ^ 31),
    toInt_eq (by omega : (info.cursorOffsetY.toNat : Int) < 2 ^ 31)]
  exact ⟨Int.natCast_nonneg _, hx, Int.natCast_nonneg _, hy⟩

theorem InGrid.inside (h : InGrid win offset) : Inside win (cornerOf offset) := by
  obtain ⟨hleft, hright, htop, hbottom⟩ := h
  have hwidth : win.columns * charWidth ≤ win.width.toInt := columns_mul_le (by omega)
  have hheight : win.rows * charHeight ≤ win.height.toInt := rows_mul_le (by omega)
  rw [charWidth] at hwidth
  rw [charHeight] at hheight
  rw [Inside, cornerOf, gfxGetWinX, gfxGetWinY, charWidth, charHeight]
  omega

/-! ### One character -/

theorem gfxHandleScrolling_fst (hrows : 6 ≤ win.rows) (h : InGrid win offset) (info : InpInfo) :
    InGrid win (offset.1, (gfxHandleScrolling win info offset.2).1) ∧
      (gfxHandleScrolling win info offset.2).1 < win.rows - 1 := by
  obtain ⟨hleft, hright, htop, hbottom⟩ := h
  rw [gfxHandleScrolling]
  split
  · next hbelow => exact ⟨⟨hleft, hright, htop, hbottom⟩, hbelow⟩
  · next hlast =>
    refine ⟨⟨hleft, hright, ?_, ?_⟩, ?_⟩
    all_goals
      dsimp only [scrollRows]
      omega

theorem InGrid.backspace (h : InGrid win offset) : InGrid win (backspace win offset) := by
  obtain ⟨hleft, hright, htop, hbottom⟩ := h
  rw [Winsys.backspace]
  split
  · split
    · exact ⟨Int.le_refl 0, by omega, Int.le_refl 0, by omega⟩
    · next hback => exact ⟨by omega, by dsimp only; omega, Int.not_lt.mp hback, by dsimp only; omega⟩
  · split
    · exact ⟨Int.le_refl 0, by omega, Int.le_refl 0, by omega⟩
    · exact ⟨by dsimp only; omega, by dsimp only; omega, htop, hbottom⟩

theorem InGrid.advance (h : InGrid win offset) (hlast : offset.2 < win.rows - 1) (character : BitVec 8) :
    InGrid win (advance win character offset) := by
  obtain ⟨hleft, hright, htop, hbottom⟩ := h
  rw [Winsys.advance]
  split
  · rw [if_neg (by dsimp only; omega)]
    exact ⟨Int.le_refl 0, by dsimp only; omega, by dsimp only; omega, by dsimp only; omega⟩
  · split
    · exact ⟨Int.le_refl 0, by dsimp only; omega, by dsimp only; omega, by dsimp only; omega⟩
    · next hnext => exact ⟨by dsimp only; omega, Int.not_le.mp hnext, htop, hbottom⟩

/-- From a cursor on the grid to one on the grid, with what is drawn inside the window. -/
theorem CursorOnGrid.printPlain (hrows : 6 ≤ win.rows) (h : CursorOnGrid win info) (character : BitVec 8) :
    CursorOnGrid win (printPlain win info character (-1) (-1)).1 ∧
      ∀ corner ∈ (printPlain win info character (-1) (-1)).2, Inside win corner := by
  rw [Winsys.printPlain]
  split
  · exact ⟨h, fun corner hcorner => absurd hcorner List.not_mem_nil⟩
  · obtain ⟨hgrid, hlast⟩ := gfxHandleScrolling_fst hrows h.inGrid info
    dsimp only [printOffset]
    rw [if_neg (by decide), printAt]
    split
    · refine ⟨hgrid.backspace.cursorOnGrid _, fun corner hcorner => ?_⟩
      rw [List.mem_singleton.mp hcorner]
      exact hgrid.backspace.inside
    · refine ⟨(hgrid.advance hlast character).cursorOnGrid _, fun corner hcorner => ?_⟩
      dsimp only at hcorner
      split at hcorner
      · cases hcorner
      · rw [List.mem_singleton.mp hcorner]
        exact hgrid.inside

theorem CursorOnGrid.putBlanks (hrows : 6 ≤ win.rows) (h : CursorOnGrid win info) (n : Nat) :
    CursorOnGrid win (putBlanks win n info).1 ∧ ∀ corner ∈ (putBlanks win n info).2, Inside win corner := by
  induction n generalizing info with
  | zero => exact ⟨h, fun corner hcorner => absurd hcorner List.not_mem_nil⟩
  | succ n ih =>
    obtain ⟨hfirst, hinside⟩ := h.printPlain hrows 0x20#8
    obtain ⟨hrest, hinside'⟩ := ih hfirst
    refine ⟨hrest, fun corner hcorner => ?_⟩
    obtain hcorner | hcorner := List.mem_append.mp hcorner
    · exact hinside corner hcorner
    · exact hinside' corner hcorner

theorem CursorOnGrid.gfxPrintChar (hrows : 6 ≤ win.rows) (h : CursorOnGrid win info) (character : BitVec 8) :
    CursorOnGrid win (gfxPrintChar win info character (-1) (-1)).1 ∧
      ∀ corner ∈ (gfxPrintChar win info character (-1) (-1)).2, Inside win corner := by
  rw [Winsys.gfxPrintChar]
  split
  · refine CursorOnGrid.putBlanks hrows ?_ 4
    -- scrolling leaves the cursor itself alone
    rw [gfxHandleScrolling]
    split
    · exact h
    · exact h
  · exact h.printPlain hrows character

/-! ### The saved row -/

/-- The saved column stays, and the saved row is less by the rows scrolled. -/
def Shifted (info info' : InpInfo) (n : Nat) : Prop :=
  info'.cursorInputCol = info.cursorInputCol ∧
    info'.cursorInputRow = info.cursorInputRow - BitVec.ofNat 32 (scrollRows * n)

theorem Shifted.zero (h : info'.cursorInputCol = info.cursorInputCol)
    (h' : info'.cursorInputRow = info.cursorInputRow) : Shifted info info' 0 := by
  refine ⟨h, h'.trans ?_⟩
  simp

theorem Shifted.trans {info'' : InpInfo} {m n : Nat} (h : Shifted info info' m) (h' : Shifted info' info'' n) :
    Shifted info info'' (m + n) := by
  refine ⟨h'.1.trans h.1, ?_⟩
  rw [h'.2, h.2, sub_sub, ← BitVec.ofNat_add, ← Nat.mul_add]

theorem shifted_gfxHandleScrolling (info : InpInfo) :
    Shifted info (gfxHandleScrolling win info info.cursorOffsetY.toInt).2 (scrolls win info) := by
  rw [gfxHandleScrolling, scrolls]
  split
  · exact .zero rfl rfl
  · exact ⟨rfl, rfl⟩

theorem shifted_printPlain (hskip : ¬ Skipped character) (info : InpInfo) :
    Shifted info (printPlain win info character (-1) (-1)).1 (scrolls win info) := by
  have h : Shifted info (gfxHandleScrolling win info info.cursorOffsetY.toInt).2 (scrolls win info) :=
    shifted_gfxHandleScrolling info
  rw [Winsys.printPlain, if_neg hskip]
  dsimp only [printOffset]
  rw [if_neg (by decide), printAt]
  split
  · exact h
  · exact h

theorem shifted_putBlanks (n : Nat) (info : InpInfo) :
    Shifted info (putBlanks win n info).1 (blankScrolls win n info) := by
  induction n generalizing info with
  | zero => exact .zero rfl rfl
  | succ n ih => exact (shifted_printPlain (by decide) info).trans (ih _)

theorem shifted_printChar (info : InpInfo) (character : BitVec 8) :
    Shifted info (gfxPrintChar win info character (-1) (-1)).1 (scrollsOf win info (.printChar character)) := by
  rw [Winsys.gfxPrintChar, scrollsOf]
  by_cases hskip : Skipped character
  · have htab : character ≠ 0x09#8 := by
      rintro rfl
      exact absurd hskip (by decide)
    rw [if_neg htab, if_pos hskip, Winsys.printPlain, if_pos hskip]
    exact .zero rfl rfl
  rw [if_neg hskip]
  split
  · rw [printOffset, if_neg (by decide)]
    exact (shifted_gfxHandleScrolling info).trans (shifted_putBlanks 4 _)
  · exact shifted_printPlain hskip info

theorem scrolls_le (win : TextWindow) (info : InpInfo) : scrolls win info ≤ 1 := by
  unfold scrolls
  split <;> decide

theorem blankScrolls_le (win : TextWindow) (n : Nat) (info : InpInfo) : blankScrolls win n info ≤ n := by
  induction n generalizing info with
  | zero => exact Nat.le_refl 0
  | succ n ih =>
    have hfirst := scrolls_le win info
    have hrest := ih (Winsys.printPlain win info 0x20#8 (-1) (-1)).1
    rw [blankScrolls]
    omega

theorem scrollsOf_le (info : InpInfo) (op : TerminalOp) : scrollsOf win info op ≤ 5 := by
  have hfirst := scrolls_le win info
  unfold scrollsOf
  split
  · next character =>
    have hblank := blankScrolls_le win 4 (gfxHandleScrolling win info info.cursorOffsetY.toInt).2
    split
    · exact Nat.zero_le 5
    · split <;> omega
  · exact Nat.zero_le 5

/-- The saved row is on the grid after a few scrolls exactly when it was not scrolled away. -/
theorem inputOnGrid_iff_of_shifted {n : Nat} (h : InputOnGrid win info) (hn : n ≤ 5)
    (hshift : Shifted info info' n) : InputOnGrid win info' ↔ scrollRows * n ≤ info.cursorInputRow.toNat := by
  obtain ⟨hcol, hrow⟩ := h
  have hrows := rows_lt win
  rw [InputOnGrid, hshift.1, hshift.2, BitVec.toNat_sub, BitVec.toNat_ofNat, scrollRows,
    Nat.mod_eq_of_lt (by omega : 5 * n < 2 ^ 32)]
  constructor
  · intro hafter
    omega
  · intro hle
    refine ⟨hcol, ?_⟩
    omega

/-! ### Runs -/

theorem cursorOnGrid_keyboardInputCharacter (h : InputOnGrid win info) (character : BitVec 8) :
    CursorOnGrid win (gfxKeyboardInputCharacter info character).2.2 ∧
      InputOnGrid win (gfxKeyboardInputCharacter info character).2.2 := by
  rw [gfxKeyboardInputCharacter]
  dsimp only
  split
  · split <;> exact ⟨h, h⟩
  · split
    · exact ⟨h, h⟩
    · split <;> exact ⟨h, h⟩

/-- One call: the cursor stays on the grid, and the saved place does exactly when it is not scrolled away. -/
theorem applyTerminal_spec (hrows : 6 ≤ win.rows) (hcursor : CursorOnGrid win info) (hinput : InputOnGrid win info)
    (op : TerminalOp) :
    CursorOnGrid win (applyTerminal win info op).1 ∧ (∀ corner ∈ (applyTerminal win info op).2, Inside win corner) ∧
      (InputOnGrid win (applyTerminal win info op).1 ↔
        scrollRows * scrollsOf win info op ≤ info.cursorInputRow.toNat) := by
  have hnone : ∀ corner ∈ ([] : List Corner), Inside win corner := fun corner hcorner =>
    absurd hcorner List.not_mem_nil
  cases op with
  | printChar character =>
    obtain ⟨hafter, hinside⟩ := hcursor.gfxPrintChar hrows character
    exact ⟨hafter, hinside,
      inputOnGrid_iff_of_shifted hinput (scrollsOf_le info _) (shifted_printChar info character)⟩
  | keyboardInput buffer bfSize =>
    have hsaved : InputOnGrid win (gfxKeyboardInput info (-1) (-1) buffer bfSize) := by
      rw [gfxKeyboardInput, InputOnGrid]
      dsimp only
      rw [if_pos (by decide), if_pos (by decide), BitVec.ofInt_toInt, BitVec.ofInt_toInt]
      exact hcursor
    exact ⟨hcursor, hnone, iff_of_true hsaved (Nat.zero_le _)⟩
  | keyboardInputCharacter character =>
    obtain ⟨hafter, hsaved⟩ := cursorOnGrid_keyboardInputCharacter hinput character
    exact ⟨hafter, hnone, iff_of_true hsaved (Nat.zero_le _)⟩

theorem StaysOnGrid.start {ops : List TerminalOp} (h : StaysOnGrid win info ops) :
    CursorOnGrid win info ∧ InputOnGrid win info := by
  cases ops with
  | nil => exact h
  | cons op ops => exact h.1

theorem staysOnGrid_iff_of_onGrid (hrows : 6 ≤ win.rows) (hcursor : CursorOnGrid win info)
    (hinput : InputOnGrid win info) (ops : List TerminalOp) :
    StaysOnGrid win info ops ↔ KeepsInputRow win info ops := by
  induction ops generalizing info with
  | nil => exact iff_of_true ⟨hcursor, hinput⟩ trivial
  | cons op ops ih =>
    obtain ⟨hafter, hinside, hiff⟩ := applyTerminal_spec hrows hcursor hinput op
    constructor
    · intro h
      have hsaved := h.2.2.start.2
      exact ⟨hiff.mp hsaved, (ih hafter hsaved).mp h.2.2⟩
    · intro h
      have hsaved := hiff.mpr h.1
      exact ⟨⟨hcursor, hinput⟩, hinside, (ih hafter hsaved).mpr h.2⟩

theorem onGrid_zeroed (hcolumns : 1 ≤ win.columns) (hrows : 6 ≤ win.rows) :
    CursorOnGrid win .zeroed ∧ InputOnGrid win .zeroed := by
  have horigin : (0 : Int) < win.columns ∧ (0 : Int) < win.rows := by omega
  exact ⟨horigin, horigin⟩

/-- From a zeroed `INPINFO` both places stay on the grid exactly when no scrolling takes the row where the input began
above the first row. -/
theorem staysOnGrid_iff (hcolumns : 1 ≤ win.columns) (hrows : 6 ≤ win.rows) (ops : List TerminalOp) :
    StaysOnGrid win .zeroed ops ↔ KeepsInputRow win .zeroed ops := by
  obtain ⟨hcursor, hinput⟩ := onGrid_zeroed hcolumns hrows
  exact staysOnGrid_iff_of_onGrid hrows hcursor hinput ops

/-- Ten columns and six rows. -/
def smallWindow : TextWindow := ⟨80#32, 96#32⟩

/-- An input that begins on the last row can be scrolled once. -/
theorem staysOnGrid_iff_smallWindow :
    StaysOnGrid smallWindow .zeroed
      (List.replicate 5 (.printChar 0x0A#8) ++ [.keyboardInput 0#32 8#32, .printChar 65#8]) :=
  (staysOnGrid_iff (by decide) (by decide) _).mpr (by decide)

/-- Five newlines and a character: the row where no input began is scrolled below zero. -/
theorem not_staysOnGrid : 1 ≤ smallWindow.columns ∧ 6 ≤ smallWindow.rows ∧
    ¬ StaysOnGrid smallWindow .zeroed (List.replicate 5 (.printChar 0x0A#8) ++ [.printChar 65#8]) := by
  refine ⟨by decide, by decide, fun h => ?_⟩
  have hstart : CursorOnGrid smallWindow .zeroed ∧ InputOnGrid smallWindow .zeroed :=
    onGrid_zeroed (by decide) (by decide)
  exact absurd ((staysOnGrid_iff_of_onGrid (by decide) hstart.1 hstart.2 _).mp h) (by decide)

end Akos.Winsys
