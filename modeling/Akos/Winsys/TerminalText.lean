import Akos.Winsys.TerminalPixels

/-!
# The text of a terminal

What is printed goes on an endless sheet of paper, row by row, and a window shows the sheet from some row on. The buffer
of a terminal's window has the pixels of the sheet that is below it, whatever is printed.
-/

namespace Akos.Gfx

/-! ### Sheets -/

/-- A sheet with the place of the next character and the first row that the window shows. -/
structure Sheet where
  ink : Nat → Nat → Ink
  row : Nat
  col : Nat
  top : Nat

namespace Sheet

def blank : Sheet := ⟨fun _ _ => none, 0, 0, 0⟩

variable (columns rows : Nat) (s : Sheet)

/-- A window at whose last row the next character is to be goes down first. -/
def feed : Sheet := if s.row + 1 < s.top + rows then s else { s with top := s.top + 5 }

/-- The place in front, which is not above the window. -/
def before : Nat × Nat :=
  if s.col = 0 then if s.row ≤ s.top then (s.top, 0) else (s.row - 1, columns - 1) else (s.row, s.col - 1)

def erase : Sheet :=
  ⟨setCell s.ink (s.before columns).1 (s.before columns).2 none, (s.before columns).1, (s.before columns).2, s.top⟩

def newline : Sheet := { s with row := s.row + 1, col := 0 }

def write (ch color : BitVec 8) : Sheet :=
  let s := { s with ink := setCell s.ink s.row s.col (some (ch, color)) }
  if s.col + 1 < columns then { s with col := s.col + 1 } else s.newline

/-- A character that is not a tab. -/
def put (ch color : BitVec 8) : Sheet :=
  if Winsys.Skipped ch then s
  else if ch = 0x08#8 then (s.feed rows).erase columns
  else if ch = 0x0A#8 then (s.feed rows).newline
  else (s.feed rows).write columns ch (if color = 0#8 then 0x0F#8 else color)

/-- Blanks for a tab. -/
def putBlanks : Nat → Sheet → Sheet
  | 0, s => s
  | n + 1, s => putBlanks n (s.put columns rows 0x20#8 0xFF#8)

/-- A tab in the last row of the window takes the place five rows down with the window. -/
def tab : Sheet :=
  putBlanks columns rows 4
    (if s.row + 1 < s.top + rows then s else { s with row := s.row + 5, top := s.top + 5 })

def print (ch color : BitVec 8) : Sheet := if ch = 0x09#8 then s.tab columns rows else s.put columns rows ch color

end Sheet

/-- The place is in the window, in front of its last row or at the start of it, and nothing is printed behind it. -/
structure Sheet.Proper (columns rows : Nat) (s : Sheet) : Prop where
  col_lt : s.col < columns
  top_le : s.top ≤ s.row
  row_lt : s.row < s.top + rows
  last : s.row + 1 = s.top + rows → s.col = 0
  blank : ∀ r, ∀ c < columns, s.row < r ∨ s.row = r ∧ s.col ≤ c → s.ink r c = none

variable {columns rows : Nat} {s : Sheet} {ch color : BitVec 8}

namespace Sheet.Proper

theorem blank' (hcolumns : 0 < columns) (hrows : 0 < rows) : Sheet.blank.Proper columns rows where
  col_lt := hcolumns
  top_le := le_rfl
  row_lt := by rwa [Sheet.blank, Nat.zero_add]
  last _ := rfl
  blank _ _ _ _ := rfl

/-- Behind a feed the place is in front of the last row. -/
theorem feed (h : s.Proper columns rows) (hrows : 6 ≤ rows) :
    (s.feed rows).Proper columns rows ∧ (s.feed rows).row + 1 < (s.feed rows).top + rows := by
  have hlast := h.row_lt
  rw [Sheet.feed]
  split
  · next hlt => exact ⟨h, hlt⟩
  · refine ⟨⟨h.col_lt, ?_, ?_, fun heq => ?_, h.blank⟩, ?_⟩
    · dsimp only
      omega
    · dsimp only
      omega
    · dsimp only at heq
      omega
    · dsimp only
      omega

theorem erase (h : s.Proper columns rows) (hbefore : s.row + 1 < s.top + rows) :
    (s.erase columns).Proper columns rows := by
  have hcol := h.col_lt
  have htop := h.top_le
  have hplace : (s.before columns).2 < columns ∧ s.top ≤ (s.before columns).1 ∧ (s.before columns).1 ≤ s.row ∧
      ((s.before columns).1 < s.row → (s.before columns).2 = columns - 1 ∧ s.row ≤ (s.before columns).1 + 1 ∧
        s.col = 0) ∧
      ((s.before columns).1 = s.row → s.col ≤ (s.before columns).2 + 1) := by
    rw [Sheet.before]
    split
    · split
      · dsimp only
        omega
      · dsimp only
        omega
    · dsimp only
      omega
  refine ⟨hplace.1, hplace.2.1, ?_, fun heq => ?_, fun r c hc hbehind => ?_⟩
  · rw [Sheet.erase]
    dsimp only
    omega
  · rw [Sheet.erase] at heq
    dsimp only at heq
    omega
  · rw [Sheet.erase] at hbehind ⊢
    dsimp only at hbehind ⊢
    rw [setCell]
    split
    · rfl
    · next hne => exact h.blank r c hc (by omega)

theorem newline (h : s.Proper columns rows) (hbefore : s.row + 1 < s.top + rows) :
    s.newline.Proper columns rows := by
  have htop := h.top_le
  refine ⟨Nat.zero_lt_of_lt h.col_lt, ?_, ?_, fun _ => rfl, fun r c hc hbehind => ?_⟩
  · rw [Sheet.newline]
    dsimp only
    omega
  · rw [Sheet.newline]
    dsimp only
    omega
  · rw [Sheet.newline] at hbehind
    dsimp only at hbehind
    exact h.blank r c hc (by omega)

theorem write (h : s.Proper columns rows) (hbefore : s.row + 1 < s.top + rows) (ch color : BitVec 8) :
    (s.write columns ch color).Proper columns rows := by
  have htop := h.top_le
  have hcol := h.col_lt
  have hblank : ∀ r, ∀ c < columns, s.row < r ∨ s.row = r ∧ s.col + 1 ≤ c →
      setCell s.ink s.row s.col (some (ch, color)) r c = none := by
    intro r c hc hbehind
    rw [setCell, if_neg (by omega)]
    exact h.blank r c hc (by omega)
  rw [Sheet.write]
  dsimp only
  split
  · next hlt => exact ⟨hlt, htop, h.row_lt, fun heq => absurd heq (by dsimp only; omega), hblank⟩
  · rw [Sheet.newline]
    refine ⟨Nat.zero_lt_of_lt hcol, ?_, ?_, fun _ => rfl, fun r c hc hbehind => hblank r c hc ?_⟩
    · dsimp only
      omega
    · dsimp only
      omega
    · dsimp only at hbehind
      omega

theorem put (h : s.Proper columns rows) (hrows : 6 ≤ rows) (ch color : BitVec 8) :
    (s.put columns rows ch color).Proper columns rows := by
  obtain ⟨hfeed, hbefore⟩ := h.feed hrows
  rw [Sheet.put]
  split
  · exact h
  · split
    · exact hfeed.erase hbefore
    · split
      · exact hfeed.newline hbefore
      · exact hfeed.write hbefore _ _

theorem putBlanks (h : s.Proper columns rows) (hrows : 6 ≤ rows) (n : Nat) :
    (Sheet.putBlanks columns rows n s).Proper columns rows := by
  induction n generalizing s with
  | zero => exact h
  | succ n ih => exact ih (h.put hrows _ _)

end Sheet.Proper

/-! ### The window over the sheet -/

section

variable {win : Win} {font : Int → BitVec 8} {task : Bool} {t : Terminal}

/-- A window of whole rows of text, six of them at least, and of a column. -/
structure Win.Paged (win : Win) : Prop extends win.Sized where
  six : 96 ≤ win.height.toNat
  whole : 16 ∣ win.height.toNat
  columns : 8 ≤ win.width.toNat

/-- The cursor is at the place of the sheet, and the buffer has the pixels of the rows from the first one on. -/
structure Views (win : Win) (font : Int → BitVec 8) (t : Terminal) (s : Sheet) : Prop where
  proper : s.Proper (win.width.toNat / 8) (win.height.toNat / 16)
  col : t.info.cursorOffsetX.toInt = s.col
  row : t.info.cursorOffsetY.toInt = s.row - s.top
  shows : Shows win font t.mem fun r c => s.ink (s.top + r) c

/-- A character that is drawn leaves nothing behind its last column. -/
def Drawable (font : Int → BitVec 8) (ch color : BitVec 8) : Prop :=
  if ch = 0x09#8 then Narrow font 0x20#8 ((0xFF#8).signExtend 32)
  else Winsys.Skipped ch ∨ ch = 0x08#8 ∨ ch = 0x0A#8 ∨
    Narrow font ch ((if color = 0#8 then 0x0F#8 else color).signExtend 32)

theorem toInt_ofInt {v : Int} (h : 0 ≤ v) (h' : v < 2 ^ 31) : (BitVec.ofInt 32 v).toInt = v := by
  rw [BitVec.toInt_ofInt, Int.bmod_eq_of_le (by omega) (by omega)]

theorem Shows.congr {mem : ByteMemory} {cells cells' : Nat → Nat → Ink} (hs : Shows win font mem cells)
    (heq : ∀ r < win.height.toNat / 16, ∀ c < win.width.toNat / 8, cells r c = cells' r c) :
    Shows win font mem cells' := by
  intro r hr c hc i hi j hj k hk
  rw [hs r hr c hc i hi j hj k hk, heq r hr c hc]

/-- What the cursor is set to. -/
theorem Views.of_setCursor {info : Winsys.InpInfo} {offset : Int × Int} {mem : ByteMemory} (hwin : win.Paged)
    (hproper : s.Proper (win.width.toNat / 8) (win.height.toNat / 16)) (hcol : offset.1 = s.col)
    (hrow : offset.2 = s.row - s.top) (hshows : Shows win font mem fun r c => s.ink (s.top + r) c) :
    Views win font ⟨info.setCursor offset, mem⟩ s := by
  have hfits := hwin.toNat_lt
  have hcol_lt := hproper.col_lt
  have htop := hproper.top_le
  have hrow_lt := hproper.row_lt
  refine ⟨hproper, ?_, ?_, hshows⟩
  · rw [Winsys.InpInfo.setCursor, toInt_ofInt (by omega) (by omega), hcol]
  · rw [Winsys.InpInfo.setCursor, toInt_ofInt (by omega) (by omega), hrow]

/-- Scrolling takes the window down the sheet. -/
theorem Views.scroll (task : Bool) (hwin : win.Paged) (h : Views win font t s) :
    (Winsys.gfxHandleScrolling win.text t.info t.info.cursorOffsetY.toInt).1 =
        (s.feed (win.height.toNat / 16)).row - (s.feed (win.height.toNat / 16)).top ∧
      Shows win font (handleScrolling win font task t.info.cursorOffsetY.toInt t.mem) fun r c =>
        (s.feed (win.height.toNat / 16)).ink ((s.feed (win.height.toNat / 16)).top + r) c := by
  have hproper := h.proper
  have htop := hproper.top_le
  have hrow_lt := hproper.row_lt
  have hsix := hwin.six
  rw [Winsys.gfxHandleScrolling, handleScrolling, hwin.toSized.rows, h.row, Sheet.feed]
  by_cases hbefore : s.row + 1 < s.top + win.height.toNat / 16
  · have hoffset : (s.row : Int) - s.top < ((win.height.toNat / 16 : Nat) : Int) - 1 := by omega
    rw [if_pos hoffset, if_pos hoffset, if_pos hbefore]
    exact ⟨rfl, h.shows⟩
  · have hlast : s.row - s.top + 1 = win.height.toNat / 16 := by omega
    have hstart := hproper.last (by omega)
    have hoffset : (s.row : Int) - s.top = ((s.row - s.top : Nat) : Int) := by omega
    have hnot : ¬ (((s.row - s.top : Nat) : Int) < ((win.height.toNat / 16 : Nat) : Int) - 1) := by omega
    rw [hoffset, if_neg hnot, if_neg hnot, if_neg hbefore]
    refine ⟨?_, ?_⟩
    · rw [show Winsys.scrollRows = 5 from rfl]
      dsimp only
      omega
    · have hblank : ∀ c < win.width.toNat / 8, s.ink (s.top + (s.row - s.top)) c = none := fun c hc =>
        hproper.blank _ c hc (by omega)
      refine ((h.shows.pause hwin.toSized hwin.whole hlast hblank task).scrollRows hwin.toSized hwin.six
        hwin.whole).congr fun r hr c hc => ?_
      rw [scrolledCells]
      dsimp only
      split
      · rw [Nat.add_right_comm, Nat.add_assoc]
      · exact (hproper.blank _ c hc (by omega)).symm

theorem setCell_top (ink : Nat → Nat → Ink) {top row : Nat} (htop : top ≤ row) (col : Nat) (v : Ink) (r c : Nat) :
    setCell (fun r c => ink (top + r) c) (row - top) col v r c = setCell ink row col v (top + r) c := by
  rw [setCell, setCell]
  have hiff : r = row - top ∧ c = col ↔ top + r = row ∧ c = col := by omega
  simp only [hiff]

section Drawn

variable {info : Winsys.InpInfo} {mem : ByteMemory}

/-- The place in front, in the window. -/
theorem backspace_eq (hwin : win.Paged) (hproper : s.Proper (win.width.toNat / 8) (win.height.toNat / 16)) :
    Winsys.backspace win.text ((s.col : Int), (s.row : Int) - s.top) =
      (((s.before (win.width.toNat / 8)).2 : Int), (((s.before (win.width.toNat / 8)).1 - s.top : Nat) : Int)) ∧
    s.top ≤ (s.before (win.width.toNat / 8)).1 ∧ (s.before (win.width.toNat / 8)).1 ≤ s.row ∧
    (s.before (win.width.toNat / 8)).2 < win.width.toNat / 8 := by
  have htop := hproper.top_le
  have hcol := hproper.col_lt
  rw [Winsys.backspace, hwin.toSized.columns, Sheet.before]
  by_cases hzero : s.col = 0
  · have hneg : (s.col : Int) - 1 < 0 := by omega
    rw [if_pos hzero]
    dsimp only
    rw [if_pos hneg]
    dsimp only
    by_cases hfirst : s.row ≤ s.top
    · have habove : (s.row : Int) - s.top - 1 < 0 := by omega
      rw [if_pos hfirst, if_pos habove]
      exact ⟨Prod.ext rfl (by simp), le_rfl, htop, by omega⟩
    · have hbelow : ¬ (s.row : Int) - s.top - 1 < 0 := by omega
      rw [if_neg hfirst, if_neg hbelow]
      dsimp only
      exact ⟨Prod.ext (by dsimp only; omega) (by dsimp only; omega), by omega, by omega, by omega⟩
  · have hneg : ¬ (s.col : Int) - 1 < 0 := by omega
    have hbelow : ¬ (s.row : Int) - s.top < 0 := by omega
    rw [if_neg hzero]
    dsimp only
    rw [if_neg hneg]
    dsimp only
    rw [if_neg hbelow]
    exact ⟨Prod.ext (by dsimp only; omega) (by dsimp only; omega), htop, le_rfl, by omega⟩

theorem Views.erase (hwin : win.Paged) (hproper : s.Proper (win.width.toNat / 8) (win.height.toNat / 16))
    (hbefore : s.row + 1 < s.top + win.height.toNat / 16)
    (hshows : Shows win font mem fun r c => s.ink (s.top + r) c) (color : BitVec 8) :
    Views win font ⟨(Winsys.printAt win.text info 0x08#8 (s.col, s.row - s.top)).1,
      drawAt win font 0x08#8 color (s.col, s.row - s.top) mem⟩ (s.erase (win.width.toNat / 8)) := by
  obtain ⟨hplace, htop, hle, hlt⟩ := backspace_eq hwin hproper
  rw [Winsys.printAt, if_pos rfl, drawAt, if_pos rfl, hplace]
  refine Views.of_setCursor hwin (hproper.erase hbefore) rfl ?_ ?_
  · rw [Sheet.erase]
    dsimp only
    omega
  · refine (hshows.clearCell hwin.toSized (by omega) hlt).congr fun r _ c _ => ?_
    exact setCell_top s.ink htop _ _ r c

theorem Views.newline (hwin : win.Paged) (hproper : s.Proper (win.width.toNat / 8) (win.height.toNat / 16))
    (hbefore : s.row + 1 < s.top + win.height.toNat / 16)
    (hshows : Shows win font mem fun r c => s.ink (s.top + r) c) (color : BitVec 8) :
    Views win font ⟨(Winsys.printAt win.text info 0x0A#8 (s.col, s.row - s.top)).1,
      drawAt win font 0x0A#8 color (s.col, s.row - s.top) mem⟩ s.newline := by
  have hcol := hproper.col_lt
  have hadvance : Winsys.advance win.text 0x0A#8 ((s.col : Int), (s.row : Int) - s.top) =
      ((0 : Int), (s.row : Int) - s.top + 1) := by
    rw [Winsys.advance, if_pos rfl, hwin.toSized.columns]
    exact if_neg (by dsimp only; omega)
  have hne : ¬ 0x0A#8 = 0x08#8 := by decide
  rw [Winsys.printAt, if_neg hne, drawAt, if_neg hne, if_pos rfl, hadvance]
  refine Views.of_setCursor hwin (hproper.newline hbefore) rfl ?_ hshows
  rw [Sheet.newline]
  dsimp only
  omega

theorem Views.write (hwin : win.Paged) (hproper : s.Proper (win.width.toNat / 8) (win.height.toNat / 16))
    (hbefore : s.row + 1 < s.top + win.height.toNat / 16)
    (hshows : Shows win font mem fun r c => s.ink (s.top + r) c) (hback : ch ≠ 0x08#8) (hend : ch ≠ 0x0A#8)
    (hnarrow : Narrow font ch (color.signExtend 32)) :
    Views win font ⟨(Winsys.printAt win.text info ch (s.col, s.row - s.top)).1,
      drawAt win font ch color (s.col, s.row - s.top) mem⟩ (s.write (win.width.toNat / 8) ch color) := by
  have hcol := hproper.col_lt
  have htop := hproper.top_le
  have hplace : ((s.col : Int), (s.row : Int) - s.top) = ((s.col : Int), ((s.row - s.top : Nat) : Int)) := by
    rw [Nat.cast_sub htop]
  have hink : Shows win font (drawAt win font ch color (s.col, s.row - s.top) mem) fun r c =>
      setCell s.ink s.row s.col (some (ch, color)) (s.top + r) c := by
    rw [drawAt, if_neg hback, if_neg hend, hplace]
    refine ((hshows.clearCell hwin.toSized (by omega) hcol).paintChar hwin.toSized (by omega) hcol
      (if_pos ⟨rfl, rfl⟩) hnarrow).congr fun r _ c _ => ?_
    rw [← setCell_top s.ink htop, setCell, setCell, setCell]
    split <;> rfl
  rw [Winsys.printAt, if_neg hback]
  have hproper' := hproper.write hbefore ch color
  rw [Sheet.write] at hproper' ⊢
  dsimp only at hproper' ⊢
  rw [Winsys.advance, if_neg hend, hwin.toSized.columns]
  dsimp only
  by_cases hwraps : s.col + 1 < win.width.toNat / 8
  · rw [if_pos hwraps] at hproper' ⊢
    rw [if_neg (by omega)]
    exact Views.of_setCursor hwin hproper' rfl rfl hink
  · rw [if_neg hwraps] at hproper' ⊢
    rw [if_pos (by omega)]
    refine Views.of_setCursor hwin hproper' rfl ?_ hink
    rw [Sheet.newline]
    dsimp only
    omega

end Drawn

/-- A character that is not a tab. -/
theorem Views.printPlain (hwin : win.Paged) (h : Views win font t s) (hch : ch ≠ 0x09#8)
    (hdraw : Drawable font ch color) : Views win font (printPlain win font task t ch color)
      (s.put (win.width.toNat / 8) (win.height.toNat / 16) ch color) := by
  have hsix := hwin.six
  rw [Gfx.printPlain, Sheet.put]
  by_cases hskip : Winsys.Skipped ch
  · rw [if_pos hskip, if_pos hskip]
    exact h
  rw [if_neg hskip, if_neg hskip]
  obtain ⟨hrow, hshows⟩ := h.scroll task hwin
  obtain ⟨hproper, hbefore⟩ := h.proper.feed (show 6 ≤ win.height.toNat / 16 by omega)
  have hcol : t.info.cursorOffsetX.toInt = (s.feed (win.height.toNat / 16)).col := by
    rw [h.col, Sheet.feed]
    split <;> rfl
  have hoffset : Winsys.printOffset t.info (-1) (-1) = (t.info.cursorOffsetX.toInt, t.info.cursorOffsetY.toInt) := rfl
  dsimp only
  rw [hoffset]
  dsimp only
  rw [hrow, hcol]
  by_cases hback : ch = 0x08#8
  · subst hback
    rw [if_pos rfl]
    exact Views.erase hwin hproper hbefore hshows _
  · rw [if_neg hback]
    by_cases hend : ch = 0x0A#8
    · subst hend
      rw [if_pos rfl]
      exact Views.newline hwin hproper hbefore hshows _
    · rw [if_neg hend]
      rw [Drawable, if_neg hch, or_iff_right hskip, or_iff_right hback, or_iff_right hend] at hdraw
      exact Views.write hwin hproper hbefore hshows hback hend hdraw

theorem Views.putBlanks (hwin : win.Paged) (h : Views win font t s)
    (hblank : Narrow font 0x20#8 ((0xFF#8).signExtend 32)) (n : Nat) :
    Views win font (putBlanks win font task n t)
      (s.putBlanks (win.width.toNat / 8) (win.height.toNat / 16) n) := by
  induction n generalizing t s with
  | zero => exact h
  | succ n ih => exact ih (h.printPlain hwin (by decide) (Or.inr (Or.inr (Or.inr hblank))))

/-- One character is printed. -/
theorem Views.print (hwin : win.Paged) (h : Views win font t s) (hdraw : Drawable font ch color) :
    Views win font (gfxPrintChar win font task t ch color)
      (s.print (win.width.toNat / 8) (win.height.toNat / 16) ch color) := by
  rw [gfxPrintChar, Sheet.print]
  by_cases htab : ch = 0x09#8
  · rw [Drawable, if_pos htab] at hdraw
    rw [if_pos htab, if_pos htab, Sheet.tab]
    refine Views.putBlanks hwin ?_ hdraw 4
    have hproper := h.proper
    have htop := hproper.top_le
    have hrow_lt := hproper.row_lt
    have hscroll := (h.scroll task hwin).2
    have hoffset : Winsys.printOffset t.info (-1) (-1) = (t.info.cursorOffsetX.toInt, t.info.cursorOffsetY.toInt) := rfl
    rw [hoffset]
    dsimp only
    rw [Sheet.feed] at hscroll
    split
    · next hbefore =>
      rw [if_pos hbefore] at hscroll
      refine ⟨hproper, ?_, ?_, hscroll⟩
      · rw [← h.col, Winsys.gfxHandleScrolling]
        split <;> rfl
      · rw [← h.row, Winsys.gfxHandleScrolling]
        split <;> rfl
    · next hbefore =>
      rw [if_neg hbefore] at hscroll
      refine ⟨⟨hproper.col_lt, ?_, ?_, fun _ => hproper.last (by omega), fun r c hc hbehind => ?_⟩, ?_, ?_, hscroll⟩
      · dsimp only
        omega
      · dsimp only
        omega
      · dsimp only at hbehind
        exact hproper.blank r c hc (by omega)
      · refine Eq.trans ?_ h.col
        rw [Winsys.gfxHandleScrolling]
        split <;> rfl
      · refine Eq.trans ?_ (h.row.trans (by dsimp only; omega))
        rw [Winsys.gfxHandleScrolling]
        split <;> rfl
  · rw [if_neg htab, if_neg htab]
    exact h.printPlain hwin htab hdraw

/-! ### Runs -/

/-- `gfx_clear_win` -/
def gfxClearWin (win : Win) (mem : ByteMemory) : ByteMemory :=
  Kernel.gfxFillRect win 0#32 0#32 win.width win.height 0#32 mem

/-- A call of `gfx_print_color`, with whether there is a task that waits when the window scrolls. -/
structure PrintCall where
  task : Bool
  text : List (BitVec 8)
  color : BitVec 32

def PrintCall.run (win : Win) (font : Int → BitVec 8) (t : Terminal) (p : PrintCall) : Terminal :=
  gfxPrintColor win font p.task p.text p.color t

def Sheet.printAll (columns rows : Nat) (s : Sheet) (p : PrintCall) : Sheet :=
  p.text.foldl (fun s ch => s.print columns rows ch (p.color.setWidth 8)) s

theorem Views.clear (hwin : win.Paged) (mem : ByteMemory) :
    Views win font ⟨Winsys.InpInfo.zeroed, gfxClearWin win mem⟩ Sheet.blank := by
  have hfits := hwin.toNat_lt
  have hcolumns := hwin.columns
  have hsix := hwin.six
  refine ⟨Sheet.Proper.blank' (by omega) (by omega), rfl, rfl, fun r hr c hc i hi j hj k hk => ?_⟩
  have hfill := @fillRect_byteAt win mem 0#32 0 0 (8 * c + j) (16 * r + i) win.width.toNat win.height.toNat k
    hwin.toSized (by omega) (by omega) (by omega) (by omega) hk
  have hzero : ∀ k < 3, colorByte 0#32 k = 0#8 := by decide
  rw [if_pos (by omega), hzero k hk, win.ofNat_width, BitVec.ofNat_toNat, BitVec.setWidth_eq] at hfill
  exact hfill

theorem Views.run {p : PrintCall} (hwin : win.Paged) (h : Views win font t s)
    (hdraw : ∀ ch ∈ p.text, Drawable font ch (p.color.setWidth 8)) :
    Views win font (p.run win font t) (s.printAll (win.width.toNat / 8) (win.height.toNat / 16) p) := by
  obtain ⟨task, text, color⟩ := p
  rw [PrintCall.run, gfxPrintColor, Sheet.printAll]
  dsimp only at hdraw ⊢
  induction text generalizing t s with
  | nil => exact h
  | cons ch text ih =>
    rw [List.foldl_cons, List.foldl_cons]
    exact ih (h.print hwin (hdraw ch List.mem_cons_self)) fun ch' hch' => hdraw ch' (List.mem_cons_of_mem _ hch')

/-- Whatever is printed on a cleared terminal, its window shows the sheet with all of it from some row on, pixel by
pixel, with the cursor at the place of the sheet. -/
theorem views_of_prints (hwin : win.Paged) (prints : List PrintCall)
    (hdraw : ∀ p ∈ prints, ∀ ch ∈ p.text, Drawable font ch (p.color.setWidth 8)) (mem : ByteMemory) :
    Views win font (prints.foldl (PrintCall.run win font) ⟨Winsys.InpInfo.zeroed, gfxClearWin win mem⟩)
      (prints.foldl (Sheet.printAll (win.width.toNat / 8) (win.height.toNat / 16)) Sheet.blank) := by
  induction prints using List.reverseRecOn with
  | nil => exact Views.clear hwin mem
  | append_singleton prints p ih =>
    rw [List.foldl_concat, List.foldl_concat]
    exact (ih fun q hq => hdraw q (List.mem_append_left _ hq)).run hwin (hdraw p List.mem_concat_self)

private def smallWin : Win := ⟨80#32, 96#32, 0x1000#32⟩

private def onePrint : PrintCall := ⟨true, [0x41#8, 0x0A#8, 0x42#8, 0x08#8], 0xFFFFFF#32⟩

theorem views_of_prints_small : Views smallWin (fun _ => 0x7E#8)
    ([onePrint].foldl (PrintCall.run smallWin fun _ => 0x7E#8)
      ⟨Winsys.InpInfo.zeroed, gfxClearWin smallWin fun _ => 0#8⟩)
    ([onePrint].foldl (Sheet.printAll 10 6) Sheet.blank) := by
  have hsized : smallWin.Sized := ⟨by decide, by decide, by decide⟩
  refine views_of_prints ⟨hsized, by decide, by decide, by decide⟩ [onePrint] (fun p hp ch _ => ?_) _
  have hnarrow : ∀ ch color, Narrow (fun _ => 0x7E#8) ch color := fun ch color => Or.inr fun i _ => by
    rw [inked]
    decide
  rw [Drawable]
  split
  · exact hnarrow _ _
  · exact Or.inr (Or.inr (Or.inr (hnarrow _ _)))

end

end Akos.Gfx
