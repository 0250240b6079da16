import Akos.Tedit.Text

/-!
# Cursor and keys of the editor

The functions of `tedit.c` that move the cursor and change the text. A line pointer is the number of its node
in the list, a region pointer the number of its node in the line or null. Where the code dereferences null or
writes behind a buffer there is no next state.
-/

namespace Akos.Tedit

/-- `'\b'` -/
abbrev backspace : UInt8 := 8

/-- `'\r'` -/
abbrev carriageReturn : UInt8 := 13

/-- A subtraction of `size_t`. -/
def sub32 (a b : Nat) : Nat := if b ≤ a then a - b else a + 2 ^ 32 - b

/-- `buffer[pos-1]`. In front of a buffer stands the high byte of its allocation's number of blocks, a zero. -/
def Region.lastByte (r : Region) : UInt8 := if r.pos = 0 then 0 else r.buffer (r.pos - 1)

/-- The test of `advance_cursor_right` for the end of the line. -/
def Region.endsAt (r : Region) (col : Nat) : Bool :=
  (col % bufferSize = sub32 r.pos 1 && r.lastByte = newline) || (col % bufferSize = r.pos && r.lastByte ≠ newline)

/-- The test of `insert_at_position` for a byte that is put in front of the end of the line. -/
def Region.appendsAt (r : Region) (col : Nat) : Bool :=
  (col % bufferSize = sub32 r.pos 2 && r.lastByte = newline) || (col % bufferSize = r.pos && r.lastByte ≠ newline)

/-- The bytes of a line are all in memory, so the sum does not wrap. -/
def Line.length (line : Line) : Nat := (regionSizes line.regions).sum

/-- What `_main` keeps of the text and the cursor in it. -/
structure Editor where
  text : List Line
  ltr : Nat
  tr : Option Nat
  cursorLine : Nat
  cursorCol : Nat
  isInsert : Bool

namespace Editor

/-- `_main` in front of its loop. -/
def start (text : List Line) : Editor := ⟨text, 0, some 0, 0, 0, false⟩

/-! ### Moves -/

/-- `advance_cursor_left` -/
def advanceCursorLeft (s : Editor) : Option (Bool × Editor) :=
  if s.cursorCol = 0 then
    if s.ltr = 0 then some (false, s)
    else
      s.text[s.ltr - 1]?.map fun prev =>
        (true, { s with
          ltr := s.ltr - 1
          tr := some (prev.regions.length - 1)
          cursorCol := sub32 prev.length 2
          cursorLine := sub32 s.cursorLine 1 })
  else if s.cursorCol % bufferSize = 0 then
    -- the first region's `prev` is null
    s.tr.map fun i => (true, { s with tr := if i = 0 then none else some (i - 1), cursorCol := s.cursorCol - 1 })
  else some (true, { s with cursorCol := s.cursorCol - 1 })

/-- `advance_cursor_right` -/
def advanceCursorRight (s : Editor) : Option (Bool × Editor) := do
  let line ← s.text[s.ltr]?
  let i ← s.tr
  let region ← line.regions[i]?
  if region.endsAt s.cursorCol then
    if s.ltr + 1 < s.text.length then
      some (true, { s with ltr := s.ltr + 1, tr := some 0, cursorCol := 0, cursorLine := s.cursorLine + 1 })
    else some (false, s)
  else
    some (true, { s with
      cursorCol := s.cursorCol + 1
      tr :=
        if (s.cursorCol + 1) % bufferSize = 0 then if i + 1 < line.regions.length then some (i + 1) else none
        else some i })

/-- The loop of `advance_cursor_up` and `advance_cursor_down`: the bytes read, and the region it stops at. -/
def walk (col posRead i : Nat) : List Region → Option (Nat × Nat × Region)
  | [] => none
  | [r] => some (posRead + r.pos, i, r)
  | r :: r' :: rs =>
    if posRead < col then walk col (posRead + r.pos) (i + 1) (r' :: rs) else some (posRead + r.pos, i, r)

/-- The column the cursor gets in the line it comes to. -/
def clampCol (col posRead : Nat) (r : Region) : Nat :=
  if posRead < col then if r.lastByte = newline then sub32 posRead 1 else posRead
  else if col ≤ posRead ∧ sub32 posRead 2 < col then sub32 posRead 1
  else col

/-- `advance_cursor_up` -/
def advanceCursorUp (s : Editor) : Option (Bool × Editor) :=
  if s.ltr = 0 then some (false, s)
  else do
    let line ← s.text[s.ltr - 1]?
    let (posRead, i, r) ← walk s.cursorCol 0 0 line.regions
    some (true, { s with
      ltr := s.ltr - 1
      tr := some i
      cursorCol := clampCol s.cursorCol posRead r
      cursorLine := sub32 s.cursorLine 1 })

/-- `advance_cursor_down` -/
def advanceCursorDown (s : Editor) : Option (Bool × Editor) :=
  if s.ltr + 1 < s.text.length then do
    let line ← s.text[s.ltr + 1]?
    let (posRead, i, r) ← walk s.cursorCol 0 0 line.regions
    some (true, { s with
      ltr := s.ltr + 1
      tr := some i
      cursorCol := clampCol s.cursorCol posRead r
      cursorLine := s.cursorLine + 1 })
  else some (false, s)

end Editor

/-! ### Changes of a line -/

/-- A last region that is full gets one behind it. -/
def grow : List Region → List Region
  | [] => []
  | [r] => if r.pos = bufferSize then [r, Region.empty] else [r]
  | r :: r' :: rs => r :: grow (r' :: rs)

/-- The bytes of a buffer from `k` to its fill count go one up, which drops the one at the end. -/
def Region.shiftUp (k : Nat) (r : Region) : Region :=
  { r with buffer := fun i => if k < i ∧ i ≤ r.pos ∧ i < bufferSize then r.buffer (i - 1) else r.buffer i }

/-- `buffer[i] = c` -/
def Region.setByte (i : Nat) (c : UInt8) (r : Region) : Region := { r with buffer := Function.update r.buffer i c }

/-- The loops of `append_at_position`, from the last region to the first: the bytes from `k` of the first one
go one up, and the byte at the end of a full region becomes the first one of the next. -/
def shiftUp (k : Nat) : List Region → List Region
  | [] => []
  | r :: rs =>
    let rs := shiftUp 0 rs
    r.shiftUp k :: if r.pos = bufferSize then rs.modifyHead (Region.setByte 0 (r.buffer (bufferSize - 1))) else rs

/-- A byte put in at `k` of the first region. -/
def insertByte (k : Nat) (c : UInt8) (rs : List Region) : List Region :=
  ((shiftUp k (grow rs)).modifyHead (Region.setByte k c)).modifyLast fun r => { r with pos := r.pos + 1 }

/-- The bytes of a buffer behind `k` go one down, and the first byte of the next region comes in at the end. -/
def Region.shiftDown (k : Nat) (r : Region) (next : Option Region) : Region :=
  { r with buffer := fun i =>
      if k ≤ i ∧ i < r.pos then
        if i + 1 < bufferSize then r.buffer (i + 1) else (next.map fun r' => r'.buffer 0).getD (r.buffer i)
      else r.buffer i }

/-- The loops of `remove_at_position`. -/
def shiftDown (k : Nat) : List Region → List Region
  | [] => []
  | r :: rs => r.shiftDown k rs.head? :: shiftDown 0 rs

/-- The end of `remove_at_position`: a last region that is empty goes, any other loses a byte. -/
def dropByte (rs : List Region) : Bool × List Region :=
  match rs.getLast? with
  | none => (false, rs)
  | some last =>
    if last.pos = 0 then if 1 < rs.length then (true, rs.dropLast) else (false, rs)
    else (true, rs.modifyLast fun r => { r with pos := r.pos - 1 })

/-- The line behind a new end of line at `k` of its first region: what stands in the region from `k` on, copied
to the start of a new one, and the bytes of the regions behind it. -/
def splitOff (k : Nat) (r : Region) (next : List Region) : Option (List Region) :=
  pushBytes (regionBytes next) [⟨fun j => if k + j < r.pos then r.buffer (k + j) else 0, sub32 r.pos k⟩]

/-- The region that an end of line at `k` is put into, unless it ends behind the buffer. -/
def endLine (k : Nat) (r : Region) : Option Region :=
  if k + 1 < bufferSize then some { (r.setByte k carriageReturn).setByte (k + 1) newline with pos := k + 2 } else none

/-- `prev_tr->pos -= 2` on the last region, which must hold that many. -/
def dropLineEnd (rs : List Region) : Option (List Region) :=
  match rs.getLast? with
  | none => none
  | some last => if 2 ≤ last.pos then some (rs.modifyLast fun r => { r with pos := r.pos - 2 }) else none

/-- The loop of `remove_at_position` that copies a line behind another and frees its regions. The first region
is in the line's own node, whose `prev_line` the caller reads afterwards: it stands there until memory is
allocated again. -/
def joinRegions (prev : List Region) : List Region → Option (List Region)
  | [] => some prev
  | r :: rs => do
    let copied ← pushBytes r.bytes prev
    let joined ← pushBytes (regionBytes rs) copied
    if joined.length = copied.length then some joined else none

/-! ### Changes of the text -/

namespace Editor

/-- The region at the cursor in its line: the regions in front of it, and it with those behind. -/
def atRegion (s : Editor) : Option (Line × List Region × Region × List Region) := do
  let line ← s.text[s.ltr]?
  let i ← s.tr
  match line.regions.drop i with
  | [] => none
  | r :: next => some (line, line.regions.take i, r, next)

def setRegions (s : Editor) (line : Line) (regions : List Region) : Editor :=
  { s with text := s.text.set s.ltr { line with regions } }

/-- `remove_at_position` -/
def removeAtPosition (s : Editor) : Option (Bool × Editor) := do
  let (line, before, r, next) ← s.atRegion
  if s.cursorCol = 0 then
    if s.ltr = 0 then some (false, s)
    else do
      let prev ← s.text[s.ltr - 1]?
      let regions ← joinRegions (← dropLineEnd prev.regions) (before ++ r :: next)
      let behind := (s.text.drop (s.ltr + 1)).map fun l => { l with line := l.line - 1 }
      some (true, { s with text := s.text.take (s.ltr - 1) ++ { prev with regions } :: behind })
  else
    let (action, regions) := dropByte (before ++ shiftDown ((s.cursorCol - 1) % bufferSize) (r :: next))
    some (action, s.setRegions line regions)

/-- `append_at_position` -/
def appendAtPosition (s : Editor) (c : UInt8) : Option (Bool × Editor) :=
  if c = backspace then s.removeAtPosition
  else do
    let (line, before, r, next) ← s.atRegion
    let k := s.cursorCol % bufferSize
    if c ≠ newline then some (true, s.setRegions line (before ++ insertByte k c (r :: next)))
    else do
      let regions ← splitOff k r next
      let r ← endLine k r
      let behind := (s.text.drop (s.ltr + 1)).map fun l => { l with line := l.line + 1 }
      some (true, { s with
        text := s.text.take s.ltr ++ { line with regions := before ++ [r] } :: ⟨regions, line.line + 1⟩ :: behind })

/-- `insert_at_position` -/
def insertAtPosition (s : Editor) (c : UInt8) : Option (Bool × Editor) :=
  if c = newline ∨ c = backspace then s.appendAtPosition c
  else do
    let (line, before, r, next) ← s.atRegion
    if r.appendsAt s.cursorCol then s.appendAtPosition c
    else some (true, s.setRegions line (before ++ r.setByte (s.cursorCol % bufferSize) c :: next))

/-- A character goes in by the mode the editor is in. -/
def edit (s : Editor) (c : UInt8) : Option (Bool × Editor) :=
  if s.isInsert then s.insertAtPosition c else s.appendAtPosition c

/-- The keys `_main` acts on, a typed one by its character. -/
inductive Key
  | left
  | right
  | up
  | down
  | toggleInsert
  | typed (c : UInt8)
  deriving DecidableEq

/-- The loop of `_main` on one key. -/
def press (s : Editor) : Key → Option Editor
  | .left => s.advanceCursorLeft.map Prod.snd
  | .right => s.advanceCursorRight.map Prod.snd
  | .up => s.advanceCursorUp.map Prod.snd
  | .down => s.advanceCursorDown.map Prod.snd
  | .toggleInsert => some { s with isInsert := !s.isInsert }
  | .typed c =>
    if c = 0 then some s
    else do
      let (action, s) ← s.edit c
      if action then
        if c = backspace then s.advanceCursorLeft.map Prod.snd else s.advanceCursorRight.map Prod.snd
      else some s

end Editor

end Akos.Tedit
