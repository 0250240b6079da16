import Akos.Drivers.Keyboard
import Akos.Utils.StringMemory
import Akos.Winsys.TerminalCursor

/-!
# The input line of the shell

`get_shell_input` of `shell.c` reads the keys of the shell's window into a buffer and prints them. Printing reads keys
as well: before the window scrolls it waits for one, and that one is gone.
-/

namespace Akos.Winsys

open Drivers (isPress charOf scancodeOf kbdEvent)

/-- `K_UP` -/
abbrev kUp : Byte := 72#8

/-- `K_DOWN` -/
abbrev kDown : Byte := 80#8

/-- `CMD_HISTORY_SIZE` -/
abbrev cmdHistorySize : Int := 10

/-- The shell while it reads a line. A free slot that is taken from the queue of the window is an event as well. -/
structure Shell where
  info : InpInfo
  cmdHistoryPtr : Int
  /-- What was stored into memory, one byte after the other. -/
  stores : List (BitVec 32 × Byte)
  /-- What the queue of the window still gives. -/
  events : List Event

/-- What does not change while a line is read. -/
structure ShellEnv where
  mainWindow : TextWindow
  /-- `get_current_task()` -/
  currentTask : Bool
  cmdHistory : List (Option (List Byte))

variable (env : ShellEnv)

namespace Shell

/-! ### Printing -/

/-- The loop of `gfx_handle_scrolling` that waits for a key. -/
def waitForKey : List Event → Option (List Event)
  | [] => none
  | e :: events => if isPress e then some events else waitForKey events

def waitForKeys : Nat → List Event → Option (List Event)
  | 0, events => some events
  | n + 1, events => (waitForKey events).bind (waitForKeys n)

/-- `gfx_putchar` and `putchar`: each time the window scrolls it waits for a key. -/
def putchar (c : Byte) (s : Shell) : Option Shell := do
  let waits := if env.currentTask then scrollsOf env.mainWindow s.info (.printChar c) else 0
  let events ← waitForKeys waits s.events
  return { s with info := (gfxPrintChar env.mainWindow s.info c (-1) (-1)).1, events := events }

def gfxPrint : List Byte → Shell → Option Shell
  | [], s => some s
  | c :: cs, s => (putchar env c s).bind (gfxPrint cs)

def print (msg : List Byte) (s : Shell) : Option Shell :=
  (gfxPrint env msg s).map fun s => { s with info := { s.info with didScroll := false } }

/-! ### The line -/

def keyboardInputCharacter (c : Byte) (s : Shell) : Int × Shell :=
  let result := gfxKeyboardInputCharacter s.info c
  (result.1, { s with info := result.2.2, stores := s.stores ++ result.2.1.toList })

/-- The input goes on where the cursor is. -/
def keepCursor (s : Shell) : Shell :=
  { s with info := { s.info with cursorInputCol := s.info.cursorOffsetX, cursorInputRow := s.info.cursorOffsetY } }

/-- `while (gfx_keyboard_input_character(window_input_info,'\b') != -1)`, with the turns that are left. -/
def eraseLine : Nat → Shell → Option Shell
  | 0, _ => none
  | turns + 1, s =>
    let erased := keyboardInputCharacter 0x08#8 s
    if erased.1 = -1 then some erased.2
    else (putchar env 0x08#8 erased.2).bind fun s => eraseLine turns (keepCursor s)

/-- `while(*cmd)` -/
def inputAll : List Byte → Shell → Shell
  | [], s => s
  | c :: cs, s => inputAll cs (keyboardInputCharacter c s).2

/-- A command of the history takes the place of the line. -/
def replaceLine (cmd : List Byte) (s : Shell) : Option Shell := do
  let s ← eraseLine env (s.info.inputBufferIndex.toNat + 1) s
  let s ← print env cmd s
  return inputAll cmd (keepCursor s)

def incrementCmdHistoryPtr (s : Shell) : Bool × Shell :=
  if s.cmdHistoryPtr + 1 = cmdHistorySize then (false, s)
  else (true, { s with cmdHistoryPtr := s.cmdHistoryPtr + 1 })

def decrementCmdHistoryPtr (s : Shell) : Bool × Shell :=
  if s.cmdHistoryPtr - 1 < 0 then (false, { s with cmdHistoryPtr := 0 })
  else (true, { s with cmdHistoryPtr := s.cmdHistoryPtr - 1 })

def getCmdFromHistory (s : Shell) : Option (List Byte) := env.cmdHistory[s.cmdHistoryPtr.toNat]?.join

def keyUp (s : Shell) : Option Shell :=
  let moved := incrementCmdHistoryPtr s
  if moved.1 then
    match getCmdFromHistory env moved.2 with
    | some cmd => replaceLine env cmd moved.2
    | none => some (decrementCmdHistoryPtr moved.2).2
  else some moved.2

def keyDown (s : Shell) : Option Shell :=
  let moved := decrementCmdHistoryPtr s
  if moved.1 then
    match getCmdFromHistory env moved.2 with
    | some cmd => replaceLine env cmd moved.2
    | none => some moved.2
  else some moved.2

/-- Another key. -/
def keyCharacter (c : Byte) (s : Shell) : Option Shell :=
  let typed := keyboardInputCharacter c s
  if typed.1 = -1 then some typed.2
  else (putchar env c typed.2).map fun s => { keepCursor s with cmdHistoryPtr := -1 }

/-- An event. There is no result where the scan code is outside the tables. -/
def handleEvent (e : Event) (s : Shell) : Option Shell :=
  if isPress e then
    (charOf e).bind fun c =>
      if scancodeOf e = kUp then keyUp env s
      else if scancodeOf e = kDown then keyDown env s
      else keyCharacter env c s
  else some s

/-- `while(window_input_info->is_taking_input)`, with the turns that are left; without an event the shell waits. -/
def inputLoop : Nat → Shell → Option Shell
  | 0, _ => none
  | turns + 1, s =>
    if s.info.isTakingInput then
      match s.events with
      | [] => none
      | e :: events => (handleEvent env e { s with events := events }).bind (inputLoop turns)
    else some s

/-- `gfx_keyboard_input(window_input_info,-1,-1,buff,buff_size);` -/
def start (buff buffSize : BitVec 32) (s : Shell) : Shell :=
  { s with info := gfxKeyboardInput s.info (-1) (-1) buff buffSize }

/-- `get_shell_input`: each turn takes an event, so that there are no more turns than events. -/
def getShellInput (buff buffSize : BitVec 32) (s : Shell) : Option Shell :=
  inputLoop env (s.events.length + 1) (start buff buffSize s)

/-! ### What is typed -/

/-- A character is typed at the end of a line. -/
def typeChar (n : Nat) (line : List Byte) (c : Byte) : List Byte :=
  if c = 0#8 then line
  else if c = 0x08#8 then line.dropLast
  else if line.length < n - 1 then line ++ [c]
  else line

def foldKey (n : Nat) (line : List Byte) (e : Event) : List Byte :=
  if isPress e then (charOf e).elim line (typeChar n line) else line

/-- If a key was pressed, then it was one of the tables, and neither Enter nor Up nor Down. -/
def PlainKey (e : Event) : Prop :=
  isPress e = true → ∃ c ∈ charOf e, c ≠ 0x0A#8 ∧ scancodeOf e ≠ kUp ∧ scancodeOf e ≠ kDown

instance (e : Event) : Decidable (PlainKey e) := inferInstanceAs (Decidable (_ → ∃ _ ∈ _, _))

def EnterKey (e : Event) : Prop := isPress e = true ∧ charOf e = some 0x0A#8

instance (e : Event) : Decidable (EnterKey e) := inferInstanceAs (Decidable (_ ∧ _))

/-- The line that was typed so far is in the buffer. -/
structure HoldsLine (memory : BitVec 32 → Byte) (buff : BitVec 32) (line : List Byte) (s : Shell) : Prop where
  index : s.info.inputBufferIndex.toNat = line.length
  holds : HoldsAt (Overlay.put memory s.stores) buff line

/-- The line is read, and nothing but its buffer is written. -/
def TakesLine (memory : BitVec 32 → Byte) (buff buffSize : BitVec 32) (keys : List Event) (s : Shell) : Prop :=
  ∃ s', getShellInput env buff buffSize s = some s' ∧
    HoldsAt (Overlay.put memory s'.stores) buff (keys.foldl (foldKey buffSize.toNat) [] ++ [0#8]) ∧
    0#8 ∉ keys.foldl (foldKey buffSize.toNat) [] ∧
    ∀ w ∈ s'.stores, ∃ i < buffSize.toNat, w.1 = buff + BitVec.ofNat 32 i

/-- So it is whatever keys are pressed. -/
def TakesLines : Prop :=
  ∀ (env : ShellEnv) (memory : BitVec 32 → Byte) (buff buffSize : BitVec 32) (info : InpInfo) (cmdHistoryPtr : Int)
    (keys rest : List Event) (enter : Event), 1 ≤ buffSize.toInt → (∀ e ∈ keys, PlainKey e) → EnterKey enter →
    TakesLine env memory buff buffSize keys ⟨info, cmdHistoryPtr, [], keys ++ enter :: rest⟩

/-- Every key is handled in its turn: it changes the line as it should, and no other is taken from the queue. -/
def FollowsKeys (memory : BitVec 32 → Byte) (buff buffSize : BitVec 32) (enter : Event) :
    List Event → List Byte → Shell → Prop
  | [], line, s => ∃ s' ∈ handleEvent env enter { s with events := s.events.tail },
      s'.events = s.events.tail ∧ HoldsAt (Overlay.put memory s'.stores) buff (line ++ [0#8])
  | e :: keys, line, s => ∃ s' ∈ handleEvent env e { s with events := s.events.tail },
      s'.events = s.events.tail ∧ HoldsLine memory buff (foldKey buffSize.toNat line e) s' ∧
      FollowsKeys memory buff buffSize enter keys (foldKey buffSize.toNat line e) s'

/-- The character changes the line or ends it. -/
def Accepts (info : InpInfo) (c : Byte) : Prop :=
  if c = 0x08#8 then info.inputBufferIndex ≠ 0#32
  else c = 0x0A#8 ∨ info.inputBufferIndex ≠ info.inputBufferLimit - 1#32

instance (info : InpInfo) (c : Byte) : Decidable (Accepts info c) :=
  inferInstanceAs (Decidable (if c = 0x08#8 then info.inputBufferIndex ≠ 0#32 else _ ∨ _))

/-- A key that is accepted has a character, and printing that does not wait for a key. -/
def CalmKey (e : Event) (s : Shell) : Prop :=
  isPress e = true → ∀ c ∈ charOf e, Accepts s.info c → c ≠ 0#8 ∧ (env.currentTask = true →
    scrollsOf env.mainWindow
      { s.info with cursorOffsetX := s.info.cursorInputCol, cursorOffsetY := s.info.cursorInputRow } (.printChar c) = 0)

instance (e : Event) (s : Shell) : Decidable (CalmKey env e s) :=
  inferInstanceAs (Decidable (isPress e = true → ∀ c ∈ charOf e, Accepts s.info c → c ≠ 0#8 ∧ (_ → _)))

/-- So are the keys at the states they are handled in. -/
def CalmKeys : List Event → Shell → Prop
  | [], _ => True
  | e :: events, s => CalmKey env e s ∧
      ∀ s' ∈ handleEvent env e { s with events := s.events.tail }, CalmKeys events s'

instance decidableCalmKeys (env : ShellEnv) : (events : List Event) → (s : Shell) → Decidable (CalmKeys env events s)
  | [], _ => .isTrue trivial
  | e :: events, s =>
    have := decidableCalmKeys env events
    inferInstanceAs (Decidable (CalmKey env e s ∧ ∀ s' ∈ handleEvent env e { s with events := s.events.tail }, _))

/-! ### Printing leaves the input alone -/

/-- What printing does not change. -/
structure SameInput (info info' : InpInfo) : Prop where
  isTakingInput : info'.isTakingInput = info.isTakingInput
  inputBufferIndex : info'.inputBufferIndex = info.inputBufferIndex
  inputBufferLimit : info'.inputBufferLimit = info.inputBufferLimit
  inputBuffer : info'.inputBuffer = info.inputBuffer

variable {env} {win : TextWindow} {info info' info'' : InpInfo} {c : Byte} {s s' : Shell} {buff n : BitVec 32}
  {memory : BitVec 32 → Byte} {line : List Byte} {e : Event}

theorem SameInput.refl (info : InpInfo) : SameInput info info := ⟨rfl, rfl, rfl, rfl⟩

theorem SameInput.trans (h : SameInput info info') (h' : SameInput info' info'') : SameInput info info'' :=
  ⟨h'.isTakingInput.trans h.isTakingInput, h'.inputBufferIndex.trans h.inputBufferIndex,
    h'.inputBufferLimit.trans h.inputBufferLimit, h'.inputBuffer.trans h.inputBuffer⟩

theorem sameInput_gfxHandleScrolling (win : TextWindow) (info : InpInfo) (offsetY : Int) :
    SameInput info (gfxHandleScrolling win info offsetY).2 := by
  rw [gfxHandleScrolling]
  split
  · exact SameInput.refl info
  · exact ⟨rfl, rfl, rfl, rfl⟩

theorem sameInput_printPlain (win : TextWindow) (info : InpInfo) (c : Byte) (row col : Int) :
    SameInput info (printPlain win info c row col).1 := by
  rw [printPlain]
  split
  · exact SameInput.refl info
  · refine (sameInput_gfxHandleScrolling win info (printOffset info row col).2).trans ?_
    dsimp only
    rw [printAt]
    split
    · exact ⟨rfl, rfl, rfl, rfl⟩
    · exact ⟨rfl, rfl, rfl, rfl⟩

theorem sameInput_putBlanks (win : TextWindow) (k : Nat) (info : InpInfo) :
    SameInput info (putBlanks win k info).1 := by
  induction k generalizing info with
  | zero => exact SameInput.refl info
  | succ k ih => exact (sameInput_printPlain win info 0x20#8 (-1) (-1)).trans (ih _)

theorem sameInput_gfxPrintChar (win : TextWindow) (info : InpInfo) (c : Byte) (row col : Int) :
    SameInput info (gfxPrintChar win info c row col).1 := by
  rw [gfxPrintChar]
  split
  · exact (sameInput_gfxHandleScrolling win info _).trans (sameInput_putBlanks win 4 _)
  · exact sameInput_printPlain win info c row col

/-! ### Scrolling is up to the cursor -/

theorem gfxHandleScrolling_fst_congr (win : TextWindow) (info info' : InpInfo) (offsetY : Int) :
    (gfxHandleScrolling win info offsetY).1 = (gfxHandleScrolling win info' offsetY).1 := by
  rw [gfxHandleScrolling, gfxHandleScrolling]
  split
  · rfl
  · rfl

/-- The cursors are at one place. -/
structure SameCursor (info info' : InpInfo) : Prop where
  x : info.cursorOffsetX = info'.cursorOffsetX
  y : info.cursorOffsetY = info'.cursorOffsetY

theorem SameCursor.gfxHandleScrolling (h : SameCursor info info') (win : TextWindow) (offsetY : Int) :
    SameCursor (gfxHandleScrolling win info offsetY).2 (gfxHandleScrolling win info' offsetY).2 := by
  rw [Winsys.gfxHandleScrolling, Winsys.gfxHandleScrolling]
  split
  · exact h
  · exact ⟨h.x, h.y⟩

theorem SameCursor.printPlain (h : SameCursor info info') (win : TextWindow) (c : Byte) :
    SameCursor (printPlain win info c (-1) (-1)).1 (printPlain win info' c (-1) (-1)).1 := by
  have hoffset : printOffset info (-1) (-1) = printOffset info' (-1) (-1) := by
    rw [printOffset, printOffset, h.x, h.y]
  rw [Winsys.printPlain, Winsys.printPlain, hoffset]
  split
  · exact h
  · dsimp only
    rw [gfxHandleScrolling_fst_congr win info info', printAt, printAt]
    split
    · exact ⟨rfl, rfl⟩
    · exact ⟨rfl, rfl⟩

theorem SameCursor.scrolls (h : SameCursor info info') (win : TextWindow) : scrolls win info = scrolls win info' := by
  rw [Winsys.scrolls, Winsys.scrolls, h.y]

theorem SameCursor.blankScrolls (h : SameCursor info info') (win : TextWindow) (k : Nat) :
    blankScrolls win k info = blankScrolls win k info' := by
  induction k generalizing info info' with
  | zero => rfl
  | succ k ih => rw [Winsys.blankScrolls, Winsys.blankScrolls, h.scrolls, ih (h.printPlain win 0x20#8)]

theorem SameCursor.scrollsOf (h : SameCursor info info') (win : TextWindow) (c : Byte) :
    scrollsOf win info (.printChar c) = scrollsOf win info' (.printChar c) := by
  rw [Winsys.scrollsOf, Winsys.scrollsOf, h.scrolls, h.y]
  simp only [(h.gfxHandleScrolling win _).blankScrolls]

/-! ### Only the buffer is written -/

/-- The next byte is one of the buffer, and all bytes that were stored are. -/
structure InBuffer (buff n : BitVec 32) (s : Shell) : Prop where
  buffer : s.info.inputBuffer = buff
  limit : s.info.inputBufferLimit = n
  index : s.info.inputBufferIndex.toNat < n.toNat
  stores : ∀ w ∈ s.stores, ∃ i < n.toNat, w.1 = buff + BitVec.ofNat 32 i

theorem InBuffer.of_sameInput (h : InBuffer buff n s) (hsame : SameInput s.info s'.info)
    (hstores : s'.stores = s.stores) : InBuffer buff n s' where
  buffer := hsame.inputBuffer.trans h.buffer
  limit := hsame.inputBufferLimit.trans h.limit
  index := hsame.inputBufferIndex ▸ h.index
  stores := hstores ▸ h.stores

theorem InBuffer.setEvents (h : InBuffer buff n s) (events : List Event) :
    InBuffer buff n { s with events := events } :=
  h.of_sameInput (SameInput.refl s.info) rfl

theorem InBuffer.keepCursor (h : InBuffer buff n s) : InBuffer buff n (keepCursor s) :=
  h.of_sameInput ⟨rfl, rfl, rfl, rfl⟩ rfl

/-- A store at the next byte. -/
theorem InBuffer.store (h : InBuffer buff n s) (c : Byte) :
    ∀ w ∈ s.stores ++ [(s.info.inputBuffer + s.info.inputBufferIndex, c)],
      ∃ i < n.toNat, w.1 = buff + BitVec.ofNat 32 i := by
  intro w hw
  obtain hw | hw := List.mem_append.mp hw
  · exact h.stores w hw
  · rw [List.mem_singleton.mp hw]
    exact ⟨s.info.inputBufferIndex.toNat, h.index, by rw [h.buffer, BitVec.ofNat_toNat, BitVec.setWidth_eq]⟩

theorem InBuffer.keyboardInputCharacter (h : InBuffer buff n s) (c : Byte) :
    InBuffer buff n (keyboardInputCharacter c s).2 := by
  have hindex := h.index
  rw [Shell.keyboardInputCharacter, gfxKeyboardInputCharacter]
  dsimp only
  split
  · split
    · exact h.of_sameInput ⟨rfl, rfl, rfl, rfl⟩ (List.append_nil _)
    · next hne =>
      refine ⟨h.buffer, h.limit, ?_, by simpa using h.stores⟩
      dsimp only
      bv_omega
  · split
    · exact ⟨h.buffer, h.limit, h.index, h.store 0#8⟩
    · split
      · exact h.of_sameInput ⟨rfl, rfl, rfl, rfl⟩ (List.append_nil _)
      · next hne =>
        have hlimit := h.limit
        refine ⟨h.buffer, h.limit, ?_, h.store c⟩
        dsimp only
        bv_omega

theorem InBuffer.putchar (h : InBuffer buff n s) (hput : putchar env c s = some s') : InBuffer buff n s' := by
  rw [Shell.putchar] at hput
  obtain ⟨events, -, hput⟩ := Option.bind_eq_some_iff.mp hput
  rw [← Option.some.inj hput]
  exact h.of_sameInput (sameInput_gfxPrintChar env.mainWindow s.info c (-1) (-1)) rfl

theorem InBuffer.gfxPrint {msg : List Byte} (h : InBuffer buff n s) (hprint : gfxPrint env msg s = some s') :
    InBuffer buff n s' := by
  induction msg generalizing s with
  | nil => exact Option.some.inj hprint ▸ h
  | cons c msg ih =>
    obtain ⟨s₁, hput, hprint⟩ := Option.bind_eq_some_iff.mp hprint
    exact ih (h.putchar hput) hprint

theorem InBuffer.print {msg : List Byte} (h : InBuffer buff n s) (hprint : print env msg s = some s') :
    InBuffer buff n s' := by
  obtain ⟨s₁, hprinted, rfl⟩ := Option.map_eq_some_iff.mp hprint
  exact (h.gfxPrint hprinted).of_sameInput ⟨rfl, rfl, rfl, rfl⟩ rfl

theorem InBuffer.eraseLine {turns : Nat} (h : InBuffer buff n s) (herase : eraseLine env turns s = some s') :
    InBuffer buff n s' := by
  induction turns generalizing s with
  | zero => simp [Shell.eraseLine] at herase
  | succ turns ih =>
    rw [Shell.eraseLine] at herase
    split at herase
    · exact Option.some.inj herase ▸ h.keyboardInputCharacter 0x08#8
    · obtain ⟨s₁, hput, herase⟩ := Option.bind_eq_some_iff.mp herase
      exact ih ((h.keyboardInputCharacter 0x08#8).putchar hput).keepCursor herase

theorem InBuffer.inputAll (h : InBuffer buff n s) (cs : List Byte) : InBuffer buff n (inputAll cs s) := by
  induction cs generalizing s with
  | nil => exact h
  | cons c cs ih => exact ih (h.keyboardInputCharacter c)

theorem InBuffer.replaceLine {cmd : List Byte} (h : InBuffer buff n s) (hreplace : replaceLine env cmd s = some s') :
    InBuffer buff n s' := by
  rw [Shell.replaceLine] at hreplace
  obtain ⟨s₁, herase, hreplace⟩ := Option.bind_eq_some_iff.mp hreplace
  obtain ⟨s₂, hprint, hreplace⟩ := Option.bind_eq_some_iff.mp hreplace
  rw [← Option.some.inj hreplace]
  exact ((h.eraseLine herase).print hprint).keepCursor.inputAll cmd

theorem InBuffer.incrementCmdHistoryPtr (h : InBuffer buff n s) : InBuffer buff n (incrementCmdHistoryPtr s).2 := by
  rw [Shell.incrementCmdHistoryPtr]
  split
  · exact h
  · exact h.of_sameInput (SameInput.refl _) rfl

theorem InBuffer.decrementCmdHistoryPtr (h : InBuffer buff n s) : InBuffer buff n (decrementCmdHistoryPtr s).2 := by
  rw [Shell.decrementCmdHistoryPtr]
  split
  · exact h.of_sameInput (SameInput.refl _) rfl
  · exact h.of_sameInput (SameInput.refl _) rfl

theorem InBuffer.keyUp (h : InBuffer buff n s) (hkey : keyUp env s = some s') : InBuffer buff n s' := by
  rw [Shell.keyUp] at hkey
  split at hkey
  · split at hkey
    · exact h.incrementCmdHistoryPtr.replaceLine hkey
    · exact Option.some.inj hkey ▸ h.incrementCmdHistoryPtr.decrementCmdHistoryPtr
  · exact Option.some.inj hkey ▸ h.incrementCmdHistoryPtr

theorem InBuffer.keyDown (h : InBuffer buff n s) (hkey : keyDown env s = some s') : InBuffer buff n s' := by
  rw [Shell.keyDown] at hkey
  split at hkey
  · split at hkey
    · exact h.decrementCmdHistoryPtr.replaceLine hkey
    · exact Option.some.inj hkey ▸ h.decrementCmdHistoryPtr
  · exact Option.some.inj hkey ▸ h.decrementCmdHistoryPtr

theorem InBuffer.keyCharacter (h : InBuffer buff n s) (hkey : keyCharacter env c s = some s') :
    InBuffer buff n s' := by
  rw [Shell.keyCharacter] at hkey
  split at hkey
  · exact Option.some.inj hkey ▸ h.keyboardInputCharacter c
  · obtain ⟨s₁, hput, rfl⟩ := Option.map_eq_some_iff.mp hkey
    exact ((h.keyboardInputCharacter c).putchar hput).keepCursor.of_sameInput (SameInput.refl _) rfl

/-- Whatever event is handled. -/
theorem InBuffer.handleEvent (h : InBuffer buff n s) (hevent : handleEvent env e s = some s') :
    InBuffer buff n s' := by
  rw [Shell.handleEvent] at hevent
  split at hevent
  · obtain ⟨c, -, hkey⟩ := Option.bind_eq_some_iff.mp hevent
    split at hkey
    · exact h.keyUp hkey
    · split at hkey
      · exact h.keyDown hkey
      · exact h.keyCharacter hkey
  · exact Option.some.inj hevent ▸ h

theorem InBuffer.inputLoop {turns : Nat} (h : InBuffer buff n s) (hloop : inputLoop env turns s = some s') :
    InBuffer buff n s' := by
  induction turns generalizing s with
  | zero => simp [Shell.inputLoop] at hloop
  | succ turns ih =>
    rw [Shell.inputLoop] at hloop
    split at hloop
    · split at hloop
      · simp at hloop
      · obtain ⟨s₁, hevent, hloop⟩ := Option.bind_eq_some_iff.mp hloop
        exact ih ((h.setEvents _).handleEvent hevent) hloop
    · exact Option.some.inj hloop ▸ h

theorem inBuffer_start (h : 0 < n.toNat) (hstores : s.stores = []) (buff : BitVec 32) :
    InBuffer buff n (start buff n s) where
  buffer := rfl
  limit := rfl
  index := h
  stores := by
    rw [start, hstores]
    exact fun w hw => absurd hw List.not_mem_nil

/-- Reading a line writes its buffer only, whatever the keys are. -/
theorem getShellInput_stores (h : 0 < n.toNat) (hstores : s.stores = [])
    (hinput : getShellInput env buff n s = some s') :
    ∀ w ∈ s'.stores, ∃ i < n.toNat, w.1 = buff + BitVec.ofNat 32 i :=
  ((inBuffer_start h hstores buff).inputLoop hinput).stores

/-! ### The line that is held -/

theorem HoldsLine.of_sameInput (h : HoldsLine memory buff line s) (hsame : SameInput s.info s'.info)
    (hstores : s'.stores = s.stores) : HoldsLine memory buff line s' where
  index := hsame.inputBufferIndex ▸ h.index
  holds := hstores ▸ h.holds

/-- A byte is stored behind a string. -/
theorem holdsAt_store {start : BitVec 32} (h : HoldsAt memory start line) (hlength : line.length < 2 ^ 32) (c : Byte) :
    HoldsAt (Overlay.put memory [(start + line.length, c)]) start (line ++ [c]) := by
  refine holdsAt_append.mpr ⟨h.congr fun i hi => ?_, if_pos rfl, trivial⟩
  refine Overlay.put_of_not_mem fun w hw heq => ?_
  rw [List.mem_singleton.mp hw, add_right_inj] at heq
  have hmod := congrArg BitVec.toNat heq
  rw [BitVec.natCast_eq_ofNat, BitVec.natCast_eq_ofNat, BitVec.toNat_ofNat, BitVec.toNat_ofNat,
    Nat.mod_eq_of_lt hlength, Nat.mod_eq_of_lt (hi.trans hlength)] at hmod
  omega

theorem HoldsLine.append (hline : HoldsLine memory buff line s) (h : InBuffer buff n s) (c : Byte) :
    HoldsAt (Overlay.put memory (s.stores ++ [(s.info.inputBuffer + s.info.inputBufferIndex, c)])) buff
      (line ++ [c]) := by
  have hindex : s.info.inputBufferIndex = (line.length : BitVec 32) := by
    rw [← hline.index, BitVec.natCast_eq_ofNat, BitVec.ofNat_toNat, BitVec.setWidth_eq]
  have hlength : line.length < 2 ^ 32 := hline.index ▸ s.info.inputBufferIndex.isLt
  rw [Overlay.put_append, h.buffer, hindex]
  exact holdsAt_store hline.holds hlength c

/-! ### One character -/

/-- Where the character is printed. -/
theorem sameCursor_keyboardInputCharacter (c : Byte) (s : Shell) :
    SameCursor (keyboardInputCharacter c s).2.info
      { s.info with cursorOffsetX := s.info.cursorInputCol, cursorOffsetY := s.info.cursorInputRow } := by
  rw [keyboardInputCharacter, gfxKeyboardInputCharacter]
  dsimp only
  split
  · split
    · exact ⟨rfl, rfl⟩
    · exact ⟨rfl, rfl⟩
  · split
    · exact ⟨rfl, rfl⟩
    · split
      · exact ⟨rfl, rfl⟩
      · exact ⟨rfl, rfl⟩

/-- A character that is not accepted. -/
theorem keyboardInputCharacter_of_not_accepts (h : ¬ Accepts s.info c) :
    (keyboardInputCharacter c s).1 = -1 ∧ (keyboardInputCharacter c s).2.stores = s.stores ∧
      SameInput s.info (keyboardInputCharacter c s).2.info := by
  rw [Accepts] at h
  rw [keyboardInputCharacter, gfxKeyboardInputCharacter]
  dsimp only
  split at h
  · next hback =>
    rw [if_pos hback, if_pos (not_not.mp h)]
    exact ⟨rfl, List.append_nil _, rfl, rfl, rfl, rfl⟩
  · next hback =>
    obtain ⟨hline, hfull⟩ := not_or.mp h
    rw [if_neg hback, if_neg hline, if_pos (not_not.mp hfull)]
    exact ⟨rfl, List.append_nil _, rfl, rfl, rfl, rfl⟩

theorem keyboardInputCharacter_of_accepts (h : Accepts s.info c) : (keyboardInputCharacter c s).1 ≠ -1 := by
  rw [Accepts] at h
  rw [keyboardInputCharacter, gfxKeyboardInputCharacter]
  dsimp only
  split at h
  · next hback =>
    rw [if_pos hback, if_neg h]
    simp
  · next hback =>
    rw [if_neg hback]
    split
    · simp
    · next hline =>
      rw [if_neg (h.resolve_left hline)]
      simp

theorem putchar_of_no_scroll
    (h : env.currentTask = true → scrollsOf env.mainWindow s.info (.printChar c) = 0) :
    putchar env c s = some { s with info := (gfxPrintChar env.mainWindow s.info c (-1) (-1)).1 } := by
  rw [putchar]
  split
  · next htask =>
    rw [h htask]
    rfl
  · rfl

theorem keyCharacter_of_not_accepts (env : ShellEnv) (h : ¬ Accepts s.info c) :
    ∃ s', keyCharacter env c s = some s' ∧ s'.events = s.events ∧ s'.stores = s.stores ∧ SameInput s.info s'.info := by
  obtain ⟨hresult, hstores, hsame⟩ := keyboardInputCharacter_of_not_accepts h
  exact ⟨(keyboardInputCharacter c s).2, if_pos hresult, rfl, hstores, hsame⟩

/-- One that is, and is printed without a wait. -/
theorem keyCharacter_of_accepts (h : Accepts s.info c)
    (hcalm : env.currentTask = true → scrollsOf env.mainWindow
      { s.info with cursorOffsetX := s.info.cursorInputCol, cursorOffsetY := s.info.cursorInputRow }
      (.printChar c) = 0) :
    ∃ s', keyCharacter env c s = some s' ∧ s'.events = s.events ∧
      s'.stores = (keyboardInputCharacter c s).2.stores ∧ SameInput (keyboardInputCharacter c s).2.info s'.info := by
  rw [← (sameCursor_keyboardInputCharacter c s).scrollsOf] at hcalm
  rw [keyCharacter]
  dsimp only
  rw [if_neg (keyboardInputCharacter_of_accepts h), putchar_of_no_scroll hcalm, Option.map_some]
  exact ⟨_, rfl, rfl, rfl, (sameInput_gfxPrintChar env.mainWindow _ c (-1) (-1)).trans ⟨rfl, rfl, rfl, rfl⟩⟩

/-! ### The keys of a line -/

/-- The state between two keys. -/
structure Typing (memory : BitVec 32 → Byte) (buff n : BitVec 32) (line : List Byte) (s : Shell) : Prop where
  taking : s.info.isTakingInput = true
  inBuffer : InBuffer buff n s
  holdsLine : HoldsLine memory buff line s

theorem Typing.of_sameInput (h : Typing memory buff n line s) (hsame : SameInput s.info s'.info)
    (hstores : s'.stores = s.stores) : Typing memory buff n line s' :=
  ⟨hsame.isTakingInput.trans h.taking, h.inBuffer.of_sameInput hsame hstores, h.holdsLine.of_sameInput hsame hstores⟩

theorem Typing.backspace (h : Typing memory buff n line s) (hne : s.info.inputBufferIndex ≠ 0#32) :
    Typing memory buff n line.dropLast (keyboardInputCharacter 0x08#8 s).2 := by
  have hindex := h.holdsLine.index
  have hline : line ≠ [] := by
    intro hnil
    rw [hnil, List.length_nil] at hindex
    exact hne (BitVec.eq_of_toNat_eq hindex)
  have hholds := h.holdsLine.holds
  rw [← List.dropLast_append_getLast hline] at hholds
  have hstate := h.inBuffer.keyboardInputCharacter 0x08#8
  simp only [keyboardInputCharacter, gfxKeyboardInputCharacter, if_pos, if_neg hne] at hstate ⊢
  refine ⟨h.taking, hstate, ?_, ?_⟩
  · rw [List.length_dropLast]
    dsimp only
    bv_omega
  · rw [Option.toList_none, List.append_nil]
    exact (holdsAt_append.mp hholds).1

theorem Typing.append (h : Typing memory buff n line s) (hback : c ≠ 0x08#8) (hend : c ≠ 0x0A#8)
    (hne : s.info.inputBufferIndex ≠ s.info.inputBufferLimit - 1#32) :
    Typing memory buff n (line ++ [c]) (keyboardInputCharacter c s).2 := by
  have hindex := h.holdsLine.index
  have hlt := h.inBuffer.index
  have hstate := h.inBuffer.keyboardInputCharacter c
  simp only [keyboardInputCharacter, gfxKeyboardInputCharacter, if_neg hback, if_neg hend, if_neg hne] at hstate ⊢
  refine ⟨h.taking, hstate, ?_, h.holdsLine.append h.inBuffer c⟩
  rw [List.length_append, List.length_singleton]
  dsimp only
  bv_omega

/-- At Enter the line gets its end. -/
theorem Typing.enter (h : Typing memory buff n line s) :
    (keyboardInputCharacter 0x0A#8 s).2.info.isTakingInput = false ∧
      HoldsAt (Overlay.put memory (keyboardInputCharacter 0x0A#8 s).2.stores) buff (line ++ [0#8]) :=
  ⟨rfl, h.holdsLine.append h.inBuffer 0#8⟩

/-- The line is full when its last byte is the next one. -/
theorem Typing.full_iff (h : Typing memory buff n line s) :
    s.info.inputBufferIndex = s.info.inputBufferLimit - 1#32 ↔ ¬ line.length < n.toNat - 1 := by
  have hindex := h.holdsLine.index
  have hlt := h.inBuffer.index
  rw [h.inBuffer.limit]
  constructor
  · intro heq
    bv_omega
  · intro hfull
    bv_omega

theorem Typing.typeChar_of_not_accepts (h : Typing memory buff n line s) (hnot : ¬ Accepts s.info c) :
    typeChar n.toNat line c = line := by
  rw [Accepts] at hnot
  rw [typeChar]
  split
  · rfl
  · split
    · next hback =>
      rw [if_pos hback] at hnot
      have hlength : line.length = 0 := by
        rw [← h.holdsLine.index, not_not.mp hnot]
        rfl
      rw [List.eq_nil_of_length_eq_zero hlength]
      rfl
    · next hback =>
      rw [if_neg hback] at hnot
      exact if_neg (h.full_iff.mp (not_not.mp (not_or.mp hnot).2))

theorem Typing.accepted (h : Typing memory buff n line s) (hacc : Accepts s.info c) (hzero : c ≠ 0#8)
    (hend : c ≠ 0x0A#8) : Typing memory buff n (typeChar n.toNat line c) (keyboardInputCharacter c s).2 := by
  rw [Accepts] at hacc
  rw [typeChar, if_neg hzero]
  split
  · next hback =>
    rw [if_pos hback] at hacc
    exact hback ▸ h.backspace hacc
  · next hback =>
    rw [if_neg hback] at hacc
    have hne := hacc.resolve_left hend
    rw [if_pos (not_not.mp fun hfull => hne (h.full_iff.mpr hfull))]
    exact h.append hback hend hne

/-- One event: it changes the line as it should, and takes no other from the queue. -/
theorem Typing.handleEvent (h : Typing memory buff n line s) (hplain : PlainKey e) (hcalm : CalmKey env e s) :
    ∃ s', handleEvent env e s = some s' ∧ s'.events = s.events ∧
      Typing memory buff n (foldKey n.toNat line e) s' := by
  rw [Shell.handleEvent, foldKey]
  by_cases hpress : isPress e = true
  · obtain ⟨c, hchar, hend, hup, hdown⟩ := hplain hpress
    rw [if_pos hpress, if_pos hpress, hchar, Option.bind_some, if_neg hup, if_neg hdown, Option.elim_some]
    by_cases hacc : Accepts s.info c
    · obtain ⟨hzero, hscroll⟩ := hcalm hpress c hchar hacc
      obtain ⟨s', hkey, hevents, hstores, hsame⟩ := keyCharacter_of_accepts hacc hscroll
      exact ⟨s', hkey, hevents, (h.accepted hacc hzero hend).of_sameInput hsame hstores⟩
    · obtain ⟨s', hkey, hevents, hstores, hsame⟩ := keyCharacter_of_not_accepts env hacc
      rw [h.typeChar_of_not_accepts hacc]
      exact ⟨s', hkey, hevents, h.of_sameInput hsame hstores⟩
  · rw [if_neg hpress, if_neg hpress]
    exact ⟨s, rfl, rfl, h⟩

/-- The arrows have no character. -/
theorem charOf_arrow (h : scancodeOf e = kUp ∨ scancodeOf e = kDown) : charOf e = some 0#8 := by
  rw [charOf]
  obtain h | h := h
  · rw [h]
    split
    · rfl
    · rfl
  · rw [h]
    split
    · rfl
    · rfl

theorem EnterKey.not_arrow (h : EnterKey e) : ¬ (scancodeOf e = kUp ∨ scancodeOf e = kDown) := by
  intro harrow
  have hchar := h.2.symm.trans (charOf_arrow harrow)
  simp at hchar

/-- Enter ends the line. -/
theorem Typing.handleEnter (h : Typing memory buff n line s) (henter : EnterKey e) (hcalm : CalmKey env e s) :
    ∃ s', Shell.handleEvent env e s = some s' ∧ s'.events = s.events ∧ s'.info.isTakingInput = false ∧
      HoldsAt (Overlay.put memory s'.stores) buff (line ++ [0#8]) := by
  obtain ⟨hup, hdown⟩ := not_or.mp henter.not_arrow
  obtain ⟨hpress, hchar⟩ := henter
  have hacc : Accepts s.info 0x0A#8 := Or.inl rfl
  obtain ⟨s', hkey, hevents, hstores, hsame⟩ := keyCharacter_of_accepts hacc (hcalm hpress 0x0A#8 hchar hacc).2
  obtain ⟨htaking, hholds⟩ := h.enter
  refine ⟨s', ?_, hevents, hsame.isTakingInput.trans htaking, hstores ▸ hholds⟩
  rw [Shell.handleEvent, if_pos hpress, hchar, Option.bind_some, if_neg hup, if_neg hdown, hkey]

/-! ### Whole lines -/

/-- A turn of the loop. -/
theorem inputLoop_cons {events : List Event} (htaking : s.info.isTakingInput = true) (hevents : s.events = e :: events)
    (hevent : handleEvent env e { s with events := events } = some s') (turns : Nat) :
    inputLoop env (turns + 1) s = inputLoop env turns s' := by
  rw [inputLoop, if_pos htaking, hevents]
  dsimp only
  rw [hevent, Option.bind_some]

theorem inputLoop_done (h : s.info.isTakingInput = false) (turns : Nat) : inputLoop env (turns + 1) s = some s := by
  rw [inputLoop, h]
  rfl

/-- The line stays what was typed from key to key, up to Enter. -/
theorem Typing.inputLoop {keys rest : List Event} {enter : Event} {turns : Nat} (h : Typing memory buff n line s)
    (hevents : s.events = keys ++ enter :: rest) (hplain : ∀ e ∈ keys, PlainKey e) (henter : EnterKey enter)
    (hcalm : CalmKeys env (keys ++ [enter]) s) (hturns : keys.length + 2 ≤ turns) :
    ∃ s', inputLoop env turns s = some s' ∧
      HoldsAt (Overlay.put memory s'.stores) buff (keys.foldl (foldKey n.toNat) line ++ [0#8]) := by
  induction keys generalizing s line turns with
  | nil =>
    obtain ⟨turns, rfl⟩ : ∃ k, turns = k + 1 + 1 := Nat.exists_eq_add_of_le' hturns
    have htyping : Typing memory buff n line { s with events := s.events.tail } :=
      h.of_sameInput (SameInput.refl s.info) rfl
    obtain ⟨s', hevent, -, htaking, hholds⟩ := htyping.handleEnter henter hcalm.1
    refine ⟨s', ?_, hholds⟩
    rw [hevents] at hevent
    rw [inputLoop_cons h.taking hevents hevent, inputLoop_done htaking]
  | cons e keys ih =>
    obtain ⟨turns, rfl⟩ : ∃ k, turns = k + 1 := ⟨turns - 1, by omega⟩
    rw [List.length_cons] at hturns
    have htail : s.events.tail = keys ++ enter :: rest := by rw [hevents, List.cons_append, List.tail_cons]
    have htyping : Typing memory buff n line { s with events := s.events.tail } :=
      h.of_sameInput (SameInput.refl s.info) rfl
    obtain ⟨s', hevent, hevents', htyping'⟩ := htyping.handleEvent (hplain e List.mem_cons_self) hcalm.1
    have hrest : ∀ e' ∈ keys, PlainKey e' := fun e' he' => hplain e' (List.mem_cons_of_mem e he')
    have hleft : keys.length + 2 ≤ turns := Nat.le_of_succ_le_succ hturns
    obtain ⟨final, hloop, hholds⟩ := ih htyping' (hevents'.trans htail) hrest (hcalm.2 s' hevent) hleft
    refine ⟨final, ?_, hholds⟩
    rw [htail] at hevent
    rw [inputLoop_cons h.taking hevents hevent, hloop]

theorem zero_not_mem_foldKey {k : Nat} (h : 0#8 ∉ line) (e : Event) : 0#8 ∉ foldKey k line e := by
  rw [foldKey]
  split
  · cases charOf e with
    | none => exact h
    | some c =>
      rw [Option.elim_some, typeChar]
      split
      · exact h
      · next hzero =>
        split
        · exact fun hmem => h (List.mem_of_mem_dropLast hmem)
        · split
          · intro hmem
            obtain hmem | hmem := List.mem_append.mp hmem
            · exact h hmem
            · exact hzero (List.mem_singleton.mp hmem).symm
          · exact h
  · exact h

/-- What is typed has no end inside. -/
theorem zero_not_mem_foldl (k : Nat) (h : 0#8 ∉ line) (keys : List Event) : 0#8 ∉ keys.foldl (foldKey k) line := by
  induction keys generalizing line with
  | nil => exact h
  | cons e keys ih => exact ih (zero_not_mem_foldKey h e)

/-! ### What a wait takes away -/

theorem length_waitForKey {events events' : List Event} (h : waitForKey events = some events') :
    events'.length < events.length := by
  induction events with
  | nil => simp [waitForKey] at h
  | cons e events ih =>
    rw [waitForKey] at h
    split at h
    · rw [Option.some.inj h, List.length_cons]
      exact Nat.lt_succ_self _
    · exact (ih h).trans (Nat.lt_succ_self _)

theorem length_waitForKeys {k : Nat} {events events' : List Event} (h : waitForKeys k events = some events') :
    events'.length + k ≤ events.length := by
  induction k generalizing events with
  | zero => exact (Option.some.inj h ▸ Nat.le_refl _ : events'.length ≤ events.length)
  | succ k ih =>
    obtain ⟨events₁, hwait, hrest⟩ := Option.bind_eq_some_iff.mp h
    have hlt := length_waitForKey hwait
    have hle := ih hrest
    omega

/-- An accepted character that leaves the queue alone was printed without a wait. -/
theorem keyCharacter_inv (h : Accepts s.info c) (hkey : keyCharacter env c s = some s')
    (hevents : s'.events = s.events) :
    SameInput (keyboardInputCharacter c s).2.info s'.info ∧ (env.currentTask = true → scrollsOf env.mainWindow
      { s.info with cursorOffsetX := s.info.cursorInputCol, cursorOffsetY := s.info.cursorInputRow }
      (.printChar c) = 0) := by
  rw [keyCharacter] at hkey
  dsimp only at hkey
  rw [if_neg (keyboardInputCharacter_of_accepts h)] at hkey
  obtain ⟨s₁, hput, rfl⟩ := Option.map_eq_some_iff.mp hkey
  obtain ⟨events, hwait, hput⟩ := Option.bind_eq_some_iff.mp hput
  obtain rfl := Option.some.inj hput
  refine ⟨(sameInput_gfxPrintChar env.mainWindow _ c (-1) (-1)).trans ⟨rfl, rfl, rfl, rfl⟩, fun htask => ?_⟩
  have hle := length_waitForKeys hwait
  have hkept : events = s.events := hevents
  rw [← (sameCursor_keyboardInputCharacter c s).scrollsOf]
  rw [if_pos htask, hkept] at hle
  exact Nat.le_zero.mp (Nat.le_of_add_le_add_left hle)

theorem Typing.calmKey (h : Typing memory buff n line s) (hplain : PlainKey e)
    (hevent : Shell.handleEvent env e s = some s') (hevents : s'.events = s.events)
    (hline : HoldsLine memory buff (foldKey n.toNat line e) s') : CalmKey env e s := by
  intro hpress c hchar hacc
  obtain ⟨c', hchar', hend, hup, hdown⟩ := hplain hpress
  obtain rfl : c' = c := Option.some.inj (hchar'.symm.trans hchar)
  rw [Shell.handleEvent, if_pos hpress, hchar, Option.bind_some, if_neg hup, if_neg hdown] at hevent
  obtain ⟨hsame, hscroll⟩ := keyCharacter_inv hacc hevent hevents
  refine ⟨?_, hscroll⟩
  intro hzero
  subst hzero
  -- the end that was stored is not in the line, but was counted
  have hne := hacc.resolve_left hend
  have hstored := (h.append (by decide) hend hne).holdsLine.index
  have hfold : foldKey n.toNat line e = line := by
    rw [foldKey, if_pos hpress, hchar]
    rfl
  have hcounted := hline.index
  rw [hsame.inputBufferIndex, hstored, hfold, List.length_append, List.length_singleton] at hcounted
  omega

theorem EnterKey.calmKey (henter : EnterKey e) (hevent : Shell.handleEvent env e s = some s')
    (hevents : s'.events = s.events) : CalmKey env e s := by
  intro hpress c hchar hacc
  obtain ⟨hup, hdown⟩ := not_or.mp henter.not_arrow
  obtain rfl : 0x0A#8 = c := Option.some.inj (henter.2.symm.trans hchar)
  rw [Shell.handleEvent, if_pos hpress, hchar, Option.bind_some, if_neg hup, if_neg hdown] at hevent
  exact ⟨by decide, (keyCharacter_inv hacc hevent hevents).2⟩

theorem Typing.followsKeys_iff {keys : List Event} {enter : Event} (h : Typing memory buff n line s)
    (hplain : ∀ e ∈ keys, PlainKey e) (henter : EnterKey enter) :
    FollowsKeys env memory buff n enter keys line s ↔ CalmKeys env (keys ++ [enter]) s := by
  induction keys generalizing line s with
  | nil =>
    have htyping : Typing memory buff n line { s with events := s.events.tail } :=
      h.of_sameInput (SameInput.refl s.info) rfl
    constructor
    · intro hfollows
      obtain ⟨s', hevent, hevents, -⟩ := hfollows
      exact ⟨henter.calmKey (s := { s with events := s.events.tail }) hevent hevents, fun _ _ => trivial⟩
    · intro hcalm
      obtain ⟨s', hevent, hevents, -, hholds⟩ := htyping.handleEnter henter hcalm.1
      exact ⟨s', hevent, hevents, hholds⟩
  | cons e keys ih =>
    have htyping : Typing memory buff n line { s with events := s.events.tail } :=
      h.of_sameInput (SameInput.refl s.info) rfl
    have hkey : PlainKey e := hplain e List.mem_cons_self
    have hrest : ∀ e' ∈ keys, PlainKey e' := fun e' he' => hplain e' (List.mem_cons_of_mem e he')
    constructor
    · intro hfollows
      obtain ⟨s', hevent, hevents, hline, hfollows⟩ := hfollows
      have hcalm := htyping.calmKey hkey hevent hevents hline
      obtain ⟨s₁, hevent₁, -, htyping₁⟩ := htyping.handleEvent hkey hcalm
      obtain rfl := Option.some.inj (hevent₁.symm.trans hevent)
      refine ⟨hcalm, fun s₂ hevent₂ => ?_⟩
      obtain rfl := Option.some.inj (hevent₁.symm.trans hevent₂)
      exact (ih htyping₁ hrest).mp hfollows
    · intro hcalm
      obtain ⟨s', hevent, hevents, htyping'⟩ := htyping.handleEvent hkey hcalm.1
      exact ⟨s', hevent, hevents, htyping'.holdsLine, (ih htyping' hrest).mpr (hcalm.2 s' hevent)⟩

/-- The line is taken when every key that it accepts has a character and the window does not scroll for it. -/
theorem followsKeys_iff_calm (env : ShellEnv) (memory : BitVec 32 → Byte) (buff buffSize : BitVec 32) (info : InpInfo)
    (cmdHistoryPtr : Int) (keys rest : List Event) (enter : Event) (hsize : 1 ≤ buffSize.toInt)
    (hplain : ∀ e ∈ keys, PlainKey e) (henter : EnterKey enter) :
    (FollowsKeys env memory buff buffSize enter keys []
        (start buff buffSize ⟨info, cmdHistoryPtr, [], keys ++ enter :: rest⟩) ↔
      CalmKeys env (keys ++ [enter]) (start buff buffSize ⟨info, cmdHistoryPtr, [], keys ++ enter :: rest⟩)) ∧
    (CalmKeys env (keys ++ [enter]) (start buff buffSize ⟨info, cmdHistoryPtr, [], keys ++ enter :: rest⟩) →
      TakesLine env memory buff buffSize keys ⟨info, cmdHistoryPtr, [], keys ++ enter :: rest⟩) := by
  have hpos : 0 < buffSize.toNat := by
    rw [BitVec.toInt_eq_toNat_cond] at hsize
    split at hsize <;> omega
  have hstart : Typing memory buff buffSize []
      (start buff buffSize ⟨info, cmdHistoryPtr, [], keys ++ enter :: rest⟩) :=
    ⟨rfl, inBuffer_start hpos rfl buff, rfl, trivial⟩
  have hturns : keys.length + 2 ≤ (keys ++ enter :: rest).length + 1 := by
    rw [List.length_append, List.length_cons]
    omega
  refine ⟨hstart.followsKeys_iff hplain henter, fun hcalm => ?_⟩
  obtain ⟨s', hloop, hholds⟩ := hstart.inputLoop rfl hplain henter hcalm hturns
  exact ⟨s', hloop, hholds, zero_not_mem_foldl _ List.not_mem_nil keys, getShellInput_stores hpos rfl hloop⟩

/-- The window of the shell, and no commands to recall. -/
def shellEnv : ShellEnv where
  mainWindow := ⟨880#32, 640#32⟩
  currentTask := true
  cmdHistory := List.replicate 10 none

/-- The keys a and b, with F1 between them, and Enter. -/
def wordKeys : List Event := [kbdEvent 0#8 30#8, kbdEvent 0#8 59#8, kbdEvent 0#8 48#8]

def enterEvent : Event := kbdEvent 0#8 28#8

/-- F1 puts an end between the letters. -/
theorem not_takesLines : ¬ TakesLines := by
  intro h
  obtain ⟨s', hinput, hholds, -⟩ := h shellEnv (fun _ => 0#8) 0x1000#32 300#32 InpInfo.zeroed (-1) wordKeys []
    enterEvent (by decide) (by decide) (by decide)
  have hstores : (getShellInput shellEnv 0x1000#32 300#32
      ⟨InpInfo.zeroed, -1, [], wordKeys ++ enterEvent :: []⟩).map Shell.stores =
      some [(0x1000#32, 0x61#8), (0x1001#32, 0#8), (0x1002#32, 0x62#8), (0x1003#32, 0#8)] := by decide +kernel
  rw [hinput] at hstores
  rw [Option.some.inj hstores] at hholds
  have hsecond : 0#8 = 0x62#8 := hholds.2.1
  simp at hsecond

/-- A word without other keys. -/
theorem followsKeys_iff_calm_word :
    TakesLine shellEnv (fun _ => 0#8) 0x1000#32 300#32 [kbdEvent 0#8 30#8, kbdEvent 0#8 48#8]
      ⟨InpInfo.zeroed, -1, [], [kbdEvent 0#8 30#8, kbdEvent 0#8 48#8] ++ enterEvent :: []⟩ :=
  (followsKeys_iff_calm shellEnv (fun _ => 0#8) 0x1000#32 300#32 InpInfo.zeroed (-1)
    [kbdEvent 0#8 30#8, kbdEvent 0#8 48#8] [] enterEvent (by decide) (by decide) (by decide)).2 (by decide +kernel)

end Shell

end Akos.Winsys
