import Akos.Utils.Strings
import Akos.Winsys.EventQueue

/-!
# Keys

`keyboard.c`: the two tables that give a scan code its character, and the interrupt handler, which turns the scan codes
of the controller into the events of the working window.
-/

namespace Akos.Drivers

open Winsys (Event)

/-! ### The tables -/

def chars (cs : List Char) : List Byte := cs.map fun c => BitVec.ofNat 8 c.toNat

/-- `unsigned char kbdus[128]`; codes stand for the quote, the backtick, the backslash and the blank. -/
def kbdus : List Byte :=
  [0#8, 27#8] ++ chars ['1', '2', '3', '4', '5', '6', '7', '8', '9', '0', '-', '='] ++ [0x08#8, 0x09#8] ++
    chars ['q', 'w', 'e', 'r', 't', 'y', 'u', 'i', 'o', 'p', '[', ']'] ++ [0x0A#8, 0#8] ++
    chars ['a', 's', 'd', 'f', 'g', 'h', 'j', 'k', 'l', ';'] ++ [0x27#8, 0x60#8, 0#8, 0x5C#8] ++
    chars ['z', 'x', 'c', 'v', 'b', 'n', 'm', ',', '.', '/'] ++ [0#8] ++ chars ['*'] ++ [0#8, 0x20#8, 0#8] ++
    -- F1 to F10, the locks, Home, Up and Page Up
    List.replicate 15 0#8 ++ chars ['-'] ++ List.replicate 3 0#8 ++ chars ['+'] ++ List.replicate 49 0#8

/-- `unsigned char kbdus_shift[128]` -/
def kbdusShift : List Byte :=
  [0#8, 27#8] ++ chars ['!', '@', '#', '$', '%', '^', '&', '*', '(', ')', '_', '+'] ++ [0x08#8, 0x09#8] ++
    chars ['Q', 'W', 'E', 'R', 'T', 'Y', 'U', 'I', 'O', 'P'] ++ [0x7B#8, 0x7D#8, 0x0A#8, 0#8] ++
    chars ['A', 'S', 'D', 'F', 'G', 'H', 'J', 'K', 'L', ':'] ++ [0x22#8, 0x7E#8, 0#8, 0x7C#8] ++
    chars ['Z', 'X', 'C', 'V', 'B', 'N', 'M', '<', '>', '?'] ++ [0#8] ++ chars ['*'] ++ [0#8, 0x20#8, 0#8] ++
    List.replicate 15 0#8 ++ chars ['-'] ++ List.replicate 3 0#8 ++ chars ['+'] ++ List.replicate 49 0#8

theorem length_kbdus : kbdus.length = 128 := by simp [kbdus, chars]

theorem length_kbdusShift : kbdusShift.length = 128 := by simp [kbdusShift, chars]

/-! ### Events of keys -/

/-- `EVENT_KBD_PRESS` -/
abbrev eventKbdPress : BitVec 32 := 2#32

/-- `EVENT_KBD_RELEASE` -/
abbrev eventKbdRelease : BitVec 32 := 4#32

/-- The test by which a reader finds a key that was pressed. -/
def isPress (e : Event) : Bool := e.eventType &&& eventKbdPress ≠ 0#32

/-- `char scancode = e.event_data & 0xFF;` -/
def scancodeOf (e : Event) : Byte := (e.eventData &&& 0xFF#32).setWidth 8

/-- The character of a key. The scan code is a signed index, and from 128 on it is outside the tables. -/
def charOf (e : Event) : Option Byte :=
  (if e.eventData &&& 0x200#32 ≠ 0#32 then kbdusShift else kbdus)[(scancodeOf e).toNat]?

theorem isSome_charOf {e : Event} : (charOf e).isSome = true ↔ (scancodeOf e).toNat < 128 := by
  rw [charOf]
  split
  · rw [isSome_getElem?, length_kbdusShift]
  · rw [isSome_getElem?, length_kbdus]

/-- The two tables leave the same keys without a character. -/
theorem kbdusShift_eq_zero : ∀ i < 128, kbdusShift[i]? = some 0#8 ↔ kbdus[i]? = some 0#8 := by decide

/-! ### The interrupt handler -/

/-- `kstatus |= bit;` and `kstatus &= ~bit;` -/
def enable (bit kstatus : Byte) : Byte := kstatus ||| bit

def disable (bit kstatus : Byte) : Byte := kstatus &&& ~~~bit

def check (bit kstatus : Byte) : Bool := kstatus &&& bit ≠ 0#8

/-- The bits of `kstatus`. -/
abbrev caps : Byte := 0x08#8
abbrev shift : Byte := 0x04#8
abbrev alt : Byte := 0x02#8
abbrev ctrl : Byte := 0x01#8

/-- What a released key does to `kstatus`. -/
def released (kstatus scancode : Byte) : Byte :=
  if scancode = 170#8 ∨ scancode = 182#8 then disable shift kstatus
  else if scancode = 157#8 then disable ctrl kstatus
  else if scancode = 184#8 then disable alt kstatus
  else if scancode = 186#8 then if check caps kstatus then disable caps kstatus else enable caps kstatus
  else kstatus

/-- The event that is put together for a scan code. -/
def kbdEvent (kstatus scancode : Byte) : Event where
  eventType := if scancode &&& 0x80#8 ≠ 0#8 then eventKbdRelease else eventKbdPress
  eventData :=
    let data := (scancode &&& 0x7F#8).setWidth 32
    let data := if check caps kstatus then data ||| 0x100#32 else data
    let data := if check shift kstatus then data ||| 0x200#32 else data
    if check alt kstatus then data ||| 0x400#32 else data

/-- `keyboard_handler`: `kstatus` and the event for the working window. The keys that change `kstatus` have none. -/
def keyboardHandler (kstatus scancode : Byte) : Byte × Option Event :=
  if scancode &&& 0x80#8 ≠ 0#8 then
    (released kstatus scancode, some (kbdEvent (released kstatus scancode) scancode))
  else if scancode = 42#8 ∨ scancode = 54#8 then (enable shift kstatus, none)
  else if scancode = 29#8 then (enable ctrl kstatus, none)
  else if scancode = 56#8 then (enable alt kstatus, none)
  else if scancode = 58#8 then (kstatus, none)
  else (kstatus, some (kbdEvent kstatus scancode))

theorem or_and_low (data : BitVec 32) {flag : BitVec 32} (h : flag &&& 0xFF#32 = 0#32) :
    (data ||| flag) &&& 0xFF#32 = data &&& 0xFF#32 := by
  rw [BitVec.and_or_distrib_right, h, BitVec.or_zero]

theorem scancodeOf_kbdEvent (kstatus scancode : Byte) :
    scancodeOf (kbdEvent kstatus scancode) = scancode &&& 0x7F#8 := by
  have hlow : (kbdEvent kstatus scancode).eventData &&& 0xFF#32 =
      (scancode &&& 0x7F#8).setWidth 32 &&& 0xFF#32 := by
    simp only [kbdEvent]
    split <;> split <;> split <;> simp [or_and_low]
  rw [scancodeOf, hlow, BitVec.setWidth_and, BitVec.setWidth_setWidth_of_le _ (by decide), BitVec.setWidth_eq]
  exact BitVec.and_allOnes

/-- The scan code of every event of the keyboard has seven bits. -/
theorem keyboardHandler_scancode {kstatus scancode : Byte} {e : Event}
    (h : (keyboardHandler kstatus scancode).2 = some e) : (scancodeOf e).toNat < 128 := by
  have hevent : ∃ kstatus', e = kbdEvent kstatus' scancode := by
    grind [keyboardHandler]
  obtain ⟨kstatus', rfl⟩ := hevent
  rw [scancodeOf_kbdEvent, BitVec.toNat_and]
  exact Nat.lt_of_le_of_lt Nat.and_le_right (by decide)

end Akos.Drivers
