import Akos.Fat12.Volume
import Akos.Lib.Contract
import Akos.Memory.Heap
import Akos.Utils.Stripping

/-!
# The shell's blocks

`shell.c` copies the parts of a command into blocks of the heap and releases them again. A block here has the number of
the `kmalloc` that returned it, so that one that was released is never taken for a later one; a program stops when it
reads or writes outside of a block, or uses or releases one that is not there, and when there is no room for a block.
-/

namespace Akos.Shell

open Fat12 (FILE Flags)

/-- `' '`, `'\\'` and `';'` -/
abbrev space : Byte := 0x20#8
abbrev backslash : Byte := 0x5C#8
abbrev semicolon : Byte := 0x3B#8

def text (s : String) : List Byte := s.toList.map fun c => BitVec.ofNat 8 c.toNat

/-- An argument of `printf`. -/
inductive Arg
  | str (s : List Byte)
  | int (v : BitVec 32)

/-- The blocks in use, the last one first, and the number of the next one. -/
structure Blocks where
  live : List (Nat × List Byte)
  next : Nat

/-- What the shell calls of the kernel, over the state of the rest of the system, and what is in the blocks that it
gets. -/
structure System (σ : Type) where
  /-- Whether `kmalloc` finds room for some bytes. -/
  room : Blocks → σ → Nat → Bool
  junk : Nat → Nat → Byte
  /-- The string at address 0, which can be read through a null pointer. -/
  atNull : σ → List Byte
  print : List Byte → σ → σ
  printf : List Byte → List Arg → σ → σ
  volOpenFile : List Byte → σ → FILE × σ
  volCloseFile : FILE → σ → σ
  volCreateFile : FILE → List Byte → Flags → σ → σ
  volOpenDir : List Byte → σ → List FILE × σ
  createProcess : List Byte → Option (List Byte) → σ → BitVec 32 × σ
  waitForProcessToFinish : BitVec 32 → σ → σ
  /-- `is_kernel` of the process. -/
  getProcessByID : BitVec 32 → σ → Option Bool
  terminateProcessById : BitVec 32 → σ → σ
  /-- There is no result when the process is the shell's own. -/
  terminateKernelProcessById : BitVec 32 → σ → Option σ
  getTicks : σ → BitVec 32 × σ
  clearViewport : σ → σ
  printStats : σ → σ
  printProcesses : σ → σ
  gfxOpenBmp16 : List Byte → σ → σ

/-- The variables of `shell.c`. -/
structure State (σ : Type) where
  blocks : Blocks
  path : Nat
  cmdHistory : List (Option Nat)
  cmdHistoryPtr : Int
  world : σ

/-- Why a program stops: it uses memory that it does not have, or every block is in use. -/
inductive Stop
  | fault
  | noRoom

abbrev Command (σ : Type) := StateT (State σ) (Except Stop)

variable {σ α : Type} (sys : System σ)

/-! ### Blocks -/

/-- A block that holds some bytes. -/
def State.push (s : State σ) (bytes : List Byte) : State σ :=
  { s with blocks := ⟨(s.blocks.next, bytes) :: s.blocks.live, s.blocks.next + 1⟩ }

/-- The null pointer that there is without room is never checked for, and written to at once. -/
def kmalloc (size : Nat) : Command σ Nat := fun s =>
  if sys.room s.blocks s.world size then
    .ok (s.blocks.next, s.push ((List.range size).map (sys.junk s.blocks.next)))
  else .error .noRoom

/-- Nothing is done with a null pointer. -/
def kfree : Option Nat → Command σ Unit
  | none => pure ()
  | some p => fun s =>
    if s.blocks.live.any fun block => block.1 = p then
      .ok ((), { s with blocks := { s.blocks with live := s.blocks.live.eraseP fun block => block.1 = p } })
    else .error .fault

def load (p : Nat) : Command σ (List Byte) := fun s =>
  match s.blocks.live.lookup p with
  | some bytes => .ok (bytes, s)
  | none => .error .fault

/-- Bytes are stored into a block from an offset on. -/
def store (p offset : Nat) (bytes : List Byte) : Command σ Unit := fun s =>
  match s.blocks.live.lookup p with
  | some block =>
    if offset + bytes.length ≤ block.length then
      .ok ((), { s with blocks := { s.blocks with live := s.blocks.live.map fun b =>
        if b.1 = p then (p, block.take offset ++ bytes ++ block.drop (offset + bytes.length)) else b } })
    else .error .fault
  | none => .error .fault

/-- The string in a block from an offset on, whose end has to be in the block. -/
def stringFrom (p offset : Nat) : Command σ (List Byte) := do
  let bytes ← load p
  if 0#8 ∈ bytes.drop offset then return cString (bytes.drop offset) else throw .fault

def string (p : Nat) : Command σ (List Byte) := stringFrom p 0

/-- A call of the kernel. -/
def call (f : σ → α × σ) : Command σ α := fun s =>
  let result := f s.world
  .ok (result.1, { s with world := result.2 })

def run (f : σ → σ) : Command σ Unit := fun s => .ok ((), { s with world := f s.world })

def printf (fmt : List Byte) (args : List Arg) : Command σ Unit := run (sys.printf fmt args)

/-! ### Strings -/

/-- `seperate_and_take` of a string that is not in a block. -/
def seperateAndTake (str : List Byte) (seperator : Byte) (index : Nat) : Command σ Nat := do
  let piece := Akos.seperateAndTake str seperator index
  let buff ← kmalloc sys (piece.length + 1)
  store buff piece.length [0#8]
  store buff 0 piece
  return buff

/-- A change of a string in its place, which does not make it longer. -/
def changeString (p : Nat) (f : List Byte → List Byte) : Command σ Unit := do
  let str ← string p
  store p 0 (f str ++ [0#8])

def stripStart (str : List Byte) : List Byte := str.dropWhile (· = space)

def stripEnd (str : List Byte) : List Byte := (endStripped space str.reverse).reverse

/-- `strip_from_start(param, ' '); strip_from_end(param, ' ');` -/
def strip (p : Nat) : Command σ Unit := do
  changeString p stripStart
  changeString p stripEnd

def toLower (str : List Byte) : List Byte :=
  str.map fun c => if BitVec.sle 0x41#8 c && c.sle 0x5A#8 then c + 0x20#8 else c

/-- `p[strlen(p)-1]`: in front of an empty string there is the header of its block. -/
def lastChar (p : Nat) : Command σ Byte := do
  let str ← string p
  let bytes ← load p
  return str.getLast?.getD ((Heap.blockAmt (BitVec.ofNat 32 bytes.length)).extractLsb' 24 8)

def joinPath (p ext : Nat) : Command σ Nat := do
  let extStr ← string ext
  if countSubstrings extStr backslash = 1 then
    let str ← string p
    let last ← lastChar p
    let gap := if last = backslash then 0 else 1
    let newPath ← kmalloc sys (extStr.length + str.length + 1 + gap)
    store newPath 0 (str ++ [0#8])
    store newPath (str.length + gap) (extStr ++ [0#8])
    if last ≠ backslash then store newPath str.length [backslash]
    return newPath
  else
    let newPath ← kmalloc sys (extStr.length + 1)
    store newPath 0 (extStr ++ [0#8])
    return newPath

end Akos.Shell
