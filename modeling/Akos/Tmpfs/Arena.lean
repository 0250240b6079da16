import Mathlib.Algebra.Ring.Nat
import Mathlib.Data.List.Count
import Mathlib.Logic.Function.Basic

/-!
# The RAM file system

`tmpfsys.c`: an arena of 256 blocks of 4096 bytes, each with 60 bytes of metadata in front. A file is a block
and a chain of continuation blocks, a directory a block with records. Loops over chains carry the number of
blocks as fuel. Where the code runs out of the arena, follows null, or goes by metadata of a block that is not
occupied or not of the kind it expects, there is no next state.
-/

namespace Akos.Tmpfs

/-- `(TFSYS_CEILING - TFSYS_BASE) / BLOCK_SIZE` -/
abbrev blockCount : Nat := 256

/-- `BLOCK_SIZE - META_SIZE` -/
abbrev payload : Nat := 4096 - 60

/-- How many records of `RECORD_SIZE` fit behind the metadata. -/
abbrev recordCount : Nat := payload / 44

/-- `block_type` -/
inductive BlockType
  | file
  | subFile
  | dir
  deriving DecidableEq

/-- `dir_record`; the next record by its place in the block. -/
structure DirRecord where
  fid : Nat
  name : List UInt8
  occupied : Bool
  nextRecord : Option Nat

/-- `block_metadata` and what stands behind it, which is the bytes of a file or the records of a directory. -/
structure Block where
  parentBlock : Option Nat
  childBlock : Option Nat
  type : BlockType
  fid : Nat
  bid : Nat
  dataPointer : Nat
  occupied : Bool
  name : List UInt8
  data : Nat → UInt8
  records : Nat → DirRecord

/-- The blocks by number. -/
abbrev Arena := Nat → Block

/-- `flags` of a `FILE` -/
inductive Flags
  | file
  | directory
  | invalid
  deriving DecidableEq

/-- What the RAM file system uses of a `FILE`. -/
structure FILE where
  flags : Flags
  fileLength : Nat
  id : Nat
  eof : Bool
  position : Nat

def DirRecord.zero : DirRecord := ⟨0, [], false, none⟩

/-- A block after `memset`. -/
def Block.zero : Block := ⟨none, none, .file, 0, 0, 0, false, [], fun _ => 0, fun _ => .zero⟩

namespace Arena

def set (s : Arena) (b : Nat) (block : Block) : Arena := Function.update s b block

/-! ### Looking blocks up -/

/-- `get_faddr_by_id` -/
def getFaddrById (s : Arena) (fid : Nat) : Option Nat :=
  (List.range blockCount).find? fun b => (s b).fid = fid ∧ (s b).type ≠ .subFile

/-- The first block that is not occupied. -/
def firstFree (s : Arena) : Option Nat := (List.range blockCount).find? fun b => !(s b).occupied

/-- A block with an id of its own. -/
def counts (s : Arena) (b : Nat) : Bool := (s b).type = .dir || (s b).type = .file

/-- `get_next_fid` -/
def getNextFid (s : Arena) : Option Nat := s.firstFree.map fun n => (List.range n).countP s.counts

/-- The block an id leads to, when it is in use and of the type the caller takes it for. -/
def lookup (s : Arena) (fid : Nat) (type : BlockType) : Option Nat :=
  (s.getFaddrById fid).filter fun b => (s b).occupied && (s b).type = type

/-! ### Directory records -/

/-- `add_record_to_dir`. Of the name ten bytes are copied. -/
def addRecordToDir (s : Arena) (fid : Nat) (name : List UInt8) (dir : Nat) : Option Arena :=
  ((List.range recordCount).find? fun slot => !((s dir).records slot).occupied).map fun slot =>
    let records := (s dir).records
    let linked := Function.update records 0 { records 0 with nextRecord := some slot }
    s.set dir { s dir with
      records := Function.update linked slot ⟨fid, name.take 10, true, (records 0).nextRecord⟩ }

/-- The loop of `remove_record_from_dir`: the record in front and the one with the id. -/
def findRecord (records : Nat → DirRecord) (rId : Nat) : Nat → Nat → Option Nat → Option (Nat × Nat)
  | 0, _, _ => none
  | _, _, none => none
  | fuel + 1, prev, some slot =>
    if (records slot).fid = rId then some (prev, slot) else findRecord records rId fuel slot (records slot).nextRecord

/-- `remove_record_from_dir`. There is no record in front of the first one. -/
def removeRecordFromDir (s : Arena) (rId dirId : Nat) : Option Arena := do
  let dir ← s.lookup dirId .dir
  let records := (s dir).records
  if (records 0).fid = rId then none
  else do
    let (prev, slot) ← findRecord records rId recordCount 0 (records 0).nextRecord
    let linked := Function.update records prev { records prev with nextRecord := (records slot).nextRecord }
    some (s.set dir { s dir with records := Function.update linked slot .zero })

/-! ### Making blocks -/

/-- The block `create_block` writes into the arena. -/
def newBlock (parent : Nat) (type : BlockType) (fid bid : Nat) (name : List UInt8) : Block :=
  { Block.zero with
    parentBlock := some parent
    type := type
    fid := fid
    bid := bid
    occupied := true
    name := name.take 31 }

/-- `create_block` -/
def createBlock (s : Arena) (parent : Nat) (type : BlockType) (name : List UInt8) : Option (Nat × Arena) := do
  let base ← s.firstFree
  match type with
  | .subFile => some (base, s.set base (newBlock parent .subFile (s parent).fid base name))
  | .file => do
    let fid ← s.getNextFid
    let s ← (s.set base (newBlock parent .file fid base name)).addRecordToDir fid (name.take 31) parent
    some (base, s)
  | .dir => do
    let fid ← s.getNextFid
    let s ← (s.set base (newBlock parent .dir fid base name)).addRecordToDir fid (name.take 31) parent
    let s ← s.addRecordToDir fid [46] base
    let s ← s.addRecordToDir (s parent).fid [46, 46] base
    some (base, s)

/-- `create_base_dir` -/
def createBaseDir (s : Arena) : Option Arena := do
  let base : Block := { s 0 with
    parentBlock := some 0
    childBlock := none
    type := .dir
    fid := 0
    bid := 0
    dataPointer := 0
    occupied := true
    name := [92] }
  let s ← (s.set 0 base).addRecordToDir 0 [46] 0
  s.addRecordToDir 0 [46, 46] 0

/-- `tfsys_init` on a memory that holds anything. -/
def tfsysInit (memory : Arena) : Option Arena := createBaseDir fun b => { memory b with occupied := false }

/-- `mkdir` and `touch`, by the flags `tfsys_create` gets. -/
def tfsysCreate (s : Arena) (file : FILE) (fname : List UInt8) (flags : Flags) : Option Arena :=
  match file.flags, flags with
  | .directory, .directory => do
    let parent ← s.lookup file.id .dir
    (s.createBlock parent .dir fname).map Prod.snd
  | .directory, .file => do
    let parent ← s.lookup file.id .dir
    (s.createBlock parent .file fname).map Prod.snd
  | _, _ => some s

/-! ### Freeing blocks -/

/-- A continuation block leaves its chain. -/
def unlink (s : Arena) (b : Nat) : Option Arena := do
  let parent ← (s b).parentBlock
  let s' := s.set parent { s parent with childBlock := (s b).childBlock }
  match (s' b).childBlock with
  | none => some s'
  | some child => some (s'.set child { s' child with parentBlock := some parent })

/-- The loop of `free_block` over the continuation blocks of a file. -/
def freeChildren (free : Arena → Nat → Option (Bool × Arena)) : Nat → Arena → Option Nat → Option Arena
  | 0, _, _ => none
  | _ + 1, s, none => some s
  | fuel + 1, s, some prev => do
    let child := (s prev).childBlock
    let (_, s) ← free s (s prev).bid
    freeChildren free fuel s child

/-- The loop of `free_block` over the records of a directory. -/
def freeRecords (free : Arena → Nat → Option (Bool × Arena)) (dir : Nat) : Nat → Arena → Option Nat → Option Arena
  | 0, _, _ => none
  | _ + 1, s, none => some s
  | fuel + 1, s, some slot => do
    let record := (s dir).records slot
    if record.name ≠ [46] ∧ record.name ≠ [46, 46] then do
      let b ← s.getFaddrById record.fid
      let (_, s) ← free s (s b).bid
      freeRecords free dir fuel s ((s dir).records slot).nextRecord
    else freeRecords free dir fuel s record.nextRecord

/-- `free_block`, with fuel for the calls inside each other. -/
def freeBlock : Nat → Arena → Nat → Option (Bool × Arena)
  | 0, _, _ => none
  | fuel + 1, s, bid =>
    if bid = 0 then some (false, s)
    else if bid < blockCount ∧ (s bid).occupied then do
      let s ← match (s bid).type with
        | .subFile => s.unlink bid
        | .file => do
          let parent ← (s bid).parentBlock
          let s ← s.removeRecordFromDir (s bid).fid (s parent).fid
          freeChildren (freeBlock fuel) blockCount s (s bid).childBlock
        | .dir => do
          let parent ← (s bid).parentBlock
          let s ← s.removeRecordFromDir (s bid).fid (s parent).fid
          freeRecords (freeBlock fuel) bid blockCount s (some 0)
      some (true, s.set bid .zero)
    else none

/-! ### Files -/

/-- The last block of a chain. -/
def lastOf (s : Arena) : Nat → Nat → Option Nat
  | 0, _ => none
  | fuel + 1, b =>
    match (s b).childBlock with
    | none => some b
    | some child => lastOf s fuel child

/-- `extend_file` -/
def extendFile (s : Arena) (fid : Nat) : Option Arena := do
  let base ← s.getFaddrById fid
  let last ← s.lastOf blockCount base
  let (new, s) ← s.createBlock last .subFile []
  some (s.set last { s last with childBlock := some new })

/-- The loop of `reset_file`. -/
def resetChildren : Nat → Arena → Nat → Option Arena
  | 0, _, _ => none
  | fuel + 1, s, b =>
    match (s b).childBlock with
    | none => some s
    | some child => do
      let (_, s) ← s.freeBlock blockCount (s child).bid
      resetChildren fuel s b

/-- `reset_file` -/
def resetFile (s : Arena) (fid : Nat) : Option Arena := do
  let b ← s.getFaddrById fid
  let s ← resetChildren blockCount s b
  some (s.set b { s b with dataPointer := 0 })

/-- The loop of `tfsys_write` to the first block with room. -/
def skipFull : Nat → Arena → Nat → Option (Arena × Nat)
  | 0, _, _ => none
  | fuel + 1, s, b =>
    if (s b).dataPointer = payload then do
      let s ← (if (s b).childBlock.isNone then s.extendFile (s b).fid else some s)
      let child ← (s b).childBlock
      skipFull fuel s child
    else some (s, b)

/-- The body of the loop of `tfsys_write` over the bytes. -/
def writeByte (s : Arena × Nat) (c : UInt8) : Option (Arena × Nat) := do
  let b := s.2
  let block := s.1 b
  let s := s.1.set b { block with
    data := Function.update block.data block.dataPointer c
    dataPointer := block.dataPointer + 1 }
  if (s b).dataPointer = payload then do
    let s ← s.extendFile (s b).fid
    let child ← (s b).childBlock
    some (s, child)
  else some (s, b)

/-- `tfsys_write`. Once the bytes are written, `Length` is 0 and adds nothing to the length in the handle. -/
def tfsysWrite (s : Arena) (file : FILE) (buffer : List UInt8) : Option (Arena × FILE) := do
  let _ ← s.lookup file.id .file
  let s ← (if file.position = 0 then s.resetFile file.id else some s)
  let b ← s.getFaddrById file.id
  let s ← skipFull blockCount s b
  let s ← buffer.foldlM writeByte s
  some (s.1, { file with position := file.position + buffer.length })

/-- The loop of `size`. -/
def sizeFrom (s : Arena) : Nat → Option Nat → Option Nat
  | 0, _ => none
  | _ + 1, none => some 0
  | fuel + 1, some b => (sizeFrom s fuel (s b).childBlock).map ((s b).dataPointer + ·)

/-- `size` -/
def size (s : Arena) (fid : Nat) : Option Nat := do
  let b ← s.getFaddrById fid
  s.sizeFrom (blockCount + 1) (some b)

/-- What `tfsys_root_open` and `tfsys_subdir_open` return for the record they find. -/
def openRecord (s : Arena) (record : DirRecord) : Option FILE := do
  let length ← s.size record.fid
  let b ← s.getFaddrById record.fid
  some ⟨if (s b).type = .file then .file else .directory, length, record.fid, false, 0⟩

/-- The loop of `tfsys_read`: the bytes put into the buffer, the block it ends in, and the position. -/
def readLoop (s : Arena) : Nat → Option Nat → Nat → Nat → Nat → Option (List UInt8 × Option Nat × Nat)
  | 0, _, _, _, _ => none
  | _ + 1, none, _, _, position => some ([], none, position)
  | fuel + 1, some b, read, length, position =>
    if read < (s b).dataPointer ∧ 0 < length then
      let next := if read + 1 = payload then (s b).childBlock else some b
      let read' := if read + 1 = payload then 0 else read + 1
      if position ≤ read then
        (readLoop s fuel next read' (length - 1) (position + 1)).map fun r => ((s b).data read :: r.1, r.2)
      else readLoop s fuel next read' length position
    else some ([], some b, position)

/-- `tfsys_read` -/
def tfsysRead (s : Arena) (file : FILE) (length : Nat) : Option (List UInt8 × FILE) := do
  let b ← s.getFaddrById file.id
  let file := if file.fileLength ≤ (file.position + length) % 2 ^ 32 then { file with eof := true } else file
  if file.fileLength < (file.position + length) % 2 ^ 32 then some ([], file)
  else do
    let (bytes, stop, position) ← s.readLoop (blockCount * payload + 1) (some b) 0 length file.position
    let atEnd := match stop with
      | none => true
      | some b => (s b).dataPointer = 0
    some (bytes, { file with position, eof := file.eof || atEnd })

end Arena

end Akos.Tmpfs
