import Mathlib.Algebra.Ring.Int.Defs
import Akos.Lib.Packed
import Akos.Utils.Strings

/-!
# The FAT12 file system

`fat12fsys.c`, on the floppy of `bpb.asm`: 2880 sectors of 512 bytes, two copies of a file allocation table of 9
sectors from sector 1 on, the root directory in sectors 19 to 32, and cluster `c` in sector `31 + c`. The
functions that recurse or loop along a chain of clusters carry a bound on their steps. A sector is read and
written as a whole; what the code keeps in its two static buffers is loaded before each use.
-/

namespace Akos.Fat12

/-- `SECTOR_SIZE` -/
abbrev sectorSize : Nat := 512

/-- `bpbTotalSectors` -/
abbrev totalSectors : Nat := 2880

/-- `_MountInfo.rootOffset`: both copies of the table and the boot sector are in front. -/
abbrev rootOffset : Nat := 2 * 9 + 1

/-- The sectors of the disk, and the numbers of those written so far, the last one first. -/
structure Floppy where
  sectors : Nat → Nat → Byte
  written : List Nat

def flpydskReadSector (d : Floppy) (sectorLBA : Nat) : Nat → Byte := d.sectors sectorLBA

def flpydskWriteSector (d : Floppy) (sectorLBA : Nat) (data : Nat → Byte) : Floppy where
  sectors s k := if s = sectorLBA ∧ k < sectorSize then data k else d.sectors s k
  written := sectorLBA :: d.written

/-! ### The file allocation table -/

/-- `FAT_Offset` -/
def fatOffset (cluster : Nat) : Nat := cluster + cluster / 2

/-- `FAT_Sector` -/
def fatSector (cluster : Nat) : Nat := 1 + fatOffset cluster / sectorSize

def entryOffset (cluster : Nat) : Nat := fatOffset cluster % sectorSize

/-- `FAT`, with the sector of the entry and the one behind it. -/
def loadFat (d : Floppy) (cluster : Nat) : Nat → Byte := fun k =>
  if k < sectorSize then flpydskReadSector d (fatSector cluster) k
  else flpydskReadSector d (fatSector cluster + 1) (k - sectorSize)

/-- The entry of a cluster, which is in the high or in the low 12 bits of the word that is read. -/
def fatEntry (d : Floppy) (cluster : Nat) : BitVec 16 :=
  let word := Packed.word (loadFat d cluster) (entryOffset cluster)
  if cluster % 2 = 1 then word >>> 4 else word &&& 0x0FFF#16

/-- The entry of a cluster is replaced, and both sectors are written back. -/
def setFatEntry (d : Floppy) (cluster entry : Nat) : Floppy :=
  let fat := loadFat d cluster
  let word := Packed.word fat (entryOffset cluster)
  let word :=
    if cluster % 2 = 1 then (BitVec.ofNat 16 entry <<< 4) ||| (word &&& 0xF#16)
    else BitVec.ofNat 16 entry ||| (word &&& 0xF000#16)
  let fat := Packed.setWord fat (entryOffset cluster) word
  flpydskWriteSector (flpydskWriteSector d (fatSector cluster) fat) (fatSector cluster + 1)
    (fun k => fat (sectorSize + k))

/-- The loop over the entries from 2 on, up to the one that is 0. -/
def firstFreeEntry (d : Floppy) : Nat :=
  ((List.range' 2 (0xFF0 - 2)).find? fun cluster => fatEntry d cluster = 0#16).getD 0xFF0

/-- The cluster taken, or 0xFF0. -/
def fat12fsysOccupyFreeCluster (d : Floppy) (chainCluster : Nat) : Nat × Floppy :=
  let clusterEntry := firstFreeEntry d
  let d := if clusterEntry < 0xFF0 then setFatEntry d clusterEntry 0xFF8 else d
  if chainCluster ≠ 0 ∧ clusterEntry ≠ 0xFF0 then (clusterEntry, setFatEntry d chainCluster clusterEntry)
  else (clusterEntry, d)

/-! ### Directory entries -/

/-- The bytes of `Filename` and `Ext`. -/
def entryName (buf : Nat → Byte) (i : Nat) : List Byte := (List.range 11).map fun k => buf (32 * i + k)

def entryAttrib (buf : Nat → Byte) (i : Nat) : Byte := buf (32 * i + 11)

def entryTimeCreated (buf : Nat → Byte) (i : Nat) : BitVec 16 := Packed.word buf (32 * i + 14)

def entryDateCreated (buf : Nat → Byte) (i : Nat) : BitVec 16 := Packed.word buf (32 * i + 16)

def entryFirstCluster (buf : Nat → Byte) (i : Nat) : BitVec 16 := Packed.word buf (32 * i + 26)

def entryFileSize (buf : Nat → Byte) (i : Nat) : BitVec 32 :=
  Packed.word buf (32 * i + 30) ++ Packed.word buf (32 * i + 28)

def setEntryFileSize (buf : Nat → Byte) (i : Nat) (size : BitVec 32) : Nat → Byte :=
  Packed.setWord (Packed.setWord buf (32 * i + 28) (size.setWidth 16)) (32 * i + 30) ((size >>> 16).setWidth 16)

/-- The entry of a new file: what is not its name, its attribute or its first cluster is 0. -/
def setEntry (buf : Nat → Byte) (i : Nat) (dosFileName : List Byte) (attrib : Byte) (cluster : Nat) : Nat → Byte :=
  let entry : List Byte := dosFileName ++ attrib :: List.replicate 14 0#8 ++
    [BitVec.ofNat 8 cluster, BitVec.ofNat 8 (cluster / 256)] ++ List.replicate 4 0#8
  fun k => if 32 * i ≤ k ∧ k < 32 * i + 32 then entry.getD (k - 32 * i) 0#8 else buf k

/-- The 16 entries of a sector, up to the first one with this name. -/
def findEntry (buf : Nat → Byte) (dosFileName : List Byte) : Option Nat :=
  (List.range 16).find? fun i => strcmp dosFileName (cString (entryName buf i))

/-- `'.'` -/
abbrev dot : Byte := 0x2E#8

/-- `'\\'` -/
abbrev backslash : Byte := 0x5C#8

/-- The 11 characters of a name in a directory, if the name and the extension fit. -/
def toDosFileName (filename : List Byte) : Option (List Byte) :=
  let name := if filename.head? = some dot then [] else seperateAndTake filename dot 0
  let ext := if countSubstrings filename dot > 1 then seperateAndTake filename dot 1 else []
  if name.length > 8 ∨ ext.length > 3 then none
  else
    let dosFileName := (toUpper name).rightpad 8 0x20#8 ++ (toUpper ext).rightpad 3 0x20#8
    some (if strcmp filename [dot] then dosFileName.set 0 dot else dosFileName)

/-! ### Handles -/

/-- `flags` of a `FILE` -/
inductive Flags
  | file
  | directory
  | invalid
  deriving DecidableEq

/-- `FILE` -/
structure FILE where
  name : List Byte
  flags : Flags
  fileLength : BitVec 32
  id : BitVec 32
  eof : Bool
  position : BitVec 32
  absPosition : BitVec 32
  currentCluster : Nat
  deviceID : BitVec 32
  timeCreated : BitVec 16
  dateCreated : BitVec 16
  parentCluster : Int

/-- `floppy_dir` -/
inductive FloppyDir
  | read
  | write
  deriving DecidableEq

/-- The disk, the handle and memory behind a transfer. It has not returned when the bound on its steps was
reached before. -/
structure Transfer where
  disk : Floppy
  file : FILE
  memory : Nat → Byte
  returned : Bool

end Akos.Fat12
