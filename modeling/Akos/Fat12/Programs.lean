import Akos.Fat12.Files
import Akos.Lib.Interleaving

/-!
# The calls on the volume step by step

The functions of `fat12fsys.c` and `vfs.c` as programs on what their callers share: the disk, `floppy_dmabuf` and
`FAT`. A step fills or writes out the sector buffer, or copies between the buffers and private memory.
-/

namespace Akos.Fat12

/-- The disk, `floppy_dmabuf` and `FAT`. -/
structure Shared where
  disk : Floppy
  dmabuf : Nat → Byte
  fat : Nat → Byte

abbrev Task := Prog Shared

namespace Task

/-- The steps that change what is shared. -/
def store (act : Shared → Shared) : Task Unit := .step act fun _ => .ret ()

/-- The steps that copy something to private memory. -/
def load {α : Type} (read : Shared → α) : Task α := .step id fun s => .ret (read s)

/-- `flpydsk_read_sector`, whose result is `floppy_dmabuf` itself. -/
def flpydskReadSector (sectorLBA : Nat) : Task Unit :=
  store fun s => { s with dmabuf := Fat12.flpydskReadSector s.disk sectorLBA }

/-- `flpydsk_write_sector` copies what `data` points to, and writes the buffer out. -/
def flpydskWriteSector (sectorLBA : Nat) (data : Shared → Nat → Byte) : Task Unit := do
  store fun s => { s with dmabuf := data s }
  store fun s => { s with disk := Fat12.flpydskWriteSector s.disk sectorLBA s.dmabuf }

/-! ### The file allocation table -/

/-- The sector of an entry and the one behind it are loaded into `FAT`, one after the other. -/
def loadFat (cluster : Nat) : Task Unit := do
  flpydskReadSector (fatSector cluster)
  store fun s => { s with fat := fun k => if k < sectorSize then s.dmabuf k else s.fat k }
  flpydskReadSector (fatSector cluster + 1)
  store fun s => { s with fat := fun k => if k < sectorSize then s.fat k else s.dmabuf (k - sectorSize) }

/-- The word that the entry is in. -/
def loadWord (cluster : Nat) : Task (BitVec 16) := do
  loadFat cluster
  load fun s => Packed.word s.fat (entryOffset cluster)

/-- The 12 bits of the entry. -/
def entryOfWord (cluster : Nat) (word : BitVec 16) : BitVec 16 :=
  if cluster % 2 = 1 then word >>> 4 else word &&& 0x0FFF#16

/-- The entry is replaced in `FAT`, and both sectors are written back. -/
def setFatEntry (cluster entry : Nat) (word : BitVec 16) : Task Unit := do
  let word :=
    if cluster % 2 = 1 then (BitVec.ofNat 16 entry <<< 4) ||| (word &&& 0xF#16)
    else BitVec.ofNat 16 entry ||| (word &&& 0xF000#16)
  store fun s => { s with fat := Packed.setWord s.fat (entryOffset cluster) word }
  flpydskWriteSector (fatSector cluster) fun s => s.fat
  flpydskWriteSector (fatSector cluster + 1) fun s k => s.fat (sectorSize + k)

/-- The loop over the entries from one on. -/
def occupyFrom : Nat → Nat → Task Nat
  | 0, clusterEntry => pure clusterEntry
  | n + 1, clusterEntry => do
    let word ← loadWord clusterEntry
    if entryOfWord clusterEntry word = 0#16 then do
      setFatEntry clusterEntry 0xFF8 word
      pure clusterEntry
    else occupyFrom n (clusterEntry + 1)

def fat12fsysOccupyFreeCluster (chainCluster : Nat) : Task Nat := do
  let clusterEntry ← occupyFrom (0xFF0 - 2) 2
  if chainCluster ≠ 0 ∧ clusterEntry ≠ 0xFF0 then do
    let word ← loadWord chainCluster
    setFatEntry chainCluster clusterEntry word
    pure clusterEntry
  else pure clusterEntry

/-! ### Transfers -/

/-- The part of a transfer within one sector. -/
def copySector (dir : FloppyDir) (file : FILE) (memory : Nat → Byte) (buffer : Nat) (length : BitVec 32) :
    Task (Nat → Byte) := do
  let count := copyCount file.position length
  flpydskReadSector (physSector file.currentCluster)
  match dir with
  | .read => load fun s => memcpy memory buffer s.dmabuf file.position.toNat count
  | .write => do
    store fun s => { s with dmabuf := memcpy s.dmabuf file.position.toNat memory buffer count }
    flpydskWriteSector (physSector file.currentCluster) fun s => s.dmabuf
    pure memory

/-- The next cluster is entered, if there is one. The flag is off when the chain has ended. -/
def nextSector (dir : FloppyDir) (file : FILE) (length : BitVec 32) : Task (Bool × FILE) := do
  let word ← loadWord file.currentCluster
  let nextCluster := (entryOfWord file.currentCluster word).toNat
  if nextCluster ≥ 0xFF8 ∧ ¬ (length > 0#32 ∧ dir = .write) then pure (false, { file with eof := true })
  else if nextCluster = 0 then pure (false, { file with eof := true })
  else do
    let nextCluster ←
      if length > 0#32 ∧ dir = .write ∧ nextCluster ≥ 0xFF8 then fat12fsysOccupyFreeCluster file.currentCluster
      else pure nextCluster
    pure (true, { file with currentCluster := nextCluster, position := 0#32 })

/-- `fat12fsys_rw`, with a bound on its calls of itself. -/
def fat12fsysRw (dir : FloppyDir) : Nat → FILE → (Nat → Byte) → Nat → BitVec 32 → Task (FILE × (Nat → Byte))
  | 0, _, _, _, _ => .hang
  | fuel + 1, file, memory, buffer, length =>
    if length = 0#32 then pure (file, memory)
    else do
      let memory ← copySector dir file memory buffer length
      let ended := endsInSector file length
      if ended.1 then pure (ended.2, memory)
      else do
        let left := length - (512#32 - file.position)
        let next ← nextSector dir ended.2 left
        if next.1 then fat12fsysRw dir fuel next.2 memory (buffer + (512#32 - file.position).toNat) left
        else pure (next.2, memory)

def fat12fsysRead (fuel : Nat) (file : FILE) (memory : Nat → Byte) (buffer : Nat) (length : BitVec 32) :
    Task (FILE × (Nat → Byte)) :=
  fat12fsysRw .read fuel file memory buffer length

def fat12fsysUpdateFlen (f : FILE) (newLen : BitVec 32) : Task Unit :=
  let parentSector := (f.parentCluster + 31).toNat
  match toDosFileName f.name with
  | none => pure ()
  | some dosFileName => do
    flpydskReadSector parentSector
    let buf ← load fun s => s.dmabuf
    match findEntry buf dosFileName with
    | none => pure ()
    | some i => flpydskWriteSector parentSector fun _ => setEntryFileSize buf i newLen

/-- The part of `fat12fsys_write` in front of the transfer. -/
def extendFile (file : FILE) (length : BitVec 32) : Task FILE :=
  if file.flags ≠ .directory then
    let file := { file with absPosition := file.absPosition + length }
    if file.absPosition > file.fileLength then do
      let file := { file with fileLength := file.absPosition }
      fat12fsysUpdateFlen file file.absPosition
      pure file
    else pure file
  else pure file

def fat12fsysWrite (fuel : Nat) (file : FILE) (memory : Nat → Byte) (buffer : Nat) (length : BitVec 32) :
    Task (FILE × (Nat → Byte)) := do
  let file ← extendFile file length
  fat12fsysRw .write fuel file memory buffer length

/-! ### Opening -/

/-- The entries of the sector in the buffer from one on, up to the first one with this name. -/
def findInSector (dosFileName : List Byte) : Nat → Nat → Task (Option Nat)
  | 0, _ => pure none
  | n + 1, i => do
    let name ← load fun s => entryName s.dmabuf i
    if strcmp dosFileName (cString name) then pure (some i) else findInSector dosFileName n (i + 1)

/-- The sectors of the root directory from one on. -/
def searchRoot (junk : FILE) (fileName dosFileName : List Byte) : Nat → Nat → Task FILE
  | 0, _ => pure { junk with flags := .invalid }
  | n + 1, sector => do
    flpydskReadSector (rootOffset + sector)
    match ← findInSector dosFileName 16 0 with
    | none => searchRoot junk fileName dosFileName n (sector + 1)
    | some i =>
      load fun s => { fileOfEntry junk fileName s.dmabuf i (rootOffset + sector - 31) with absPosition := 0#32 }

def fat12fsysRootOpen (junk : FILE) (fileName : List Byte) : Task FILE :=
  match toDosFileName fileName with
  | none => pure { junk with flags := .invalid }
  | some dosFileName => searchRoot junk fileName dosFileName 14 0

/-- The loop over the sectors of a directory. -/
def searchSubdir (junk : FILE) (fileName dosFileName : List Byte) : Nat → FILE → Task FILE
  | 0, _ => .hang
  | fuel + 1, kFile =>
    if kFile.eof then pure { junk with flags := .invalid }
    else do
      let read ← fat12fsysRead fuel kFile (fun _ => 0#8) 0 512#32
      match findEntry read.2 dosFileName with
      | none => searchSubdir junk fileName dosFileName fuel read.1
      | some i => pure (fileOfEntry junk fileName read.2 i kFile.currentCluster)

def fat12fsysSubdirOpen (fuel : Nat) (junk kFile : FILE) (fileName : List Byte) : Task FILE :=
  match toDosFileName fileName with
  | none => pure { junk with flags := .invalid }
  | some dosFileName => searchSubdir junk fileName dosFileName fuel kFile

/-- The loop over the path, from component `i` on. -/
def openFrom (fuel : Nat) (junk : Nat → FILE) (path : List Byte) : Nat → Nat → FILE → Task FILE
  | 0, _, currFile => pure currFile
  | n + 1, i, currFile => do
    let currFilename := seperateAndTake path backslash (i + 1)
    let currFile ← (if i = 0 then fat12fsysRootOpen (junk 0) currFilename
      else fat12fsysSubdirOpen fuel (junk i) currFile currFilename)
    if currFile.flags = .invalid then pure currFile else openFrom fuel junk path n (i + 1) currFile

def fat12fsysOpen (fuel : Nat) (junk : Nat → FILE) (path : List Byte) : Task FILE :=
  if strcmp path [backslash] || strcmp path [] then
    pure { junk 0 with flags := .directory, name := [backslash] }
  else openFrom fuel junk path (countSubstrings path backslash) 0 (junk 0)

/-! ### Listing -/

/-- The handle of an entry that is listed, which has no parent and no position of its own. -/
def listedFile (junk : FILE) (buf : Nat → Byte) (i : Nat) : FILE :=
  fileOfEntry junk (cString (entryName buf i)) buf i junk.parentCluster

/-- The entries of a sector in private memory. -/
def listBuffer (junk : Nat → FILE) (buf : Nat → Byte) : List FILE :=
  ((List.range 16).filter fun i => entryFirstCluster buf i ≠ 0#16).map fun i => listedFile (junk i) buf i

/-- The entries of the sector in the buffer, from one on. -/
def listInSector (junk : Nat → FILE) : Nat → Nat → Task (List FILE)
  | 0, _ => pure []
  | n + 1, i => do
    let cluster ← load fun s => entryFirstCluster s.dmabuf i
    if cluster ≠ 0#16 then do
      let file ← load fun s => listedFile (junk i) s.dmabuf i
      let rest ← listInSector junk n (i + 1)
      pure (file :: rest)
    else listInSector junk n (i + 1)

/-- The sectors of the root directory from one on, without a copy. -/
def listRoot (junk : Nat → Nat → FILE) : Nat → Nat → Task (List FILE)
  | 0, _ => pure []
  | n + 1, sector => do
    flpydskReadSector (rootOffset + sector)
    let files ← listInSector (junk sector) 16 0
    let rest ← listRoot junk n (sector + 1)
    pure (files ++ rest)

/-- The sectors of another directory. -/
def listSubdir (junk : Nat → Nat → FILE) : Nat → Nat → FILE → Task (List FILE)
  | 0, _, _ => .hang
  | fuel + 1, sector, kFile =>
    if kFile.eof then pure []
    else do
      let read ← fat12fsysRead fuel kFile (fun _ => 0#8) 0 512#32
      let rest ← listSubdir junk fuel (sector + 1) read.1
      pure (listBuffer (junk sector) read.2 ++ rest)

def fat12fsysOpenDir (fuel : Nat) (junk : Nat → FILE) (junkEntry : Nat → Nat → FILE) (path : List Byte) :
    Task (List FILE) :=
  if strcmp path [backslash] || strcmp path [] then listRoot junkEntry 14 0
  else do
    let kFile ← fat12fsysOpen fuel junk path
    if kFile.flags = .directory then listSubdir junkEntry fuel 0 kFile else pure []

/-! ### Creating -/

/-- The new cluster of a directory is cleared through a handle that is only made for it. -/
def clearCluster (fuel : Nat) (junk : FILE) (cluster : Nat) : Task Unit := do
  let tmpF := { junk with
    currentCluster := cluster, eof := false, position := 0#32, fileLength := 0#32, flags := .directory }
  let _ ← fat12fsysWrite fuel tmpF (fun _ => 0#8) 0 512#32

/-- A free place of a directory's sector gets the new entry, if a cluster can be taken for it. -/
def createEntry (fuel : Nat) (writeBack : (Nat → Byte) → Task Unit) (buf : Nat → Byte) (dosFileName : List Byte)
    (flags : Flags) (junk : FILE) (i : Nat) : Task Unit := do
  let cluster ← fat12fsysOccupyFreeCluster 0
  if cluster = 0xFF0 then pure ()
  else do
    let attrib := if flags = .directory then 0x10#8 else 0#8
    writeBack (setEntry buf i dosFileName attrib cluster)
    if flags = .directory then clearCluster fuel junk cluster else pure ()

/-- The loop over the entries of a sector, from entry `i` on. The flag is on when the search goes on in the next
sector. -/
def createIn (fuel : Nat) (writeBack : (Nat → Byte) → Task Unit) (buf : Nat → Byte) (dosFileName : List Byte)
    (flags : Flags) (junk : FILE) : Nat → Nat → Task Bool
  | 0, _ => pure true
  | n + 1, i =>
    if entryFirstCluster buf i = 0#16 then do
      createEntry fuel writeBack buf dosFileName flags junk i
      pure false
    else if dosFileName = entryName buf i then pure false
    else createIn fuel writeBack buf dosFileName flags junk n (i + 1)

/-- The sectors of the root directory from one on. -/
def createInRoot (fuel : Nat) (dosFileName : List Byte) (flags : Flags) (junk : FILE) : Nat → Nat → Task Unit
  | 0, _ => pure ()
  | n + 1, sector => do
    flpydskReadSector (rootOffset + sector)
    let buf ← load fun s => s.dmabuf
    let more ← createIn fuel (fun buf => flpydskWriteSector (rootOffset + sector) fun _ => buf) buf dosFileName flags
      junk 16 0
    if more then createInRoot fuel dosFileName flags junk n (sector + 1) else pure ()

/-- The sectors of another directory. -/
def createInSubdir (bound : Nat) (dosFileName : List Byte) (flags : Flags) (junk : FILE) : Nat → FILE → Task Unit
  | 0, _ => .hang
  | fuel + 1, kFile =>
    if kFile.eof then pure ()
    else do
      let read ← fat12fsysRead bound kFile (fun _ => 0#8) 0 512#32
      let writeBack := fun buf => do
        let _ ← fat12fsysWrite bound kFile buf 0 512#32
      let more ← createIn bound writeBack read.2 dosFileName flags junk 16 0
      if more then createInSubdir bound dosFileName flags junk fuel read.1 else pure ()

def fat12fsysCreate (fuel : Nat) (junk kFile : FILE) (fileName : List Byte) (flags : Flags) : Task Unit :=
  if kFile.flags ≠ .directory then pure ()
  else
    match toDosFileName fileName with
    | none => pure ()
    | some dosFileName =>
      if strcmp kFile.name [backslash] || strcmp kFile.name [] then createInRoot fuel dosFileName flags junk 14 0
      else createInSubdir fuel dosFileName flags junk fuel kFile

end Task

end Akos.Fat12
