import Akos.Fat12.Volume

/-!
# Files of the FAT12 file system

Transfers along a chain of clusters, the search for a name in the root directory and in other directories, and
the creation of entries. A handle that is a variable of its function begins as whatever the stack holds.
-/

namespace Akos.Fat12

/-! ### Transfers -/

/-- How many bytes are copied from or to the sector; `memcpy` has a signed count. -/
def copyCount (position length : BitVec 32) : Nat :=
  let count := if length ≥ 512#32 - position then 512#32 - position else length
  count.toInt.toNat

/-- The sector of a cluster. -/
def physSector (cluster : Nat) : Nat := 31 + cluster

/-- The part of a transfer within one sector. -/
def copySector (dir : FloppyDir) (d : Floppy) (file : FILE) (memory : Nat → Byte) (buffer : Nat)
    (length : BitVec 32) : Floppy × (Nat → Byte) :=
  let sector := flpydskReadSector d (physSector file.currentCluster)
  let count := copyCount file.position length
  match dir with
  | .read => (d, memcpy memory buffer sector file.position.toNat count)
  | .write =>
    (flpydskWriteSector d (physSector file.currentCluster)
      (memcpy sector file.position.toNat memory buffer count), memory)

/-- The part behind the test for a transfer that ends in the sector: the next cluster is entered, if there is one.
The flag is off when the chain has ended. -/
def nextSector (dir : FloppyDir) (d : Floppy) (file : FILE) (length : BitVec 32) : Bool × Floppy × FILE :=
  let nextCluster := (fatEntry d file.currentCluster).toNat
  if nextCluster ≥ 0xFF8 ∧ ¬ (length > 0#32 ∧ dir = .write) then (false, d, { file with eof := true })
  else if nextCluster = 0 then (false, d, { file with eof := true })
  else
    let (nextCluster, d) :=
      if length > 0#32 ∧ dir = .write ∧ nextCluster ≥ 0xFF8 then
        fat12fsysOccupyFreeCluster d file.currentCluster
      else (nextCluster, d)
    (true, d, { file with currentCluster := nextCluster, position := 0#32 })

/-- The test for a transfer that ends in the sector, with the handle behind it. -/
def endsInSector (file : FILE) (length : BitVec 32) : Bool × FILE :=
  if length < 512#32 - file.position then
    let file := { file with position := file.position + length }
    (file.position < 512#32 ∧ file.position ≤ file.fileLength ∧ file.flags ≠ .directory, file)
  else (false, file)

/-- The body of `fat12fsys_rw`, up to its call of itself. The flag is on when there is one, on the memory and the
length that are returned. -/
def rwSector (dir : FloppyDir) (d : Floppy) (file : FILE) (memory : Nat → Byte) (buffer : Nat) (length : BitVec 32) :
    Bool × Transfer × Nat × BitVec 32 :=
  let copied := copySector dir d file memory buffer length
  let oldPos := file.position
  let ended := endsInSector file length
  if ended.1 then (false, ⟨copied.1, ended.2, copied.2, true⟩, buffer, length)
  else
    let length := length - (512#32 - oldPos)
    let next := nextSector dir copied.1 ended.2 length
    (next.1, ⟨next.2.1, next.2.2, copied.2, true⟩, buffer + (512#32 - oldPos).toNat, length)

/-- `fat12fsys_rw` on the memory from `buffer` on. -/
def fat12fsysRw (dir : FloppyDir) : Nat → Floppy → FILE → (Nat → Byte) → Nat → BitVec 32 → Transfer
  | 0, d, file, memory, _, _ => ⟨d, file, memory, false⟩
  | fuel + 1, d, file, memory, buffer, length =>
    if length = 0#32 then ⟨d, file, memory, true⟩
    else
      let next := rwSector dir d file memory buffer length
      if next.1 then fat12fsysRw dir fuel next.2.1.disk next.2.1.file next.2.1.memory next.2.2.1 next.2.2.2
      else next.2.1

def fat12fsysRead (fuel : Nat) (d : Floppy) (file : FILE) (memory : Nat → Byte) (buffer : Nat)
    (length : BitVec 32) : Transfer :=
  fat12fsysRw .read fuel d file memory buffer length

/-- The first entry with the file's name gets the length, in the sector where the file was found. -/
def fat12fsysUpdateFlen (d : Floppy) (f : FILE) (newLen : BitVec 32) : Floppy :=
  let parentSector := (f.parentCluster + 31).toNat
  match toDosFileName f.name with
  | none => d
  | some dosFileName =>
    let buf := flpydskReadSector d parentSector
    match findEntry buf dosFileName with
    | none => d
    | some i => flpydskWriteSector d parentSector (setEntryFileSize buf i newLen)

/-- The part of `fat12fsys_write` in front of the transfer. -/
def extendFile (d : Floppy) (file : FILE) (length : BitVec 32) : Floppy × FILE :=
  if file.flags ≠ .directory then
    let file := { file with absPosition := file.absPosition + length }
    if file.absPosition > file.fileLength then
      let file := { file with fileLength := file.absPosition }
      (fat12fsysUpdateFlen d file file.absPosition, file)
    else (d, file)
  else (d, file)

def fat12fsysWrite (fuel : Nat) (d : Floppy) (file : FILE) (memory : Nat → Byte) (buffer : Nat)
    (length : BitVec 32) : Transfer :=
  let (d, file) := extendFile d file length
  fat12fsysRw .write fuel d file memory buffer length

/-! ### Opening -/

/-- The handle that both searches fill in from an entry. -/
def fileOfEntry (junk : FILE) (fileName : List Byte) (buf : Nat → Byte) (i : Nat) (parentCluster : Int) : FILE :=
  { junk with
    name := fileName
    id := 0#32
    currentCluster := (entryFirstCluster buf i).toNat
    eof := false
    position := 0#32
    fileLength := entryFileSize buf i
    dateCreated := entryDateCreated buf i
    timeCreated := entryTimeCreated buf i
    parentCluster
    flags := if entryAttrib buf i = 0x10#8 then .directory else .file }

/-- The search in the sectors of the root directory. -/
def fat12fsysRootOpen (d : Floppy) (junk : FILE) (fileName : List Byte) : FILE :=
  match toDosFileName fileName with
  | none => { junk with flags := .invalid }
  | some dosFileName =>
    let found := (List.range 14).findSome? fun sector =>
      (findEntry (flpydskReadSector d (rootOffset + sector)) dosFileName).map fun i => (sector, i)
    match found with
    | none => { junk with flags := .invalid }
    | some (sector, i) =>
      { fileOfEntry junk fileName (flpydskReadSector d (rootOffset + sector)) i (rootOffset + sector - 31) with
        absPosition := 0#32 }

/-- The loop over the sectors of a directory. -/
def searchSubdir (d : Floppy) (junk : FILE) (fileName dosFileName : List Byte) : Nat → FILE → Option FILE
  | 0, _ => none
  | fuel + 1, kFile =>
    if kFile.eof then some { junk with flags := .invalid }
    else
      let tmpkFile := kFile
      let read := fat12fsysRead fuel d kFile (fun _ => 0#8) 0 512#32
      if !read.returned then none
      else
        match findEntry read.memory dosFileName with
        | none => searchSubdir d junk fileName dosFileName fuel read.file
        | some i => some (fileOfEntry junk fileName read.memory i tmpkFile.currentCluster)

/-- `fat12fsys_subdir_open`, which leaves `abs_position` as it was. -/
def fat12fsysSubdirOpen (fuel : Nat) (d : Floppy) (junk kFile : FILE) (fileName : List Byte) : Option FILE :=
  match toDosFileName fileName with
  | none => some { junk with flags := .invalid }
  | some dosFileName => searchSubdir d junk fileName dosFileName fuel kFile

/-- The loop over the path, from component `i` on. `junk i` is on the stack when component `i` is opened. -/
def openFrom (fuel : Nat) (d : Floppy) (junk : Nat → FILE) (path : List Byte) : Nat → Nat → FILE → Option FILE
  | 0, _, currFile => some currFile
  | n + 1, i, currFile => do
    let currFilename := seperateAndTake path backslash (i + 1)
    let currFile ← (if i = 0 then some (fat12fsysRootOpen d (junk 0) currFilename)
      else fat12fsysSubdirOpen fuel d (junk i) currFile currFilename)
    if currFile.flags = .invalid then some currFile else openFrom fuel d junk path n (i + 1) currFile

/-- `fat12fsys_open`. There is no result when a chain of directory sectors has not ended within the bound. -/
def fat12fsysOpen (fuel : Nat) (d : Floppy) (junk : Nat → FILE) (path : List Byte) : Option FILE :=
  if strcmp path [backslash] || strcmp path [] then
    some { junk 0 with flags := .directory, name := [backslash] }
  else openFrom fuel d junk path (countSubstrings path backslash) 0 (junk 0)

/-! ### Creating -/

/-- The disk behind a transfer, if it has returned. -/
def Transfer.disk? (t : Transfer) : Option Floppy := if t.returned then some t.disk else none

/-- The new cluster of a directory is cleared through a handle that is only made for it. -/
def clearCluster (fuel : Nat) (d : Floppy) (junk : FILE) (cluster : Nat) : Option Floppy :=
  let tmpF := { junk with
    currentCluster := cluster, eof := false, position := 0#32, fileLength := 0#32, flags := .directory }
  (fat12fsysWrite fuel d tmpF (fun _ => 0#8) 0 512#32).disk?

/-- A free place of a directory's sector gets the new entry, if a cluster can be taken for it. -/
def createEntry (fuel : Nat) (d : Floppy) (writeBack : Floppy → (Nat → Byte) → Option Floppy) (buf : Nat → Byte)
    (dosFileName : List Byte) (flags : Flags) (junk : FILE) (i : Nat) : Option Floppy :=
  let (cluster, d) := fat12fsysOccupyFreeCluster d 0
  if cluster = 0xFF0 then some d
  else do
    let attrib := if flags = .directory then 0x10#8 else 0#8
    let d ← writeBack d (setEntry buf i dosFileName attrib cluster)
    if flags = .directory then clearCluster fuel d junk cluster else some d

/-- The loop over the entries of a sector, from entry `i` on: the new entry goes into the first free place, unless
one in front has the name. The flag is on when the search goes on in the next sector. -/
def createIn (fuel : Nat) (d : Floppy) (writeBack : Floppy → (Nat → Byte) → Option Floppy) (buf : Nat → Byte)
    (dosFileName : List Byte) (flags : Flags) (junk : FILE) : Nat → Nat → Option (Bool × Floppy)
  | 0, _ => some (true, d)
  | n + 1, i =>
    if entryFirstCluster buf i = 0#16 then
      (createEntry fuel d writeBack buf dosFileName flags junk i).map fun d => (false, d)
    else if dosFileName = entryName buf i then some (false, d)
    else createIn fuel d writeBack buf dosFileName flags junk n (i + 1)

/-- The loop over the sectors of the root directory, from one on. -/
def createInRoot (fuel : Nat) (d : Floppy) (dosFileName : List Byte) (flags : Flags) (junk : FILE) :
    Nat → Nat → Option Floppy
  | 0, _ => some d
  | n + 1, sector => do
    let writeBack := fun d buf => some (flpydskWriteSector d (rootOffset + sector) buf)
    let (more, d) ← createIn fuel d writeBack (flpydskReadSector d (rootOffset + sector)) dosFileName flags junk
      16 0
    if more then createInRoot fuel d dosFileName flags junk n (sector + 1) else some d

/-- The loop over the sectors of another directory. -/
def createInSubdir (bound : Nat) (d : Floppy) (dosFileName : List Byte) (flags : Flags) (junk : FILE) :
    Nat → FILE → Option Floppy
  | 0, _ => none
  | fuel + 1, kFile =>
    if kFile.eof then some d
    else
      let tmpkFile := kFile
      let read := fat12fsysRead bound d kFile (fun _ => 0#8) 0 512#32
      if !read.returned then none
      else do
        let writeBack := fun d buf => (fat12fsysWrite bound d tmpkFile buf 0 512#32).disk?
        let (more, d) ← createIn bound d writeBack read.memory dosFileName flags junk 16 0
        if more then createInSubdir bound d dosFileName flags junk fuel read.file else some d

/-- `fat12fsys_create` -/
def fat12fsysCreate (fuel : Nat) (d : Floppy) (junk kFile : FILE) (fileName : List Byte) (flags : Flags) :
    Option Floppy :=
  if kFile.flags ≠ .directory then some d
  else
    match toDosFileName fileName with
    | none => some d
    | some dosFileName =>
      if strcmp kFile.name [backslash] || strcmp kFile.name [] then
        createInRoot fuel d dosFileName flags junk 14 0
      else createInSubdir fuel d dosFileName flags junk fuel kFile

end Akos.Fat12
