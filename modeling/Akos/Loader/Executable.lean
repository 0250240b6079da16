import Akos.Fat12.Volume
import Akos.Loader.Sections
import Akos.Memory.HeapRuns

/-!
# Loading an executable

`load_executable`: headers, section table and padding are read from the start of the file into buffers of the
kernel heap, which are freed one by one, and the sections follow. What a buffer holds is taken from the file as
it was read. A read through the null pointer faults, and there the model stops.
-/

namespace Akos.Loader

/-- An opened file: `FILE.flags`, and its bytes, which `volReadFile` returns in sequence. -/
structure ExecFile where
  flags : Fat12.Flags
  bytes : Bytes

namespace ExecFile

def dosHeader (exec : ExecFile) : ImageDosHeader := .read exec.bytes

/-- `peHeaderRVA` -/
def peHeaderRVA (exec : ExecFile) : BitVec 32 := exec.dosHeader.eLfanew

/-- The length of the stub between the headers. -/
def stubBytes (exec : ExecFile) : BitVec 32 := exec.peHeaderRVA - BitVec.ofNat 32 sizeofDosHeader

/-- Where the NT headers are read, behind DOS header and stub. -/
def ntStart (exec : ExecFile) : Nat := sizeofDosHeader + exec.stubBytes.toNat

def ntHeaders (exec : ExecFile) : ImageNtHeaders := .read (exec.bytes.drop exec.ntStart)

def numOfSections (exec : ExecFile) : Nat := exec.ntHeaders.numberOfSections.toNat

/-- The length of the section table. -/
def tableBytes (exec : ExecFile) : BitVec 32 := BitVec.ofNat 32 (exec.numOfSections * sizeofSectionHeader)

def sectionHeaders (exec : ExecFile) : List ImageSectionHeader :=
  (List.range exec.numOfSections).map fun i =>
    .read (exec.bytes.drop (exec.ntStart + sizeofNtHeaders + i * sizeofSectionHeader))

/-- `unalignedSectionBase` -/
def unalignedSectionBase (exec : ExecFile) : BitVec 32 :=
  BitVec.ofNat 32 sizeofNtHeaders + exec.peHeaderRVA + exec.tableBytes

def alignmentBytes (exec : ExecFile) : BitVec 32 :=
  exec.ntHeaders.fileAlignment - exec.unalignedSectionBase % exec.ntHeaders.fileAlignment

/-- Where the sections are read, behind table and padding. -/
def sectionsStart (exec : ExecFile) : Nat :=
  exec.ntStart + sizeofNtHeaders + exec.tableBytes.toNat + exec.alignmentBytes.toNat

end ExecFile

/-- `sizeof(ImageInfo)` -/
abbrev sizeofImageInfo : BitVec 32 := 12#32

/-- What the loader works on: the kernel heap with its clients, the pages, and what is in those of the user. -/
structure Kernel where
  clients : Heap.Clients
  machine : Machine
  user : ByteMemory

/-- A buffer of the heap that is filled at once. Near 2^32 the size of the block wraps, and what is read runs
over the heap. -/
def buffer (size : BitVec 32) (c : Heap.Clients) : Option (BitVec 32 × Heap.Clients) :=
  let p := (c.heap.kmalloc size).1
  if size ≠ 0#32 ∧ (p = 0#32 ∨ 0xFFFFFFF4 < size.toNat) then none else some (p, c.apply (.kmalloc size))

/-- The second half, behind the NT headers. -/
def loadImage (dir : BitVec 32) (exec : ExecFile) (k : Kernel) : Option (ImageInfo × Kernel) := do
  let (sectionHeader, c) ← buffer exec.tableBytes k.clients
  -- the padding is computed with a division
  if exec.ntHeaders.fileAlignment = 0#32 then none
  else
    let (tmpBuff, c) ← buffer exec.alignmentBytes c
    let c := c.apply (.kfree tmpBuff)
    let t ← Loading.loadSections dir exec.ntHeaders.imageBase exec.bytes exec.sectionHeaders
      ⟨k.machine, k.user, exec.sectionsStart⟩
    let c := c.apply (.kfree sectionHeader)
    let (_, c) ← buffer sizeofImageInfo c
    some (exec.ntHeaders.imageInfo, ⟨c, t.machine, t.user⟩)

/-- `load_executable`: the image, or `none` for 0. -/
def loadExecutable (dir : BitVec 32) (exec : ExecFile) (k : Kernel) : Option (Option ImageInfo × Kernel) :=
  if exec.flags ≠ .file then some (none, k)
  else do
    let (dosHeader, c) ← buffer (BitVec.ofNat 32 sizeofDosHeader) k.clients
    if exec.dosHeader.eMagic ≠ imageDosSignature then
      some (none, { k with clients := c.apply (.kfree dosHeader) })
    else
      let (dosStub, c) ← buffer exec.stubBytes c
      let c := (c.apply (.kfree dosHeader)).apply (.kfree dosStub)
      let (peHeader, c) ← buffer (BitVec.ofNat 32 sizeofNtHeaders) c
      if exec.ntHeaders.Rejected then
        -- nothing is freed here
        some (none, { k with clients := c })
      else
        let (image, k) ← loadImage dir exec { k with clients := c.apply (.kfree peHeader) }
        some (some image, k)

section Loads

variable {dir : BitVec 32} {exec : ExecFile} {k k' : Kernel} {image : ImageInfo}

/-- The second half gets its buffers and loads all sections. -/
theorem loadImage_eq_some (h : loadImage dir exec k = some (image, k')) :
    (∃ r, buffer exec.tableBytes k.clients = some r) ∧ exec.ntHeaders.fileAlignment ≠ 0#32 ∧
      (∃ c r, buffer exec.alignmentBytes c = some r) ∧ image = exec.ntHeaders.imageInfo ∧ ∃ t,
        Loading.loadSections dir exec.ntHeaders.imageBase exec.bytes exec.sectionHeaders
          ⟨k.machine, k.user, exec.sectionsStart⟩ = some t ∧ k'.machine = t.machine ∧ k'.user = t.user := by
  obtain ⟨⟨sectionHeader, c⟩, htable, h⟩ := Option.bind_eq_some_iff.mp h
  dsimp only at h
  split at h
  · cases h
  next halignment =>
  obtain ⟨⟨tmpBuff, c'⟩, hpadding, h⟩ := Option.bind_eq_some_iff.mp h
  obtain ⟨t, ht, h⟩ := Option.bind_eq_some_iff.mp h
  obtain ⟨⟨info, c''⟩, -, h⟩ := Option.bind_eq_some_iff.mp h
  obtain ⟨rfl, rfl⟩ := Prod.mk.inj (Option.some.inj h)
  exact ⟨⟨_, htable⟩, halignment, ⟨c, _, hpadding⟩, rfl, t, ht, rfl, rfl⟩

/-- A loaded image went through the second half, behind headers that are accepted. -/
theorem loadExecutable_eq_some (h : loadExecutable dir exec k = some (some image, k')) :
    ¬ exec.ntHeaders.Rejected ∧ (∃ c r, buffer exec.stubBytes c = some r) ∧
      ∃ c, loadImage dir exec { k with clients := c } = some (image, k') := by
  unfold loadExecutable at h
  split at h
  · cases h
  obtain ⟨⟨dosHeader, c⟩, -, h⟩ := Option.bind_eq_some_iff.mp h
  dsimp only at h
  split at h
  · cases h
  obtain ⟨⟨dosStub, c'⟩, hstub, h⟩ := Option.bind_eq_some_iff.mp h
  obtain ⟨⟨peHeader, c''⟩, -, h⟩ := Option.bind_eq_some_iff.mp h
  dsimp only at h
  split at h
  · cases h
  next haccepted =>
  obtain ⟨⟨image', k''⟩, hload, h⟩ := Option.bind_eq_some_iff.mp h
  obtain ⟨heq, rfl⟩ := Prod.mk.inj (Option.some.inj h)
  obtain rfl := Option.some.inj heq
  exact ⟨haccepted, ⟨c, _, hstub⟩, _, hload⟩

theorem loadImage_of_loadExecutable (h : loadExecutable dir exec k = some (some image, k')) :
    ¬ exec.ntHeaders.Rejected ∧ image = exec.ntHeaders.imageInfo ∧ ∃ t,
      Loading.loadSections dir exec.ntHeaders.imageBase exec.bytes exec.sectionHeaders
        ⟨k.machine, k.user, exec.sectionsStart⟩ = some t ∧ k'.machine = t.machine ∧ k'.user = t.user := by
  obtain ⟨haccepted, -, c, hload⟩ := loadExecutable_eq_some h
  obtain ⟨-, -, -, himage, hsections⟩ := loadImage_eq_some hload
  exact ⟨haccepted, himage, hsections⟩

end Loads

end Akos.Loader
