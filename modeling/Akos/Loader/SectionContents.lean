import Akos.Loader.SectionPages

/-!
# The bytes of an executable

What the pages of an image hold after its sections were loaded. The loader never seeks: it counts on the padding
behind the section table, and where the table ends on a boundary it skips a whole one. Of two sections that share
addresses the later one is what is left.
-/

namespace Akos.Loader

variable {dir imageBase a : BitVec 32} {sec sec' : ImageSectionHeader} {secs secs' : List ImageSectionHeader}
  {bytes bytes' : Bytes} {user : ByteMemory} {pos : Nat}

namespace ImageSectionHeader

/-- How many bytes the loader writes for the section. -/
def length (sec : ImageSectionHeader) : Nat :=
  if sec.isUninitialized then sec.virtualSize.toNat else sec.sizeOfRawData.toNat

/-- How many bytes of the file it reads. -/
def rawLength (sec : ImageSectionHeader) : Nat := if sec.isUninitialized then 0 else sec.sizeOfRawData.toNat

/-- The distance of an address from the start of the section. -/
def offset (imageBase : BitVec 32) (sec : ImageSectionHeader) (a : BitVec 32) : Nat :=
  (a - (imageBase + sec.virtualAddress)).toNat

/-- The section is written at the address. -/
def Covers (imageBase : BitVec 32) (sec : ImageSectionHeader) (a : BitVec 32) : Prop :=
  sec.offset imageBase a < sec.length

/-- The byte that belongs to an address, with the raw data of the section at a place of the file. -/
def byteAt (imageBase : BitVec 32) (sec : ImageSectionHeader) (bytes : Bytes) (pos : Nat) (a : BitVec 32) : BitVec 8 :=
  if sec.isUninitialized then 0#8 else bytes (pos + sec.offset imageBase a)

end ImageSectionHeader

/-- The memory after a section was written. -/
def writeSection (imageBase : BitVec 32) (bytes : Bytes) (user : ByteMemory) (pos : Nat) (sec : ImageSectionHeader) :
    ByteMemory := fun a =>
  if sec.offset imageBase a < sec.length then sec.byteAt imageBase bytes pos a else user a

/-- The memory after sections were written whose data follow each other in the file. -/
def writeSections (imageBase : BitVec 32) (bytes : Bytes) : List ImageSectionHeader → ByteMemory → Nat → ByteMemory
  | [], user, _ => user
  | sec :: secs, user, pos =>
    writeSections imageBase bytes secs (writeSection imageBase bytes user pos sec) (pos + sec.rawLength)

/-- One section: where it is loaded is decided by the pages, and what is written is its part of the file. -/
theorem loadSection_eq (s : Loading) : s.loadSection dir imageBase bytes sec =
    (sec.pages imageBase).bind fun virts =>
      let m := s.machine.allocPages dir sec.flags sec.flags virts
      if ∀ k < sec.length, m.userPage dir (imageBase + sec.virtualAddress + BitVec.ofNat 32 k) = true then
        some ⟨m, writeSection imageBase bytes s.user s.position sec, s.position + sec.rawLength⟩
      else none := by
  unfold Loading.loadSection Loading.volReadFile Loading.write writeSection ImageSectionHeader.length
    ImageSectionHeader.rawLength ImageSectionHeader.byteAt ImageSectionHeader.offset
  cases sec.pages imageBase with
  | none => rfl
  | some virts =>
    simp only [Option.bind_eq_bind, Option.bind_some]
    cases hdata : sec.isUninitialized <;> simp only [Bool.false_eq_true, if_true, if_false]
    · split <;> rfl
    · split <;> rfl

/-- The sections load with one content of the file as with another, and leave what is written. -/
theorem loadSections_eq {s t : Loading} (h : s.loadSections dir imageBase bytes secs = some t) :
    t.user = writeSections imageBase bytes secs s.user s.position := by
  induction secs generalizing s with
  | nil =>
    obtain rfl := Option.some.inj h
    rfl
  | cons sec secs ih =>
    obtain ⟨u, hu, hrest⟩ := Option.bind_eq_some_iff.mp h
    rw [loadSection_eq] at hu
    obtain ⟨virts, -, hu⟩ := Option.bind_eq_some_iff.mp hu
    dsimp only at hu
    split at hu
    · obtain rfl := Option.some.inj hu
      rw [ih hrest]
      rfl
    · cases hu

theorem exists_loadSections {s t s' : Loading} (bytes' : Bytes) (h : s.loadSections dir imageBase bytes secs = some t)
    (hmachine : s'.machine = s.machine) : ∃ t', s'.loadSections dir imageBase bytes' secs = some t' := by
  induction secs generalizing s s' with
  | nil => exact ⟨_, rfl⟩
  | cons sec secs ih =>
    obtain ⟨u, hu, hrest⟩ := Option.bind_eq_some_iff.mp h
    rw [loadSection_eq] at hu
    obtain ⟨virts, hpages, hu⟩ := Option.bind_eq_some_iff.mp hu
    dsimp only at hu
    split at hu
    · next huser =>
      obtain rfl := Option.some.inj hu
      rw [Loading.loadSections, loadSection_eq, hpages, Option.bind_some]
      dsimp only
      rw [hmachine, if_pos huser, Option.bind_some]
      exact ih hrest rfl
    · cases hu

/-! ### Which section is left at an address -/

theorem writeSection_of_covers (h : sec.Covers imageBase a) :
    writeSection imageBase bytes user pos sec a = sec.byteAt imageBase bytes pos a := if_pos h

theorem writeSection_of_not_covers (h : ¬ sec.Covers imageBase a) :
    writeSection imageBase bytes user pos sec a = user a := if_neg h

theorem writeSections_of_not_covers (h : ∀ sec ∈ secs, ¬ sec.Covers imageBase a) :
    writeSections imageBase bytes secs user pos a = user a := by
  induction secs generalizing user pos with
  | nil => rfl
  | cons sec secs ih =>
    rw [writeSections, ih fun sec' hsec' => h sec' (List.mem_cons_of_mem _ hsec'),
      writeSection_of_not_covers (h sec List.mem_cons_self)]

/-- Where only cleared sections are written over a 0, a 0 is left. -/
theorem writeSections_of_cleared (h : ∀ sec ∈ secs, sec.Covers imageBase a → sec.isUninitialized = true)
    (hzero : user a = 0#8) : writeSections imageBase bytes secs user pos a = 0#8 := by
  induction secs generalizing user pos with
  | nil => exact hzero
  | cons sec secs ih =>
    refine ih (fun sec' hsec' => h sec' (List.mem_cons_of_mem _ hsec')) ?_
    by_cases hcovers : sec.Covers imageBase a
    · rw [writeSection_of_covers hcovers, ImageSectionHeader.byteAt, if_pos (h sec List.mem_cons_self hcovers)]
    · rw [writeSection_of_not_covers hcovers, hzero]

/-- No address is written for two sections, unless both are cleared. -/
def Disjoint (imageBase : BitVec 32) (secs : List ImageSectionHeader) : Prop :=
  secs.Pairwise fun sec sec' => ∀ a, sec.Covers imageBase a → sec'.Covers imageBase a →
    sec.isUninitialized = true ∧ sec'.isUninitialized = true

/-- Each section is left where it was written, from its place in the stream. -/
theorem writeSections_eq (hdisjoint : Disjoint imageBase (secs ++ sec :: secs')) (hcovers : sec.Covers imageBase a) :
    writeSections imageBase bytes (secs ++ sec :: secs') user pos a
      = sec.byteAt imageBase bytes (pos + (secs.map ImageSectionHeader.rawLength).sum) a := by
  induction secs generalizing user pos with
  | nil =>
    have hlater := (List.pairwise_cons.mp hdisjoint).1
    rw [List.nil_append, writeSections, List.map_nil, List.sum_nil, Nat.add_zero]
    by_cases hdata : sec.isUninitialized = true
    · rw [ImageSectionHeader.byteAt, if_pos hdata]
      refine writeSections_of_cleared (fun sec' hsec' hcovers' => (hlater sec' hsec' a hcovers hcovers').2) ?_
      rw [writeSection_of_covers hcovers, ImageSectionHeader.byteAt, if_pos hdata]
    · rw [writeSections_of_not_covers fun sec' hsec' hcovers' => hdata (hlater sec' hsec' a hcovers hcovers').1,
        writeSection_of_covers hcovers]
  | cons first secs ih =>
    rw [List.cons_append, writeSections, ih (List.pairwise_cons.mp hdisjoint).2, List.map_cons, List.sum_cons,
      Nat.add_assoc]

/-! ### The layout of a file -/

/-- The raw data of the initialized sections follow each other from a place of the file on. -/
def PackedFrom : Nat → List ImageSectionHeader → Prop
  | _, [] => True
  | p, sec :: secs => (sec.isUninitialized = false → sec.pointerToRawData.toNat = p) ∧
      PackedFrom (p + sec.rawLength) secs

theorem PackedFrom.pointer {p : Nat} (h : PackedFrom p (secs ++ sec :: secs')) (hdata : sec.isUninitialized = false) :
    sec.pointerToRawData.toNat = p + (secs.map ImageSectionHeader.rawLength).sum := by
  induction secs generalizing p with
  | nil => exact h.1 hdata
  | cons first secs ih => rw [ih h.2, List.map_cons, List.sum_cons, Nat.add_assoc]

namespace ExecFile

/-- `FileHeader.SizeOfOptionalHeader`, which the loader does not read. -/
def sizeOfOptionalHeader (exec : ExecFile) : BitVec 16 := exec.bytes.word16 (exec.ntStart + 20)

/-- The end of the section table: signature and file header, optional header and sections. -/
def endOfTable (exec : ExecFile) : Nat :=
  exec.ntStart + 24 + exec.sizeOfOptionalHeader.toNat + exec.numOfSections * sizeofSectionHeader

/-- The first boundary at or after the end of the table. -/
def firstBoundary (exec : ExecFile) : Nat :=
  (exec.endOfTable + exec.ntHeaders.fileAlignment.toNat - 1) / exec.ntHeaders.fileAlignment.toNat
    * exec.ntHeaders.fileAlignment.toNat

/-- A file with the raw data of its sections in order and without gaps behind the headers. -/
structure Packed (exec : ExecFile) : Prop where
  optionalHeader : exec.sizeOfOptionalHeader = 224#16
  alignment : ∃ e, 9 ≤ e ∧ exec.ntHeaders.fileAlignment.toNat = 2 ^ e
  sections : PackedFrom exec.firstBoundary exec.sectionHeaders

/-- The initialized sections hold their raw data, and the others are clear. -/
def ContentsRight (exec : ExecFile) (user : ByteMemory) : Prop :=
  ∀ sec ∈ exec.sectionHeaders, ∀ a, sec.Covers exec.ntHeaders.imageBase a →
    user a = sec.byteAt exec.ntHeaders.imageBase exec.bytes sec.pointerToRawData.toNat a

/-- The file with other bytes behind the section table. -/
def SameHeaders (exec : ExecFile) (bytes : Bytes) : Prop := ∀ i < exec.endOfTable, bytes i = exec.bytes i

/-- The table does not end on a boundary, or no section has raw data; and no address is written for two
sections, unless both are cleared. -/
def Streams (exec : ExecFile) : Prop :=
  (exec.endOfTable % exec.ntHeaders.fileAlignment.toNat ≠ 0 ∨ ∀ sec ∈ exec.sectionHeaders, sec.rawLength = 0) ∧
    Disjoint exec.ntHeaders.imageBase exec.sectionHeaders

end ExecFile

/-! ### Headers and the bytes behind them -/

theorem Bytes.word32_congr {i : Nat} (h : ∀ k < 4, bytes' (i + k) = bytes (i + k)) :
    bytes'.word32 i = bytes.word32 i := by
  rw [Bytes.word32, Bytes.word32, h 3 (by decide), h 2 (by decide), h 1 (by decide), ← Nat.add_zero i, h 0 (by decide)]

theorem Bytes.word16_congr {i : Nat} (h : ∀ k < 2, bytes' (i + k) = bytes (i + k)) :
    bytes'.word16 i = bytes.word16 i := by
  rw [Bytes.word16, Bytes.word16, h 1 (by decide), ← Nat.add_zero i, h 0 (by decide)]

theorem ImageDosHeader.read_congr (h : ∀ i < 64, bytes' i = bytes i) :
    ImageDosHeader.read bytes' = .read bytes := by
  rw [ImageDosHeader.read, ImageDosHeader.read, Bytes.word16_congr fun k hk => h _ (by omega),
    Bytes.word32_congr fun k hk => h _ (by omega)]

theorem ImageNtHeaders.read_congr (h : ∀ i < 248, bytes' i = bytes i) :
    ImageNtHeaders.read bytes' = .read bytes := by
  have h32 : ∀ i ≤ 244, bytes'.word32 i = bytes.word32 i := fun i hi =>
    Bytes.word32_congr fun k hk => h _ (by omega)
  have h16 : ∀ i ≤ 246, bytes'.word16 i = bytes.word16 i := fun i hi =>
    Bytes.word16_congr fun k hk => h _ (by omega)
  rw [ImageNtHeaders.read, ImageNtHeaders.read, h32 0 (by decide), h16 4 (by decide), h16 6 (by decide),
    h16 22 (by decide), h16 24 (by decide), h32 40 (by decide), h32 52 (by decide), h32 60 (by decide),
    h32 80 (by decide)]

theorem ImageSectionHeader.read_congr (h : ∀ i < 40, bytes' i = bytes i) :
    ImageSectionHeader.read bytes' = .read bytes := by
  have h32 : ∀ i ≤ 36, bytes'.word32 i = bytes.word32 i := fun i hi =>
    Bytes.word32_congr fun k hk => h _ (by omega)
  rw [ImageSectionHeader.read, ImageSectionHeader.read, h32 8 (by decide), h32 12 (by decide), h32 16 (by decide),
    h32 20 (by decide), h32 36 (by decide)]

namespace ExecFile

/-- Files that look alike to the loader up to their sections. -/
structure Alike (exec exec' : ExecFile) : Prop where
  flags : exec'.flags = exec.flags
  dosHeader : exec'.dosHeader = exec.dosHeader
  ntHeaders : exec'.ntHeaders = exec.ntHeaders
  sectionHeaders : exec'.sectionHeaders = exec.sectionHeaders

variable {exec exec' : ExecFile}

theorem Alike.ntStart (h : exec.Alike exec') : exec'.ntStart = exec.ntStart := by
  rw [ExecFile.ntStart, stubBytes, peHeaderRVA, h.dosHeader]
  rfl

theorem Alike.tableBytes (h : exec.Alike exec') : exec'.tableBytes = exec.tableBytes := by
  rw [ExecFile.tableBytes, numOfSections, h.ntHeaders]
  rfl

theorem Alike.alignmentBytes (h : exec.Alike exec') : exec'.alignmentBytes = exec.alignmentBytes := by
  rw [ExecFile.alignmentBytes, unalignedSectionBase, h.tableBytes, h.ntHeaders, peHeaderRVA, h.dosHeader]
  rfl

theorem Alike.sectionsStart (h : exec.Alike exec') : exec'.sectionsStart = exec.sectionsStart := by
  rw [ExecFile.sectionsStart, h.ntStart, h.tableBytes, h.alignmentBytes]
  rfl

/-- A file with the same headers looks alike. -/
theorem SameHeaders.alike (hoptional : exec.sizeOfOptionalHeader = 224#16) (h : exec.SameHeaders bytes') :
    exec.Alike { exec with bytes := bytes' } := by
  have hend : exec.endOfTable = exec.ntStart + 248 + exec.numOfSections * 40 := by
    rw [endOfTable, hoptional]
    rfl
  have hstart : 64 ≤ exec.ntStart := Nat.le_add_right _ _
  have hdos : ({ exec with bytes := bytes' } : ExecFile).dosHeader = exec.dosHeader :=
    ImageDosHeader.read_congr fun i hi => h i (by omega)
  have hntStart : ({ exec with bytes := bytes' } : ExecFile).ntStart = exec.ntStart := by
    rw [ExecFile.ntStart, stubBytes, peHeaderRVA, hdos]
    rfl
  have hnt : ({ exec with bytes := bytes' } : ExecFile).ntHeaders = exec.ntHeaders := by
    rw [ExecFile.ntHeaders, hntStart]
    exact ImageNtHeaders.read_congr fun i hi => h _ (by omega)
  refine ⟨rfl, hdos, hnt, ?_⟩
  rw [ExecFile.sectionHeaders, numOfSections, hnt, hntStart]
  refine List.map_congr_left fun i hi => ?_
  have hlt : i < exec.numOfSections := List.mem_range.mp hi
  refine ImageSectionHeader.read_congr fun k hk => h _ ?_
  show exec.ntStart + 248 + i * 40 + k < exec.endOfTable
  omega

end ExecFile

/-! ### Loading a file like another -/

variable {exec exec' : ExecFile} {k k' : Kernel} {image : ImageInfo}

theorem toNat_lt_of_buffer {size : BitVec 32} {c : Heap.Clients} {r : BitVec 32 × Heap.Clients}
    (h : buffer size c = some r) : size.toNat < 0x200000 := by
  unfold buffer at h
  dsimp only at h
  split at h
  · cases h
  next hfilled =>
  rw [not_and, not_or, Nat.not_lt] at hfilled
  by_cases hzero : size = 0#32
  · rw [hzero, BitVec.toNat_zero]
    exact Nat.zero_lt_succ _
  obtain ⟨hne, hsize⟩ := hfilled hzero
  rcases c.heap.kmalloc_cases hsize with ⟨block, hle, -, -⟩ | heq
  · unfold Heap.blocksFor at hle
    omega
  · exact absurd (congrArg Prod.fst heq) hne

theorem exists_loadImage (halike : exec.Alike exec') (h : loadImage dir exec k = some (image, k')) :
    ∃ image' k'', loadImage dir exec' k = some (image', k'') := by
  obtain ⟨⟨sectionHeader, c⟩, htable, h⟩ := Option.bind_eq_some_iff.mp h
  dsimp only at h
  split at h
  · cases h
  next halignment =>
  obtain ⟨⟨tmpBuff, c'⟩, hpadding, h⟩ := Option.bind_eq_some_iff.mp h
  obtain ⟨t, ht, h⟩ := Option.bind_eq_some_iff.mp h
  obtain ⟨⟨info, c''⟩, hinfo, h⟩ := Option.bind_eq_some_iff.mp h
  obtain ⟨t', ht'⟩ := exists_loadSections exec'.bytes ht rfl
  refine ⟨exec.ntHeaders.imageInfo, ⟨c'', t'.machine, t'.user⟩, ?_⟩
  unfold loadImage
  rw [halike.tableBytes, halike.ntHeaders, halike.alignmentBytes, halike.sectionHeaders, halike.sectionsStart]
  refine Option.bind_eq_some_iff.mpr ⟨_, htable, ?_⟩
  dsimp only
  rw [if_neg halignment]
  exact Option.bind_eq_some_iff.mpr ⟨_, hpadding, Option.bind_eq_some_iff.mpr ⟨_, ht',
    Option.bind_eq_some_iff.mpr ⟨_, hinfo, rfl⟩⟩⟩

theorem exists_loadExecutable (halike : exec.Alike exec') (h : loadExecutable dir exec k = some (some image, k')) :
    ∃ image' k'', loadExecutable dir exec' k = some (some image', k'') := by
  have hstub : exec'.stubBytes = exec.stubBytes := by
    rw [ExecFile.stubBytes, ExecFile.peHeaderRVA, halike.dosHeader]
    rfl
  unfold loadExecutable at h ⊢
  rw [halike.flags, halike.dosHeader, hstub, halike.ntHeaders]
  split at h
  · cases h
  next hfile =>
  rw [if_neg hfile]
  obtain ⟨⟨dosHeader, c⟩, hdos, h⟩ := Option.bind_eq_some_iff.mp h
  dsimp only at h
  split at h
  · cases h
  next hmagic =>
  obtain ⟨⟨dosStub, c'⟩, hdosStub, h⟩ := Option.bind_eq_some_iff.mp h
  obtain ⟨⟨peHeader, c''⟩, hpe, h⟩ := Option.bind_eq_some_iff.mp h
  dsimp only at h
  split at h
  · cases h
  next haccepted =>
  obtain ⟨⟨image', k''⟩, hload, h⟩ := Option.bind_eq_some_iff.mp h
  obtain ⟨info, l, hload'⟩ := exists_loadImage halike hload
  refine ⟨info, l, ?_⟩
  refine Option.bind_eq_some_iff.mpr ⟨_, hdos, ?_⟩
  dsimp only
  rw [if_neg hmagic]
  refine Option.bind_eq_some_iff.mpr ⟨_, hdosStub, Option.bind_eq_some_iff.mpr ⟨_, hpe, ?_⟩⟩
  dsimp only
  rw [if_neg haccepted]
  exact Option.bind_eq_some_iff.mpr ⟨_, hload', rfl⟩

/-- What the sizes of the buffers say about the headers. -/
theorem sizes_of_loadExecutable (h : loadExecutable dir exec k = some (some image, k')) :
    exec.stubBytes.toNat < 0x200000 ∧ exec.tableBytes.toNat < 0x200000 ∧ exec.alignmentBytes.toNat < 0x200000 ∧
      exec.ntHeaders.fileAlignment ≠ 0#32 := by
  obtain ⟨-, ⟨_, _, hstub⟩, c, hload⟩ := loadExecutable_eq_some h
  obtain ⟨⟨_, htable⟩, halignment, ⟨_, _, hpadding⟩, -⟩ := loadImage_eq_some hload
  exact ⟨toNat_lt_of_buffer hstub, toNat_lt_of_buffer htable, toNat_lt_of_buffer hpadding, halignment⟩

/-! ### Where the stream stands -/

/-- Rounding up by division. -/
theorem roundUp_eq (t : Nat) {n : Nat} (hn : 0 < n) :
    (t + n - 1) / n * n = if t % n = 0 then t else t + (n - t % n) := by
  have hmod := Nat.mod_lt t hn
  have hdiv := Nat.div_add_mod t n
  split
  · next haligned =>
    have hquot : (t + n - 1) / n = t / n := by
      rw [show t + n - 1 = n - 1 + n * (t / n) by omega, Nat.add_mul_div_left _ _ hn,
        Nat.div_eq_of_lt (by omega), Nat.zero_add]
    rw [hquot, Nat.mul_comm]
    omega
  · next haligned =>
    have hquot : (t + n - 1) / n = t / n + 1 := by
      rw [show t + n - 1 = t % n - 1 + n * (t / n + 1) by rw [Nat.mul_succ]; omega, Nat.add_mul_div_left _ _ hn,
        Nat.div_eq_of_lt (by omega), Nat.zero_add]
    rw [hquot, Nat.succ_mul, Nat.mul_comm]
    omega

namespace ExecFile

theorem toNat_tableBytes : exec.tableBytes.toNat = exec.numOfSections * 40 := by
  have hlt : exec.numOfSections < 65536 := exec.ntHeaders.numberOfSections.isLt
  rw [tableBytes, BitVec.toNat_ofNat]
  show exec.numOfSections * 40 % 2 ^ 32 = exec.numOfSections * 40
  omega

/-- The end of the table as the loader computes it. -/
theorem toNat_unalignedSectionBase (hoptional : exec.sizeOfOptionalHeader = 224#16)
    (hstub : exec.stubBytes.toNat < 0x200000) (htable : exec.tableBytes.toNat < 0x200000) :
    exec.unalignedSectionBase.toNat = exec.endOfTable := by
  have hrva : exec.peHeaderRVA.toNat = exec.stubBytes.toNat + 64 := by
    rw [← BitVec.sub_add_cancel exec.peHeaderRVA (BitVec.ofNat 32 sizeofDosHeader), BitVec.toNat_add]
    show (exec.stubBytes.toNat + 64) % 2 ^ 32 = _
    omega
  rw [endOfTable, hoptional, unalignedSectionBase, BitVec.toNat_add, BitVec.toNat_add, hrva]
  show ((248 + (exec.stubBytes.toNat + 64)) % 2 ^ 32 + exec.tableBytes.toNat) % 2 ^ 32
    = 64 + exec.stubBytes.toNat + 24 + 224 + exec.numOfSections * 40
  rw [← toNat_tableBytes]
  omega

/-- The sections are read behind the end of the table and a padding that is never empty. -/
theorem sectionsStart_eq (hoptional : exec.sizeOfOptionalHeader = 224#16)
    (hstub : exec.stubBytes.toNat < 0x200000) (htable : exec.tableBytes.toNat < 0x200000)
    (halignment : exec.ntHeaders.fileAlignment ≠ 0#32) :
    exec.sectionsStart = exec.endOfTable +
      (exec.ntHeaders.fileAlignment.toNat - exec.endOfTable % exec.ntHeaders.fileAlignment.toNat) := by
  have hpos : 0 < exec.ntHeaders.fileAlignment.toNat := BitVec.toNat_pos_of_ne_zero halignment
  have hpad : exec.alignmentBytes.toNat
      = exec.ntHeaders.fileAlignment.toNat - exec.endOfTable % exec.ntHeaders.fileAlignment.toNat := by
    have hmod := Nat.mod_lt exec.endOfTable hpos
    rw [alignmentBytes, BitVec.toNat_sub_of_le, BitVec.toNat_umod,
      toNat_unalignedSectionBase hoptional hstub htable]
    rw [BitVec.le_def, BitVec.toNat_umod, toNat_unalignedSectionBase hoptional hstub htable]
    omega
  have hend : exec.endOfTable = exec.ntStart + 248 + exec.numOfSections * 40 := by
    rw [endOfTable, hoptional]
    rfl
  rw [sectionsStart, hpad, toNat_tableBytes, hend]

end ExecFile

/-! ### Contents and headers -/

theorem PackedFrom.le {p : Nat} (h : PackedFrom p secs) (hsec : sec ∈ secs) (hdata : sec.isUninitialized = false) :
    p ≤ sec.pointerToRawData.toNat := by
  obtain ⟨before, after, rfl⟩ := List.append_of_mem hsec
  rw [h.pointer hdata]
  exact Nat.le_add_right _ _

/-- Raw data end before later raw data begin. -/
theorem PackedFrom.pairwise {p : Nat} (h : PackedFrom p secs) :
    secs.Pairwise fun sec sec' => sec.isUninitialized = false → sec'.isUninitialized = false →
      sec.pointerToRawData.toNat + sec.rawLength ≤ sec'.pointerToRawData.toNat := by
  induction secs generalizing p with
  | nil => exact List.Pairwise.nil
  | cons sec secs ih =>
    refine List.pairwise_cons.mpr ⟨fun sec' hsec' hdata hdata' => ?_, ih h.2⟩
    rw [h.1 hdata]
    exact h.2.le hsec' hdata'

namespace ImageSectionHeader

theorem offset_lt_rawLength (hdata : sec.isUninitialized = false) (hcovers : sec.Covers imageBase a) :
    sec.offset imageBase a < sec.rawLength := by
  rw [Covers, length, if_neg (Bool.eq_false_iff.mp hdata)] at hcovers
  rwa [rawLength, if_neg (Bool.eq_false_iff.mp hdata)]

theorem byteAt_of_data (hdata : sec.isUninitialized = false) :
    sec.byteAt imageBase bytes pos a = bytes (pos + sec.offset imageBase a) := if_neg (Bool.eq_false_iff.mp hdata)

theorem byteAt_of_cleared (hcleared : sec.isUninitialized = true) : sec.byteAt imageBase bytes pos a = 0#8 :=
  if_pos hcleared

end ImageSectionHeader

namespace ExecFile

theorem endOfTable_le_firstBoundary (halignment : exec.ntHeaders.fileAlignment ≠ 0#32) :
    exec.endOfTable ≤ exec.firstBoundary := by
  rw [firstBoundary, roundUp_eq _ (BitVec.toNat_pos_of_ne_zero halignment)]
  split
  · exact Nat.le_refl _
  · exact Nat.le_add_right _ _

/-- The bytes of the headers, and behind them a single 1. -/
def marked (exec : ExecFile) (p : Nat) : Bytes := fun i =>
  if i < exec.endOfTable then exec.bytes i else if i = p then 1#8 else 0#8

theorem sameHeaders_marked (exec : ExecFile) (p : Nat) : exec.SameHeaders (exec.marked p) := fun _ hi => if_pos hi

theorem marked_self {p : Nat} (hp : exec.endOfTable ≤ p) : exec.marked p p = 1#8 := by
  rw [marked, if_neg (Nat.not_lt_of_le hp), if_pos rfl]

theorem marked_other {p q : Nat} (hq : exec.endOfTable ≤ q) (hne : q ≠ p) : exec.marked p q = 0#8 := by
  rw [marked, if_neg (Nat.not_lt_of_le hq), if_neg hne]

/-- The contents are right whatever bytes stand behind the headers. -/
def AlwaysRight (dir : BitVec 32) (exec : ExecFile) (k : Kernel) : Prop :=
  ∀ bytes, exec.SameHeaders bytes → ∀ image k',
    loadExecutable dir { exec with bytes } k = some (some image, k') →
      ContentsRight { exec with bytes } k'.user

/-- What is in the pages when a file with the same headers was loaded. -/
theorem user_of_loadExecutable (halike : exec.Alike exec')
    (h : loadExecutable dir exec' k = some (some image, k')) :
    k'.user = writeSections exec.ntHeaders.imageBase exec'.bytes exec.sectionHeaders k.user exec.sectionsStart := by
  obtain ⟨-, -, t, ht, -, huser⟩ := loadImage_of_loadExecutable h
  rw [huser, loadSections_eq ht, halike.ntHeaders, halike.sectionHeaders, halike.sectionsStart]

variable (hpacked : exec.Packed) (hload : loadExecutable dir exec k = some (some image, k'))

include hpacked hload

/-- The two properties of the headers are enough. -/
theorem alwaysRight_of_streams (hstreams : exec.Streams) : exec.AlwaysRight dir k := by
  intro bytes hsame image' k'' hload'
  have halike := hsame.alike hpacked.optionalHeader
  obtain ⟨hstub, htable, -, halignment⟩ := sizes_of_loadExecutable hload
  have hstart := sectionsStart_eq hpacked.optionalHeader hstub htable halignment
  intro sec hsec a hcovers
  rw [halike.ntHeaders] at hcovers ⊢
  rw [halike.sectionHeaders] at hsec
  obtain ⟨secs, secs', hsplit⟩ := List.append_of_mem hsec
  rw [user_of_loadExecutable halike hload', hsplit, writeSections_eq (hsplit ▸ hstreams.2) hcovers]
  cases hdata : sec.isUninitialized with
  | true => rw [ImageSectionHeader.byteAt_of_cleared hdata, ImageSectionHeader.byteAt_of_cleared hdata]
  | false =>
    -- the padding ends on the boundary the raw data begin at
    have hnext : exec.endOfTable % exec.ntHeaders.fileAlignment.toNat ≠ 0 := by
      refine hstreams.1.resolve_right fun hempty => ?_
      have hoffset := ImageSectionHeader.offset_lt_rawLength hdata hcovers
      rw [hempty sec hsec] at hoffset
      exact Nat.not_lt_zero _ hoffset
    have hboundary : exec.firstBoundary = exec.sectionsStart := by
      rw [firstBoundary, roundUp_eq _ (BitVec.toNat_pos_of_ne_zero halignment), if_neg hnext, hstart]
    have hpointer := (hsplit ▸ hpacked.sections).pointer hdata
    rw [hpointer, hboundary]

/-- Every byte of a section is what was read for it and what the headers say, whatever it is. -/
theorem writeSections_of_alwaysRight (hright : exec.AlwaysRight dir k) (p : Nat) (hsec : sec ∈ exec.sectionHeaders)
    (hcovers : sec.Covers exec.ntHeaders.imageBase a) :
    writeSections exec.ntHeaders.imageBase (exec.marked p) exec.sectionHeaders k.user exec.sectionsStart a
      = sec.byteAt exec.ntHeaders.imageBase (exec.marked p) sec.pointerToRawData.toNat a := by
  have halike := (exec.sameHeaders_marked p).alike hpacked.optionalHeader
  obtain ⟨image', k'', hload'⟩ := exists_loadExecutable halike hload
  have hcontents := hright _ (exec.sameHeaders_marked p) image' k'' hload'
  rw [user_of_loadExecutable halike hload', ContentsRight, halike.sectionHeaders, halike.ntHeaders] at hcontents
  exact hcontents sec hsec a hcovers

theorem byteAt_eq_of_alwaysRight (hright : exec.AlwaysRight dir k) (hsec : sec ∈ exec.sectionHeaders)
    (hsec' : sec' ∈ exec.sectionHeaders) (hcovers : sec.Covers exec.ntHeaders.imageBase a)
    (hcovers' : sec'.Covers exec.ntHeaders.imageBase a) (p : Nat) :
    sec.byteAt exec.ntHeaders.imageBase (exec.marked p) sec.pointerToRawData.toNat a
      = sec'.byteAt exec.ntHeaders.imageBase (exec.marked p) sec'.pointerToRawData.toNat a :=
  (writeSections_of_alwaysRight hpacked hload hright p hsec hcovers).symm.trans
    (writeSections_of_alwaysRight hpacked hload hright p hsec' hcovers')

/-- Raw data begin behind the section table. -/
theorem endOfTable_le_pointer (hsec : sec ∈ exec.sectionHeaders) (hdata : sec.isUninitialized = false) :
    exec.endOfTable ≤ sec.pointerToRawData.toNat :=
  (endOfTable_le_firstBoundary (sizes_of_loadExecutable hload).2.2.2).trans (hpacked.sections.le hsec hdata)

/-- A byte that is cleared for one section cannot be data of another. -/
theorem not_data_and_cleared (hright : exec.AlwaysRight dir k) (hsec : sec ∈ exec.sectionHeaders)
    (hsec' : sec' ∈ exec.sectionHeaders) (hcovers : sec.Covers exec.ntHeaders.imageBase a)
    (hcovers' : sec'.Covers exec.ntHeaders.imageBase a) (hdata : sec.isUninitialized = false) :
    sec'.isUninitialized = false := by
  by_contra hcleared
  have hplace := (endOfTable_le_pointer hpacked hload hsec hdata).trans
    (Nat.le_add_right _ (sec.offset exec.ntHeaders.imageBase a))
  have hbyte := byteAt_eq_of_alwaysRight hpacked hload hright hsec hsec' hcovers hcovers'
    (sec.pointerToRawData.toNat + sec.offset exec.ntHeaders.imageBase a)
  rw [ImageSectionHeader.byteAt_of_data hdata, marked_self hplace,
    ImageSectionHeader.byteAt_of_cleared (Bool.not_eq_false _ ▸ hcleared)] at hbyte
  exact absurd hbyte (by decide)

theorem disjoint_of_alwaysRight (hright : exec.AlwaysRight dir k) :
    Disjoint exec.ntHeaders.imageBase exec.sectionHeaders := by
  refine hpacked.sections.pairwise.imp_of_mem fun {sec sec'} hsec hsec' hordered a hcovers hcovers' => ?_
  cases hdata : sec.isUninitialized with
  | true =>
    refine ⟨rfl, Bool.not_eq_false _ ▸ fun hdata' => ?_⟩
    have := not_data_and_cleared hpacked hload hright hsec' hsec hcovers' hcovers hdata'
    rw [hdata] at this
    cases this
  | false =>
    have hdata' := not_data_and_cleared hpacked hload hright hsec hsec' hcovers hcovers' hdata
    have hoffset := ImageSectionHeader.offset_lt_rawLength hdata hcovers
    have hplace := endOfTable_le_pointer hpacked hload hsec hdata
    have hplace' := endOfTable_le_pointer hpacked hload hsec' hdata'
    have hend := hordered hdata hdata'
    have hbyte := byteAt_eq_of_alwaysRight hpacked hload hright hsec hsec' hcovers hcovers'
      (sec.pointerToRawData.toNat + sec.offset exec.ntHeaders.imageBase a)
    rw [ImageSectionHeader.byteAt_of_data hdata, ImageSectionHeader.byteAt_of_data hdata',
      marked_self (by omega), marked_other (by omega) (by omega)] at hbyte
    exact absurd hbyte (by decide)

/-- Where the table ends on a boundary, the raw data are read one boundary too late. -/
theorem rawLength_of_alwaysRight (hright : exec.AlwaysRight dir k)
    (haligned : exec.endOfTable % exec.ntHeaders.fileAlignment.toNat = 0) (hsec : sec ∈ exec.sectionHeaders) :
    sec.rawLength = 0 := by
  by_contra hlength
  have hdata : sec.isUninitialized = false := by
    by_contra hcleared
    exact hlength (if_pos (Bool.not_eq_false _ ▸ hcleared))
  obtain ⟨hstub, htable, -, halignment⟩ := sizes_of_loadExecutable hload
  have hpos : 0 < exec.ntHeaders.fileAlignment.toNat := BitVec.toNat_pos_of_ne_zero halignment
  have hstart := sectionsStart_eq hpacked.optionalHeader hstub htable halignment
  have hboundary : exec.firstBoundary = exec.endOfTable := by
    rw [firstBoundary, roundUp_eq _ hpos, if_pos haligned]
  -- the first byte of the section
  obtain ⟨a, ha⟩ : ∃ a, a = exec.ntHeaders.imageBase + sec.virtualAddress := ⟨_, rfl⟩
  have hzero : sec.offset exec.ntHeaders.imageBase a = 0 := by
    rw [ImageSectionHeader.offset, ha, BitVec.sub_self]
    rfl
  have hcovers : sec.Covers exec.ntHeaders.imageBase a := by
    rw [ImageSectionHeader.Covers, hzero, ImageSectionHeader.length, if_neg (Bool.eq_false_iff.mp hdata)]
    rw [ImageSectionHeader.rawLength, if_neg (Bool.eq_false_iff.mp hdata)] at hlength
    exact Nat.pos_of_ne_zero hlength
  have hplace := endOfTable_le_pointer hpacked hload hsec hdata
  have hbyte := writeSections_of_alwaysRight hpacked hload hright sec.pointerToRawData.toNat hsec hcovers
  obtain ⟨secs, secs', hsplit⟩ := List.append_of_mem hsec
  have hpointer := (hsplit ▸ hpacked.sections).pointer hdata
  have hdisjoint := disjoint_of_alwaysRight hpacked hload hright
  rw [hsplit, writeSections_eq (hsplit ▸ hdisjoint) hcovers, ImageSectionHeader.byteAt_of_data hdata,
    ImageSectionHeader.byteAt_of_data hdata, hzero, Nat.add_zero, Nat.add_zero, marked_self hplace,
    marked_other (by omega) (by omega)] at hbyte
  exact absurd hbyte (by decide)

/-- The contents are right for all data behind the headers exactly when the table does not end on a boundary,
unless there are no data, and sections share no address. -/
theorem alwaysRight_iff : exec.AlwaysRight dir k ↔ exec.Streams := by
  constructor
  · intro hright
    refine ⟨?_, disjoint_of_alwaysRight hpacked hload hright⟩
    by_cases haligned : exec.endOfTable % exec.ntHeaders.fileAlignment.toNat = 0
    · exact .inr fun sec hsec => rawLength_of_alwaysRight hpacked hload hright haligned hsec
    · exact .inl haligned
  · exact alwaysRight_of_streams hpacked hload

end ExecFile

/-! ### A file whose section table ends on a boundary -/

/-- The bytes that are not 0 in a file with one section of 16 bytes at 0x401000, whose raw data begin at place 512
with a 1, and with its NT headers at some place. -/
def packedBytes (rva : Nat) : List (Nat × BitVec 8) :=
  -- DOS header
  [(0, 0x4D), (1, 0x5A), (60, BitVec.ofNat 8 rva),
  -- NT headers
    (rva, 0x50), (rva + 1, 0x45), (rva + 4, 0x4C), (rva + 5, 0x01), (rva + 6, 1), (rva + 20, 224), (rva + 22, 0x02),
    (rva + 24, 0x0B), (rva + 25, 0x01), (rva + 54, 0x40), (rva + 61, 0x02), (rva + 81, 0x20),
  -- section header
    (rva + 256, 16), (rva + 261, 0x10), (rva + 264, 16), (rva + 269, 0x02), (rva + 287, 0x80),
    (512, 1)]

def packedFile (rva : Nat) : ExecFile where
  flags := .file
  bytes := fun i => ((packedBytes rva).lookup i).getD 0

/-- The section of the file, with its header's fields. -/
def dataSection : ImageSectionHeader := ⟨16#32, 0x1000#32, 16#32, 0x200#32, 0x80000000#32⟩

theorem headers_packedFile {rva : Nat} (hrva : rva = 64 ∨ rva = 224) :
    (packedFile rva).sizeOfOptionalHeader = 224#16 ∧ (packedFile rva).ntHeaders.imageBase = 0x400000#32 ∧
      (packedFile rva).ntHeaders.fileAlignment = 512#32 ∧ (packedFile rva).sectionHeaders = [dataSection] ∧
      (packedFile rva).endOfTable = rva + 288 := by
  rcases hrva with rfl | rfl <;> refine ⟨?_, ?_, ?_, ?_, ?_⟩ <;> decide +kernel

theorem packed_packedFile {rva : Nat} (hrva : rva = 64 ∨ rva = 224) : (packedFile rva).Packed := by
  obtain ⟨hoptional, -, halignment, hsections, hend⟩ := headers_packedFile hrva
  refine ⟨hoptional, ⟨9, by decide, by rw [halignment]; rfl⟩, ?_⟩
  rw [hsections, ExecFile.firstBoundary, halignment, hend]
  refine ⟨fun _ => ?_, trivial⟩
  rcases hrva with rfl | rfl <;> rfl

theorem exists_loadExecutable_packedFile {rva : Nat} (hrva : rva = 64 ∨ rva = 224) :
    ∃ image k, loadExecutable 0x1000#32 (packedFile rva) loadingKernel = some (some image, k) := by
  have hload : ((loadExecutable 0x1000#32 (packedFile rva) loadingKernel).map fun r => r.1.isSome) = some true := by
    rcases hrva with rfl | rfl <;> decide +kernel
  obtain ⟨⟨image, k⟩, hload, himage⟩ := Option.map_eq_some_iff.mp hload
  obtain ⟨image, rfl⟩ := Option.isSome_iff_exists.mp himage
  exact ⟨image, k, hload⟩

/-- With the headers at 64 the table ends at 352. -/
theorem alwaysRight_packedFile : (packedFile 64).AlwaysRight 0x1000#32 loadingKernel := by
  obtain ⟨image, k, hload⟩ := exists_loadExecutable_packedFile (.inl rfl)
  obtain ⟨-, -, halignment, hsections, hend⟩ := headers_packedFile (.inl rfl)
  refine (ExecFile.alwaysRight_iff (packed_packedFile (.inl rfl)) hload).mpr ⟨.inl ?_, ?_⟩
  · rw [hend, halignment]
    decide
  · rw [hsections]
    exact List.pairwise_singleton _ _

/-- With the headers at 224 it ends at 512, and what is loaded are the bytes from 1024 on. -/
theorem not_contentsRight_packedFile : ∃ image k,
    loadExecutable 0x1000#32 (packedFile 224) loadingKernel = some (some image, k) ∧ (packedFile 224).Packed ∧
      ¬ (packedFile 224).ContentsRight k.user := by
  obtain ⟨image, k, hload⟩ := exists_loadExecutable_packedFile (.inr rfl)
  obtain ⟨-, hbase, -, hsections, -⟩ := headers_packedFile (.inr rfl)
  refine ⟨image, k, hload, packed_packedFile (.inr rfl), fun hright => ?_⟩
  have hcovers : dataSection.Covers (packedFile 224).ntHeaders.imageBase 0x401000#32 := by
    rw [hbase]
    show (0x401000#32 - (0x400000#32 + 0x1000#32)).toNat < 16
    decide
  have hbyte := hright dataSection (hsections ▸ List.mem_singleton_self _) 0x401000#32 hcovers
  rw [ExecFile.user_of_loadExecutable ⟨rfl, rfl, rfl, rfl⟩ hload, hbase, hsections] at hbyte
  revert hbyte
  decide +kernel

end Akos.Loader
