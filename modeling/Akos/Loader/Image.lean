import Akos.Sched.Process

/-!
# Headers of executables

`image.h`: the fields of the DOS header, the NT headers and the section headers that `load_executable` reads,
at their places in the packed structures, and its check of the NT headers.
-/

namespace Akos.Loader

/-- Bytes from some place on. -/
abbrev Bytes := Nat → BitVec 8

namespace Bytes

def word16 (b : Bytes) (i : Nat) : BitVec 16 := b (i + 1) ++ b i

def word32 (b : Bytes) (i : Nat) : BitVec 32 := b (i + 3) ++ b (i + 2) ++ b (i + 1) ++ b i

/-- The bytes from place `i` on. -/
def drop (b : Bytes) (i : Nat) : Bytes := fun k => b (i + k)

end Bytes

/-- `IMAGE_DOS_HEADER` -/
structure ImageDosHeader where
  eMagic : BitVec 16
  eLfanew : BitVec 32

/-- `sizeof(IMAGE_DOS_HEADER)` -/
abbrev sizeofDosHeader : Nat := 64

def ImageDosHeader.read (b : Bytes) : ImageDosHeader where
  eMagic := b.word16 0
  eLfanew := b.word32 60

/-- `IMAGE_NT_HEADERS` with its file header and optional header -/
structure ImageNtHeaders where
  signature : BitVec 32
  machine : BitVec 16
  numberOfSections : BitVec 16
  characteristics : BitVec 16
  magic : BitVec 16
  addressOfEntryPoint : BitVec 32
  imageBase : BitVec 32
  fileAlignment : BitVec 32
  sizeOfImage : BitVec 32

/-- `sizeof(IMAGE_NT_HEADERS)` -/
abbrev sizeofNtHeaders : Nat := 248

def ImageNtHeaders.read (b : Bytes) : ImageNtHeaders where
  signature := b.word32 0
  machine := b.word16 4
  numberOfSections := b.word16 6
  characteristics := b.word16 22
  magic := b.word16 24
  addressOfEntryPoint := b.word32 40
  imageBase := b.word32 52
  fileAlignment := b.word32 60
  sizeOfImage := b.word32 80

/-- `IMAGE_SECTION_HEADER` -/
structure ImageSectionHeader where
  virtualSize : BitVec 32
  virtualAddress : BitVec 32
  sizeOfRawData : BitVec 32
  pointerToRawData : BitVec 32
  characteristics : BitVec 32
  deriving DecidableEq

/-- `IMAGE_SIZEOF_SECTION_HEADER` -/
abbrev sizeofSectionHeader : Nat := 40

def ImageSectionHeader.read (b : Bytes) : ImageSectionHeader where
  virtualSize := b.word32 8
  virtualAddress := b.word32 12
  sizeOfRawData := b.word32 16
  pointerToRawData := b.word32 20
  characteristics := b.word32 36

/-- `IMAGE_DOS_SIGNATURE` -/
abbrev imageDosSignature : BitVec 16 := 0x5A4D#16

/-- `IMAGE_NT_SIGNATURE` -/
abbrev imageNtSignature : BitVec 32 := 0x4550#32

/-- `IMAGE_FILE_MACHINE_I386` -/
abbrev imageFileMachineI386 : BitVec 16 := 0x14C#16

/-- `IMAGE_FILE_EXECUTABLE_IMAGE | IMAGE_FILE_32BIT_MACHINE` -/
abbrev imageFileExecutable32 : BitVec 16 := 0x102#16

/-- `IMAGE_NT_OPTIONAL_HDR32_MAGIC` -/
abbrev imageNtOptionalHdr32Magic : BitVec 16 := 0x10B#16

/-- `IMAGE_SCN_CNT_UNINITIALIZED_DATA` -/
abbrev imageScnCntUninitializedData : BitVec 32 := 0x80#32

/-- `IMAGE_SCN_MEM_WRITE` -/
abbrev imageScnMemWrite : BitVec 32 := 0x80000000#32

namespace ImageNtHeaders

/-- The check after which `load_executable` gives up. -/
def Rejected (h : ImageNtHeaders) : Prop :=
  h.signature ≠ imageNtSignature ∨ h.machine ≠ imageFileMachineI386 ∨
    h.characteristics &&& imageFileExecutable32 = 0#16 ∨
    (h.imageBase < 0x400000#32 ∨ h.imageBase > 0x80000000#32) ∨ h.magic ≠ imageNtOptionalHdr32Magic

instance (h : ImageNtHeaders) : Decidable h.Rejected := inferInstanceAs (Decidable (_ ∨ _))

/-- What `load_executable` returns about an image. -/
def imageInfo (h : ImageNtHeaders) : ImageInfo := ⟨h.imageBase, h.sizeOfImage⟩

theorem imageBase_of_not_rejected {h : ImageNtHeaders} (haccepted : ¬ h.Rejected) :
    0x400000 ≤ h.imageBase.toNat ∧ h.imageBase.toNat ≤ 0x80000000 := by
  have hbase : ¬ (h.imageBase < 0x400000#32 ∨ h.imageBase > 0x80000000#32) := fun hout =>
    haccepted (.inr (.inr (.inr (.inl hout))))
  rw [not_or] at hbase
  rw [BitVec.lt_def, gt_iff_lt, BitVec.lt_def] at hbase
  rw [show (0x400000#32).toNat = 0x400000 from rfl, show (0x80000000#32).toNat = 0x80000000 from rfl] at hbase
  omega

end ImageNtHeaders

namespace ImageSectionHeader

def isUninitialized (h : ImageSectionHeader) : Bool := imageScnCntUninitializedData &&& h.characteristics ≠ 0#32

def isWritable (h : ImageSectionHeader) : Bool := imageScnMemWrite &&& h.characteristics ≠ 0#32

end ImageSectionHeader

end Akos.Loader
