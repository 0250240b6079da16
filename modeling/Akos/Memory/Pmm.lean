import Mathlib.Algebra.Ring.Int.Defs
import Akos.Lib.WordMap

/-!
# The physical memory manager

`pmm.c`: one bit for each 4096-byte frame of physical memory, a counter of the frames in use beside it,
the regions the firmware reports or the kernel reserves, and first-fit allocation of frames. Sizes and
addresses are 32-bit words; frame numbers, which the code keeps in non-negative `int`s, are `Nat`.
-/

namespace Akos

/-- The static variables of `pmm.c`. -/
structure Pmm where
  memorySize : BitVec 32
  usedBlocks : BitVec 32
  maxBlocks : BitVec 32
  memoryMap : WordMap

namespace Pmm

/-- `PMMNGR_BLOCK_SIZE` -/
abbrev blockSize : BitVec 32 := 4096#32

/-- `PMMNGR_BLOCKS_PER_BYTE` -/
abbrev blocksPerByte : Int := 8

/-- The frame of a physical address. -/
def frameOf (p : BitVec 32) : Nat := (p / blockSize).toNat

/-- The bit of a frame. -/
abbrev mmapTest (s : Pmm) (frame : Nat) : Bool := s.memoryMap.test frame

def pmmngrGetBlockCount (s : Pmm) : Int := s.maxBlocks.toInt

def pmmngrGetFreeBlockCount (s : Pmm) : Int := (s.maxBlocks - s.usedBlocks).toInt

/-- How many words the searches look at: the block count over 32, compared with an unsigned index. -/
def searchWords (s : Pmm) : Nat := (BitVec.ofInt 32 ((s.pmmngrGetBlockCount).tdiv 32)).toNat

def mmapFirstFree (s : Pmm) : Option Nat := s.memoryMap.firstClear s.searchWords

def mmapFirstFreeS (s : Pmm) (seqLen : Int) : Option Nat :=
  s.memoryMap.firstClearRun s.searchWords seqLen

/-- The block count `pmmngr_init` derives from the memory size in kilobytes, in `int` arithmetic. -/
def blockCount (memSize : BitVec 32) : Int := (memSize * 1024#32).toInt.tdiv 4096

/-- `bitmap` is the memory the map is placed over. The `memset` covers whole bytes of the map, and no
byte at all when the count is negative. -/
def pmmngrInit (memSize : BitVec 32) (bitmap : WordMap) : Pmm :=
  let maxBlocks := BitVec.ofInt 32 (blockCount memSize)
  { memorySize := memSize
    usedBlocks := maxBlocks
    maxBlocks := maxBlocks
    memoryMap := bitmap.setRun 0 (8 * (maxBlocks.toInt.tdiv blocksPerByte).toNat) }

/-- `mmap_set (frame++); _mmngr_used_blocks++;` for a number of frames. -/
def occupyRun (s : Pmm) (frame : Nat) : Nat → Pmm
  | 0 => s
  | n + 1 =>
    occupyRun { s with memoryMap := s.memoryMap.set frame, usedBlocks := s.usedBlocks + 1#32 }
      (frame + 1) n

/-- `mmap_unset (frame++); _mmngr_used_blocks--;` for a number of frames. -/
def releaseRun (s : Pmm) (frame : Nat) : Nat → Pmm
  | 0 => s
  | n + 1 =>
    releaseRun { s with memoryMap := s.memoryMap.unset frame, usedBlocks := s.usedBlocks - 1#32 }
      (frame + 1) n

/-- A size rounded up to whole blocks, in 32-bit arithmetic. -/
def roundUp (size : BitVec 32) : BitVec 32 :=
  if size % blockSize ≠ 0#32 then size + (blockSize - size % blockSize) else size

/-- The number of frames a region of this size is taken to have. -/
def regionBlocks (size : BitVec 32) : Nat := (roundUp size / blockSize).toNat

/-- A region that begins above the bytes of the map is left alone. -/
def aboveMemory (s : Pmm) (base : BitVec 32) : Prop :=
  (s.pmmngrGetBlockCount).tdiv blocksPerByte ≤ ((frameOf base / 8 : Nat) : Int)

instance (s : Pmm) (base : BitVec 32) : Decidable (s.aboveMemory base) :=
  inferInstanceAs (Decidable (_ ≤ _))

def pmmngrInitRegion (s : Pmm) (base size : BitVec 32) : Pmm :=
  if s.aboveMemory base then s
  else
    let s' := s.releaseRun (frameOf base) (regionBlocks size)
    -- the first block is always set, so that no allocation is 0
    { s' with memoryMap := s'.memoryMap.set 0 }

def pmmngrDeinitRegion (s : Pmm) (base size : BitVec 32) : Pmm :=
  if s.aboveMemory base then s else s.occupyRun (frameOf base) (regionBlocks size)

/-- The address of a free frame, or 0 when memory is out. -/
def pmmngrAllocBlock (s : Pmm) : BitVec 32 × Pmm :=
  if s.pmmngrGetFreeBlockCount ≤ 0 then (0#32, s)
  else
    match s.mmapFirstFree with
    | none => (0#32, s)
    | some frame => (BitVec.ofNat 32 frame * blockSize, s.occupyRun frame 1)

/-- The address of the first of `seqLen` free frames in a row, or 0. -/
def pmmngrAllocBlocks (s : Pmm) (seqLen : Int) : BitVec 32 × Pmm :=
  if s.pmmngrGetFreeBlockCount ≤ 0 then (0#32, s)
  else
    match s.mmapFirstFreeS seqLen with
    | none => (0#32, s)
    | some frame => (BitVec.ofNat 32 frame * blockSize, s.occupyRun frame seqLen.toNat)

def pmmngrFreeBlock (s : Pmm) (p : BitVec 32) : Pmm := s.releaseRun (frameOf p) 1

def pmmngrFreeBlocks (s : Pmm) (p : BitVec 32) (seqLen : Int) : Pmm :=
  s.releaseRun (frameOf p) seqLen.toNat

/-- An entry of the firmware's memory map. -/
structure MemoryRegion where
  startLo : BitVec 32
  startHi : BitVec 32
  sizeLo : BitVec 32
  sizeHi : BitVec 32
  type : BitVec 32
  acpi : BitVec 32
  deriving DecidableEq, Repr

/-- The type the code goes by: above 4 it is replaced by 1. -/
def MemoryRegion.sanitized (r : MemoryRegion) : BitVec 32 := if 4#32 < r.type then 1#32 else r.type

/-- The loop over the entries, from entry `i` on. A start of 0 ends the map after the first entry. -/
def initRegionsFrom (s : Pmm) (i : Nat) : List MemoryRegion → Pmm
  | [] => s
  | r :: rest =>
    if 0 < i ∧ r.startLo = 0#32 then s
    else
      let s' := if r.sanitized = 1#32 then s.pmmngrInitRegion r.startLo r.sizeLo else s
      initRegionsFrom s' (i + 1) rest

/-- At most 15 entries are read; the memory behind the entries the firmware wrote is zero. -/
def pmmngrInitMemoryRegions (s : Pmm) (regions : List MemoryRegion) : Pmm :=
  s.initRegionsFrom 0 (regions.take 15)

/-! ### What the loops over frames change -/

@[simp] theorem occupyRun_memoryMap (s : Pmm) (frame n : Nat) :
    (s.occupyRun frame n).memoryMap = s.memoryMap.setRun frame n := by
  induction n generalizing s frame with
  | zero => rfl
  | succ n ih => rw [occupyRun, ih, WordMap.setRun]

@[simp] theorem occupyRun_maxBlocks (s : Pmm) (frame n : Nat) :
    (s.occupyRun frame n).maxBlocks = s.maxBlocks := by
  induction n generalizing s frame with
  | zero => rfl
  | succ n ih => rw [occupyRun, ih]

@[simp] theorem occupyRun_usedBlocks (s : Pmm) (frame n : Nat) :
    (s.occupyRun frame n).usedBlocks = s.usedBlocks + BitVec.ofNat 32 n := by
  induction n generalizing s frame with
  | zero => simp [occupyRun]
  | succ n ih =>
    rw [occupyRun, ih, BitVec.add_assoc, BitVec.add_comm 1#32]
    rw [show 1#32 = BitVec.ofNat 32 1 from rfl, ← BitVec.ofNat_add]

@[simp] theorem releaseRun_memoryMap (s : Pmm) (frame n : Nat) :
    (s.releaseRun frame n).memoryMap = s.memoryMap.unsetRun frame n := by
  induction n generalizing s frame with
  | zero => rfl
  | succ n ih => rw [releaseRun, ih, WordMap.unsetRun]

@[simp] theorem releaseRun_maxBlocks (s : Pmm) (frame n : Nat) :
    (s.releaseRun frame n).maxBlocks = s.maxBlocks := by
  induction n generalizing s frame with
  | zero => rfl
  | succ n ih => rw [releaseRun, ih]

@[simp] theorem releaseRun_usedBlocks (s : Pmm) (frame n : Nat) :
    (s.releaseRun frame n).usedBlocks = s.usedBlocks - BitVec.ofNat 32 n := by
  induction n generalizing s frame with
  | zero => simp [releaseRun]
  | succ n ih =>
    rw [releaseRun, ih, Nat.add_comm n 1, BitVec.ofNat_add, BitVec.sub_sub]

@[simp] theorem occupyRun_blockCount (s : Pmm) (frame n : Nat) :
    (s.occupyRun frame n).pmmngrGetBlockCount = s.pmmngrGetBlockCount := by
  simp [pmmngrGetBlockCount]

@[simp] theorem releaseRun_blockCount (s : Pmm) (frame n : Nat) :
    (s.releaseRun frame n).pmmngrGetBlockCount = s.pmmngrGetBlockCount := by
  simp [pmmngrGetBlockCount]

theorem mmapTest_occupyRun (s : Pmm) (frame n other : Nat) :
    (s.occupyRun frame n).mmapTest other
      = (decide (frame ≤ other ∧ other < frame + n) || s.mmapTest other) := by
  simp [mmapTest, WordMap.test_setRun]

theorem mmapTest_releaseRun (s : Pmm) (frame n other : Nat) :
    (s.releaseRun frame n).mmapTest other
      = (!decide (frame ≤ other ∧ other < frame + n) && s.mmapTest other) := by
  simp [mmapTest, WordMap.test_unsetRun]

@[simp] theorem pmmngrInitRegion_maxBlocks (s : Pmm) (base size : BitVec 32) :
    (s.pmmngrInitRegion base size).maxBlocks = s.maxBlocks := by
  unfold pmmngrInitRegion
  split <;> simp

@[simp] theorem pmmngrDeinitRegion_maxBlocks (s : Pmm) (base size : BitVec 32) :
    (s.pmmngrDeinitRegion base size).maxBlocks = s.maxBlocks := by
  unfold pmmngrDeinitRegion
  split <;> simp

/-- What an allocation does: it takes the least free frame, or it changes nothing. -/
theorem pmmngrAllocBlock_cases (s : Pmm) :
    (∃ frame, 0 < s.pmmngrGetFreeBlockCount ∧ s.mmapFirstFree = some frame ∧
      s.pmmngrAllocBlock = (BitVec.ofNat 32 frame * blockSize, s.occupyRun frame 1)) ∨
    ((s.pmmngrGetFreeBlockCount ≤ 0 ∨ s.mmapFirstFree = none) ∧ s.pmmngrAllocBlock = (0#32, s)) := by
  unfold pmmngrAllocBlock
  by_cases hroom : s.pmmngrGetFreeBlockCount ≤ 0
  · exact Or.inr ⟨Or.inl hroom, if_pos hroom⟩
  · rw [if_neg hroom]
    cases hfind : s.mmapFirstFree with
    | none => exact Or.inr ⟨Or.inr rfl, rfl⟩
    | some frame => exact Or.inl ⟨frame, by omega, rfl, rfl⟩

theorem pmmngrAllocBlocks_cases (s : Pmm) (seqLen : Int) :
    (∃ frame, 0 < s.pmmngrGetFreeBlockCount ∧ s.mmapFirstFreeS seqLen = some frame ∧
      s.pmmngrAllocBlocks seqLen
        = (BitVec.ofNat 32 frame * blockSize, s.occupyRun frame seqLen.toNat)) ∨
    ((s.pmmngrGetFreeBlockCount ≤ 0 ∨ s.mmapFirstFreeS seqLen = none) ∧
      s.pmmngrAllocBlocks seqLen = (0#32, s)) := by
  unfold pmmngrAllocBlocks
  by_cases hroom : s.pmmngrGetFreeBlockCount ≤ 0
  · exact Or.inr ⟨Or.inl hroom, if_pos hroom⟩
  · rw [if_neg hroom]
    cases hfind : s.mmapFirstFreeS seqLen with
    | none => exact Or.inr ⟨Or.inr rfl, rfl⟩
    | some frame => exact Or.inl ⟨frame, by omega, rfl, rfl⟩

@[simp] theorem pmmngrAllocBlock_maxBlocks (s : Pmm) :
    (s.pmmngrAllocBlock).2.maxBlocks = s.maxBlocks := by
  rcases s.pmmngrAllocBlock_cases with ⟨frame, _, _, heq⟩ | ⟨_, heq⟩ <;> simp [heq]

@[simp] theorem pmmngrAllocBlocks_maxBlocks (s : Pmm) (seqLen : Int) :
    (s.pmmngrAllocBlocks seqLen).2.maxBlocks = s.maxBlocks := by
  rcases s.pmmngrAllocBlocks_cases seqLen with ⟨frame, _, _, heq⟩ | ⟨_, heq⟩ <;> simp [heq]

theorem mmapTest_pmmngrDeinitRegion (s : Pmm) (base size : BitVec 32) (frame : Nat) :
    (s.pmmngrDeinitRegion base size).mmapTest frame
      = (decide (¬ s.aboveMemory base ∧ frameOf base ≤ frame ∧ frame < frameOf base + regionBlocks size)
        || s.mmapTest frame) := by
  unfold pmmngrDeinitRegion
  by_cases habove : s.aboveMemory base
  · simp [habove]
  · rw [if_neg habove, mmapTest_occupyRun]
    simp [habove]

theorem mmapTest_pmmngrInitRegion (s : Pmm) (base size : BitVec 32) (frame : Nat) (hframe : 0 < frame) :
    (s.pmmngrInitRegion base size).mmapTest frame
      = (!decide (¬ s.aboveMemory base ∧ frameOf base ≤ frame ∧ frame < frameOf base + regionBlocks size)
        && s.mmapTest frame) := by
  unfold pmmngrInitRegion
  by_cases habove : s.aboveMemory base
  · simp [habove]
  · rw [if_neg habove]
    have hset := WordMap.test_set_of_ne (s.releaseRun (frameOf base) (regionBlocks size)).memoryMap
      (show 0 ≠ frame by omega)
    have hrun := mmapTest_releaseRun s (frameOf base) (regionBlocks size) frame
    simp only [mmapTest] at hrun ⊢
    rw [hset, hrun]
    simp [habove]

theorem toNat_blockSize : blockSize.toNat = 4096 := rfl

theorem frameOf_eq (p : BitVec 32) : frameOf p = p.toNat / 4096 := by
  rw [frameOf, BitVec.toNat_udiv, toNat_blockSize]

theorem frameOf_lt (p : BitVec 32) : frameOf p < 2 ^ 20 := by
  rw [frameOf_eq]
  have := p.isLt
  omega

/-- The address of a frame below the 4 GB limit leads back to the frame. -/
theorem frameOf_mul_blockSize {frame : Nat} (h : frame < 2 ^ 20) :
    frameOf (BitVec.ofNat 32 frame * blockSize) = frame := by
  rw [frameOf_eq, BitVec.toNat_mul, BitVec.toNat_ofNat, toNat_blockSize]
  omega

theorem blockCount_bounds (memSize : BitVec 32) :
    -(2 ^ 19) ≤ blockCount memSize ∧ blockCount memSize < 2 ^ 19 := by
  have hlo := BitVec.le_toInt (memSize * 1024#32)
  have hhi := BitVec.toInt_lt (x := memSize * 1024#32)
  have hsign : Int.sign 4096 = 1 := rfl
  rw [blockCount, Int.tdiv_eq_ediv, hsign]
  split <;> omega

theorem pmmngrInit_blockCount (memSize : BitVec 32) (bitmap : WordMap) :
    (pmmngrInit memSize bitmap).pmmngrGetBlockCount = blockCount memSize := by
  obtain ⟨hlo, hhi⟩ := blockCount_bounds memSize
  exact BitVec.toInt_ofInt_eq_self (by decide) (by omega) (by omega)

end Pmm

end Akos
