import Akos.Memory.Pmm

/-!
# The frame map after boot

The part of `kmain` that sets up physical memory: `pmmngr_init` marks every frame used, the available
entries of the firmware map release frames, and `deinit_special_regions` reserves again what is in use.
A region call rounds its size up to whole frames but counts them from the frame its base lies in, so a
region that does not begin on a frame boundary can end one frame after the last one reserved. The
manager's own bitmap, right behind the kernel image, is the one region placed on a sector boundary.
-/

namespace Akos.Pmm

abbrev heapBase : BitVec 32 := 0xC0300000#32
abbrev heapCeiling : BitVec 32 := 0xC0500000#32
abbrev tfsysBase : BitVec 32 := 0xC0500000#32
abbrev tfsysCeiling : BitVec 32 := 0xC0600000#32

/-- `deinit_special_regions` of `kernel.c`, with the kernel size in sectors. -/
def deinitSpecialRegions (kernelSize : BitVec 32) (s : Pmm) : Pmm :=
  -- the kernel image
  let s := s.pmmngrDeinitRegion 0x100000#32 (kernelSize * 512#32)
  -- the bitmap of the memory manager
  let s := s.pmmngrDeinitRegion (0x100000#32 + kernelSize * 512#32)
    (BitVec.ofInt 32 (s.pmmngrGetBlockCount.tdiv blocksPerByte))
  -- the RAM file system
  let s := s.pmmngrDeinitRegion (tfsysBase - 0xC0000000#32 + 0x100000#32) (tfsysCeiling - tfsysBase)
  -- the kernel heap
  let s := s.pmmngrDeinitRegion (heapBase - 0xC0000000#32 + 0x100000#32) (heapCeiling - heapBase)
  -- the first megabyte
  s.pmmngrDeinitRegion 0#32 0x100000#32

/-- What `kmain` does to the frame map before paging: `bitmap` is the memory behind the kernel image. -/
def bootMemory (kernelSize memSize : BitVec 32) (regions : List MemoryRegion) (bitmap : WordMap) : Pmm :=
  deinitSpecialRegions kernelSize ((pmmngrInit memSize bitmap).pmmngrInitMemoryRegions regions)

/-! ### What is in use -/

/-- The bytes of the bitmap: `block_count / 8`, none for a negative count. -/
def bitmapBytes (memSize : BitVec 32) : Nat := ((blockCount memSize).tdiv blocksPerByte).toNat

/-- The physical byte ranges in use after boot, as base and length. -/
def rangesInUse (kernelSize memSize : BitVec 32) : List (Nat × Nat) :=
  [(0x100000, kernelSize.toNat * 512),
   (0x100000 + kernelSize.toNat * 512, bitmapBytes memSize),
   (0x400000, 0x200000),
   (0x600000, 0x100000),
   (0, 0x100000)]

/-- A frame that holds a byte of a range. -/
def Overlaps (range : Nat × Nat) (frame : Nat) : Prop :=
  ∃ byte, range.1 ≤ byte ∧ byte < range.1 + range.2 ∧ byte / 4096 = frame

def InUse (kernelSize memSize : BitVec 32) (frame : Nat) : Prop :=
  ∃ range ∈ rangesInUse kernelSize memSize, Overlaps range frame

/-- Every frame in use that has a bit in the bitmap is marked used, whatever was in the bitmap's memory. -/
def ReservesInUse (kernelSize memSize : BitVec 32) (regions : List MemoryRegion) : Prop :=
  ∀ bitmap frame, frame < 8 * bitmapBytes memSize → InUse kernelSize memSize frame →
    (bootMemory kernelSize memSize regions bitmap).mmapTest frame = true

/-- The entries of the firmware map, from entry `i` on, that the code releases. -/
def releasedFrom (i : Nat) : List MemoryRegion → List MemoryRegion
  | [] => []
  | r :: rest =>
    if 0 < i ∧ r.startLo = 0#32 then []
    else if r.sanitized = 1#32 then r :: releasedFrom (i + 1) rest else releasedFrom (i + 1) rest

/-- A frame of a released entry that does not begin above memory. -/
def Released (memSize : BitVec 32) (regions : List MemoryRegion) (frame : Nat) : Prop :=
  ∃ r ∈ releasedFrom 0 (regions.take 15),
    frameOf r.startLo / 8 < bitmapBytes memSize ∧ frameOf r.startLo ≤ frame ∧
      frame < frameOf r.startLo + regionBlocks r.sizeLo

/-- How far into a frame the bitmap begins. -/
def bitmapOffset (kernelSize : BitVec 32) : Nat := kernelSize.toNat * 512 % 4096

/-- The whole frames the size of the bitmap is rounded up to. -/
def bitmapFrames (memSize : BitVec 32) : Nat := (bitmapBytes memSize + 4095) / 4096

/-- The bitmap reaches one frame further than the frames counted for it. -/
def Spills (kernelSize memSize : BitVec 32) : Prop :=
  4096 * bitmapFrames memSize < bitmapOffset kernelSize + bitmapBytes memSize

/-- The frame after the ones counted for the bitmap. -/
def spillFrame (kernelSize memSize : BitVec 32) : Nat :=
  (0x100000 + kernelSize.toNat * 512) / 4096 + bitmapFrames memSize

/-- The frames of the kernel heap and, right above it, of the RAM file system. -/
def InHeapOrRamFs (frame : Nat) : Prop := 0x400 ≤ frame ∧ frame < 0x700

/-! ### The marks after each stage -/

theorem bitmapBytes_lt (memSize : BitVec 32) : bitmapBytes memSize < 2 ^ 16 := by
  have hsign : Int.sign 8 = 1 := rfl
  obtain ⟨hlo, hhi⟩ := blockCount_bounds memSize
  unfold bitmapBytes
  rw [blocksPerByte, Int.tdiv_eq_ediv, hsign]
  split <;> omega

theorem regionBlocks_eq {size : BitVec 32} (h : size.toNat + 4096 ≤ 2 ^ 32) :
    regionBlocks size = (size.toNat + 4095) / 4096 := by
  have hmod : (size % blockSize).toNat = size.toNat % 4096 := by
    rw [BitVec.toNat_umod, toNat_blockSize]
  have hpad : (blockSize - size % blockSize).toNat = 4096 - size.toNat % 4096 := by
    rw [BitVec.toNat_sub_of_le, hmod, toNat_blockSize]
    rw [BitVec.le_def, hmod, toNat_blockSize]
    omega
  unfold regionBlocks roundUp
  by_cases hzero : size % blockSize = 0#32
  · have hz : size.toNat % 4096 = 0 := by rw [← hmod, hzero]; rfl
    rw [if_neg (by simpa using hzero), BitVec.toNat_udiv, toNat_blockSize]
    omega
  · have hz : size.toNat % 4096 ≠ 0 := by
      intro hz
      exact hzero (BitVec.eq_of_toNat_eq (by rw [hmod, hz]; rfl))
    rw [if_pos hzero, BitVec.toNat_udiv, toNat_blockSize, BitVec.toNat_add, hpad]
    omega

section Marks

variable {memSize : BitVec 32} {s : Pmm}

/-- Whether a region is above memory is a matter of its base. Of a bitmap without bytes every region is. -/
theorem aboveMemory_iff (hcount : s.pmmngrGetBlockCount = blockCount memSize) (base : BitVec 32) :
    s.aboveMemory base ↔ bitmapBytes memSize ≤ frameOf base / 8 := by
  unfold aboveMemory bitmapBytes
  rw [hcount]
  omega

theorem mmapTest_pmmngrInit {bitmap : WordMap} {frame : Nat} (h : frame < 8 * bitmapBytes memSize) :
    (pmmngrInit memSize bitmap).mmapTest frame = true := by
  have hbytes : (BitVec.ofInt 32 (blockCount memSize)).toInt = blockCount memSize := by
    obtain ⟨hlo, hhi⟩ := blockCount_bounds memSize
    exact BitVec.toInt_ofInt_eq_self (by decide) (by omega) (by omega)
  simp only [mmapTest, pmmngrInit, WordMap.test_setRun, hbytes]
  rw [decide_eq_true ⟨Nat.zero_le _, by simpa [bitmapBytes] using h⟩, Bool.true_or]

theorem initRegionsFrom_maxBlocks (i : Nat) (regions : List MemoryRegion) :
    (s.initRegionsFrom i regions).maxBlocks = s.maxBlocks := by
  induction regions generalizing s i with
  | nil => rfl
  | cons r rest ih =>
    unfold initRegionsFrom
    split
    · rfl
    · rw [ih]
      split
      · exact pmmngrInitRegion_maxBlocks _ _ _
      · rfl

theorem blockCount_initRegionsFrom (i : Nat) (regions : List MemoryRegion) :
    (s.initRegionsFrom i regions).pmmngrGetBlockCount = s.pmmngrGetBlockCount := by
  rw [pmmngrGetBlockCount, initRegionsFrom_maxBlocks, pmmngrGetBlockCount]

/-- The loop over the firmware map clears the frames of the released entries and no others. -/
theorem mmapTest_initRegionsFrom (hcount : s.pmmngrGetBlockCount = blockCount memSize) (i : Nat)
    (regions : List MemoryRegion) {frame : Nat} (hframe : 0 < frame) :
    (s.initRegionsFrom i regions).mmapTest frame = true ↔
      s.mmapTest frame = true ∧ ¬ ∃ r ∈ releasedFrom i regions,
        frameOf r.startLo / 8 < bitmapBytes memSize ∧ frameOf r.startLo ≤ frame ∧
          frame < frameOf r.startLo + regionBlocks r.sizeLo := by
  induction regions generalizing s i with
  | nil => simp [initRegionsFrom, releasedFrom]
  | cons r rest ih =>
    unfold initRegionsFrom releasedFrom
    by_cases hend : 0 < i ∧ r.startLo = 0#32
    · simp [if_pos hend]
    · rw [if_neg hend, if_neg hend]
      by_cases htype : r.sanitized = 1#32
      · have hcount' : (s.pmmngrInitRegion r.startLo r.sizeLo).pmmngrGetBlockCount
            = blockCount memSize := by
          rw [← hcount]
          simp [pmmngrGetBlockCount]
        simp only [if_pos htype]
        rw [ih hcount', mmapTest_pmmngrInitRegion s _ _ _ hframe]
        simp only [aboveMemory_iff hcount, Bool.and_eq_true, Bool.not_eq_true',
          decide_eq_false_iff_not, List.mem_cons, exists_eq_or_imp, not_or, Nat.not_le]
        tauto
      · simp only [if_neg htype]
        exact ih hcount (i + 1)

theorem deinitRegion_marks (hcount : s.pmmngrGetBlockCount = blockCount memSize) {base size : BitVec 32}
    {frame : Nat} (hframe : frame < 8 * bitmapBytes memSize) :
    (s.pmmngrDeinitRegion base size).mmapTest frame = true ↔
      (frameOf base ≤ frame ∧ frame < frameOf base + regionBlocks size) ∨ s.mmapTest frame = true := by
  rw [mmapTest_pmmngrDeinitRegion]
  simp only [aboveMemory_iff hcount, Bool.or_eq_true, decide_eq_true_eq]
  constructor
  · rintro (⟨_, hrun⟩ | hset)
    · exact Or.inl hrun
    · exact Or.inr hset
  · rintro (hrun | hset)
    · exact Or.inl ⟨by omega, hrun⟩
    · exact Or.inr hset

end Marks

@[simp] theorem pmmngrDeinitRegion_blockCount (s : Pmm) (base size : BitVec 32) :
    (s.pmmngrDeinitRegion base size).pmmngrGetBlockCount = s.pmmngrGetBlockCount := by
  simp [pmmngrGetBlockCount]

/-- The kernel image and the bitmap behind it lie within the 32-bit address space. The boot loader counts
the sectors of the image in 16 bits, so they always do. -/
def ImageFits (kernelSize memSize : BitVec 32) : Prop :=
  0x100000 + kernelSize.toNat * 512 + bitmapBytes memSize ≤ 2 ^ 32

theorem imageFits_of_word {kernelSize : BitVec 32} (memSize : BitVec 32)
    (h : kernelSize.toNat < 2 ^ 16) : ImageFits kernelSize memSize := by
  have hbytes := bitmapBytes_lt memSize
  unfold ImageFits
  omega

section BootMarks

variable {kernelSize memSize : BitVec 32}

theorem blockCount_boot (regions : List MemoryRegion) (bitmap : WordMap) :
    ((pmmngrInit memSize bitmap).pmmngrInitMemoryRegions regions).pmmngrGetBlockCount
      = blockCount memSize := by
  obtain ⟨hlo, hhi⟩ := blockCount_bounds memSize
  rw [pmmngrInitMemoryRegions, blockCount_initRegionsFrom]
  exact BitVec.toInt_ofInt_eq_self (by decide) (by omega) (by omega)

theorem bootMemory_maxBlocks (regions : List MemoryRegion) (bitmap : WordMap) :
    (bootMemory kernelSize memSize regions bitmap).maxBlocks
      = BitVec.ofInt 32 (blockCount memSize) := by
  simp only [bootMemory, deinitSpecialRegions, pmmngrDeinitRegion_maxBlocks]
  exact initRegionsFrom_maxBlocks 0 _

theorem toNat_bitmapSize (hbytes : 0 < bitmapBytes memSize) :
    (BitVec.ofInt 32 ((blockCount memSize).tdiv blocksPerByte)).toNat = bitmapBytes memSize := by
  have hlt := bitmapBytes_lt memSize
  unfold bitmapBytes at hbytes hlt ⊢
  rw [BitVec.toNat_ofInt]
  omega

/-- What is marked used after boot: the frames counted for the five regions, and every frame no entry of
the firmware map released. -/
theorem mmapTest_bootMemory (hfits : ImageFits kernelSize memSize) (regions : List MemoryRegion)
    (bitmap : WordMap) {frame : Nat} (hpos : 0 < frame) (hframe : frame < 8 * bitmapBytes memSize) :
    (bootMemory kernelSize memSize regions bitmap).mmapTest frame = true ↔
      frame < 0x100 + (kernelSize.toNat * 512 + 4095) / 4096 ∨
      ((0x100000 + kernelSize.toNat * 512) / 4096 ≤ frame ∧ frame < spillFrame kernelSize memSize) ∨
      InHeapOrRamFs frame ∨ ¬ Released memSize regions frame := by
  have hbytes : 0 < bitmapBytes memSize := by omega
  have hlt := bitmapBytes_lt memSize
  have hfits' := hfits
  unfold ImageFits at hfits'
  have hcount : ((pmmngrInit memSize bitmap).pmmngrInitMemoryRegions regions).pmmngrGetBlockCount
      = blockCount memSize := blockCount_boot regions bitmap
  -- the sizes and bases of the code as numbers
  have himage : (kernelSize * 512#32).toNat = kernelSize.toNat * 512 := by
    rw [BitVec.toNat_mul, BitVec.toNat_ofNat]
    omega
  have hbehind : (0x100000#32 + kernelSize * 512#32).toNat = 0x100000 + kernelSize.toNat * 512 := by
    rw [BitVec.toNat_add, himage, BitVec.toNat_ofNat]
    omega
  have hsize := toNat_bitmapSize hbytes
  -- what the released entries leave
  have hinit : ((pmmngrInit memSize bitmap).pmmngrInitMemoryRegions regions).mmapTest frame = true ↔
      ¬ Released memSize regions frame := by
    have hfresh : (pmmngrInit memSize bitmap).pmmngrGetBlockCount = blockCount memSize := by
      rw [← hcount, pmmngrInitMemoryRegions, blockCount_initRegionsFrom]
    rw [pmmngrInitMemoryRegions, mmapTest_initRegionsFrom hfresh 0 _ hpos,
      mmapTest_pmmngrInit hframe]
    simp [Released]
  -- the five regions, the last one first
  simp only [bootMemory, deinitSpecialRegions, pmmngrDeinitRegion_blockCount, hcount]
  rw [deinitRegion_marks (by simpa using hcount) hframe,
    deinitRegion_marks (by simpa using hcount) hframe,
    deinitRegion_marks (by simpa using hcount) hframe,
    deinitRegion_marks (by simpa using hcount) hframe,
    deinitRegion_marks (by simpa using hcount) hframe, hinit]
  have himageBlocks := regionBlocks_eq (show (kernelSize * 512#32).toNat + 4096 ≤ 2 ^ 32 by omega)
  have hbitmapBlocks := regionBlocks_eq
    (show (BitVec.ofInt 32 ((blockCount memSize).tdiv blocksPerByte)).toNat + 4096 ≤ 2 ^ 32 by omega)
  rw [himageBlocks, hbitmapBlocks, frameOf_eq (0x100000#32 + _), himage, hbehind, hsize]
  have hlow : frameOf 0#32 = 0 ∧ regionBlocks 0x100000#32 = 0x100 := by decide
  have hstart : frameOf 0x100000#32 = 0x100 := by decide
  have hheap : frameOf (heapBase - 0xC0000000#32 + 0x100000#32) = 0x400 ∧
      regionBlocks (heapCeiling - heapBase) = 0x200 := by decide
  have htfsys : frameOf (tfsysBase - 0xC0000000#32 + 0x100000#32) = 0x600 ∧
      regionBlocks (tfsysCeiling - tfsysBase) = 0x100 := by decide
  rw [hlow.1, hlow.2, hstart, hheap.1, hheap.2, htfsys.1, htfsys.2]
  unfold InHeapOrRamFs spillFrame bitmapFrames
  constructor
  · rintro (h | h | h | h | h | h)
    · exact Or.inl (by omega)
    · exact Or.inr (Or.inr (Or.inl (by omega)))
    · exact Or.inr (Or.inr (Or.inl (by omega)))
    · exact Or.inr (Or.inl h)
    · exact Or.inl (by omega)
    · exact Or.inr (Or.inr (Or.inr h))
  · rintro (h | h | h | h)
    · by_cases hmega : frame < 0x100
      · exact Or.inl (by omega)
      · exact Or.inr (Or.inr (Or.inr (Or.inr (Or.inl (by omega)))))
    · exact Or.inr (Or.inr (Or.inr (Or.inl h)))
    · by_cases hram : frame < 0x600
      · exact Or.inr (Or.inl (by omega))
      · exact Or.inr (Or.inr (Or.inl (by omega)))
    · exact Or.inr (Or.inr (Or.inr (Or.inr (Or.inr h))))

/-- The regions begin on a frame boundary except for the bitmap, whose last byte can lie in the frame
after the ones counted. -/
theorem counted_or_spillFrame {frame : Nat} (huse : InUse kernelSize memSize frame) :
    frame < 0x100 + (kernelSize.toNat * 512 + 4095) / 4096 ∨
      ((0x100000 + kernelSize.toNat * 512) / 4096 ≤ frame ∧ frame < spillFrame kernelSize memSize) ∨
      InHeapOrRamFs frame ∨ (Spills kernelSize memSize ∧ frame = spillFrame kernelSize memSize) := by
  obtain ⟨range, hmem, byte, hlo, hhi, hbyte⟩ := huse
  simp only [rangesInUse, List.mem_cons, List.not_mem_nil, or_false] at hmem
  unfold Spills spillFrame bitmapOffset bitmapFrames InHeapOrRamFs
  rcases hmem with rfl | rfl | rfl | rfl | rfl <;> simp only at hlo hhi
  · exact Or.inl (by omega)
  · by_cases hin : frame < (0x100000 + kernelSize.toNat * 512) / 4096 + (bitmapBytes memSize + 4095) / 4096
    · exact Or.inr (Or.inl ⟨by omega, hin⟩)
    · exact Or.inr (Or.inr (Or.inr ⟨by omega, by omega⟩))
  · exact Or.inr (Or.inr (Or.inl (by omega)))
  · exact Or.inr (Or.inr (Or.inl (by omega)))
  · exact Or.inl (by omega)

/-- Where the bitmap spills over, the frame it spills into is in use, and it is not counted. -/
theorem spillFrame_inUse (hbytes : 0 < bitmapBytes memSize) (hspill : Spills kernelSize memSize) :
    InUse kernelSize memSize (spillFrame kernelSize memSize) ∧
      0x100 + (kernelSize.toNat * 512 + 4095) / 4096 ≤ spillFrame kernelSize memSize := by
  unfold Spills bitmapOffset bitmapFrames at hspill
  unfold spillFrame bitmapFrames
  refine ⟨⟨(0x100000 + kernelSize.toNat * 512, bitmapBytes memSize), by simp [rangesInUse],
    4096 * ((0x100000 + kernelSize.toNat * 512) / 4096 + (bitmapBytes memSize + 4095) / 4096),
    ?_, ?_, ?_⟩, ?_⟩
  · simp only
    omega
  · simp only
    omega
  · omega
  · omega

end BootMarks

/-- Boot reserves every frame in use, whatever the firmware map releases, up to one: the frame the bitmap
spills over into is reserved only if it belongs to the heap or the RAM file system, or was not released. -/
theorem bootMemory_reserves_iff (kernelSize memSize : BitVec 32) (regions : List MemoryRegion)
    (hfits : ImageFits kernelSize memSize) :
    ReservesInUse kernelSize memSize regions ↔
      (Spills kernelSize memSize → spillFrame kernelSize memSize < 8 * bitmapBytes memSize →
        ¬ InHeapOrRamFs (spillFrame kernelSize memSize) →
        ¬ Released memSize regions (spillFrame kernelSize memSize)) := by
  constructor
  · intro hreserves hspill hframe hplain
    have hbytes : 0 < bitmapBytes memSize := by omega
    obtain ⟨huse, hbehind⟩ := spillFrame_inUse hbytes hspill
    have hset := hreserves (fun _ => 0#32) _ hframe huse
    rw [mmapTest_bootMemory hfits regions _ (by omega) hframe] at hset
    rcases hset with h | h | h | h
    · omega
    · omega
    · exact absurd h hplain
    · exact h
  · intro hspill bitmap frame hframe huse
    by_cases hzero : frame = 0
    · -- frame 0 lies in the first megabyte, which is reserved last
      have hcount : ((pmmngrInit memSize bitmap).pmmngrInitMemoryRegions regions).pmmngrGetBlockCount
          = blockCount memSize := blockCount_boot regions bitmap
      simp only [bootMemory, deinitSpecialRegions, pmmngrDeinitRegion_blockCount, hcount]
      rw [deinitRegion_marks (by simpa using hcount) hframe, hzero]
      exact Or.inl (by decide)
    · rw [mmapTest_bootMemory hfits regions bitmap (by omega) hframe]
      rcases counted_or_spillFrame huse with h | h | h | ⟨hs, rfl⟩
      · exact Or.inl h
      · exact Or.inr (Or.inl h)
      · exact Or.inr (Or.inr (Or.inl h))
      · by_cases hheap : InHeapOrRamFs (spillFrame kernelSize memSize)
        · exact Or.inr (Or.inr (Or.inl hheap))
        · exact Or.inr (Or.inr (Or.inr (hspill hs hframe hheap)))

/-- A machine with 128 MB and one available region above the first megabyte. -/
def plainRegions : List MemoryRegion := [⟨0x100000#32, 0#32, 0x7F00000#32, 0#32, 1#32, 0#32⟩]

/-- An image of eight sectors leaves the bitmap on a frame boundary. -/
theorem bootMemory_reserves_eight_sectors : ReservesInUse 8#32 131072#32 plainRegions :=
  (bootMemory_reserves_iff 8#32 131072#32 plainRegions (by unfold ImageFits; decide)).mpr
    (fun hspill => absurd hspill (by unfold Spills; decide))

/-- With an image of one sector the bitmap ends in frame 257, which the firmware map released. -/
theorem bootMemory_leaves_bitmap_frame : ¬ ReservesInUse 1#32 131072#32 plainRegions := by
  intro hreserves
  have huse : InUse 1#32 131072#32 257 := by
    refine ⟨(0x100200, 4096), by decide, 0x101000, by decide⟩
  have hset := hreserves (fun _ => 0#32) 257 (by decide) huse
  revert hset
  rw [mmapTest_bootMemory (by unfold ImageFits; decide) _ _ (by decide) (by decide)]
  unfold InHeapOrRamFs Released
  decide

end Akos.Pmm
