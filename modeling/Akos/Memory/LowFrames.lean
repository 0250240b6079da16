import Akos.Memory.Boot
import Akos.Memory.Paging

/-!
# Where paging structures lie

`vmmngr_initialize` maps the first 4 MB to themselves, and `vmm.c` reaches directories and tables at
their physical address. The frames for them come from the pool that serves everything else, lowest first,
so they are low for as long as a low frame is free.
-/

namespace Akos.Machine

/-- The frames below 4 MB. -/
abbrev lowFrames : Nat := 1024

/-- The state in which `kmain` calls `vmmngr_initialize`. -/
def boot (kernelSize memSize : BitVec 32) (regions : List Pmm.MemoryRegion) (bitmap : WordMap)
    (memory : Word → BitVec 32) : Machine :=
  { pmm := Pmm.bootMemory kernelSize memSize regions bitmap, memory, curDirectory := 0#32 }

/-- The calls that take or return frames. -/
inductive FrameOp
  | allocBlock
  | allocBlocks (seqLen : Int)
  | freeBlock (p : BitVec 32)
  | freeBlocks (p : BitVec 32) (seqLen : Int)
  | createPdir
  | allocVirt (dir virt pdeFlags pteFlags : BitVec 32)
  | mapPage (dir phys virt pdeFlags pteFlags : BitVec 32)
  | freeVirt (dir virt : BitVec 32)
  | freePdir (dir : BitVec 32)

def apply (m : Machine) : FrameOp → Machine
  | .allocBlock => { m with pmm := m.pmm.pmmngrAllocBlock.2 }
  | .allocBlocks seqLen => { m with pmm := (m.pmm.pmmngrAllocBlocks seqLen).2 }
  | .freeBlock p => { m with pmm := m.pmm.pmmngrFreeBlock p }
  | .freeBlocks p seqLen => { m with pmm := m.pmm.pmmngrFreeBlocks p seqLen }
  | .createPdir => m.vmmngrCreatePdir.2
  | .allocVirt dir virt pdeFlags pteFlags => m.vmmngrAllocVirt dir virt pdeFlags pteFlags
  | .mapPage dir phys virt pdeFlags pteFlags => m.vmmngrMapPage dir phys virt pdeFlags pteFlags
  | .freeVirt dir virt => m.vmmngrFreeVirt dir virt
  | .freePdir dir => m.vmmngrFreePdir dir

/-- The call asks for a frame for a directory, or for a table its directory lacks. -/
def NeedsStructure (m : Machine) : FrameOp → Prop
  | .createPdir => True
  | .allocVirt dir virt _ _ => pdEntryIsPresent (m.memory (vmmngrPdirectoryLookupEntry dir virt)) = false
  | .mapPage dir _ virt _ _ => pdEntryIsPresent (m.memory (vmmngrPdirectoryLookupEntry dir virt)) = false
  | _ => False

/-- The call obtains this frame for a directory or a table. -/
def ObtainsStructure (m : Machine) (op : FrameOp) (frame : Nat) : Prop :=
  m.NeedsStructure op ∧ m.pmm.pmmngrAllocBlock.1 ≠ 0#32 ∧
    Pmm.frameOf m.pmm.pmmngrAllocBlock.1 = frame

/-- Every frame obtained for a directory or a table, by any call of the list, is low. -/
def StructuresLow (m : Machine) : List FrameOp → Prop
  | [] => True
  | op :: ops => (∀ frame, m.ObtainsStructure op frame → frame < lowFrames) ∧
      (m.apply op).StructuresLow ops

/-- An allocation of one frame succeeds: the counter leaves room and the search covers a free frame. -/
def CanAllocate (s : Pmm) : Prop :=
  0 < s.pmmngrGetFreeBlockCount ∧ ∃ frame < 32 * s.searchWords, s.mmapTest frame = false

def LowFrameFree (s : Pmm) : Prop := ∃ frame < lowFrames, s.mmapTest frame = false

/-- Whenever a call gets a frame for a directory or a table, a low frame is free. -/
def LowFrameAtEach (m : Machine) : List FrameOp → Prop
  | [] => True
  | op :: ops => (m.NeedsStructure op → CanAllocate m.pmm → LowFrameFree m.pmm) ∧
      (m.apply op).LowFrameAtEach ops

/-- What a call obtains for a directory is what it returns. -/
theorem obtainsStructure_createPdir (m : Machine) (frame : Nat) :
    m.ObtainsStructure .createPdir frame ↔
      m.vmmngrCreatePdir.1 ≠ 0#32 ∧ Pmm.frameOf m.vmmngrCreatePdir.1 = frame := by
  have hdir : m.vmmngrCreatePdir.1 = m.pmm.pmmngrAllocBlock.1 := by
    unfold vmmngrCreatePdir
    dsimp only
    split
    · next hzero => exact hzero.symm
    · rfl
  simp [ObtainsStructure, NeedsStructure, hdir]

/-- What a call obtains for a table is what its entry points to. -/
theorem frameOf_tableForEntry (m : Machine) (e : Word) (habsent : pdEntryIsPresent (m.memory e) = false)
    (hne : m.pmm.pmmngrAllocBlock.1 ≠ 0#32) :
    pdEntryIsPresent ((m.tableForEntry e).2.memory e) = true ∧
      Pmm.frameOf ((m.tableForEntry e).2.memory e) = Pmm.frameOf m.pmm.pmmngrAllocBlock.1 := by
  unfold tableForEntry
  rw [if_neg (by simp [habsent])]
  dsimp only
  rw [if_neg hne]
  simp [store]

theorem apply_maxBlocks (m : Machine) (op : FrameOp) : (m.apply op).pmm.maxBlocks = m.pmm.maxBlocks := by
  cases op with
  | allocBlock => exact Pmm.pmmngrAllocBlock_maxBlocks _
  | allocBlocks seqLen => exact Pmm.pmmngrAllocBlocks_maxBlocks _ _
  | freeBlock p => exact freeBlock_maxBlocks _ _
  | freeBlocks p seqLen => exact Pmm.releaseRun_maxBlocks _ _ _
  | createPdir => exact vmmngrCreatePdir_maxBlocks m
  | allocVirt => exact vmmngrAllocVirt_maxBlocks _ _ _ _ _
  | mapPage => exact vmmngrMapPage_maxBlocks _ _ _ _ _ _
  | freeVirt => exact vmmngrFreeVirt_maxBlocks _ _ _
  | freePdir dir =>
    show ((m.freeTables dir 1024).pmmngrFreeBlock dir).maxBlocks = _
    rw [freeBlock_maxBlocks, freeTables_maxBlocks]

/-! ### First fit takes the lowest frame -/

section FirstFit

variable {s : Pmm}

/-- What an allocation that can succeed hands out: the address of the lowest free frame. -/
theorem allocBlock_of_canAllocate (h : CanAllocate s) :
    ∃ frame < 32 * s.searchWords, s.mmapTest frame = false ∧
      (∀ other < frame, s.mmapTest other = true) ∧
      s.pmmngrAllocBlock = (BitVec.ofNat 32 frame * Pmm.blockSize, s.occupyRun frame 1) := by
  obtain ⟨hroom, free, hfree, hclear⟩ := h
  rcases s.pmmngrAllocBlock_cases with ⟨frame, _, hfind, heq⟩ | ⟨hfail | hfail, _⟩
  · obtain ⟨hlt, hframe, hbelow⟩ := WordMap.firstClear_eq_some hfind
    exact ⟨frame, hlt, hframe, hbelow, heq⟩
  · omega
  · have hset := WordMap.firstClear_eq_none hfail free hfree
    rw [Pmm.mmapTest, hset] at hclear
    exact Bool.noConfusion hclear

/-- An allocation that does not return 0 could succeed. -/
theorem canAllocate_of_ne_zero (h : s.pmmngrAllocBlock.1 ≠ 0#32) : CanAllocate s := by
  rcases s.pmmngrAllocBlock_cases with ⟨frame, hroom, hfind, _⟩ | ⟨_, heq⟩
  · obtain ⟨hlt, hframe, _⟩ := WordMap.firstClear_eq_some hfind
    exact ⟨hroom, frame, hlt, hframe⟩
  · exact absurd (congrArg Prod.fst heq) h

/-- With a low frame free, what an allocation hands out is low. -/
theorem frameOf_allocBlock_lt (hlow : LowFrameFree s) (h : s.pmmngrAllocBlock.1 ≠ 0#32) :
    Pmm.frameOf s.pmmngrAllocBlock.1 < lowFrames := by
  obtain ⟨low, hlt, hclear⟩ := hlow
  obtain ⟨frame, _, _, hbelow, heq⟩ := allocBlock_of_canAllocate (canAllocate_of_ne_zero h)
  have hle : frame ≤ low := by
    by_contra hgt
    rw [hbelow low (by omega)] at hclear
    exact Bool.noConfusion hclear
  unfold lowFrames at *
  rw [heq, Pmm.frameOf_mul_blockSize (by omega)]
  omega

/-- Otherwise it is not. -/
theorem le_frameOf_allocBlock (hcount : 32 * s.searchWords ≤ 2 ^ 20) (hlow : ¬ LowFrameFree s)
    (h : CanAllocate s) :
    s.pmmngrAllocBlock.1 ≠ 0#32 ∧ lowFrames ≤ Pmm.frameOf s.pmmngrAllocBlock.1 := by
  obtain ⟨frame, hlt, hclear, _, heq⟩ := allocBlock_of_canAllocate h
  have hhigh : lowFrames ≤ frame := by
    by_contra hframe
    exact hlow ⟨frame, by omega, hclear⟩
  have hframe : Pmm.frameOf s.pmmngrAllocBlock.1 = frame := by
    rw [heq, Pmm.frameOf_mul_blockSize (by omega)]
  refine ⟨fun hzero => ?_, by omega⟩
  have hzero' : Pmm.frameOf s.pmmngrAllocBlock.1 = 0 := by
    rw [hzero]
    rfl
  unfold lowFrames at hhigh
  omega

end FirstFit

/-- The search of a memory of fewer than 2^31 bytes covers its frames and no others. -/
theorem searchWords_le {memSize : BitVec 32} {s : Pmm} (hnonneg : 0 ≤ Pmm.blockCount memSize)
    (hmax : s.maxBlocks = BitVec.ofInt 32 (Pmm.blockCount memSize)) : 32 * s.searchWords ≤ 2 ^ 20 := by
  obtain ⟨_, hhi⟩ := Pmm.blockCount_bounds memSize
  have hcount : s.pmmngrGetBlockCount = Pmm.blockCount memSize := by
    rw [Pmm.pmmngrGetBlockCount, hmax]
    exact BitVec.toInt_ofInt_eq_self (by decide) (by omega) (by omega)
  rw [Pmm.searchWords, hcount, Int.tdiv_eq_ediv_of_nonneg hnonneg, BitVec.toNat_ofInt]
  omega

/-! ### Runs -/

theorem structuresLow_of_lowFrameAtEach {m : Machine} {ops : List FrameOp}
    (h : m.LowFrameAtEach ops) : m.StructuresLow ops := by
  induction ops generalizing m with
  | nil => trivial
  | cons op ops ih =>
    refine ⟨fun frame htaken => ?_, ih h.2⟩
    obtain ⟨hneeds, hne, hframe⟩ := htaken
    rw [← hframe]
    exact frameOf_allocBlock_lt (h.1 hneeds (canAllocate_of_ne_zero hne)) hne

theorem lowFrameAtEach_of_structuresLow {memSize : BitVec 32} {m : Machine} {ops : List FrameOp}
    (hnonneg : 0 ≤ Pmm.blockCount memSize)
    (hmax : m.pmm.maxBlocks = BitVec.ofInt 32 (Pmm.blockCount memSize))
    (h : m.StructuresLow ops) : m.LowFrameAtEach ops := by
  induction ops generalizing m with
  | nil => trivial
  | cons op ops ih =>
    refine ⟨fun hneeds hcan => ?_, ih ((apply_maxBlocks m op).trans hmax) h.2⟩
    by_contra hlow
    obtain ⟨hne, hhigh⟩ := le_frameOf_allocBlock (searchWords_le hnonneg hmax) hlow hcan
    have := h.1 _ ⟨hneeds, hne, rfl⟩
    omega

/-! ### How many frames a call takes

A lower bound on the room that is left, in terms of the frames taken so far, is kept by first fit: the
frame it takes is never above the first one that the bound promises.
-/

/-- At most `taken` frames above the first `first` are used and at most `used + taken` are counted. -/
structure Roomy (s : Pmm) (used first taken : Nat) : Prop where
  max : s.maxBlocks = 32768#32
  counted : s.usedBlocks.toNat ≤ used + taken
  clear : ∀ frame, first + taken ≤ frame → frame < 32768 → s.mmapTest frame = false

namespace Roomy

variable {s : Pmm} {used first taken : Nat}

theorem mono (h : Roomy s used first taken) {more : Nat} (hle : taken ≤ more) :
    Roomy s used first more where
  max := h.max
  counted := by have := h.counted; omega
  clear := fun frame hlo hhi => h.clear frame (by omega) hhi

theorem canAllocate (h : Roomy s used first taken) (hused : used + taken < 32768)
    (hfirst : first + taken < 32768) : CanAllocate s := by
  have hcounted := h.counted
  have hmax : s.maxBlocks.toNat = 32768 := by
    rw [h.max]
    rfl
  have hwords : s.searchWords = 1024 := by
    rw [Pmm.searchWords, Pmm.pmmngrGetBlockCount, h.max]
    rfl
  have hfree : (s.maxBlocks - s.usedBlocks).toNat = 32768 - s.usedBlocks.toNat := by
    rw [BitVec.toNat_sub_of_le (BitVec.le_def.mpr (by omega)), hmax]
  refine ⟨?_, first + taken, by omega, h.clear _ (Nat.le_refl _) hfirst⟩
  rw [Pmm.pmmngrGetFreeBlockCount, BitVec.toInt_eq_toNat_of_lt (by omega)]
  omega

theorem allocBlock (h : Roomy s used first taken) (hused : used + taken < 32768)
    (hfirst : first + taken < 32768) : Roomy s.pmmngrAllocBlock.2 used first (taken + 1) := by
  obtain ⟨frame, _, _, hbelow, heq⟩ := allocBlock_of_canAllocate (h.canAllocate hused hfirst)
  have hle : frame ≤ first + taken := by
    by_contra hgt
    have hclear := h.clear (first + taken) (Nat.le_refl _) hfirst
    rw [hbelow _ (by omega)] at hclear
    exact Bool.noConfusion hclear
  have hcounted := h.counted
  rw [heq]
  refine ⟨by simp [h.max], ?_, fun other hlo hhi => ?_⟩
  · rw [Pmm.occupyRun_usedBlocks, BitVec.toNat_add]
    have h1 : (BitVec.ofNat 32 1).toNat = 1 := rfl
    omega
  · rw [Pmm.mmapTest_occupyRun, h.clear other (by omega) hhi, decide_eq_false (by omega)]
    rfl

end Roomy

/-- A call takes one frame at most for a table. -/
theorem tableForEntry_pmm (m : Machine) (e : Word) :
    (m.tableForEntry e).2.pmm = m.pmm ∨ (m.tableForEntry e).2.pmm = m.pmm.pmmngrAllocBlock.2 := by
  unfold tableForEntry
  dsimp only
  split
  · exact Or.inl rfl
  · split <;> exact Or.inr rfl

theorem vmmngrMapPage_pmm (m : Machine) (dir phys virt pdeFlags pteFlags : BitVec 32) :
    (m.vmmngrMapPage dir phys virt pdeFlags pteFlags).pmm = m.pmm ∨
      (m.vmmngrMapPage dir phys virt pdeFlags pteFlags).pmm = m.pmm.pmmngrAllocBlock.2 := by
  unfold vmmngrMapPage
  dsimp only
  split <;> exact tableForEntry_pmm _ _

theorem vmmngrCreatePdir_pmm (m : Machine) : m.vmmngrCreatePdir.2.pmm = m.pmm.pmmngrAllocBlock.2 := by
  unfold vmmngrCreatePdir
  dsimp only
  split <;> rfl

section Rooms

variable {m : Machine} {used first taken : Nat}

theorem roomy_mmap (h : Roomy m.pmm used first taken) (dir frame virt : BitVec 32) (range : Nat)
    (pdeFlags pteFlags : BitVec 32) (hused : used + (taken + range) < 32768)
    (hfirst : first + (taken + range) < 32768) :
    Roomy (m.vmmngrMmap dir frame virt range pdeFlags pteFlags).pmm used first (taken + range) := by
  induction range generalizing m frame virt taken with
  | zero => exact h
  | succ range ih =>
    have hpage : Roomy (m.vmmngrMapPage dir frame virt pdeFlags pteFlags).pmm used first (taken + 1) := by
      rcases m.vmmngrMapPage_pmm dir frame virt pdeFlags pteFlags with heq | heq <;> rw [heq]
      · exact h.mono (by omega)
      · exact h.allocBlock (by omega) (by omega)
    have hrest := ih hpage (frame + 4096#32) (virt + 4096#32) (by omega) (by omega)
    rw [vmmngrMmap, show taken + (range + 1) = taken + 1 + range by omega]
    exact hrest

/-- Three mappings one after another, as in `vmmngr_initialize`. -/
theorem roomy_three_mmaps (h : Roomy m.pmm used first taken)
    (dir frame₁ virt₁ frame₂ virt₂ frame₃ virt₃ flags₁ flags₂ flags₃ : BitVec 32) (n₁ n₂ n₃ : Nat)
    (hused : used + (taken + n₁ + n₂ + n₃) < 32768) (hfirst : first + (taken + n₁ + n₂ + n₃) < 32768) :
    Roomy (((m.vmmngrMmap dir frame₁ virt₁ n₁ Entry.writable flags₁).vmmngrMmap dir frame₂ virt₂ n₂
      Entry.writable flags₂).vmmngrMmap dir frame₃ virt₃ n₃ Entry.writable flags₃).pmm used first
      (taken + n₁ + n₂ + n₃) := by
  have h₁ := roomy_mmap h dir frame₁ virt₁ n₁ Entry.writable flags₁ (by omega) (by omega)
  have h₂ := roomy_mmap h₁ dir frame₂ virt₂ n₂ Entry.writable flags₂ (by omega) (by omega)
  exact roomy_mmap h₂ dir frame₃ virt₃ n₃ Entry.writable flags₃ (by omega) (by omega)

/-- `vmmngr_initialize` makes one directory and maps 6179 pages. -/
theorem roomy_afterInitialize (h : Roomy m.pmm used first taken) (hused : used + taken + 6180 < 32768)
    (hfirst : first + taken + 6180 < 32768) :
    Roomy m.vmmngrInitialize.pmm used first (taken + 6180) := by
  have hdir : Roomy m.vmmngrCreatePdir.2.pmm used first (taken + 1) := by
    rw [vmmngrCreatePdir_pmm]
    exact h.allocBlock (by omega) (by omega)
  have hdir' : ∀ dir, Roomy ({ m.vmmngrCreatePdir.2 with curDirectory := dir } : Machine).pmm used first
      (taken + 1) := fun _ => hdir
  unfold vmmngrInitialize
  dsimp only
  split
  · exact hdir.mono (by omega)
  · have hbytes : framebufferBytes = 3932160 := rfl
    have hall := roomy_three_mmaps (hdir' m.vmmngrCreatePdir.1) m.vmmngrCreatePdir.1 0x1000#32 0x1000#32
      0x100000#32 0xC0000000#32 0xFD000000#32 0xCD000000#32 Entry.writable Entry.writable
      (Entry.writable ||| Entry.pat) 1023 (1024 * 4) (framebufferBytes / 4096 + 100)
      (by omega) (by omega)
    exact hall.mono (by omega)

end Rooms

/-! ### The theorem, and a run that breaks the claim -/

theorem deinitRegion_counted (s : Pmm) (base size : BitVec 32) :
    (s.pmmngrDeinitRegion base size).usedBlocks.toNat
      ≤ s.usedBlocks.toNat + Pmm.regionBlocks size := by
  unfold Pmm.pmmngrDeinitRegion
  split
  · omega
  · rw [Pmm.occupyRun_usedBlocks, BitVec.toNat_add, BitVec.toNat_ofNat]
    omega

theorem initRegion_counted {s : Pmm} {base : BitVec 32} (size : BitVec 32) (h : ¬ s.aboveMemory base) :
    (s.pmmngrInitRegion base size).usedBlocks = s.usedBlocks - BitVec.ofNat 32 (Pmm.regionBlocks size) := by
  rw [Pmm.pmmngrInitRegion, if_neg h]
  exact Pmm.releaseRun_usedBlocks _ _ _

theorem plainRegions_counted (bitmap : WordMap) :
    ((Pmm.pmmngrInit 131072#32 bitmap).pmmngrInitMemoryRegions Pmm.plainRegions).usedBlocks = 256#32 := by
  have habove : ¬ (Pmm.pmmngrInit 131072#32 bitmap).aboveMemory 0x100000#32 := by
    have hcount : (Pmm.pmmngrInit 131072#32 bitmap).pmmngrGetBlockCount = Pmm.blockCount 131072#32 :=
      Pmm.blockCount_boot [] bitmap
    rw [Pmm.aboveMemory_iff hcount]
    decide
  rw [Pmm.pmmngrInitMemoryRegions, Pmm.plainRegions, List.take_of_length_le (by decide),
    Pmm.initRegionsFrom, if_neg (by decide), if_pos (by decide)]
  rw [Pmm.initRegionsFrom, initRegion_counted _ habove]
  have hinit : (Pmm.pmmngrInit 131072#32 bitmap).usedBlocks = 32768#32 := by
    show BitVec.ofInt 32 (Pmm.blockCount 131072#32) = _
    decide
  rw [hinit, show Pmm.regionBlocks 0x7F00000#32 = 32512 by decide]
  rfl

/-- The regions in use count their own size and no more. -/
theorem deinitSpecialRegions_counted (kernelSize : BitVec 32) (s : Pmm) :
    (Pmm.deinitSpecialRegions kernelSize s).usedBlocks.toNat
      ≤ s.usedBlocks.toNat + Pmm.regionBlocks (kernelSize * 512#32)
        + Pmm.regionBlocks (BitVec.ofInt 32 (s.pmmngrGetBlockCount.tdiv Pmm.blocksPerByte)) + 0x400 := by
  unfold Pmm.deinitSpecialRegions
  dsimp only
  rw [Pmm.pmmngrDeinitRegion_blockCount]
  have hlow : Pmm.regionBlocks 0x100000#32 = 0x100 := by decide
  have hheap : Pmm.regionBlocks (Pmm.heapCeiling - Pmm.heapBase) = 0x200 := by decide
  have htfsys : Pmm.regionBlocks (Pmm.tfsysCeiling - Pmm.tfsysBase) = 0x100 := by decide
  refine (deinitRegion_counted _ _ _).trans ?_
  rw [hlow]
  refine (Nat.add_le_add_right (deinitRegion_counted _ _ _) _).trans ?_
  rw [hheap]
  refine (Nat.add_le_add_right (Nat.add_le_add_right (deinitRegion_counted _ _ _) _) _).trans ?_
  rw [htfsys]
  have hbitmap := deinitRegion_counted (s.pmmngrDeinitRegion 0x100000#32 (kernelSize * 512#32))
    (0x100000#32 + kernelSize * 512#32)
    (BitVec.ofInt 32 (s.pmmngrGetBlockCount.tdiv Pmm.blocksPerByte))
  have himage := deinitRegion_counted s 0x100000#32 (kernelSize * 512#32)
  omega

/-- Boot leaves at least the frames from 0x700 on free, of 128 MB. -/
theorem roomy_boot (bitmap : WordMap) (memory : Word → BitVec 32) :
    Roomy (boot 8#32 131072#32 Pmm.plainRegions bitmap memory).pmm 1282 0x700 0 := by
  have hfits : Pmm.ImageFits 8#32 131072#32 := by
    unfold Pmm.ImageFits
    decide
  refine ⟨?_, ?_, fun frame hlo hhi => ?_⟩
  · rw [boot, Pmm.bootMemory_maxBlocks]
    rfl
  · -- the released region leaves 256 frames counted, and the regions in use add their sizes
    have hcounted := deinitSpecialRegions_counted 8#32
      ((Pmm.pmmngrInit 131072#32 bitmap).pmmngrInitMemoryRegions Pmm.plainRegions)
    rw [plainRegions_counted, Pmm.blockCount_boot] at hcounted
    refine hcounted.trans ?_
    decide
  · have hmarks := Pmm.mmapTest_bootMemory hfits Pmm.plainRegions bitmap (show 0 < frame by omega)
      (show frame < 8 * Pmm.bitmapBytes 131072#32 from hhi)
    have hspill : Pmm.spillFrame 8#32 131072#32 = 0x102 := by decide
    have himage : (8#32).toNat * 512 = 4096 := rfl
    have hreleased : Pmm.Released 131072#32 Pmm.plainRegions frame := by
      refine ⟨⟨0x100000#32, 0#32, 0x7F00000#32, 0#32, 1#32, 0#32⟩, by decide, by decide, ?_, ?_⟩
      · exact Nat.le_trans (by decide) hlo
      · exact Nat.lt_of_lt_of_le hhi (by decide)
    rw [hspill, himage] at hmarks
    unfold Pmm.InHeapOrRamFs at hmarks
    by_contra hset
    rcases hmarks.mp (by simpa [boot] using hset) with h | h | h | h
    · omega
    · omega
    · omega
    · exact h hreleased

/-- The structures of a run lie below 4 MB if, whenever one of its calls gets a frame for a structure, a
frame below 4 MB is free; where the block count is not negative, only then. -/
theorem structuresLow_of_run (kernelSize memSize : BitVec 32) (regions : List Pmm.MemoryRegion)
    (bitmap : WordMap) (memory : Word → BitVec 32) (ops : List FrameOp) :
    ((boot kernelSize memSize regions bitmap memory).vmmngrInitialize.LowFrameAtEach ops →
      (boot kernelSize memSize regions bitmap memory).vmmngrInitialize.StructuresLow ops) ∧
    (0 ≤ Pmm.blockCount memSize →
      (boot kernelSize memSize regions bitmap memory).vmmngrInitialize.StructuresLow ops →
      (boot kernelSize memSize regions bitmap memory).vmmngrInitialize.LowFrameAtEach ops) := by
  refine ⟨structuresLow_of_lowFrameAtEach, fun hnonneg h => ?_⟩
  refine lowFrameAtEach_of_structuresLow hnonneg ?_ h
  rw [vmmngrInitialize_maxBlocks, boot, Pmm.bootMemory_maxBlocks]

/-- Frame by frame, first fit uses up the low frames. -/
theorem low_used_of_allocBlocks {m : Machine} {used first taken low : Nat} (n : Nat)
    (h : Roomy m.pmm used first taken) (hlow : ∀ frame < low, m.pmm.mmapTest frame = true)
    (hused : used + taken + n < 32768) (hfirst : first + taken + n < 32768) {op : FrameOp}
    (hrun : m.StructuresLow (List.replicate n .allocBlock ++ [op])) :
    ∃ m' : Machine, m'.StructuresLow [op] ∧ Roomy m'.pmm used first (taken + n) ∧
      ∀ frame < low + n, m'.pmm.mmapTest frame = true := by
  induction n generalizing m taken low with
  | zero => exact ⟨m, hrun, h, hlow⟩
  | succ n ih =>
    have hnext := h.allocBlock (by omega) (by omega)
    obtain ⟨frame, _, hclear, hbelow, heq⟩ :=
      allocBlock_of_canAllocate (h.canAllocate (by omega) (by omega))
    have hframe : low ≤ frame := by
      by_contra hlt
      rw [hlow frame (by omega)] at hclear
      exact Bool.noConfusion hclear
    have hlow' : ∀ other < low + 1, (m.apply .allocBlock).pmm.mmapTest other = true := by
      intro other hother
      show m.pmm.pmmngrAllocBlock.2.mmapTest other = true
      rw [heq, Pmm.mmapTest_occupyRun]
      by_cases hsame : other = frame
      · simp [hsame]
      · rw [hbelow other (by omega), Bool.or_true]
    rw [List.replicate_succ, List.cons_append] at hrun
    obtain ⟨m', hop, hroomy, hset⟩ := ih hnext hlow' (by omega) (by omega) hrun.2
    rw [show taken + 1 + n = taken + (n + 1) by omega] at hroomy
    rw [show low + 1 + n = low + (n + 1) by omega] at hset
    exact ⟨m', hop, hroomy, hset⟩

/-- After as many allocations as there are low frames, a directory is not low. -/
theorem createPdir_not_low {m : Machine} {used first taken n : Nat} (h : Roomy m.pmm used first taken)
    (hn : lowFrames ≤ n) (hused : used + taken + n < 32768) (hfirst : first + taken + n < 32768) :
    ¬ m.StructuresLow (List.replicate n .allocBlock ++ [.createPdir]) := by
  intro hrun
  have hnone : ∀ frame < 0, m.pmm.mmapTest frame = true := fun frame hlt => absurd hlt (by omega)
  obtain ⟨m', hop, hroomy, hset⟩ := low_used_of_allocBlocks n h hnone hused hfirst hrun
  have hlow : ¬ LowFrameFree m'.pmm := by
    rintro ⟨frame, hframe, hclear⟩
    rw [hset frame (by omega)] at hclear
    exact Bool.noConfusion hclear
  have hwords : 32 * m'.pmm.searchWords ≤ 2 ^ 20 := by
    rw [Pmm.searchWords, Pmm.pmmngrGetBlockCount, hroomy.max]
    decide
  obtain ⟨hne, hhigh⟩ :=
    le_frameOf_allocBlock hwords hlow (hroomy.canAllocate (by omega) (by omega))
  have hlt := hop.1 _ ⟨trivial, hne, rfl⟩
  omega

/-- On a machine with 128 MB, the directory made after 1024 allocations is not low. -/
theorem createPdir_above_low :
    ¬ (boot 8#32 131072#32 Pmm.plainRegions (fun _ => 0#32) fun _ => 0#32).vmmngrInitialize.StructuresLow
      (List.replicate 1024 .allocBlock ++ [.createPdir]) :=
  createPdir_not_low (roomy_afterInitialize (roomy_boot _ _) (by decide) (by decide)) (Nat.le_refl _)
    (by decide) (by decide)

end Akos.Machine
