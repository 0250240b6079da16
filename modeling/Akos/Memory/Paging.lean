import Akos.Memory.Pmm

/-!
# Page directories and page tables

`pde.c`, `pte.c` and `vmm.c`, with the two functions of `process.c` that copy and clear the kernel's
entries of a directory. Directories and tables are frames of 1024 words, which the code reads and writes
at their physical address. A pointer to an entry is the place of a word in physical memory.
-/

namespace Akos

/-! ### Entries -/

namespace Entry

/-- `I86_PDE_PRESENT` and `I86_PTE_PRESENT` -/
abbrev present : BitVec 32 := 1#32

/-- `I86_PDE_WRITABLE` and `I86_PTE_WRITABLE` -/
abbrev writable : BitVec 32 := 2#32

/-- `I86_PTE_PAT` -/
abbrev pat : BitVec 32 := 0x80#32

/-- `I86_PDE_FRAME` and `I86_PTE_FRAME` -/
abbrev frameMask : BitVec 32 := 0xFFFFF000#32

def addAttrib (e attrib : BitVec 32) : BitVec 32 := e ||| attrib

def delAttrib (e attrib : BitVec 32) : BitVec 32 := e &&& ~~~attrib

def setFrame (e physicalAddr : BitVec 32) : BitVec 32 :=
  delAttrib e frameMask ||| (physicalAddr &&& frameMask)

def isPresent (e : BitVec 32) : Bool := e &&& present ≠ 0#32

def pfn (e : BitVec 32) : BitVec 32 := e &&& frameMask

theorem frameOf_eq_shiftRight (p : BitVec 32) : Pmm.frameOf p = p.toNat >>> 12 := by
  rw [Pmm.frameOf_eq, Nat.shiftRight_eq_div_pow]

@[simp] theorem frameOf_pfn (e : BitVec 32) : Pmm.frameOf (pfn e) = Pmm.frameOf e := by
  have hlt : e.toNat >>> 12 < 2 ^ 20 := by
    rw [Nat.shiftRight_eq_div_pow]
    omega
  rw [frameOf_eq_shiftRight, frameOf_eq_shiftRight, pfn, BitVec.toNat_and, Nat.shiftRight_and_distrib]
  rw [show frameMask.toNat >>> 12 = 2 ^ 20 - 1 from rfl, Nat.and_two_pow_sub_one_eq_mod,
    Nat.mod_eq_of_lt hlt]

theorem isPresent_eq (e : BitVec 32) : isPresent e = e.getLsbD 0 := by
  have hand : e &&& present = if e.getLsbD 0 then 1#32 else 0#32 := by
    rw [show present = 1#32 from rfl, BitVec.and_one_eq_setWidth_ofBool_getLsbD]
    cases e.getLsbD 0 <;> rfl
  rw [isPresent, hand]
  cases e.getLsbD 0 <;> rfl

/-- Setting the frame of an entry replaces its frame and keeps whether it is present. -/
@[simp] theorem frameOf_setFrame (e p : BitVec 32) :
    Pmm.frameOf (setFrame e p) = Pmm.frameOf p := by
  have hlow : (delAttrib e frameMask).toNat >>> 12 = 0 := by
    rw [delAttrib, BitVec.toNat_and, Nat.shiftRight_and_distrib,
      show (~~~frameMask).toNat >>> 12 = 0 from rfl, Nat.and_zero]
  rw [frameOf_eq_shiftRight, setFrame, BitVec.toNat_or, Nat.shiftRight_or_distrib, hlow, Nat.zero_or,
    ← frameOf_eq_shiftRight]
  exact frameOf_pfn p

@[simp] theorem isPresent_setFrame (e p : BitVec 32) : isPresent (setFrame e p) = isPresent e := by
  have hmask : frameMask.getLsbD 0 = false := rfl
  simp only [isPresent_eq, setFrame, delAttrib, BitVec.getLsbD_or, BitVec.getLsbD_and, BitVec.getLsbD_not,
    hmask]
  simp

@[simp] theorem isPresent_addAttrib (e attrib : BitVec 32) :
    isPresent (addAttrib e attrib) = (isPresent e || isPresent attrib) := by
  simp [isPresent_eq, addAttrib]

@[simp] theorem isPresent_present : isPresent present = true := by decide

@[simp] theorem isPresent_delAttrib_present (e : BitVec 32) :
    isPresent (delAttrib e present) = false := by
  simp [isPresent_eq, delAttrib]

/-- Attributes below the frame bits keep the frame. -/
theorem frameOf_addAttrib (e : BitVec 32) {attrib : BitVec 32} (h : attrib.toNat < 4096) :
    Pmm.frameOf (addAttrib e attrib) = Pmm.frameOf e := by
  have hlow : attrib.toNat >>> 12 = 0 := by
    rw [Nat.shiftRight_eq_div_pow]
    omega
  rw [frameOf_eq_shiftRight, frameOf_eq_shiftRight, addAttrib, BitVec.toNat_or, Nat.shiftRight_or_distrib,
    hlow, Nat.or_zero]

end Entry

-- the two files define the same operations, on entries of a directory and of a table
abbrev pdEntryAddAttrib := Entry.addAttrib
abbrev pdEntryDelAttrib := Entry.delAttrib
abbrev pdEntrySetFrame := Entry.setFrame
abbrev pdEntryIsPresent := Entry.isPresent
abbrev pdEntryPfn := Entry.pfn

abbrev ptEntryAddAttrib := Entry.addAttrib
abbrev ptEntryDelAttrib := Entry.delAttrib
abbrev ptEntrySetFrame := Entry.setFrame
abbrev ptEntryIsPresent := Entry.isPresent
abbrev ptEntryPfn := Entry.pfn

/-- `PAGE_DIRECTORY_INDEX` -/
def pageDirectoryIndex (virt : BitVec 32) : Nat := (virt >>> 22 &&& 0x3ff#32).toNat

/-- `PAGE_TABLE_INDEX` -/
def pageTableIndex (virt : BitVec 32) : Nat := (virt >>> 12 &&& 0x3ff#32).toNat

/-! ### The machine -/

/-- A word of physical memory: its frame and its index in the frame. -/
abbrev Word := Nat × Nat

/-- The frame allocator, physical memory and `_cur_directory`. -/
structure Machine where
  pmm : Pmm
  memory : Word → BitVec 32
  curDirectory : BitVec 32

namespace Machine

def store (m : Machine) (w : Word) (value : BitVec 32) : Machine :=
  { m with memory := Function.update m.memory w value }

/-- `memset` of words `first`, … of a frame to 0. -/
def clearWords (m : Machine) (p : BitVec 32) (first n : Nat) : Machine :=
  { m with memory := fun w =>
      if w.1 = Pmm.frameOf p ∧ first ≤ w.2 ∧ w.2 < first + n then 0#32 else m.memory w }

/-- `memcpy` of words `first`, … of one frame to the same place in another. -/
def copyWords (m : Machine) (out src : BitVec 32) (first n : Nat) : Machine :=
  { m with memory := fun w =>
      if w.1 = Pmm.frameOf out ∧ first ≤ w.2 ∧ w.2 < first + n then m.memory (Pmm.frameOf src, w.2)
      else m.memory w }

/-- The entry of a table, or the null pointer. -/
def vmmngrPtableLookupEntry (p addr : BitVec 32) : Word :=
  if p = 0#32 then (0, 0) else (Pmm.frameOf p, pageTableIndex addr)

/-- The entry of a directory, or the null pointer. -/
def vmmngrPdirectoryLookupEntry (p addr : BitVec 32) : Word :=
  if p = 0#32 then (0, 0) else (Pmm.frameOf p, pageDirectoryIndex addr)

def vmmngrPdirectoryClear (m : Machine) (dir : BitVec 32) : Machine := m.clearWords dir 0 1024

def vmmngrPtableClear (m : Machine) (table : BitVec 32) : Machine := m.clearWords table 0 1024

/-- Point the entry `e` to a new frame, if there is one. -/
def vmmngrAllocPage (m : Machine) (e : Word) (pteFlags : BitVec 32) : Machine :=
  let (p, pmm) := m.pmm.pmmngrAllocBlock
  let m := { m with pmm }
  if p = 0#32 then m
  else
    let m := m.store e (ptEntrySetFrame (m.memory e) p)
    let m := m.store e (ptEntryAddAttrib (m.memory e) Entry.present)
    m.store e (ptEntryAddAttrib (m.memory e) pteFlags)

def vmmngrFreePage (m : Machine) (e : Word) : Machine :=
  let p := ptEntryPfn (m.memory e)
  let m := if p ≠ 0#32 then { m with pmm := m.pmm.pmmngrFreeBlock p } else m
  m.store e (ptEntryDelAttrib (m.memory e) Entry.present)

/-- The new directory, or 0. -/
def vmmngrCreatePdir (m : Machine) : BitVec 32 × Machine :=
  let (dir, pmm) := m.pmm.pmmngrAllocBlock
  let m := { m with pmm }
  if dir = 0#32 then (0#32, m) else (dir, m.vmmngrPdirectoryClear dir)

/-- The entries of a directory that are present, up to entry `n`. -/
def freeTables (m : Machine) (pdir : BitVec 32) : Nat → Pmm
  | 0 => m.pmm
  | i + 1 =>
    let pmm := m.freeTables pdir i
    let e := m.memory (Pmm.frameOf pdir, i)
    if pdEntryIsPresent e then pmm.pmmngrFreeBlock (pdEntryPfn e) else pmm

def vmmngrFreePdir (m : Machine) (pdir : BitVec 32) : Machine :=
  { m with pmm := (m.freeTables pdir 1024).pmmngrFreeBlock pdir }

/-- The first part of `vmmngr_alloc_virt` and `vmmngr_map_page`: a table that is not present is allocated,
cleared and entered. The flag is off when memory is out, where both return. -/
def tableForEntry (m : Machine) (e : Word) : Bool × Machine :=
  if pdEntryIsPresent (m.memory e) then (true, m)
  else
    let (table, pmm) := m.pmm.pmmngrAllocBlock
    let m := { m with pmm }
    if table = 0#32 then (false, m)
    else
      let m := m.vmmngrPtableClear table
      let m := m.store e (pdEntryAddAttrib (m.memory e) Entry.present)
      (true, m.store e (pdEntrySetFrame (m.memory e) table))

def vmmngrAllocVirt (m : Machine) (dir virt pdeFlags pteFlags : BitVec 32) : Machine :=
  let e := vmmngrPdirectoryLookupEntry dir virt
  let (found, m) := m.tableForEntry e
  if !found then m
  else
    let m := m.store e (pdEntryAddAttrib (m.memory e) pdeFlags)
    let page := vmmngrPtableLookupEntry (pdEntryPfn (m.memory e)) virt
    if ptEntryIsPresent (m.memory page) then m else m.vmmngrAllocPage page pteFlags

def vmmngrFreeVirt (m : Machine) (dir virt : BitVec 32) : Machine :=
  let e := vmmngrPdirectoryLookupEntry dir virt
  if !pdEntryIsPresent (m.memory e) then m
  else
    let page := vmmngrPtableLookupEntry (pdEntryPfn (m.memory e)) virt
    if ptEntryIsPresent (m.memory page) then m.vmmngrFreePage page else m

def vmmngrMapPage (m : Machine) (dir phys virt pdeFlags pteFlags : BitVec 32) : Machine :=
  let e := vmmngrPdirectoryLookupEntry dir virt
  let (found, m) := m.tableForEntry e
  if !found then m
  else
    let m := m.store e (pdEntryAddAttrib (m.memory e) pdeFlags)
    let page := vmmngrPtableLookupEntry (pdEntryPfn (m.memory e)) virt
    let m := m.store page (ptEntrySetFrame (m.memory page) phys)
    let m := m.store page (ptEntryAddAttrib (m.memory page) pteFlags)
    m.store page (ptEntryAddAttrib (m.memory page) Entry.present)

def vmmngrUnmapVirt (m : Machine) (dir virt : BitVec 32) : Machine :=
  let e := vmmngrPdirectoryLookupEntry dir virt
  if !pdEntryIsPresent (m.memory e) then m
  else
    let page := vmmngrPtableLookupEntry (pdEntryPfn (m.memory e)) virt
    let m := m.store page (ptEntrySetFrame (m.memory page) 0#32)
    m.store page (ptEntryDelAttrib (m.memory page) Entry.present)

/-- `vmmngr_virt2phys_pdir`. The sum is that of the frame and `FRAME_OFFSET`. -/
def vmmngrVirt2physPdir (m : Machine) (pdir virt : BitVec 32) : BitVec 32 :=
  let e := m.memory (vmmngrPdirectoryLookupEntry pdir virt)
  if !pdEntryIsPresent e then 0#32
  else
    let page := m.memory (vmmngrPtableLookupEntry (pdEntryPfn e) virt)
    if !ptEntryIsPresent page then 0#32 else ptEntryPfn page + (virt &&& 0xfff#32)

/-- `range` is in units of 4 KB. -/
def vmmngrMmap (m : Machine) (dir frame virt : BitVec 32) (range : Nat) (pdeFlags pteFlags : BitVec 32) :
    Machine :=
  match range with
  | 0 => m
  | range + 1 =>
    (m.vmmngrMapPage dir frame virt pdeFlags pteFlags).vmmngrMmap dir (frame + 4096#32) (virt + 4096#32)
      range pdeFlags pteFlags

/-- `PIXEL_WIDTH*PIXEL_HEIGHT*3` -/
def framebufferBytes : Nat := 1280 * 1024 * 3

/-- `vmmngr_initialize`, up to the two instructions that load the directory and switch paging on. -/
def vmmngrInitialize (m : Machine) : Machine :=
  let (dir, m) := m.vmmngrCreatePdir
  if dir = 0#32 then m
  else
    let m := { m with curDirectory := dir }
    -- the first 4 MB to themselves, without the first page
    let m := m.vmmngrMmap dir 0x1000#32 0x1000#32 1023 Entry.writable Entry.writable
    -- 16 MB from 1 MB on to the kernel's base
    let m := m.vmmngrMmap dir 0x100000#32 0xC0000000#32 (1024 * 4) Entry.writable Entry.writable
    -- the frame buffer
    m.vmmngrMmap dir 0xFD000000#32 0xCD000000#32 (framebufferBytes / 4096 + 100) Entry.writable
      (Entry.writable ||| Entry.pat)

/-! ### The kernel's entries of a directory -/

/-- The page tables of the frame buffer that `clone_kernel_space` copies. -/
def pageTablesToCopy : Nat :=
  framebufferBytes / 0x100000 + if framebufferBytes % 0x100000 ≠ 0 then 1 else 0

def cloneKernelSpace (m : Machine) (out : BitVec 32) : Machine :=
  let proc := m.curDirectory
  let m := m.copyWords out proc 768 4
  let m := m.copyWords out proc 0 1
  m.copyWords out proc 820 pageTablesToCopy

def clearKernelSpace (m : Machine) (out : BitVec 32) : Machine :=
  let m := m.clearWords out 820 pageTablesToCopy
  let m := m.clearWords out 768 4
  m.clearWords out 0 1

/-- The new directory, or 0, in which case the kernel's entries are copied to address 0. -/
def createAddressSpace (m : Machine) : BitVec 32 × Machine :=
  let (space, m) := m.vmmngrCreatePdir
  (space, m.cloneKernelSpace space)

/-- `vmmngr_switch_pdirectory` -/
def vmmngrSwitchPdirectory (m : Machine) (dir : BitVec 32) : Machine :=
  if dir = 0#32 then m else { m with curDirectory := dir }

/-! ### The block count never changes -/

@[simp] theorem store_pmm (m : Machine) (w : Word) (value : BitVec 32) : (m.store w value).pmm = m.pmm :=
  rfl

@[simp] theorem clearWords_pmm (m : Machine) (p : BitVec 32) (first n : Nat) :
    (m.clearWords p first n).pmm = m.pmm := rfl

theorem freeBlock_maxBlocks (s : Pmm) (p : BitVec 32) : (s.pmmngrFreeBlock p).maxBlocks = s.maxBlocks := by
  simp [Pmm.pmmngrFreeBlock]

theorem vmmngrAllocPage_maxBlocks (m : Machine) (e : Word) (flags : BitVec 32) :
    (m.vmmngrAllocPage e flags).pmm.maxBlocks = m.pmm.maxBlocks := by
  unfold vmmngrAllocPage
  dsimp only
  split <;> simp

theorem vmmngrCreatePdir_maxBlocks (m : Machine) :
    m.vmmngrCreatePdir.2.pmm.maxBlocks = m.pmm.maxBlocks := by
  unfold vmmngrCreatePdir
  dsimp only
  split <;> simp [vmmngrPdirectoryClear]

theorem tableForEntry_maxBlocks (m : Machine) (e : Word) :
    (m.tableForEntry e).2.pmm.maxBlocks = m.pmm.maxBlocks := by
  unfold tableForEntry
  dsimp only
  split
  · rfl
  · split <;> simp [vmmngrPtableClear]

theorem vmmngrAllocVirt_maxBlocks (m : Machine) (dir virt pdeFlags pteFlags : BitVec 32) :
    (m.vmmngrAllocVirt dir virt pdeFlags pteFlags).pmm.maxBlocks = m.pmm.maxBlocks := by
  unfold vmmngrAllocVirt
  dsimp only
  split
  · exact tableForEntry_maxBlocks _ _
  · split
    · exact tableForEntry_maxBlocks _ _
    · rw [vmmngrAllocPage_maxBlocks]
      exact tableForEntry_maxBlocks _ _

theorem vmmngrMapPage_maxBlocks (m : Machine) (dir phys virt pdeFlags pteFlags : BitVec 32) :
    (m.vmmngrMapPage dir phys virt pdeFlags pteFlags).pmm.maxBlocks = m.pmm.maxBlocks := by
  unfold vmmngrMapPage
  dsimp only
  split <;> exact tableForEntry_maxBlocks _ _

theorem vmmngrFreeVirt_maxBlocks (m : Machine) (dir virt : BitVec 32) :
    (m.vmmngrFreeVirt dir virt).pmm.maxBlocks = m.pmm.maxBlocks := by
  unfold vmmngrFreeVirt vmmngrFreePage
  dsimp only
  split
  · rfl
  · split
    · split
      · simp [freeBlock_maxBlocks]
      · simp
    · rfl

theorem freeTables_maxBlocks (m : Machine) (pdir : BitVec 32) (n : Nat) :
    (m.freeTables pdir n).maxBlocks = m.pmm.maxBlocks := by
  induction n with
  | zero => rfl
  | succ n ih =>
    rw [freeTables]
    split
    · rw [freeBlock_maxBlocks, ih]
    · exact ih

theorem vmmngrMmap_maxBlocks (m : Machine) (dir frame virt : BitVec 32) (range : Nat)
    (pdeFlags pteFlags : BitVec 32) :
    (m.vmmngrMmap dir frame virt range pdeFlags pteFlags).pmm.maxBlocks = m.pmm.maxBlocks := by
  induction range generalizing m frame virt with
  | zero => rfl
  | succ range ih => rw [vmmngrMmap, ih, vmmngrMapPage_maxBlocks]

theorem vmmngrInitialize_maxBlocks (m : Machine) :
    m.vmmngrInitialize.pmm.maxBlocks = m.pmm.maxBlocks := by
  unfold vmmngrInitialize
  dsimp only
  split
  · exact vmmngrCreatePdir_maxBlocks m
  · rw [vmmngrMmap_maxBlocks, vmmngrMmap_maxBlocks, vmmngrMmap_maxBlocks]
    exact vmmngrCreatePdir_maxBlocks m

end Machine

end Akos
