import Akos.Lib.Ledger
import Akos.Lib.Transition
import Akos.Lib.WordMap

/-!
# The kernel heap

`heap.c`: 2 MB in blocks of 8 bytes, with one bit for each block and a counter beside the bits. An
allocation is a run of blocks whose first four bytes hold their number, and `kfree` takes that number at
its word. What is proved is that over any order of calls the bits, the counter and the headers agree with
the allocations that are live.
-/

namespace Akos

/-- The bytes of the address space. -/
abbrev ByteMemory := BitVec 32 → BitVec 8

namespace ByteMemory

/-- A 32-bit load, lowest byte first. -/
def loadWord (mem : ByteMemory) (a : BitVec 32) : BitVec 32 :=
  mem (a + 3#32) ++ mem (a + 2#32) ++ mem (a + 1#32) ++ mem a

def storeWord (mem : ByteMemory) (a value : BitVec 32) : ByteMemory := fun b =>
  if b = a then value.extractLsb' 0 8
  else if b = a + 1#32 then value.extractLsb' 8 8
  else if b = a + 2#32 then value.extractLsb' 16 8
  else if b = a + 3#32 then value.extractLsb' 24 8
  else mem b

/-- The byte is not one of the four at `a`. -/
def Outside (a b : BitVec 32) : Prop := b ≠ a ∧ b ≠ a + 1#32 ∧ b ≠ a + 2#32 ∧ b ≠ a + 3#32

theorem loadWord_congr {mem mem' : ByteMemory} {a : BitVec 32}
    (h : ∀ k : BitVec 32, k.toNat < 4 → mem' (a + k) = mem (a + k)) :
    mem'.loadWord a = mem.loadWord a := by
  have h0 := h 0#32 (by decide)
  rw [BitVec.add_zero] at h0
  rw [loadWord, loadWord, h0, h 1#32 (by decide), h 2#32 (by decide), h 3#32 (by decide)]

theorem storeWord_of_outside (mem : ByteMemory) {a b : BitVec 32} (value : BitVec 32) (h : Outside a b) :
    mem.storeWord a value b = mem b := by
  obtain ⟨h0, h1, h2, h3⟩ := h
  rw [storeWord, if_neg h0, if_neg h1, if_neg h2, if_neg h3]

theorem loadWord_storeWord (mem : ByteMemory) (a value : BitVec 32) :
    (mem.storeWord a value).loadWord a = value := by
  have hne : ∀ {k l : BitVec 32}, k ≠ l → a + k ≠ a + l := fun hkl heq =>
    hkl ((BitVec.add_right_inj a).mp heq)
  have hne0 : ∀ {k : BitVec 32}, k ≠ 0#32 → a + k ≠ a := fun hk heq =>
    hne hk (heq.trans (BitVec.add_zero a).symm)
  have h0 : mem.storeWord a value a = value.extractLsb' 0 8 := if_pos rfl
  have h1 : mem.storeWord a value (a + 1#32) = value.extractLsb' 8 8 := by
    rw [storeWord, if_neg (hne0 (by decide)), if_pos rfl]
  have h2 : mem.storeWord a value (a + 2#32) = value.extractLsb' 16 8 := by
    rw [storeWord, if_neg (hne0 (by decide)), if_neg (hne (by decide)), if_pos rfl]
  have h3 : mem.storeWord a value (a + 3#32) = value.extractLsb' 24 8 := by
    rw [storeWord, if_neg (hne0 (by decide)), if_neg (hne (by decide)), if_neg (hne (by decide)),
      if_pos rfl]
  rw [loadWord, h0, h1, h2, h3]
  -- adjacent bytes of the value join
  rw [BitVec.extractLsb'_append_extractLsb'_eq_extractLsb' (by rfl),
    BitVec.extractLsb'_append_extractLsb'_eq_extractLsb' (by rfl),
    BitVec.extractLsb'_append_extractLsb'_eq_extractLsb' (by rfl)]
  exact BitVec.extractLsb'_eq_self

end ByteMemory

/-- The variables of `heap.c`, with the memory the headers lie in. -/
structure Heap where
  usedBlocks : BitVec 32
  memoryMap : WordMap
  memory : ByteMemory

namespace Heap

/-- `HEAP_BLOCK_SIZE` -/
abbrev blockSize : BitVec 32 := 8#32

/-- `HEAP_BASE` -/
abbrev base : BitVec 32 := 0xC0300000#32

/-- `HEAP_CEILING` -/
abbrev ceiling : BitVec 32 := 0xC0500000#32

/-- `BLOCK_AMT_DESC_SIZE` -/
abbrev blockAmtDescSize : BitVec 32 := 4#32

/-- `_alloc_max_blocks` -/
abbrev maxBlocks : BitVec 32 := (ceiling - base) / blockSize

/-- The bit of a block. -/
abbrev allocMmapTest (h : Heap) (block : Nat) : Bool := h.memoryMap.test block

def allocGetBlockCount : Int := maxBlocks.toInt

def allocGetFreeBlockCount (h : Heap) : Int := (maxBlocks - h.usedBlocks).toInt

/-- How many words the search looks at. -/
def searchWords : Nat := (BitVec.ofInt 32 (allocGetBlockCount.tdiv 32)).toNat

def allocMmapFirstFreeS (h : Heap) (seqLen : Int) : Option Nat :=
  h.memoryMap.firstClearRun searchWords seqLen

/-- `_alloc_mmap_set (frame++); _alloc_used_blocks++;` for a number of blocks. -/
def occupyRun (h : Heap) (block : Nat) : Nat → Heap
  | 0 => h
  | n + 1 =>
    occupyRun { h with memoryMap := h.memoryMap.set block, usedBlocks := h.usedBlocks + 1#32 }
      (block + 1) n

/-- `_alloc_mmap_unset (frame++); _alloc_used_blocks--;` for a number of blocks. -/
def releaseRun (h : Heap) (block : Nat) : Nat → Heap
  | 0 => h
  | n + 1 =>
    releaseRun { h with memoryMap := h.memoryMap.unset block, usedBlocks := h.usedBlocks - 1#32 }
      (block + 1) n

/-- The address of the first of `seqLen` free blocks in a row, or 0. -/
def kmallocAllocBlocks (h : Heap) (seqLen : Int) : BitVec 32 × Heap :=
  if h.allocGetFreeBlockCount ≤ 0 then (0#32, h)
  else
    match h.allocMmapFirstFreeS seqLen with
    | none => (0#32, h)
    | some block => (base + BitVec.ofNat 32 block * blockSize, h.occupyRun block seqLen.toNat)

/-- The block an address lies in. -/
def blockOf (addr : BitVec 32) : Nat := ((addr - base) / blockSize).toNat

def kmallocFreeBlocks (h : Heap) (p : BitVec 32) (seqLen : Int) : Heap :=
  h.releaseRun (blockOf p) seqLen.toNat

/-- The size with the header, rounded up to whole blocks, in blocks. -/
def blockAmt (size : BitVec 32) : BitVec 32 :=
  let size := size + blockAmtDescSize
  let size := if size % blockSize ≠ 0#32 then size + (blockSize - size % blockSize) else size
  size / blockSize

def kmalloc (h : Heap) (size : BitVec 32) : BitVec 32 × Heap :=
  let result := h.kmallocAllocBlocks (blockAmt size).toInt
  let addr := result.1
  let h := result.2
  if addr = 0#32 then (0#32, h)
  else
    (addr + blockAmtDescSize, { h with memory := h.memory.storeWord addr (blockAmt size) })

def kfree (h : Heap) (p : BitVec 32) : Heap :=
  if p ≠ 0#32 then
    let amount := h.memory.loadWord (p - blockAmtDescSize)
    h.kmallocFreeBlocks (p - blockAmtDescSize) amount.toInt
  else h

/-- No block is used. The memory may hold anything. -/
def empty (memory : ByteMemory) : Heap := { usedBlocks := 0#32, memoryMap := fun _ => 0#32, memory }

/-! ### What the loops over blocks change -/

@[simp] theorem occupyRun_memory (h : Heap) (block n : Nat) : (h.occupyRun block n).memory = h.memory := by
  induction n generalizing h block with
  | zero => rfl
  | succ n ih => rw [occupyRun, ih]

@[simp] theorem occupyRun_memoryMap (h : Heap) (block n : Nat) :
    (h.occupyRun block n).memoryMap = h.memoryMap.setRun block n := by
  induction n generalizing h block with
  | zero => rfl
  | succ n ih => rw [occupyRun, ih, WordMap.setRun]

@[simp] theorem occupyRun_usedBlocks (h : Heap) (block n : Nat) :
    (h.occupyRun block n).usedBlocks = h.usedBlocks + BitVec.ofNat 32 n := by
  induction n generalizing h block with
  | zero => simp [occupyRun]
  | succ n ih =>
    rw [occupyRun, ih, BitVec.add_assoc, BitVec.add_comm 1#32]
    rw [show 1#32 = BitVec.ofNat 32 1 from rfl, ← BitVec.ofNat_add]

@[simp] theorem releaseRun_memory (h : Heap) (block n : Nat) :
    (h.releaseRun block n).memory = h.memory := by
  induction n generalizing h block with
  | zero => rfl
  | succ n ih => rw [releaseRun, ih]

@[simp] theorem releaseRun_memoryMap (h : Heap) (block n : Nat) :
    (h.releaseRun block n).memoryMap = h.memoryMap.unsetRun block n := by
  induction n generalizing h block with
  | zero => rfl
  | succ n ih => rw [releaseRun, ih, WordMap.unsetRun]

@[simp] theorem releaseRun_usedBlocks (h : Heap) (block n : Nat) :
    (h.releaseRun block n).usedBlocks = h.usedBlocks - BitVec.ofNat 32 n := by
  induction n generalizing h block with
  | zero => simp [releaseRun]
  | succ n ih => rw [releaseRun, ih, Nat.add_comm n 1, BitVec.ofNat_add, BitVec.sub_sub]

/-! ### Sizes and addresses as numbers -/

/-- The number of blocks that hold the header and the bytes of an allocation. -/
def blocksFor (size : BitVec 32) : Nat := (size.toNat + 4 + 7) / 8

theorem blocksFor_pos (size : BitVec 32) : 0 < blocksFor size := by
  unfold blocksFor
  omega

theorem toNat_base : base.toNat = 0xC0300000 := rfl

/-- Both additions drop what does not fit in 32 bits. -/
theorem toNat_blockAmt_eq (size : BitVec 32) :
    (blockAmt size).toNat = ((size.toNat + 4) % 2 ^ 32 + 7) % 2 ^ 32 / 8 := by
  have hsum : (size + blockAmtDescSize).toNat = (size.toNat + 4) % 2 ^ 32 := BitVec.toNat_add ..
  have hmod : ((size + blockAmtDescSize) % blockSize).toNat = (size.toNat + 4) % 2 ^ 32 % 8 := by
    rw [BitVec.toNat_umod, hsum]
    rfl
  have height : blockSize.toNat = 8 := rfl
  have hpad : (blockSize - (size + blockAmtDescSize) % blockSize).toNat = 8 - (size.toNat + 4) % 2 ^ 32 % 8 := by
    rw [BitVec.toNat_sub_of_le, hmod, height]
    rw [BitVec.le_def, hmod, height]
    omega
  unfold blockAmt
  dsimp only
  by_cases hzero : (size + blockAmtDescSize) % blockSize = 0#32
  · have hz : (size.toNat + 4) % 2 ^ 32 % 8 = 0 := by
      rw [← hmod, hzero]
      rfl
    rw [if_neg (by simpa using hzero), BitVec.toNat_udiv, hsum, height]
    omega
  · have hz : (size.toNat + 4) % 2 ^ 32 % 8 ≠ 0 := by
      intro hz
      exact hzero (BitVec.eq_of_toNat_eq (hmod.trans hz))
    rw [if_pos hzero, BitVec.toNat_udiv, BitVec.toNat_add, hsum, hpad, height]
    omega

theorem toNat_blockAmt {size : BitVec 32} (hsize : size.toNat ≤ 0xFFFFFFF4) :
    (blockAmt size).toNat = blocksFor size := by
  rw [toNat_blockAmt_eq, blocksFor]
  omega

/-- Just below 2^32 the rounding up leaves no block. -/
theorem blockAmt_eq_zero {size : BitVec 32} (hlow : 0xFFFFFFF4 < size.toNat) (hhigh : size.toNat < 0xFFFFFFFD) :
    blockAmt size = 0#32 := by
  refine BitVec.eq_of_toNat_eq ?_
  rw [toNat_blockAmt_eq, show (0#32).toNat = 0 from rfl]
  omega

/-- The three largest sizes leave the one block of the bytes that wrapped. -/
theorem blockAmt_eq_one {size : BitVec 32} (hlow : 0xFFFFFFFD ≤ size.toNat) : blockAmt size = 1#32 := by
  refine BitVec.eq_of_toNat_eq ?_
  rw [toNat_blockAmt_eq, show (1#32).toNat = 1 from rfl]
  omega

/-- Read as an `int`, the number of blocks is what it is. -/
theorem toInt_blockAmt {size : BitVec 32} (hsize : size.toNat ≤ 0xFFFFFFF4) :
    (blockAmt size).toInt = blocksFor size := by
  have hamount := toNat_blockAmt hsize
  have hlt : blocksFor size < 2 ^ 30 := by
    unfold blocksFor
    omega
  rw [BitVec.toInt_eq_toNat_of_lt (by omega), hamount]

theorem searchWords_eq : searchWords = 8192 := by decide

/-- The address `kmalloc` returns for a run of blocks. -/
def pointer (block : Nat) : BitVec 32 := base + BitVec.ofNat 32 block * blockSize + blockAmtDescSize

theorem toNat_blockAddress {block : Nat} (hblock : block < 262144) :
    (base + BitVec.ofNat 32 block * blockSize).toNat = 0xC0300000 + 8 * block := by
  rw [BitVec.toNat_add, BitVec.toNat_mul, toNat_base, BitVec.toNat_ofNat, show blockSize.toNat = 8 from rfl]
  omega

theorem toNat_pointer {block : Nat} (hblock : block < 262144) :
    (pointer block).toNat = 0xC0300000 + 8 * block + 4 := by
  rw [pointer, BitVec.toNat_add, toNat_blockAddress hblock, show blockAmtDescSize.toNat = 4 from rfl]
  omega

theorem pointer_sub (block : Nat) :
    pointer block - blockAmtDescSize = base + BitVec.ofNat 32 block * blockSize := by
  rw [pointer, BitVec.add_sub_cancel]

theorem blockOf_pointer {block : Nat} (hblock : block < 262144) :
    blockOf (pointer block - blockAmtDescSize) = block := by
  rw [pointer_sub, blockOf, BitVec.add_comm, BitVec.add_sub_cancel, BitVec.toNat_udiv, BitVec.toNat_mul,
    BitVec.toNat_ofNat, show blockSize.toNat = 8 from rfl]
  omega

theorem pointer_ne_zero {block : Nat} (hblock : block < 262144) : pointer block ≠ 0#32 := by
  intro hzero
  have haddr := toNat_pointer hblock
  rw [hzero, show (0#32).toNat = 0 from rfl] at haddr
  omega

/-- `kfree` clears the blocks that the word in front of the pointer counts. -/
theorem kfree_pointer (h : Heap) {size : BitVec 32} {block : Nat} (hsize : size.toNat ≤ 0xFFFFFFF4)
    (hblock : block < 262144) (hheader : h.memory.loadWord (pointer block - blockAmtDescSize) = blockAmt size) :
    h.kfree (pointer block) = h.releaseRun block (blocksFor size) := by
  rw [kfree, if_pos (pointer_ne_zero hblock)]
  dsimp only
  rw [hheader, kmallocFreeBlocks, toInt_blockAmt hsize, blockOf_pointer hblock, Int.toNat_natCast]

theorem kmallocAllocBlocks_cases (h : Heap) {want : Nat} (hwant : 0 < want) :
    (∃ block, block + want ≤ 262144 ∧ h.memoryMap.ClearRun block want ∧
      h.kmallocAllocBlocks want = (base + BitVec.ofNat 32 block * blockSize, h.occupyRun block want)) ∨
    h.kmallocAllocBlocks want = (0#32, h) := by
  rw [kmallocAllocBlocks]
  by_cases hroom : h.allocGetFreeBlockCount ≤ 0
  · rw [if_pos hroom]
    exact Or.inr rfl
  · rw [if_neg hroom]
    cases hfind : h.allocMmapFirstFreeS want with
    | none => exact Or.inr rfl
    | some block =>
      have hrun := WordMap.firstClearRun_eq_some hwant hfind
      have hle := hrun.1
      rw [searchWords_eq] at hle
      exact Or.inl ⟨block, by omega, hrun.2.1, rfl⟩

/-- What `kmalloc` does: it finds a run of free blocks, marks it and writes its length in front, or it
changes nothing. -/
theorem kmalloc_cases (h : Heap) {size : BitVec 32} (hsize : size.toNat ≤ 0xFFFFFFF4) :
    (∃ block, block + blocksFor size ≤ 262144 ∧ h.memoryMap.ClearRun block (blocksFor size) ∧
      h.kmalloc size = (pointer block,
        { h.occupyRun block (blocksFor size) with
          memory := h.memory.storeWord (pointer block - blockAmtDescSize) (blockAmt size) })) ∨
    h.kmalloc size = (0#32, h) := by
  have hpos := blocksFor_pos size
  rw [kmalloc, toInt_blockAmt hsize]
  rcases h.kmallocAllocBlocks_cases hpos with ⟨block, hle, hclear, heq⟩ | heq
  · have hne : base + BitVec.ofNat 32 block * blockSize ≠ 0#32 := by
      intro hzero
      have haddr := toNat_blockAddress (show block < 262144 by omega)
      rw [hzero, show (0#32).toNat = 0 from rfl] at haddr
      omega
    refine Or.inl ⟨block, hle, hclear, ?_⟩
    rw [heq]
    dsimp only
    rw [if_neg hne, pointer_sub, pointer, occupyRun_memory]
  · rw [heq]
    exact Or.inr (if_pos rfl)

end Heap

end Akos
