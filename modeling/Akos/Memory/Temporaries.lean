import Akos.Cstdlib.AllocationSizes
import Akos.Memory.HeapRuns

/-!
# Blocks that are freed again

When `kmalloc` finds its blocks, and that a function which frees what it allocated leaves the bit map and the
counter of the kernel heap as they were.
-/

namespace Akos.Heap

variable {h h' : Heap} {size size' : BitVec 32} {block : Nat}

/-- There is a run of free blocks for the size, and the counter does not say that all blocks are used. -/
def Finds (h : Heap) (size : BitVec 32) : Prop :=
  0 < h.allocGetFreeBlockCount ∧
    ∃ first, first + blocksFor size ≤ 262144 ∧ h.memoryMap.ClearRun first (blocksFor size)

theorem Finds.size_le (hf : h.Finds size) : size.toNat ≤ 0xFFFFFFF4 := by
  obtain ⟨-, first, hfits, -⟩ := hf
  unfold blocksFor at hfits
  omega

/-- The call takes the least run. -/
theorem Finds.kmalloc_eq (hf : h.Finds size) :
    ∃ block, h.memoryMap.firstClearRun searchWords (blocksFor size) = some block ∧
      block + blocksFor size ≤ 262144 ∧ h.memoryMap.ClearRun block (blocksFor size) ∧
      h.kmalloc size = (pointer block, { h.occupyRun block (blocksFor size) with
        memory := h.memory.storeWord (pointer block - blockAmtDescSize) (blockAmt size) }) := by
  have hsize := hf.size_le
  have hpos := blocksFor_pos size
  obtain ⟨hfree, first, hfits, hclear⟩ := hf
  cases hfind : h.memoryMap.firstClearRun searchWords (blocksFor size) with
  | none =>
    have hnone := WordMap.firstClearRun_eq_none hpos hfind
    rw [searchWords_eq] at hnone
    exact absurd hclear (hnone first (by omega))
  | some block =>
    have hrun := WordMap.firstClearRun_eq_some hpos hfind
    rw [searchWords_eq] at hrun
    have hlt := hrun.1
    have haddr := toNat_blockAddress (show block < 262144 by omega)
    have hne : base + BitVec.ofNat 32 block * blockSize ≠ 0#32 := by
      intro hzero
      rw [hzero, show (0#32).toNat = 0 from rfl] at haddr
      omega
    have hblocks : h.kmallocAllocBlocks (blocksFor size)
        = (base + BitVec.ofNat 32 block * blockSize, h.occupyRun block (blocksFor size)) := by
      rw [kmallocAllocBlocks, if_neg (Int.not_le.mpr hfree), allocMmapFirstFreeS, hfind, Int.toNat_natCast]
    refine ⟨block, rfl, by omega, hrun.2.1, ?_⟩
    rw [kmalloc, toInt_blockAmt hsize, hblocks]
    dsimp only
    rw [if_neg hne, pointer_sub, pointer, occupyRun_memory]

/-- A call returns a pointer, for a size that does not wrap, when it finds its blocks. -/
theorem finds_iff : h.Finds size ↔ (h.kmalloc size).1 ≠ 0#32 ∧ size.toNat ≤ 0xFFFFFFF4 := by
  constructor
  · intro hf
    have hpos := blocksFor_pos size
    obtain ⟨block, -, hfits, -, heq⟩ := hf.kmalloc_eq
    rw [heq]
    exact ⟨pointer_ne_zero (by omega), hf.size_le⟩
  · intro h'
    obtain ⟨hne, hsize⟩ := h'
    have hnull := not_congr (@kmalloc_eq_zero_iff h size)
    obtain ⟨hfree, -⟩ := not_or.mp (hnull.mp hne)
    obtain ⟨block, hfits, hclear, -⟩ | heq := h.kmalloc_cases hsize
    · exact ⟨by omega, block, hfits, hclear⟩
    · rw [heq] at hne
      exact absurd rfl hne

theorem apply_kmalloc (c : Clients) (size : BitVec 32) :
    c.apply (.kmalloc size) = ⟨(c.heap.kmalloc size).2, if (c.heap.kmalloc size).1 = 0#32 then c.live
      else Function.update c.live (c.heap.kmalloc size).1 (some size)⟩ := by
  rw [Clients.apply]

theorem heap_of_eq {c : Clients} {result : BitVec 32 × Heap} {live : BitVec 32 → Option (BitVec 32)}
    (h : c = ⟨result.2, live⟩) : c.heap = result.2 := by
  rw [h]

theorem heap_kmalloc (c : Clients) (size : BitVec 32) : (c.apply (.kmalloc size)).heap = (c.heap.kmalloc size).2 :=
  @heap_of_eq (c.apply (.kmalloc size)) (c.heap.kmalloc size) _ (apply_kmalloc c size)

theorem heap_kfree (c : Clients) (p : BitVec 32) : (c.apply (.kfree p)).heap = c.heap.kfree p := by
  generalize hheap : c.heap.kfree p = heap
  rw [Clients.apply, hheap]

/-- Bit map and counter are the same. -/
structure SameBlocks (h h' : Heap) : Prop where
  map : h'.memoryMap = h.memoryMap
  used : h'.usedBlocks = h.usedBlocks

namespace SameBlocks

theorem trans {h'' : Heap} (hs : SameBlocks h h') (hs' : SameBlocks h' h'') : SameBlocks h h'' :=
  ⟨hs'.map.trans hs.map, hs'.used.trans hs.used⟩

theorem finds (hs : SameBlocks h h') : h'.Finds size ↔ h.Finds size := by
  rw [Finds, Finds, allocGetFreeBlockCount, allocGetFreeBlockCount, hs.map, hs.used]

/-- The next call takes the same blocks. -/
theorem kmalloc (hs : SameBlocks h h') (hf : h.Finds size) :
    SameBlocks (h.kmalloc size).2 (h'.kmalloc size).2 ∧ (h'.kmalloc size).1 = (h.kmalloc size).1 := by
  obtain ⟨block, hfind, -, -, heq⟩ := hf.kmalloc_eq
  obtain ⟨block', hfind', -, -, heq'⟩ := (hs.finds.mpr hf).kmalloc_eq
  rw [hs.map, hfind] at hfind'
  obtain rfl := Option.some.inj hfind'
  rw [heq, heq']
  refine ⟨⟨?_, ?_⟩, rfl⟩
  · dsimp only
    rw [occupyRun_memoryMap, occupyRun_memoryMap, hs.map]
  · dsimp only
    rw [occupyRun_usedBlocks, occupyRun_usedBlocks, hs.used]

end SameBlocks

/-- A block that was allocated is freed. -/
theorem Finds.sameBlocks_kfree (hf : h.Finds size) : SameBlocks h ((h.kmalloc size).2.kfree (h.kmalloc size).1) := by
  have hpos := blocksFor_pos size
  obtain ⟨block, -, hfits, hclear, heq⟩ := hf.kmalloc_eq
  have hrecorded : (h.kmalloc size).2.memory.loadWord (pointer block - blockAmtDescSize) = blockAmt size := by
    rw [heq]
    exact ByteMemory.loadWord_storeWord _ _ _
  have hfst : (h.kmalloc size).1 = pointer block := by rw [heq]
  rw [hfst, kfree_pointer _ hf.size_le (by omega) hrecorded, heq]
  constructor
  · rw [releaseRun_memoryMap]
    dsimp only
    rw [occupyRun_memoryMap, WordMap.unsetRun_setRun hclear]
  · rw [releaseRun_usedBlocks]
    dsimp only
    rw [occupyRun_usedBlocks, BitVec.add_sub_cancel]

/-- Two blocks that were allocated are freed in the order of the calls. -/
theorem Finds.sameBlocks_kfree_two (hf : h.Finds size) (hf' : (h.kmalloc size).2.Finds size') :
    SameBlocks h ((((h.kmalloc size).2.kmalloc size').2.kfree (h.kmalloc size).1).kfree
      ((h.kmalloc size).2.kmalloc size').1) := by
  have hpos := blocksFor_pos size
  have hpos' := blocksFor_pos size'
  obtain ⟨block, -, hfits, hclear, heq⟩ := hf.kmalloc_eq
  obtain ⟨other, -, hfits', hclear', heq'⟩ := hf'.kmalloc_eq
  have hne : other ≠ block := by
    rintro rfl
    have htest := hclear' other (Nat.le_refl _) (by omega)
    rw [heq, occupyRun_memoryMap, WordMap.test_setRun, decide_eq_true (by omega), Bool.true_or] at htest
    cases htest
  have haddr := toNat_blockAddress (show block < 262144 by omega)
  have haddr' := toNat_blockAddress (show other < 262144 by omega)
  rw [← pointer_sub] at haddr haddr'
  have hfst : (h.kmalloc size).1 = pointer block := by rw [heq]
  have hfst' : ((h.kmalloc size).2.kmalloc size').1 = pointer other := by rw [heq']
  have hrecorded' : ((h.kmalloc size).2.kmalloc size').2.memory.loadWord (pointer other - blockAmtDescSize)
      = blockAmt size' := by
    rw [heq']
    exact ByteMemory.loadWord_storeWord _ _ _
  -- the second header lies beside the first
  have hrecorded : ((h.kmalloc size).2.kmalloc size').2.memory.loadWord (pointer block - blockAmtDescSize)
      = blockAmt size := by
    rw [heq']
    dsimp only
    rw [ByteMemory.loadWord_storeWord_of_apart _ _ (by omega) (by omega) (by omega), heq]
    exact ByteMemory.loadWord_storeWord _ _ _
  have hmap : (h.kmalloc size).2.memoryMap = h.memoryMap.setRun block (blocksFor size) := by
    rw [heq]
    exact occupyRun_memoryMap _ _ _
  have hmap' : ((h.kmalloc size).2.kmalloc size').2.memoryMap
      = (h.memoryMap.setRun block (blocksFor size)).setRun other (blocksFor size') := by
    rw [heq', ← hmap]
    exact occupyRun_memoryMap _ _ _
  have hused : ((h.kmalloc size).2.kmalloc size').2.usedBlocks
      = h.usedBlocks + BitVec.ofNat 32 (blocksFor size) + BitVec.ofNat 32 (blocksFor size') := by
    rw [heq']
    dsimp only
    rw [occupyRun_usedBlocks, heq]
    dsimp only
    rw [occupyRun_usedBlocks]
  rw [hmap] at hclear'
  rw [hfst, hfst']
  generalize ((h.kmalloc size).2.kmalloc size').2 = g at hrecorded hrecorded' hmap' hused ⊢
  rw [← releaseRun_memory g block (blocksFor size)] at hrecorded'
  rw [kfree_pointer _ hf.size_le (by omega) hrecorded, kfree_pointer _ hf'.size_le (by omega) hrecorded']
  constructor
  · rw [releaseRun_memoryMap, releaseRun_memoryMap, hmap', WordMap.unsetRun_setRun_two hclear hclear']
  · rw [releaseRun_usedBlocks, releaseRun_usedBlocks, hused]
    bv_omega

end Akos.Heap
