import Akos.Cstdlib.Heap

/-!
# What the allocators make of a size

`kmalloc` and `malloc` add the header and round up without a look at the carry, and hand the number of blocks to a
search that compares for equality. For which sizes, on which bit maps, a pointer comes back that has its bytes
behind it.
-/

namespace Akos

/-- What stands behind a pointer: the blocks that the word in front of it counts were free, hold the header and
`size` bytes, and are marked now. The bytes lie in blocks that were free. -/
structure Serves (before after : WordMap) (blocks : Nat) (blockOf : BitVec 32 → Nat) (recorded p size : BitVec 32) :
    Prop where
  one : 1 ≤ recorded.toNat
  room : size.toNat + 4 ≤ 8 * recorded.toNat
  fits : blockOf (p - 4#32) + recorded.toNat ≤ blocks
  clear : before.ClearRun (blockOf (p - 4#32)) recorded.toNat
  marked : after = before.setRun (blockOf (p - 4#32)) recorded.toNat
  apart : ∀ k < size.toNat, blockOf (p + BitVec.ofNat 32 k) < blocks ∧
    before.test (blockOf (p + BitVec.ofNat 32 k)) = false

/-- The allocator returns nothing for a size whose count of blocks wrapped: it looks for no block, or for one. -/
def Refused (words : WordMap) (searchWords : Nat) (free : Int) (size : BitVec 32) : Prop :=
  free ≤ 0 ∨ ∀ i < searchWords, words i = 0xffffffff#32 ∨ size.toNat < 0xFFFFFFFD ∧ words i = 0#32

section Search

variable {words : WordMap} {searchWords first : Nat} {size : BitVec 32}

/-- The search for a wrapped count comes back with nothing when every word is full, or empty too if it looks for
no block. -/
theorem firstClearRun_wrapped_iff (hsize : 0xFFFFFFF4 < size.toNat) :
    words.firstClearRun searchWords (Heap.blockAmt size).toInt = none ↔
      ∀ i < searchWords, words i = 0xffffffff#32 ∨ size.toNat < 0xFFFFFFFD ∧ words i = 0#32 := by
  rcases Nat.lt_or_ge size.toNat 0xFFFFFFFD with hlt | hge
  · rw [Heap.blockAmt_eq_zero hsize hlt]
    have hspec := words.firstClearRun_zero_spec searchWords
    cases hfind : words.firstClearRun searchWords 0 with
    | none =>
      rw [hfind] at hspec
      exact iff_of_true hfind fun i hi => (hspec i hi).imp_right (And.intro hlt)
    | some first =>
      rw [hfind] at hspec
      obtain ⟨-, i, hi, hfull, hempty⟩ := hspec
      refine iff_of_false (fun hnone => ?_) fun hall => ?_
      · rw [show (0#32).toInt = 0 from rfl, hfind] at hnone
        cases hnone
      · exact (hall i hi).elim hfull fun h => hempty h.2
  · rw [Heap.blockAmt_eq_one hge, show (1#32).toInt = 1 from rfl, WordMap.firstClearRun_one_eq_none_iff]
    exact forall_congr' fun i => imp_congr_right fun _ => (or_iff_left fun h => by omega).symm

/-- What any search finds lies among the searched bits. -/
theorem lt_of_firstClearRun (hfind : words.firstClearRun searchWords (Heap.blockAmt size).toInt = some first) :
    first < 32 * searchWords := by
  rcases Nat.lt_or_ge 0xFFFFFFF4 size.toNat with hlarge | hsmall
  · rcases Nat.lt_or_ge size.toNat 0xFFFFFFFD with hlt | hge
    · rw [Heap.blockAmt_eq_zero hlarge hlt] at hfind
      have hspec := words.firstClearRun_zero_spec searchWords
      rw [show (0#32).toInt = 0 from rfl] at hfind
      rw [hfind] at hspec
      exact hspec.1
    · rw [Heap.blockAmt_eq_one hge] at hfind
      exact (WordMap.firstClearRun_eq_some Nat.one_pos hfind).1
  · rw [Heap.toInt_blockAmt hsmall] at hfind
    have hfits := (WordMap.firstClearRun_eq_some (Heap.blocksFor_pos size) hfind).1
    have hpos := Heap.blocksFor_pos size
    omega

/-- A pointer to a run of free blocks whose count did not wrap serves its size. -/
theorem serves_of_run {base recorded p : BitVec 32} {blocks block : Nat} (hsize : size.toNat ≤ 0xFFFFFFF4)
    (hroom : base.toNat + 8 * blocks < 2 ^ 32) (hp : p.toNat = base.toNat + 8 * block + 4)
    (hrecorded : recorded = Heap.blockAmt size) (hfits : block + Heap.blocksFor size ≤ blocks)
    (hclear : words.ClearRun block (Heap.blocksFor size)) :
    Serves words (words.setRun block (Heap.blocksFor size)) blocks (fun a => ((a - base) / 8#32).toNat)
      recorded p size := by
  have hcount : recorded.toNat = Heap.blocksFor size := by rw [hrecorded, Heap.toNat_blockAmt hsize]
  have hpos := Heap.blocksFor_pos size
  have hbytes : size.toNat + 4 ≤ 8 * Heap.blocksFor size := by
    unfold Heap.blocksFor
    omega
  have hoffset : ∀ a : BitVec 32, base.toNat ≤ a.toNat → ((a - base) / 8#32).toNat = (a.toNat - base.toNat) / 8 := by
    intro a ha
    rw [BitVec.toNat_udiv, BitVec.toNat_sub_of_le (BitVec.le_def.mpr ha), show (8#32).toNat = 8 from rfl]
  have hfirst : ((p - 4#32 - base) / 8#32).toNat = block := by
    have hstart : (p - 4#32).toNat = base.toNat + 8 * block := by
      rw [BitVec.toNat_sub_of_le (BitVec.le_def.mpr (by rw [show (4#32).toNat = 4 from rfl]; omega)), hp,
        show (4#32).toNat = 4 from rfl]
      omega
    rw [hoffset _ (by omega), hstart]
    omega
  refine ⟨?_, ?_, ?_, ?_, ?_, fun k hk => ?_⟩
  · rwa [hcount]
  · rwa [hcount]
  · rwa [hfirst, hcount]
  · rwa [hfirst, hcount]
  · rw [hfirst, hcount]
  · have hbyte : (p + BitVec.ofNat 32 k).toNat = base.toNat + 8 * block + 4 + k := by
      rw [BitVec.toNat_add, BitVec.toNat_ofNat, hp]
      omega
    have hblock : ((p + BitVec.ofNat 32 k - base) / 8#32).toNat = block + (4 + k) / 8 := by
      rw [hoffset _ (by omega), hbyte]
      omega
    rw [hblock]
    exact ⟨by omega, hclear _ (by omega) (by omega)⟩

end Search

namespace Heap

variable {h : Heap} {size : BitVec 32}

/-- A pointer that `kmalloc` returns serves the size it was asked for. -/
def KmallocServes (h : Heap) (size : BitVec 32) : Prop :=
  (h.kmalloc size).1 ≠ 0#32 →
    Serves h.memoryMap (h.kmalloc size).2.memoryMap maxBlocks.toNat blockOf
      ((h.kmalloc size).2.memory.loadWord ((h.kmalloc size).1 - blockAmtDescSize)) (h.kmalloc size).1 size

/-- `kmalloc` returns null when no block is free or the search finds nothing. -/
theorem kmalloc_eq_zero_iff :
    (h.kmalloc size).1 = 0#32 ↔
      h.allocGetFreeBlockCount ≤ 0 ∨ h.allocMmapFirstFreeS (blockAmt size).toInt = none := by
  rw [kmalloc, kmallocAllocBlocks]
  by_cases hfree : h.allocGetFreeBlockCount ≤ 0
  · rw [if_pos hfree]
    exact iff_of_true (by rw [if_pos rfl]) (.inl hfree)
  rw [if_neg hfree]
  cases hfind : h.allocMmapFirstFreeS (blockAmt size).toInt with
  | none => exact iff_of_true (by rw [if_pos rfl]) (.inr rfl)
  | some block =>
    have hlt := lt_of_firstClearRun hfind
    rw [searchWords_eq] at hlt
    have haddr := toNat_blockAddress (show block < 262144 by omega)
    have hpointer := toNat_pointer (show block < 262144 by omega)
    have hne : base + BitVec.ofNat 32 block * blockSize ≠ 0#32 := by
      intro hzero
      rw [hzero, show (0#32).toNat = 0 from rfl] at haddr
      omega
    refine iff_of_false ?_ fun hnull => hnull.elim hfree (fun h => by cases h)
    dsimp only
    rw [if_neg hne]
    intro hzero
    replace hzero : pointer block = 0#32 := hzero
    rw [hzero, show (0#32).toNat = 0 from rfl] at hpointer
    omega

/-- The word in front of a pointer counts the blocks `kmalloc` asked for. -/
theorem kmalloc_recorded (hne : (h.kmalloc size).1 ≠ 0#32) :
    (h.kmalloc size).2.memory.loadWord ((h.kmalloc size).1 - blockAmtDescSize) = blockAmt size := by
  by_cases haddr : (h.kmallocAllocBlocks (blockAmt size).toInt).1 = 0#32
  · refine absurd ?_ hne
    rw [kmalloc, if_pos haddr]
  · rw [kmalloc, if_neg haddr, BitVec.add_sub_cancel, ByteMemory.loadWord_storeWord]

theorem toNat_maxBlocks : maxBlocks.toNat = 262144 := by decide

/-- A size that did not wrap is served. -/
theorem kmallocServes_of_le (hsize : size.toNat ≤ 0xFFFFFFF4) : h.KmallocServes size := by
  intro hne
  have hrecorded := kmalloc_recorded hne
  obtain ⟨block, hfits, hclear, heq⟩ | heq := h.kmalloc_cases hsize
  · rw [heq] at hrecorded ⊢
    dsimp only at hrecorded ⊢
    rw [occupyRun_memoryMap, toNat_maxBlocks]
    have hpos := blocksFor_pos size
    have hpointer := toNat_pointer (show block < 262144 by omega)
    exact serves_of_run hsize (by decide) hpointer hrecorded hfits hclear
  · rw [heq] at hne
    exact absurd rfl hne

theorem kmallocServes_iff :
    h.KmallocServes size ↔
      size.toNat ≤ 0xFFFFFFF4 ∨ Refused h.memoryMap searchWords h.allocGetFreeBlockCount size := by
  rcases Nat.lt_or_ge 0xFFFFFFF4 size.toNat with hlarge | hsmall
  · rw [or_iff_right (Nat.not_le_of_lt hlarge), Refused, ← firstClearRun_wrapped_iff hlarge]
    refine Iff.trans ⟨fun hserves => ?_, fun hzero hne => absurd hzero hne⟩ kmalloc_eq_zero_iff
    by_contra hne
    have hroom := (hserves hne).room
    rw [kmalloc_recorded hne, toNat_blockAmt_eq] at hroom
    omega
  · exact iff_of_true (kmallocServes_of_le hsmall) (.inl hsmall)

end Heap

namespace UserHeap

variable {h : UserHeap} {size : BitVec 32}

/-- The allocator as a call of `malloc` finds it, after `heap_init` if that has not run. -/
def initialized (h : UserHeap) : UserHeap := if h.heapInitialized then h else h.heapInit

/-- A pointer that `malloc` returns serves the size it was asked for. -/
def MallocServes (h : UserHeap) (size : BitVec 32) : Prop :=
  (h.malloc size).1 ≠ 0#32 →
    Serves h.initialized.words (h.malloc size).2.words maxBlocks.toNat h.initialized.blockOf
      ((h.malloc size).2.memory.loadWord ((h.malloc size).1 - blockAmtDescSize)) (h.malloc size).1 size

theorem initialized_heapInitialized (h : UserHeap) : h.initialized.heapInitialized = true := by
  unfold initialized
  split
  · assumption
  · rfl

theorem malloc_initialized (h : UserHeap) (size : BitVec 32) : h.malloc size = h.initialized.malloc size := by
  cases hinit : h.heapInitialized with
  | true => rw [initialized, if_pos hinit]
  | false => rw [malloc_of_not_initialized hinit, initialized, if_neg (by rw [hinit]; exact Bool.false_ne_true)]

/-- The break goes up beside the bit map. -/
theorem growTo_mapOnly (h : UserHeap) (stop : BitVec 32) :
    (h.growTo stop).words = h.words ∧ (h.growTo stop).heapBase = h.heapBase ∧
      (h.growTo stop).memoryMap = h.memoryMap := by
  unfold growTo
  split
  · exact ⟨rfl, rfl, rfl⟩
  · exact ⟨rfl, rfl, rfl⟩

/-- The state after a call that found blocks. -/
def taken (h : UserHeap) (size : BitVec 32) (block : Nat) : UserHeap :=
  (h.growTo (h.blockAddress block + BitVec.ofInt 32 (blockAmt size).toInt * blockSize)).occupyRun block
    (blockAmt size).toInt.toNat

/-- `malloc` returns null when no block is free or the search finds nothing, and else a pointer to what the search
found. -/
theorem Placed.malloc_cases (hp : Placed h) (hinit : h.heapInitialized = true) (size : BitVec 32) :
    ((h.allocGetFreeBlockCount ≤ 0 ∨ h.allocMmapFirstFreeS (blockAmt size).toInt = none) ∧
      (h.malloc size).1 = 0#32) ∨
    ∃ block, 0 < h.allocGetFreeBlockCount ∧ h.allocMmapFirstFreeS (blockAmt size).toInt = some block ∧
      block < 524288 ∧
      h.malloc size = (h.pointer block, { h.taken size block with
        memory := (h.taken size block).memory.storeWord (h.blockAddress block) (blockAmt size) }) := by
  rw [malloc, mallocAllocBlocks, if_pos hinit]
  dsimp only
  by_cases hfree : h.allocGetFreeBlockCount ≤ 0
  · rw [if_pos hfree]
    exact .inl ⟨.inl hfree, by rw [if_pos rfl]⟩
  rw [if_neg hfree]
  cases hfind : h.allocMmapFirstFreeS (blockAmt size).toInt with
  | none => exact .inl ⟨.inr rfl, by rw [if_pos rfl]⟩
  | some block =>
    have hlt := lt_of_firstClearRun hfind
    rw [searchWords_eq] at hlt
    have haddr := hp.toNat_blockAddress (show block < 524288 by omega)
    have hne : h.blockAddress block ≠ 0#32 := by
      intro hzero
      have hbase := hp.base
      rw [hzero, show (0#32).toNat = 0 from rfl] at haddr
      omega
    dsimp only
    rw [if_neg hne]
    exact .inr ⟨block, by omega, rfl, by omega, rfl⟩

theorem Placed.malloc_eq_zero_iff (hp : Placed h) (hinit : h.heapInitialized = true) :
    (h.malloc size).1 = 0#32 ↔
      h.allocGetFreeBlockCount ≤ 0 ∨ h.allocMmapFirstFreeS (blockAmt size).toInt = none := by
  obtain ⟨hnone, hnull⟩ | ⟨block, hfree, hfind, hlt, heq⟩ := hp.malloc_cases hinit size
  · exact iff_of_true hnull hnone
  · rw [heq, hfind]
    refine iff_of_false (fun hzero => ?_) fun hnone => hnone.elim (by omega) (fun h => by cases h)
    have hpointer := hp.toNat_pointer hlt
    replace hzero : h.pointer block = 0#32 := hzero
    rw [hzero, show (0#32).toNat = 0 from rfl] at hpointer
    omega

theorem Placed.malloc_recorded (hp : Placed h) (hinit : h.heapInitialized = true) (hne : (h.malloc size).1 ≠ 0#32) :
    (h.malloc size).2.memory.loadWord ((h.malloc size).1 - blockAmtDescSize) = blockAmt size := by
  obtain ⟨-, hnull⟩ | ⟨block, -, -, -, heq⟩ := hp.malloc_cases hinit size
  · exact absurd hnull hne
  · rw [heq]
    dsimp only
    rw [pointer_sub, ByteMemory.loadWord_storeWord]

/-- For a size that did not wrap the run is marked, and nothing is moved. -/
theorem Placed.taken (hp : Placed h) (hsize : size.toNat ≤ 0xFFFFFFF4) {block : Nat}
    (hfits : block + Heap.blocksFor size ≤ 524288) :
    (h.taken size block).words = h.words.setRun block (Heap.blocksFor size) ∧ Placed (h.taken size block) ∧
      (h.taken size block).heapBase = h.heapBase := by
  rw [UserHeap.taken, Heap.toInt_blockAmt hsize, Int.toNat_natCast]
  obtain ⟨hgrown, hbase, hmap⟩ := h.growTo_mapOnly
    (h.blockAddress block + BitVec.ofInt 32 (Heap.blocksFor size) * blockSize)
  generalize h.growTo _ = g at hgrown hbase hmap ⊢
  have hplaced : Placed g := ⟨by rw [hbase, hmap, hp.base], by rw [hbase]; exact hp.room⟩
  obtain ⟨hwords, -, hrun⟩ := hplaced.occupyRun hfits
  exact ⟨by rw [hwords, hgrown], hrun.placed hplaced, by rw [hrun.heapBase, hbase]⟩

theorem toNat_maxBlocks : maxBlocks.toNat = 524288 := by decide

/-- A size that did not wrap is served. -/
theorem Placed.mallocServes_of_le (hp : Placed h) (hinit : h.heapInitialized = true)
    (hsize : size.toNat ≤ 0xFFFFFFF4) (hne : (h.malloc size).1 ≠ 0#32) :
    Serves h.words (h.malloc size).2.words maxBlocks.toNat h.blockOf
      ((h.malloc size).2.memory.loadWord ((h.malloc size).1 - blockAmtDescSize)) (h.malloc size).1 size := by
  have hrecorded := hp.malloc_recorded hinit hne
  obtain ⟨-, hnull⟩ | ⟨block, -, hfind, hlt, heq⟩ := hp.malloc_cases hinit size
  · exact absurd hnull hne
  rw [Heap.toInt_blockAmt hsize] at hfind
  obtain ⟨hfits, hclear⟩ := allocMmapFirstFreeS_eq_some (Heap.blocksFor_pos size) hfind
  obtain ⟨htaken, htakenPlaced, htakenBase⟩ := hp.taken hsize hfits
  have haddr := hp.toNat_blockAddress hlt
  have hroom := hp.room
  rw [heq] at hrecorded ⊢
  dsimp only at hrecorded ⊢
  rw [htakenPlaced.words_block _ fun b hb => ?_, htaken, toNat_maxBlocks]
  · exact serves_of_run hsize (show h.heapBase.toNat + 8 * 524288 < 2 ^ 32 by omega) (hp.toNat_pointer hlt) hrecorded
      hfits hclear
  · rw [htakenBase] at hb
    exact ByteMemory.storeWord_of_outside _ _ (ByteMemory.outside_of_toNat (by omega) (.inl (by omega)))

theorem mallocServes_iff (hp : h.initialized.Placed) :
    h.MallocServes size ↔
      size.toNat ≤ 0xFFFFFFF4 ∨ Refused h.initialized.words searchWords h.initialized.allocGetFreeBlockCount size := by
  have hinit := h.initialized_heapInitialized
  rw [MallocServes, malloc_initialized]
  rcases Nat.lt_or_ge 0xFFFFFFF4 size.toNat with hlarge | hsmall
  · rw [or_iff_right (Nat.not_le_of_lt hlarge), Refused, ← firstClearRun_wrapped_iff hlarge]
    refine Iff.trans ⟨fun hserves => ?_, fun hzero hne => absurd hzero hne⟩ (hp.malloc_eq_zero_iff hinit)
    by_contra hne
    have hroom := (hserves hne).room
    rw [hp.malloc_recorded hinit hne, Heap.toNat_blockAmt_eq] at hroom
    omega
  · exact iff_of_true (hp.mallocServes_of_le hinit hsmall) (.inl hsmall)

end UserHeap

/-- Both allocators serve a size below 2^32 - 11. From there on the count of blocks wraps, and they do so only where
they return nothing. -/
theorem allocations_serve_iff (size : BitVec 32) :
    (∀ h : Heap, h.KmallocServes size ↔
      size.toNat ≤ 0xFFFFFFF4 ∨ Refused h.memoryMap Heap.searchWords h.allocGetFreeBlockCount size) ∧
    ∀ h : UserHeap, h.initialized.Placed → (h.MallocServes size ↔
      size.toNat ≤ 0xFFFFFFF4 ∨
        Refused h.initialized.words UserHeap.searchWords h.initialized.allocGetFreeBlockCount size) :=
  ⟨fun _ => Heap.kmallocServes_iff, fun _ hp => UserHeap.mallocServes_iff hp⟩

/-- The allocator of a process that has not called it yet. -/
theorem allocations_serve_iff_start :
    (UserHeap.start (fun _ => 0#8) 0x500000#32).initialized.Placed ∧
      ((UserHeap.start (fun _ => 0#8) 0x500000#32).MallocServes 100#32 ↔
        (100#32).toNat ≤ 0xFFFFFFF4 ∨
          Refused (UserHeap.start (fun _ => 0#8) 0x500000#32).initialized.words UserHeap.searchWords
            (UserHeap.start (fun _ => 0#8) 0x500000#32).initialized.allocGetFreeBlockCount 100#32) := by
  have hplaced : (UserHeap.start (fun _ => 0#8) 0x500000#32).initialized.Placed :=
    (UserHeap.heapInit_ready (h := UserHeap.start (fun _ => 0#8) 0x500000#32) (by decide)).toPlaced
  exact ⟨hplaced, (allocations_serve_iff 100#32).2 _ hplaced⟩

/-- From the empty kernel heap `kmalloc` gives one block of 8 bytes for 2^32 - 3 bytes. -/
theorem not_allocations_serve :
    ¬ ∀ size : BitVec 32, (∀ h : Heap, h.KmallocServes size) ∧
      ∀ h : UserHeap, h.initialized.Placed → h.MallocServes size := by
  intro hserves
  have hserves := (hserves 0xFFFFFFFD#32).1 (Heap.empty fun _ => 0#8)
  have hne : ((Heap.empty fun _ => 0#8).kmalloc 0xFFFFFFFD#32).1 ≠ 0#32 := by
    rw [Ne, Heap.kmalloc_eq_zero_iff]
    intro hnull
    rcases hnull with hfree | hnone
    · exact absurd hfree (by decide)
    · obtain hfull | hempty := (firstClearRun_wrapped_iff (by decide)).mp hnone 0 (by decide)
      · exact absurd hfull (by decide)
      · exact absurd hempty.1 (by decide)
  have hroom := (hserves hne).room
  rw [Heap.kmalloc_recorded hne] at hroom
  exact absurd hroom (by decide)

end Akos
