import Akos.Lib.RunTable
import Akos.Memory.Heap

/-!
# The heap of a user process

`heap.c` and `malloc`, `free` of `stdlib.c` in `cstdlib`: the algorithm of the kernel heap on memory the process
asks for with `sbrk`. The bit map itself lies at the start of that memory, and the first call fetches it. The
break only goes up when a run of blocks ends behind all runs before it.
-/

namespace Akos

namespace ByteMemory

theorem outside_of_toNat {a b : BitVec 32} (ha : a.toNat + 4 ≤ 2 ^ 32)
    (h : b.toNat < a.toNat ∨ a.toNat + 4 ≤ b.toNat) : Outside a b := by
  have hne : ∀ k : BitVec 32, k.toNat < 4 → b ≠ a + k := by
    intro k hk heq
    have haddr : (a + k).toNat = a.toNat + k.toNat := by
      rw [BitVec.toNat_add]
      omega
    rw [← heq] at haddr
    omega
  have h0 := hne 0#32 (by decide)
  rw [BitVec.add_zero] at h0
  exact ⟨h0, hne 1#32 (by decide), hne 2#32 (by decide), hne 3#32 (by decide)⟩

theorem toNat_add_of_lt {a k : BitVec 32} (ha : a.toNat + 4 ≤ 2 ^ 32) (hk : k.toNat < 4) :
    (a + k).toNat = a.toNat + k.toNat := by
  rw [BitVec.toNat_add]
  omega

/-- A store beside a word leaves it. -/
theorem loadWord_storeWord_of_apart (mem : ByteMemory) {a b : BitVec 32} (value : BitVec 32)
    (ha : a.toNat + 4 ≤ 2 ^ 32) (hb : b.toNat + 4 ≤ 2 ^ 32)
    (h : b.toNat + 4 ≤ a.toNat ∨ a.toNat + 4 ≤ b.toNat) : (mem.storeWord a value).loadWord b = mem.loadWord b := by
  refine loadWord_congr fun k hk => storeWord_of_outside _ _ (outside_of_toNat ha ?_)
  rw [toNat_add_of_lt hb hk]
  omega

end ByteMemory

/-- The variables of the user's `heap.c`, with the memory of the process and its break. -/
structure UserHeap where
  memory : ByteMemory
  brk : BitVec 32
  usedBlocks : BitVec 32
  memoryMap : BitVec 32
  sbrkTop : BitVec 32
  heapBase : BitVec 32
  heapInitialized : Bool

namespace UserHeap

/-- `HEAP_LIM` -/
abbrev heapLim : BitVec 32 := 0x400000#32

/-- `HEAP_BLOCK_SIZE` -/
abbrev blockSize : BitVec 32 := 8#32

/-- `BLOCK_AMT_DESC_SIZE` -/
abbrev blockAmtDescSize : BitVec 32 := 4#32

/-- `_alloc_max_blocks` -/
abbrev maxBlocks : BitVec 32 := heapLim / blockSize

/-- The bytes of the bit map. -/
abbrev mapSize : BitVec 32 := maxBlocks / 8#32

def allocGetBlockCount : Int := maxBlocks.toInt

def allocGetFreeBlockCount (h : UserHeap) : Int := (maxBlocks - h.usedBlocks).toInt

/-- The address of a word of the bit map. -/
def wordAddress (h : UserHeap) (i : Nat) : BitVec 32 := h.memoryMap + BitVec.ofNat 32 (4 * i)

def allocMmapSet (h : UserHeap) (bit : Nat) : UserHeap :=
  let word := h.memory.loadWord (h.wordAddress (bit / 32))
  { h with memory := h.memory.storeWord (h.wordAddress (bit / 32)) (word ||| (1#32 <<< (bit % 32))) }

def allocMmapUnset (h : UserHeap) (bit : Nat) : UserHeap :=
  let word := h.memory.loadWord (h.wordAddress (bit / 32))
  { h with memory := h.memory.storeWord (h.wordAddress (bit / 32)) (word &&& ~~~(1#32 <<< (bit % 32))) }

/-- How many words the search looks at. -/
def searchWords : Nat := (BitVec.ofInt 32 (allocGetBlockCount.tdiv 32)).toNat

/-- The words of the bit map, as they lie in memory. -/
def words (h : UserHeap) : WordMap := fun i => if i < searchWords then h.memory.loadWord (h.wordAddress i) else 0#32

def allocMmapFirstFreeS (h : UserHeap) (seqLen : Int) : Option Nat := h.words.firstClearRun searchWords seqLen

/-- The system call: the old break, which goes up. -/
def sbrk (h : UserHeap) (inc : BitVec 32) : BitVec 32 × UserHeap := (h.brk, { h with brk := h.brk + inc })

def heapInit (h : UserHeap) : UserHeap :=
  let result := h.sbrk mapSize
  { result.2 with
    memoryMap := result.1
    memory := fun b => if b - result.1 < mapSize then 0#8 else h.memory b
    heapBase := result.1 + mapSize
    sbrkTop := result.1 + mapSize
    heapInitialized := true }

/-- `_alloc_mmap_set (frame++); _alloc_used_blocks++;` for a number of blocks. -/
def occupyRun (h : UserHeap) (block : Nat) : Nat → UserHeap
  | 0 => h
  | n + 1 => occupyRun { h.allocMmapSet block with usedBlocks := h.usedBlocks + 1#32 } (block + 1) n

/-- `_alloc_mmap_unset (frame++); _alloc_used_blocks--;` for a number of blocks. -/
def releaseRun (h : UserHeap) (block : Nat) : Nat → UserHeap
  | 0 => h
  | n + 1 => releaseRun { h.allocMmapUnset block with usedBlocks := h.usedBlocks - 1#32 } (block + 1) n

/-- The break goes up to the end of a run that ends behind it. -/
def growTo (h : UserHeap) (stop : BitVec 32) : UserHeap :=
  if h.sbrkTop < stop then
    let inc := stop - h.sbrkTop
    { (h.sbrk inc).2 with sbrkTop := h.sbrkTop + inc }
  else h

/-- The address of a block. -/
def blockAddress (h : UserHeap) (block : Nat) : BitVec 32 := h.heapBase + BitVec.ofNat 32 block * blockSize

def mallocAllocBlocks (h : UserHeap) (seqLen : Int) : BitVec 32 × UserHeap :=
  let h := if h.heapInitialized then h else h.heapInit
  if h.allocGetFreeBlockCount ≤ 0 then (0#32, h)
  else
    match h.allocMmapFirstFreeS seqLen with
    | none => (0#32, h)
    | some frame =>
      let addr := h.blockAddress frame
      (addr, (h.growTo (addr + BitVec.ofInt 32 seqLen * blockSize)).occupyRun frame seqLen.toNat)

/-- The block an address lies in. -/
def blockOf (h : UserHeap) (addr : BitVec 32) : Nat := ((addr - h.heapBase) / blockSize).toNat

def mallocFreeBlocks (h : UserHeap) (p : BitVec 32) (seqLen : Int) : UserHeap :=
  h.releaseRun (h.blockOf p) seqLen.toNat

/-- `malloc` rounds the size up as `kmalloc` does. -/
abbrev blockAmt (size : BitVec 32) : BitVec 32 := Heap.blockAmt size

def malloc (h : UserHeap) (size : BitVec 32) : BitVec 32 × UserHeap :=
  let result := h.mallocAllocBlocks (blockAmt size).toInt
  let addr := result.1
  let h := result.2
  if addr = 0#32 then (0#32, h)
  else (addr + blockAmtDescSize, { h with memory := h.memory.storeWord addr (blockAmt size) })

def free (h : UserHeap) (addr : BitVec 32) : UserHeap :=
  if addr ≠ 0#32 then
    let amount := h.memory.loadWord (addr - blockAmtDescSize)
    h.mallocFreeBlocks (addr - blockAmtDescSize) amount.toInt
  else h

/-- A process that has not called the allocator. -/
def start (memory : ByteMemory) (brk : BitVec 32) : UserHeap where
  memory := memory
  brk := brk
  usedBlocks := 0#32
  memoryMap := 0#32
  sbrkTop := 0#32
  heapBase := 0#32
  heapInitialized := false

/-! ### The bit map in memory -/

/-- The bit map lies in front of the blocks, and the last block ends in the address space. -/
structure Placed (h : UserHeap) : Prop where
  base : h.heapBase.toNat = h.memoryMap.toNat + 0x10000
  room : h.heapBase.toNat + 0x400000 < 2 ^ 32

section Placed

variable {h : UserHeap} {bit i : Nat}

theorem searchWords_eq : searchWords = 16384 := by decide

theorem Placed.toNat_wordAddress (hp : Placed h) (hi : i < 16384) :
    (h.wordAddress i).toNat = h.memoryMap.toNat + 4 * i ∧ (h.wordAddress i).toNat + 4 ≤ h.heapBase.toNat := by
  have hbase := hp.base
  have hroom := hp.room
  have haddr : (h.wordAddress i).toNat = h.memoryMap.toNat + 4 * i := by
    rw [wordAddress, BitVec.toNat_add, BitVec.toNat_ofNat]
    omega
  omega

/-- The words after a store into one of them. -/
theorem Placed.words_storeWord (hp : Placed h) (hi : i < 16384) (value : BitVec 32) :
    ({ h with memory := h.memory.storeWord (h.wordAddress i) value } : UserHeap).words
      = Function.update h.words i value := by
  have hroom := hp.room
  obtain ⟨haddr, hle⟩ := hp.toNat_wordAddress hi
  funext j
  show (if j < searchWords then (h.memory.storeWord (h.wordAddress i) value).loadWord (h.wordAddress j) else 0#32) = _
  by_cases heq : j = i
  · subst heq
    rw [Function.update_self, if_pos (by rwa [searchWords_eq]), ByteMemory.loadWord_storeWord]
  · rw [Function.update_of_ne heq, words]
    refine if_ctx_congr Iff.rfl (fun hj => ?_) fun _ => rfl
    rw [searchWords_eq] at hj
    obtain ⟨haddr', hle'⟩ := hp.toNat_wordAddress hj
    exact ByteMemory.loadWord_storeWord_of_apart _ _ (by omega) (by omega) (by omega)

theorem words_apply (h : UserHeap) (hi : i < 16384) : h.words i = h.memory.loadWord (h.wordAddress i) :=
  if_pos (by rwa [searchWords_eq])

theorem Placed.words_allocMmapSet (hp : Placed h) (hbit : bit < 524288) :
    (h.allocMmapSet bit).words = h.words.set bit := by
  have hi : bit / 32 < 16384 := by omega
  rw [allocMmapSet, hp.words_storeWord hi, ← words_apply h hi]
  rfl

theorem Placed.words_allocMmapUnset (hp : Placed h) (hbit : bit < 524288) :
    (h.allocMmapUnset bit).words = h.words.unset bit := by
  have hi : bit / 32 < 16384 := by omega
  rw [allocMmapUnset, hp.words_storeWord hi, ← words_apply h hi]
  rfl

/-- A store into the bit map leaves the words among the blocks. -/
theorem Placed.loadWord_map (hp : Placed h) (hi : i < 16384) (value : BitVec 32) {a : BitVec 32}
    (ha : h.heapBase.toNat ≤ a.toNat) (ha' : a.toNat + 4 ≤ 2 ^ 32) :
    (h.memory.storeWord (h.wordAddress i) value).loadWord a = h.memory.loadWord a := by
  have hroom := hp.room
  obtain ⟨-, hle⟩ := hp.toNat_wordAddress hi
  exact ByteMemory.loadWord_storeWord_of_apart _ _ (by omega) ha' (by omega)

/-- A store among the blocks leaves the bit map. -/
theorem Placed.words_block (hp : Placed h) (memory : ByteMemory)
    (hkept : ∀ b : BitVec 32, b.toNat < h.heapBase.toNat → memory b = h.memory b) :
    ({ h with memory } : UserHeap).words = h.words := by
  have hroom := hp.room
  funext i
  refine if_ctx_congr Iff.rfl (fun hi => ?_) fun _ => rfl
  rw [searchWords_eq] at hi
  obtain ⟨-, hle⟩ := hp.toNat_wordAddress hi
  refine ByteMemory.loadWord_congr fun k hk => hkept _ ?_
  show (h.wordAddress i + k).toNat < _
  rw [ByteMemory.toNat_add_of_lt (by omega) hk]
  omega

end Placed

/-! ### Calls -/

/-- Nothing but the bit map and the counter is different. -/
structure MapOnly (h h' : UserHeap) : Prop where
  brk : h'.brk = h.brk
  memoryMap : h'.memoryMap = h.memoryMap
  sbrkTop : h'.sbrkTop = h.sbrkTop
  heapBase : h'.heapBase = h.heapBase
  heapInitialized : h'.heapInitialized = h.heapInitialized
  loadWord : ∀ a : BitVec 32, h.heapBase.toNat ≤ a.toNat → a.toNat + 4 ≤ 2 ^ 32 →
    h'.memory.loadWord a = h.memory.loadWord a

section Calls

variable {h h' h'' : UserHeap} {block n : Nat}

theorem MapOnly.refl (h : UserHeap) : MapOnly h h := ⟨rfl, rfl, rfl, rfl, rfl, fun _ _ _ => rfl⟩

theorem MapOnly.trans (h₁ : MapOnly h h') (h₂ : MapOnly h' h'') : MapOnly h h'' where
  brk := h₂.brk.trans h₁.brk
  memoryMap := h₂.memoryMap.trans h₁.memoryMap
  sbrkTop := h₂.sbrkTop.trans h₁.sbrkTop
  heapBase := h₂.heapBase.trans h₁.heapBase
  heapInitialized := h₂.heapInitialized.trans h₁.heapInitialized
  loadWord a ha ha' := (h₂.loadWord a (h₁.heapBase.symm ▸ ha) ha').trans (h₁.loadWord a ha ha')

theorem MapOnly.placed (hm : MapOnly h h') (hp : Placed h) : Placed h' :=
  ⟨by rw [hm.heapBase, hm.memoryMap, hp.base], by rw [hm.heapBase]; exact hp.room⟩

theorem Placed.occupyRun (hp : Placed h) (hle : block + n ≤ 524288) :
    (h.occupyRun block n).words = h.words.setRun block n ∧
      (h.occupyRun block n).usedBlocks = h.usedBlocks + BitVec.ofNat 32 n ∧ MapOnly h (h.occupyRun block n) := by
  induction n generalizing h block with
  | zero => exact ⟨rfl, (BitVec.add_zero _).symm, MapOnly.refl h⟩
  | succ n ih =>
    have hmap : MapOnly h { h.allocMmapSet block with usedBlocks := h.usedBlocks + 1#32 } :=
      ⟨rfl, rfl, rfl, rfl, rfl, fun a ha ha' => hp.loadWord_map (by omega) _ ha ha'⟩
    obtain ⟨hwords, hused, hrest⟩ := ih (hmap.placed hp) (show block + 1 + n ≤ 524288 by omega)
    refine ⟨?_, ?_, hmap.trans hrest⟩
    · rw [UserHeap.occupyRun, hwords, WordMap.setRun, ← hp.words_allocMmapSet (by omega)]
      rfl
    · rw [UserHeap.occupyRun, hused]
      show h.usedBlocks + 1#32 + BitVec.ofNat 32 n = _
      rw [BitVec.add_assoc, ← BitVec.ofNat_add, Nat.add_comm]

theorem Placed.releaseRun (hp : Placed h) (hle : block + n ≤ 524288) :
    (h.releaseRun block n).words = h.words.unsetRun block n ∧
      (h.releaseRun block n).usedBlocks = h.usedBlocks - BitVec.ofNat 32 n ∧ MapOnly h (h.releaseRun block n) := by
  induction n generalizing h block with
  | zero => exact ⟨rfl, (BitVec.sub_zero _).symm, MapOnly.refl h⟩
  | succ n ih =>
    have hmap : MapOnly h { h.allocMmapUnset block with usedBlocks := h.usedBlocks - 1#32 } :=
      ⟨rfl, rfl, rfl, rfl, rfl, fun a ha ha' => hp.loadWord_map (by omega) _ ha ha'⟩
    obtain ⟨hwords, hused, hrest⟩ := ih (hmap.placed hp) (show block + 1 + n ≤ 524288 by omega)
    refine ⟨?_, ?_, hmap.trans hrest⟩
    · rw [UserHeap.releaseRun, hwords, WordMap.unsetRun, ← hp.words_allocMmapUnset (by omega)]
      rfl
    · rw [UserHeap.releaseRun, hused]
      show h.usedBlocks - 1#32 - BitVec.ofNat 32 n = _
      rw [BitVec.sub_sub, ← BitVec.ofNat_add, Nat.add_comm]

theorem Placed.toNat_blockAddress (hp : Placed h) (hblock : block < 524288) :
    (h.blockAddress block).toNat = h.heapBase.toNat + 8 * block := by
  have hroom := hp.room
  rw [blockAddress, BitVec.toNat_add, BitVec.toNat_mul, BitVec.toNat_ofNat, show blockSize.toNat = 8 from rfl]
  omega

theorem Placed.blockOf_blockAddress (hp : Placed h) (hblock : block < 524288) :
    h.blockOf (h.blockAddress block) = block := by
  have haddr := hp.toNat_blockAddress hblock
  rw [blockOf, BitVec.toNat_udiv, BitVec.toNat_sub_of_le (by rw [BitVec.le_def]; omega), haddr,
    show blockSize.toNat = 8 from rfl]
  omega

/-- What the search finds. -/
theorem allocMmapFirstFreeS_eq_some {want : Nat} (hwant : 0 < want)
    (hfind : h.allocMmapFirstFreeS want = some block) : block + want ≤ 524288 ∧ h.words.ClearRun block want := by
  have hrun := WordMap.firstClearRun_eq_some hwant hfind
  have hle := hrun.1
  rw [searchWords_eq] at hle
  exact ⟨by omega, hrun.2.1⟩

/-- The allocator is set up, and all memory it asked for was granted. -/
structure Ready (h : UserHeap) : Prop extends Placed h where
  heapInitialized : h.heapInitialized = true
  top : h.sbrkTop = h.brk

/-- The pointer `malloc` returns for a run of blocks. -/
def pointer (h : UserHeap) (block : Nat) : BitVec 32 := h.blockAddress block + blockAmtDescSize

theorem pointer_sub (h : UserHeap) (block : Nat) : h.pointer block - blockAmtDescSize = h.blockAddress block := by
  rw [pointer, BitVec.add_sub_cancel]

theorem Placed.toNat_pointer (hp : Placed h) (hblock : block < 524288) :
    (h.pointer block).toNat = h.heapBase.toNat + 8 * block + 4 := by
  have haddr := hp.toNat_blockAddress hblock
  have hroom := hp.room
  rw [pointer, BitVec.toNat_add, haddr, show blockAmtDescSize.toNat = 4 from rfl]
  omega

theorem Placed.pointer_injective (hp : Placed h) {other : Nat} (hblock : block < 524288) (hother : other < 524288)
    (heq : h.pointer block = h.pointer other) : block = other := by
  have haddr := hp.toNat_pointer hblock
  rw [heq, hp.toNat_pointer hother] at haddr
  omega

/-- What `growTo` leaves as it is, and where the break is afterwards. -/
theorem Ready.growTo (hr : Ready h) (stop : BitVec 32) :
    MapOnly { h with brk := (h.growTo stop).brk, sbrkTop := (h.growTo stop).brk } (h.growTo stop) ∧
      (h.growTo stop).words = h.words ∧ (h.growTo stop).usedBlocks = h.usedBlocks ∧
      (h.growTo stop).brk.toNat = max h.brk.toNat stop.toNat := by
  rw [UserHeap.growTo, hr.top]
  split
  · next hlt =>
    have hsum : h.brk + (stop - h.brk) = stop := by rw [BitVec.add_comm, BitVec.sub_add_cancel]
    refine ⟨⟨rfl, rfl, rfl, rfl, rfl, fun _ _ _ => rfl⟩, rfl, rfl, ?_⟩
    show (h.brk + (stop - h.brk)).toNat = _
    rw [hsum, Nat.max_eq_right (Nat.le_of_lt hlt)]
  · next hge =>
    exact ⟨⟨rfl, rfl, hr.top, rfl, rfl, fun _ _ _ => rfl⟩, rfl, rfl,
      (Nat.max_eq_left (Nat.le_of_not_lt hge)).symm⟩

/-- What a `malloc` that finds blocks leaves: the run is marked and has its length in front, the break is at the
end of the run or behind it, and the headers of other runs are as they were. -/
structure Allocates (h : UserHeap) (size : BitVec 32) (block : Nat) (h' : UserHeap) : Prop where
  fits : block + Heap.blocksFor size ≤ 524288
  clear : h.words.ClearRun block (Heap.blocksFor size)
  words : h'.words = h.words.setRun block (Heap.blocksFor size)
  used : h'.usedBlocks = h.usedBlocks + BitVec.ofNat 32 (Heap.blocksFor size)
  ready : Ready h'
  heapBase : h'.heapBase = h.heapBase
  brk : h'.brk.toNat = max h.brk.toNat (h.heapBase.toNat + 8 * (block + Heap.blocksFor size))
  header : h'.memory.loadWord (h.blockAddress block) = blockAmt size
  kept : ∀ other < 524288, other ≠ block →
    h'.memory.loadWord (h.blockAddress other) = h.memory.loadWord (h.blockAddress other)

theorem Ready.malloc_cases (hr : Ready h) {size : BitVec 32} (hsize : size.toNat ≤ 0xFFFFFFF4) :
    (∃ block h', h.malloc size = (h.pointer block, h') ∧ Allocates h size block h') ∨ h.malloc size = (0#32, h) := by
  have hpos := Heap.blocksFor_pos size
  have hroom := hr.room
  rw [malloc, Heap.toInt_blockAmt hsize, mallocAllocBlocks, if_pos hr.heapInitialized]
  dsimp only
  by_cases hfull : h.allocGetFreeBlockCount ≤ 0
  · rw [if_pos hfull]
    exact .inr (if_pos rfl)
  rw [if_neg hfull]
  cases hfind : h.allocMmapFirstFreeS (Heap.blocksFor size) with
  | none => exact .inr (if_pos rfl)
  | some block =>
    obtain ⟨hle, hclear⟩ := allocMmapFirstFreeS_eq_some hpos hfind
    have haddr := hr.toNat_blockAddress (show block < 524288 by omega)
    have hne : h.blockAddress block ≠ 0#32 := by
      intro hzero
      have hbase := hr.base
      rw [hzero, show (0#32).toNat = 0 from rfl] at haddr
      omega
    dsimp only
    rw [if_neg hne]
    refine .inl ⟨block, _, rfl, ?_⟩
    have hstop : (h.blockAddress block + BitVec.ofInt 32 (Heap.blocksFor size) * blockSize).toNat
        = h.heapBase.toNat + 8 * (block + Heap.blocksFor size) := by
      rw [BitVec.ofInt_natCast, BitVec.toNat_add, BitVec.toNat_mul, BitVec.toNat_ofNat, haddr,
        show blockSize.toNat = 8 from rfl]
      omega
    obtain ⟨hgrown, hwords, hused, hbrk⟩ :=
      hr.growTo (h.blockAddress block + BitVec.ofInt 32 (Heap.blocksFor size) * blockSize)
    rw [Int.toNat_natCast]
    generalize h.growTo _ = g at hgrown hwords hused hbrk ⊢
    obtain ⟨hwords', hused', hrun⟩ := (hgrown.placed ⟨hr.base, hr.room⟩).occupyRun hle
    have hmap := hgrown.trans hrun
    generalize g.occupyRun block (Heap.blocksFor size) = o at hwords' hused' hrun hmap ⊢
    have hbase : o.heapBase = h.heapBase := hmap.heapBase
    have hplaced : Placed o := hmap.placed ⟨hr.base, hr.room⟩
    refine ⟨hle, hclear, ?_, ?_, ⟨⟨hplaced.base, hplaced.room⟩, ?_, ?_⟩, hbase, ?_, ?_, ?_⟩
    · rw [hplaced.words_block _ fun b hb => ?_, hwords', hwords]
      exact ByteMemory.storeWord_of_outside _ _ (ByteMemory.outside_of_toNat (by omega) (.inl (by
        rw [haddr, ← hbase]
        omega)))
    · exact hused'.trans (by rw [hused])
    · exact hmap.heapInitialized.trans hr.heapInitialized
    · exact hmap.sbrkTop.trans hmap.brk.symm
    · rw [← hstop, ← hbrk]
      exact congrArg BitVec.toNat hmap.brk
    · exact ByteMemory.loadWord_storeWord _ _ _
    · intro other hother hdiff
      have haddr' := hr.toNat_blockAddress hother
      show (o.memory.storeWord (h.blockAddress block) (blockAmt size)).loadWord (h.blockAddress other) = _
      rw [ByteMemory.loadWord_storeWord_of_apart _ _ (by omega) (by omega) (by omega)]
      exact hmap.loadWord _ (by show h.heapBase.toNat ≤ _; omega) (by omega)

/-- The first call of `malloc` sets the allocator up. -/
theorem malloc_of_not_initialized (hinit : h.heapInitialized = false) (size : BitVec 32) :
    h.malloc size = h.heapInit.malloc size := by
  have hblocks : ∀ seqLen, h.mallocAllocBlocks seqLen = h.heapInit.mallocAllocBlocks seqLen := by
    intro seqLen
    have hset : h.heapInit.heapInitialized = true := rfl
    rw [mallocAllocBlocks, mallocAllocBlocks, hinit, if_neg Bool.false_ne_true, if_pos hset]
  rw [malloc, malloc, hblocks]

theorem heapInit_ready (hbrk : h.brk.toNat + 0x10000 + 0x400000 < 2 ^ 32) : Ready h.heapInit := by
  have hsize : mapSize.toNat = 0x10000 := by decide
  have hmap : h.heapInit.memoryMap = h.brk := rfl
  have hbase : h.heapInit.heapBase.toNat = h.heapInit.memoryMap.toNat + 0x10000 := by
    have hsum : h.heapInit.heapBase = h.brk + mapSize := rfl
    rw [hsum, hmap, BitVec.toNat_add, hsize]
    omega
  refine ⟨⟨hbase, ?_⟩, rfl, rfl⟩
  rw [hbase, hmap]
  exact hbrk

theorem heapInit_usedBlocks (h : UserHeap) : h.heapInit.usedBlocks = h.usedBlocks := by
  cases h
  rfl

/-- The bit map comes cleared. -/
theorem heapInit_words (hbrk : h.brk.toNat + 0x10000 + 0x400000 < 2 ^ 32) (block : Nat) :
    h.heapInit.words.test block = false := by
  have hready := heapInit_ready hbrk
  have hzero : ∀ i, h.heapInit.words i = 0#32 := by
    intro i
    rw [words]
    split
    · next hi =>
      rw [searchWords_eq] at hi
      obtain ⟨haddr, hle⟩ := hready.toNat_wordAddress hi
      have hbase := hready.base
      have hroom := hready.room
      have hbyte : ∀ k : BitVec 32, k.toNat < 4 → h.heapInit.memory (h.heapInit.wordAddress i + k) = 0#8 := by
        intro k hk
        refine if_pos ?_
        have hbyteAddr := ByteMemory.toNat_add_of_lt (a := h.heapInit.wordAddress i) (by omega) hk
        have hmap : h.heapInit.memoryMap = h.brk := rfl
        rw [hmap] at haddr
        rw [BitVec.lt_def, BitVec.toNat_sub_of_le (by
          rw [BitVec.le_def, hbyteAddr]
          show h.brk.toNat ≤ _
          omega), hbyteAddr]
        show _ - h.brk.toNat < 0x10000
        omega
      have hbyte0 := hbyte 0#32 (by decide)
      rw [BitVec.add_zero] at hbyte0
      rw [ByteMemory.loadWord, hbyte0, hbyte 1#32 (by decide), hbyte 2#32 (by decide), hbyte 3#32 (by decide)]
      rfl
    · rfl
  rw [WordMap.test, hzero]
  exact BitVec.getLsbD_zero

/-- `free` reads the number of blocks where `malloc` wrote it. -/
theorem Ready.free_pointer (hr : Ready h) {size : BitVec 32} (hsize : size.toNat ≤ 0xFFFFFFF4) (hblock : block < 524288)
    (hheader : h.memory.loadWord (h.blockAddress block) = blockAmt size) :
    h.free (h.pointer block) = h.releaseRun block (Heap.blocksFor size) := by
  have hne : h.pointer block ≠ 0#32 := by
    intro hzero
    have haddr := hr.toNat_pointer hblock
    rw [hzero, show (0#32).toNat = 0 from rfl] at haddr
    omega
  rw [free, if_pos hne, h.pointer_sub block, hheader]
  dsimp only
  rw [mallocFreeBlocks, Heap.toInt_blockAmt hsize, hr.blockOf_blockAddress hblock, Int.toNat_natCast]

end Calls

end UserHeap

/-! ### Both searches -/

/-- `_alloc_mmap_first_free_s`, that of the kernel and that of a process, finds the least run of clear bits. -/
theorem allocMmapFirstFreeS_findsLeast (seqLen : Int) (hpos : 1 ≤ seqLen) :
    (∀ h : Heap, h.memoryMap.FindsLeast seqLen.toNat (32 * Heap.searchWords) (h.allocMmapFirstFreeS seqLen)) ∧
    ∀ h : UserHeap, h.words.FindsLeast seqLen.toNat (32 * UserHeap.searchWords) (h.allocMmapFirstFreeS seqLen) := by
  have hwant : 0 < seqLen.toNat := by omega
  have hcast : (seqLen.toNat : Int) = seqLen := Int.toNat_of_nonneg (by omega)
  constructor
  · intro h
    have hfinds := h.memoryMap.firstClearRun_findsLeast Heap.searchWords hwant
    rwa [hcast] at hfinds
  · intro h
    have hfinds := h.words.firstClearRun_findsLeast UserHeap.searchWords hwant
    rwa [hcast] at hfinds

/-- A run of three behind a block in use, over the border of two words. -/
def borderMap : WordMap := fun i => if i = 0 then 0x3FFFFFFF#32 else 0#32

theorem allocMmapFirstFreeS_findsLeast_border :
    borderMap.FindsLeast 3 (32 * Heap.searchWords) (Heap.allocMmapFirstFreeS ⟨0#32, borderMap, fun _ => 0#8⟩ 3) :=
  (allocMmapFirstFreeS_findsLeast 3 (by decide)).1 ⟨0#32, borderMap, fun _ => 0#8⟩

end Akos
