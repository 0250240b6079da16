import Akos.Cstdlib.AllocationSizes

/-!
# The heap as blocks with contents

Over the heap in memory stands a view in which an allocation is its pointer, the size asked for and bytes of its own.
The header in front of the pointer is among them, at the offset −4. What a process stores within an allocation, its
header included, is seen in that allocation only; a new one comes with zeros; and `free` takes back an allocation
whose header still has its number of blocks.
-/

namespace Akos

namespace ByteMemory

/-- A store, seen from an address in front of it. -/
theorem storeWord_add (mem : ByteMemory) (p a value o : BitVec 32) :
    mem.storeWord (p + a) value (p + o) = storeWord (fun o => mem (p + o)) a value o := by
  unfold storeWord
  simp only [BitVec.add_assoc, BitVec.add_right_inj]

theorem loadWord_add (mem : ByteMemory) (p o : BitVec 32) :
    mem.loadWord (p + o) = loadWord (fun o => mem (p + o)) o := by
  rw [loadWord, loadWord]
  simp only [BitVec.add_assoc]

end ByteMemory

/-- The live allocations with their sizes, and the bytes at each offset from a pointer. -/
structure Blocks where
  live : BitVec 32 → Option (BitVec 32)
  cell : BitVec 32 → ByteMemory

namespace Blocks

/-- Where the header is. -/
abbrev header : BitVec 32 := -4#32

def word (b : Blocks) (p o : BitVec 32) : BitVec 32 := (b.cell p).loadWord o

def setWord (b : Blocks) (p o value : BitVec 32) : Blocks :=
  { b with cell := Function.update b.cell p ((b.cell p).storeWord o value) }

def setByte (b : Blocks) (p o : BitVec 32) (c : BitVec 8) : Blocks :=
  { b with cell := Function.update b.cell p (Function.update (b.cell p) o c) }

/-- A new allocation, with its header and zeros. -/
def take (b : Blocks) (p size : BitVec 32) : Blocks where
  live := Function.update b.live p (some size)
  cell := Function.update b.cell p (ByteMemory.storeWord (fun _ => 0#8) header (Heap.blockAmt size))

def release (b : Blocks) (p : BitVec 32) : Blocks := { b with live := Function.update b.live p none }

/-- The offset lies in an allocation of this size or in its header. -/
def InBlock (size o : BitVec 32) : Prop := (o + 4#32).toNat < size.toNat + 4

/-- Four bytes do. -/
def InBlockWord (size o : BitVec 32) : Prop := (o + 4#32).toNat + 4 ≤ size.toNat + 4

instance (size o : BitVec 32) : Decidable (InBlock size o) := inferInstanceAs (Decidable (_ < _))

instance (size o : BitVec 32) : Decidable (InBlockWord size o) := inferInstanceAs (Decidable (_ ≤ _))

theorem InBlockWord.byte {size o k : BitVec 32} (h : InBlockWord size o) (hsize : size.toNat + 4 < 2 ^ 32)
    (hk : k.toNat < 4) : InBlock size (o + k) := by
  have hsum : (o + k + 4#32).toNat = (o + 4#32).toNat + k.toNat := by
    rw [BitVec.add_assoc, BitVec.add_comm k, ← BitVec.add_assoc, BitVec.toNat_add]
    rw [InBlockWord] at h
    omega
  rw [InBlockWord] at h
  rw [InBlock, hsum]
  omega

/-- An offset behind the pointer. -/
theorem inBlock_of_lt {size o : BitVec 32} (hsize : size.toNat + 4 < 2 ^ 32) (ho : o.toNat < size.toNat) :
    InBlock size o := by
  rw [InBlock, BitVec.toNat_add, show (4#32).toNat = 4 from rfl]
  omega

theorem inBlockWord_of_le {size o : BitVec 32} (hsize : size.toNat + 4 < 2 ^ 32) (ho : o.toNat + 4 ≤ size.toNat) :
    InBlockWord size o := by
  rw [InBlockWord, BitVec.toNat_add, show (4#32).toNat = 4 from rfl]
  omega

/-- An offset in the header. -/
theorem header_cases {size o : BitVec 32} (h : InBlock size o) (hsize : size.toNat + 4 < 2 ^ 32)
    (ho : ¬ o < size) : o = header ∨ o = header + 1#32 ∨ o = header + 2#32 ∨ o = header + 3#32 := by
  rw [InBlock, BitVec.toNat_add] at h
  rw [BitVec.lt_def] at ho
  have hmod : (4#32).toNat = 4 := rfl
  have heq : ∀ x : BitVec 32, o.toNat = x.toNat → o = x := fun _ => BitVec.eq_of_toNat_eq
  have h0 : header.toNat = 4294967292 := rfl
  have h1 : (header + 1#32).toNat = 4294967293 := rfl
  have h2 : (header + 2#32).toNat = 4294967294 := rfl
  have h3 : (header + 3#32).toNat = 4294967295 := rfl
  have hlt := o.isLt
  have hcases : o.toNat = 4294967292 ∨ o.toNat = 4294967293 ∨ o.toNat = 4294967294 ∨ o.toNat = 4294967295 := by omega
  obtain hc | hc | hc | hc := hcases
  · exact .inl (heq _ (hc.trans h0.symm))
  · exact .inr (.inl (heq _ (hc.trans h1.symm)))
  · exact .inr (.inr (.inl (heq _ (hc.trans h2.symm))))
  · exact .inr (.inr (.inr (heq _ (hc.trans h3.symm))))

theorem live_take {b : Blocks} {p q size size' : BitVec 32} : (b.take p size).live q = some size' ↔
    (q = p ∧ size = size') ∨ (q ≠ p ∧ b.live q = some size') := by
  show Function.update b.live p (some size) q = some size' ↔ _
  rw [Function.update_apply]
  split
  · next heq => simp [heq]
  · next hne => simp [hne]

theorem cell_take_self (b : Blocks) (p size : BitVec 32) :
    (b.take p size).cell p = ByteMemory.storeWord (fun _ => 0#8) header (Heap.blockAmt size) :=
  Function.update_self _ _ _

theorem cell_take_of_ne (b : Blocks) {p q : BitVec 32} (hne : q ≠ p) (size : BitVec 32) :
    (b.take p size).cell q = b.cell q := Function.update_of_ne hne _ _

theorem live_release {b : Blocks} {p q size : BitVec 32} :
    (b.release p).live q = some size ↔ q ≠ p ∧ b.live q = some size := by
  show Function.update b.live p none q = some size ↔ _
  rw [Function.update_apply]
  split
  · next heq => simp [heq]
  · next hne => simp [hne]

/-! ### Words and bytes after a store -/

section Stores

variable {p q i : BitVec 32}

theorem toNat_header : header.toNat = 4294967292 := rfl

theorem cell_setWord_self (b : Blocks) (p o value : BitVec 32) :
    (b.setWord p o value).cell p = (b.cell p).storeWord o value := Function.update_self _ _ _

theorem cell_setWord_of_ne (b : Blocks) (hne : q ≠ p) (o value : BitVec 32) : (b.setWord p o value).cell q = b.cell q :=
  Function.update_of_ne hne _ _

theorem cell_setByte_self (b : Blocks) (p i : BitVec 32) (c : BitVec 8) :
    (b.setByte p i c).cell p = Function.update (b.cell p) i c := Function.update_self _ _ _

theorem cell_setByte_of_ne (b : Blocks) (hne : q ≠ p) (i : BitVec 32) (c : BitVec 8) :
    (b.setByte p i c).cell q = b.cell q := Function.update_of_ne hne _ _

theorem word_setWord_self (b : Blocks) (p o value : BitVec 32) : (b.setWord p o value).word p o = value := by
  rw [word, cell_setWord_self, ByteMemory.loadWord_storeWord]

theorem word_setWord_of_apart (b : Blocks) (p : BitVec 32) {o o' : BitVec 32} (value : BitVec 32)
    (ho : o.toNat + 4 ≤ 2 ^ 32) (ho' : o'.toNat + 4 ≤ 2 ^ 32)
    (hapart : o'.toNat + 4 ≤ o.toNat ∨ o.toNat + 4 ≤ o'.toNat) : (b.setWord p o value).word q o' = b.word q o' := by
  by_cases hqp : q = p
  · subst hqp
    rw [word, cell_setWord_self, ByteMemory.loadWord_storeWord_of_apart _ _ ho ho' hapart, word]
  · rw [word, cell_setWord_of_ne b hqp, word]

/-- A byte beside a word leaves it. -/
theorem word_setByte_of_apart (b : Blocks) (p : BitVec 32) (c : BitVec 8) {o : BitVec 32} (ho : o.toNat + 4 ≤ 2 ^ 32)
    (hapart : i.toNat < o.toNat ∨ o.toNat + 4 ≤ i.toNat) : (b.setByte p i c).word q o = b.word q o := by
  by_cases hqp : q = p
  · subst hqp
    rw [word, cell_setByte_self, word]
    refine ByteMemory.loadWord_congr fun k hk => Function.update_of_ne (fun heq => ?_) _ _
    have haddr := ByteMemory.toNat_add_of_lt ho hk
    rw [heq] at haddr
    omega
  · rw [word, cell_setByte_of_ne b hqp, word]

theorem header_take_self (b : Blocks) (p size : BitVec 32) :
    (b.take p size).word p header = Heap.blockAmt size := by
  rw [word, cell_take_self, ByteMemory.loadWord_storeWord]

theorem word_take_of_ne (b : Blocks) (hne : q ≠ p) (size o : BitVec 32) : (b.take p size).word q o = b.word q o := by
  rw [word, cell_take_of_ne b hne, word]

end Stores

end Blocks

namespace UserHeap

open Blocks

def word (h : UserHeap) (p o : BitVec 32) : BitVec 32 := h.memory.loadWord (p + o)

def setWord (h : UserHeap) (p o value : BitVec 32) : UserHeap :=
  { h with memory := h.memory.storeWord (p + o) value }

def byte (h : UserHeap) (p o : BitVec 32) : BitVec 8 := h.memory (p + o)

def setByte (h : UserHeap) (p o : BitVec 32) (c : BitVec 8) : UserHeap :=
  { h with memory := Function.update h.memory (p + o) c }

/-- `calloc`. Without memory its `memset` writes through the null pointer, and the process ends there. -/
def calloc (h : UserHeap) (size : BitVec 32) : Option (BitVec 32 × UserHeap) :=
  let result := h.malloc size
  if result.1 = 0#32 then none
  else some (result.1, { result.2 with
    memory := fun a => if a - result.1 < size then 0#8 else result.2.memory a })

/-- The first block of an allocation. -/
def firstOf (h : UserHeap) (p : BitVec 32) : Nat := h.blockOf (p - blockAmtDescSize)

/-- The blocks are in use, as the bit map has it. -/
def Used (h : UserHeap) (p size : BitVec 32) : Prop :=
  ∀ block, h.firstOf p ≤ block → block < h.firstOf p + Heap.blocksFor size → h.words.test block = true

/-- The heap holds the allocations in separate runs of blocks that are in use, with their bytes. Other blocks may be
in use, too. -/
structure Holds (h : UserHeap) (b : Blocks) : Prop where
  ready : Ready h
  placed : ∀ p size, b.live p = some size →
    p = h.pointer (h.firstOf p) ∧ h.firstOf p + Heap.blocksFor size ≤ 524288
  used : ∀ p size, b.live p = some size → h.Used p size
  apart : ∀ p q size size', b.live p = some size → b.live q = some size' → p ≠ q →
    h.firstOf p + Heap.blocksFor size ≤ h.firstOf q ∨ h.firstOf q + Heap.blocksFor size' ≤ h.firstOf p
  cells : ∀ p size, b.live p = some size → ∀ o, InBlock size o → h.byte p o = b.cell p o

section Memory

variable {h : UserHeap} {block n : Nat} {a : BitVec 32}

/-- The bit map in memory lies in front of the blocks. -/
theorem Placed.storeWord_map (hp : Placed h) {i : Nat} (hi : i < 16384) (value : BitVec 32)
    (ha : h.heapBase.toNat ≤ a.toNat) : h.memory.storeWord (h.wordAddress i) value a = h.memory a := by
  have hroom := hp.room
  obtain ⟨-, hle⟩ := hp.toNat_wordAddress hi
  exact ByteMemory.storeWord_of_outside _ _ (ByteMemory.outside_of_toNat (by omega) (.inr (by omega)))

theorem Placed.memory_occupyRun (hp : Placed h) (hle : block + n ≤ 524288) (ha : h.heapBase.toNat ≤ a.toNat) :
    (h.occupyRun block n).memory a = h.memory a := by
  induction n generalizing h block with
  | zero => rfl
  | succ n ih =>
    have hrest := ih (h := { h.allocMmapSet block with usedBlocks := h.usedBlocks + 1#32 }) ⟨hp.base, hp.room⟩
      (show block + 1 + n ≤ 524288 by omega) ha
    exact hrest.trans (hp.storeWord_map (by omega) _ ha)

theorem Placed.memory_releaseRun (hp : Placed h) (hle : block + n ≤ 524288) (ha : h.heapBase.toNat ≤ a.toNat) :
    (h.releaseRun block n).memory a = h.memory a := by
  induction n generalizing h block with
  | zero => rfl
  | succ n ih =>
    have hrest := ih (h := { h.allocMmapUnset block with usedBlocks := h.usedBlocks - 1#32 }) ⟨hp.base, hp.room⟩
      (show block + 1 + n ≤ 524288 by omega) ha
    exact hrest.trans (hp.storeWord_map (by omega) _ ha)

theorem memory_growTo (h : UserHeap) (stop : BitVec 32) : (h.growTo stop).memory = h.memory := by
  rw [growTo]
  split
  · rfl
  · rfl

/-- Among the blocks `malloc` writes the header only. -/
theorem Ready.memory_malloc (hr : Ready h) {size p : BitVec 32} {h' : UserHeap} (hsize : size.toNat ≤ 0xFFFFFFF4)
    (heq : h.malloc size = (p, h')) (hne : p ≠ 0#32) : ∃ memory : ByteMemory,
      h'.memory = memory.storeWord (p + header) (Heap.blockAmt size) ∧
      ∀ a : BitVec 32, h.heapBase.toNat ≤ a.toNat → memory a = h.memory a := by
  obtain ⟨-, hnull⟩ | ⟨block, -, hfind, -, hmalloc⟩ := hr.toPlaced.malloc_cases hr.heapInitialized size
  · exact absurd ((congrArg Prod.fst heq).symm.trans hnull) hne
  rw [Heap.toInt_blockAmt hsize] at hfind
  obtain ⟨hfits, -⟩ := allocMmapFirstFreeS_eq_some (Heap.blocksFor_pos size) hfind
  obtain ⟨rfl, rfl⟩ := Prod.mk.inj (heq.symm.trans hmalloc)
  refine ⟨(h.taken size block).memory, ?_, fun a ha => ?_⟩
  · have haddr : h.pointer block + header = h.blockAddress block := by
      rw [← h.pointer_sub block, BitVec.sub_eq_add_neg]
    rw [haddr]
  · rw [taken, Heap.toInt_blockAmt hsize, Int.toNat_natCast]
    obtain ⟨-, hbase, hmap⟩ := h.growTo_mapOnly
      (h.blockAddress block + BitVec.ofInt 32 (Heap.blocksFor size) * blockSize)
    have hplaced : Placed (h.growTo (h.blockAddress block + BitVec.ofInt 32 (Heap.blocksFor size) * blockSize)) :=
      ⟨by rw [hbase, hmap, hr.base], by rw [hbase]; exact hr.room⟩
    rw [hplaced.memory_occupyRun hfits (hbase.symm ▸ ha), memory_growTo]

end Memory

/-! ### What keeps the view -/

namespace Holds

/-- A heap that is set up, and no allocation. -/
theorem empty {h : UserHeap} (hr : Ready h) (cell : BitVec 32 → ByteMemory) : Holds h ⟨fun _ => none, cell⟩ :=
  ⟨hr, (fun _ _ hp => by cases hp), (fun _ _ hp => by cases hp), (fun _ _ _ _ hp => by cases hp),
    fun _ _ hp => by cases hp⟩

variable {h : UserHeap} {b : Blocks} {p q size size' o o' : BitVec 32}

theorem size_lt (hh : Holds h b) (hp : b.live p = some size) : size.toNat + 4 < 2 ^ 32 := by
  have hfits := (hh.placed p size hp).2
  rw [Heap.blocksFor] at hfits
  omega

/-- Where a byte of an allocation is. -/
theorem toNat_add (hh : Holds h b) (hp : b.live p = some size) (ho : InBlock size o) :
    (p + o).toNat = h.heapBase.toNat + 8 * h.firstOf p + (o + 4#32).toNat ∧
      (o + 4#32).toNat < 8 * Heap.blocksFor size := by
  obtain ⟨heq, hfits⟩ := hh.placed p size hp
  have hpos := Heap.blocksFor_pos size
  have haddr := hh.ready.toNat_blockAddress (show h.firstOf p < 524288 by omega)
  have hroom := hh.ready.room
  have hsum : p + o = h.blockAddress (h.firstOf p) + (o + 4#32) := by
    conv_lhs => rw [heq]
    rw [pointer, BitVec.add_assoc, BitVec.add_comm o]
  rw [InBlock] at ho
  have hlt : (o + 4#32).toNat < 8 * Heap.blocksFor size := by
    rw [Heap.blocksFor]
    omega
  refine ⟨?_, hlt⟩
  rw [hsum, BitVec.toNat_add, haddr]
  omega

theorem ne_zero (hh : Holds h b) (hp : b.live p = some size) : p ≠ 0#32 := by
  intro hzero
  obtain ⟨heq, hfits⟩ := hh.placed p size hp
  have hpos := Heap.blocksFor_pos size
  have haddr := hh.ready.toNat_pointer (show h.firstOf p < 524288 by omega)
  rw [← heq, hzero, show (0#32).toNat = 0 from rfl] at haddr
  omega

/-- Two allocations have no byte in common. -/
theorem add_ne_add (hh : Holds h b) (hp : b.live p = some size) (hq : b.live q = some size') (hne : p ≠ q)
    (ho : InBlock size o) (ho' : InBlock size' o') : p + o ≠ q + o' := by
  intro heq
  obtain ⟨hpo, hlt⟩ := hh.toNat_add hp ho
  obtain ⟨hqo, hlt'⟩ := hh.toNat_add hq ho'
  rw [heq, hqo] at hpo
  have hapart := hh.apart p q size size' hp hq hne
  omega

theorem byte_eq (hh : Holds h b) (hp : b.live p = some size) (ho : InBlock size o) : h.byte p o = b.cell p o :=
  hh.cells p size hp o ho

theorem word_eq (hh : Holds h b) (hp : b.live p = some size) (ho : InBlockWord size o) : h.word p o = b.word p o := by
  rw [UserHeap.word, Blocks.word, ByteMemory.loadWord_add]
  exact ByteMemory.loadWord_congr fun k hk => hh.byte_eq hp (ho.byte (hh.size_lt hp) hk)

/-- The memory among the blocks changes. -/
theorem of_cells (hh : Holds h b) {memory : ByteMemory} {cell : BitVec 32 → ByteMemory}
    (hmap : ∀ a : BitVec 32, a.toNat < h.heapBase.toNat → memory a = h.memory a)
    (hcells : ∀ p size, b.live p = some size → ∀ o, InBlock size o → memory (p + o) = cell p o) :
    Holds { h with memory } { b with cell } where
  ready := ⟨⟨hh.ready.base, hh.ready.room⟩, hh.ready.heapInitialized, hh.ready.top⟩
  placed := hh.placed
  used p size hp block hlo hhi := by
    rw [hh.ready.words_block memory hmap]
    exact hh.used p size hp block hlo hhi
  apart := hh.apart
  cells := hcells

theorem setByte (hh : Holds h b) (hp : b.live p = some size) (ho : InBlock size o) (c : BitVec 8) :
    Holds (h.setByte p o c) (b.setByte p o c) := by
  have haddr := (hh.toNat_add hp ho).1
  refine hh.of_cells (fun a ha => Function.update_of_ne (fun heq => ?_) _ _) fun q size' hq o' ho' => ?_
  · rw [heq] at ha
    omega
  · by_cases hqp : q = p
    · subst hqp
      rw [Function.update_self, Function.update_apply, Function.update_apply]
      exact if_congr (BitVec.add_right_inj q) rfl (hh.byte_eq hq ho')
    · rw [Function.update_of_ne hqp, Function.update_of_ne (hh.add_ne_add hq hp hqp ho' ho)]
      exact hh.byte_eq hq ho'

theorem setWord (hh : Holds h b) (hp : b.live p = some size) (ho : InBlockWord size o) (value : BitVec 32) :
    Holds (h.setWord p o value) (b.setWord p o value) := by
  have hbytes : ∀ k : BitVec 32, k.toNat < 4 → InBlock size (o + k) := fun k hk => ho.byte (hh.size_lt hp) hk
  have hfirst : InBlock size o := by
    have hzero := hbytes 0#32 (by decide)
    rwa [BitVec.add_zero] at hzero
  refine hh.of_cells (fun a ha => ByteMemory.storeWord_of_outside _ _ ?_) fun q size' hq o' ho' => ?_
  · have hne : ∀ k : BitVec 32, k.toNat < 4 → a ≠ p + o + k := by
      intro k hk heq
      rw [BitVec.add_assoc] at heq
      have haddr := (hh.toNat_add hp (hbytes k hk)).1
      rw [heq] at ha
      omega
    have hzero := hne 0#32 (by decide)
    rw [BitVec.add_zero] at hzero
    exact ⟨hzero, hne 1#32 (by decide), hne 2#32 (by decide), hne 3#32 (by decide)⟩
  · by_cases hqp : q = p
    · subst hqp
      rw [Function.update_self, ByteMemory.storeWord_add, ByteMemory.storeWord, ByteMemory.storeWord]
      exact if_congr Iff.rfl rfl (if_congr Iff.rfl rfl (if_congr Iff.rfl rfl (if_congr Iff.rfl rfl
        (hh.byte_eq hq ho'))))
    · rw [Function.update_of_ne hqp]
      refine (ByteMemory.storeWord_of_outside _ _ ?_).trans (hh.byte_eq hq ho')
      have hne : ∀ k : BitVec 32, k.toNat < 4 → q + o' ≠ p + o + k := by
        intro k hk
        rw [BitVec.add_assoc]
        exact hh.add_ne_add hq hp hqp ho' (hbytes k hk)
      have hzero := hne 0#32 (by decide)
      rw [BitVec.add_zero] at hzero
      exact ⟨hzero, hne 1#32 (by decide), hne 2#32 (by decide), hne 3#32 (by decide)⟩

/-- The bytes of a new allocation. -/
theorem byte_calloc {memory : ByteMemory} (hsize : size.toNat + 4 < 2 ^ 32) (ho : InBlock size o) :
    (if p + o - p < size then 0#8 else memory.storeWord (p + header) (Heap.blockAmt size) (p + o)) =
      ByteMemory.storeWord (fun _ => 0#8) header (Heap.blockAmt size) o := by
  rw [BitVec.add_comm p o, BitVec.add_sub_cancel, BitVec.add_comm o p, ByteMemory.storeWord_add]
  by_cases hlt : o < size
  · rw [if_pos hlt]
    refine (ByteMemory.storeWord_of_outside (fun _ => 0#8) (Heap.blockAmt size) ?_).symm
    rw [BitVec.lt_def] at hlt
    exact ByteMemory.outside_of_toNat (by decide) (.inl (by rw [show header.toNat = 4294967292 from rfl]; omega))
  · rw [if_neg hlt, ByteMemory.storeWord, ByteMemory.storeWord]
    obtain rfl | rfl | rfl | rfl := header_cases ho hsize hlt
    · rw [if_pos rfl, if_pos rfl]
    · rw [if_neg (by decide), if_pos rfl, if_neg (by decide), if_pos rfl]
    · rw [if_neg (by decide), if_neg (by decide), if_pos rfl, if_neg (by decide), if_neg (by decide), if_pos rfl]
    · rw [if_neg (by decide), if_neg (by decide), if_neg (by decide), if_pos rfl, if_neg (by decide),
        if_neg (by decide), if_neg (by decide), if_pos rfl]

theorem firstOf_congr {h h' : UserHeap} (hbase : h'.heapBase = h.heapBase) (p : BitVec 32) :
    h'.firstOf p = h.firstOf p := by
  rw [firstOf, firstOf, blockOf, blockOf, hbase]

theorem firstOf_pointer {h : UserHeap} (hr : Placed h) {block : Nat} (hblock : block < 524288) :
    h.firstOf (h.pointer block) = block := by
  rw [firstOf, pointer_sub, hr.blockOf_blockAddress hblock]

/-- Blocks that are free are no allocation's. -/
theorem apart_of_clear (hh : Holds h b) (hq : b.live q = some size') {block n : Nat} (hn : 0 < n)
    (hclear : h.words.ClearRun block n) :
    h.firstOf q + Heap.blocksFor size' ≤ block ∨ block + n ≤ h.firstOf q := by
  by_contra hnot
  have hpos := Heap.blocksFor_pos size'
  have hused := hh.used q size' hq (max (h.firstOf q) block) (by omega) (by omega)
  rw [hclear (max (h.firstOf q) block) (by omega) (by omega)] at hused
  cases hused

/-- A new allocation leaves the bytes of the others. -/
theorem byte_kept (hh : Holds h b) (hq : b.live q = some size') (ho : InBlock size' o) {block : Nat}
    (hfits : block + Heap.blocksFor size ≤ 524288) (hclear : h.words.ClearRun block (Heap.blocksFor size))
    {memory : ByteMemory} (hkept : ∀ a : BitVec 32, h.heapBase.toNat ≤ a.toNat → memory a = h.memory a) :
    (if q + o - h.pointer block < size then 0#8
      else memory.storeWord (h.pointer block + header) (Heap.blockAmt size) (q + o)) = h.byte q o := by
  have hpos := Heap.blocksFor_pos size
  have hroom := hh.ready.room
  obtain ⟨hqo, hlt⟩ := hh.toNat_add hq ho
  have hfitsq := (hh.placed q size' hq).2
  have haddr := hh.ready.toNat_pointer (show block < 524288 by omega)
  have hblock := hh.ready.toNat_blockAddress (show block < 524288 by omega)
  have hapart := hh.apart_of_clear hq hpos hclear
  have hsize : size.toNat + 4 ≤ 8 * Heap.blocksFor size := by
    rw [Heap.blocksFor]
    omega
  have hbehind : ¬ q + o - h.pointer block < size := by
    rw [BitVec.lt_def, BitVec.toNat_sub]
    omega
  have hheader : h.pointer block + header = h.blockAddress block := by
    rw [← h.pointer_sub block, BitVec.sub_eq_add_neg]
  rw [if_neg hbehind, hheader,
    ByteMemory.storeWord_of_outside _ _ (ByteMemory.outside_of_toNat (by omega) (by omega))]
  exact hkept _ (by omega)

/-- A new allocation is in blocks that were free. -/
theorem calloc (hh : Holds h b) (hsize : size.toNat ≤ 0xFFFFFFF4) {new : BitVec 32 × UserHeap}
    (heq : h.calloc size = some new) : b.live new.1 = none ∧ Holds new.2 (b.take new.1 size) := by
  obtain ⟨p, h'⟩ := new
  rw [UserHeap.calloc] at heq
  dsimp only at heq
  split at heq
  · cases heq
  next hne =>
  obtain ⟨hp, rfl⟩ := Prod.mk.inj (Option.some.inj heq)
  obtain ⟨block, m, hmalloc, ha⟩ | hnull := hh.ready.malloc_cases hsize
  swap
  · rw [hnull] at hne
    exact absurd rfl hne
  have hne' : h.pointer block ≠ 0#32 := by rwa [hmalloc] at hne
  have hlt : block < 524288 := by
    have hpos := Heap.blocksFor_pos size
    have hfits := ha.fits
    omega
  obtain rfl : h.pointer block = p := by rw [← hp, hmalloc]
  obtain ⟨memory, hheader, hkept⟩ := hh.ready.memory_malloc hsize hmalloc hne'
  have hfirst : h.firstOf (h.pointer block) = block := firstOf_pointer hh.ready.toPlaced hlt
  have hnone : b.live (h.pointer block) = none := by
    cases hlive : b.live (h.pointer block) with
    | none => rfl
    | some size' =>
      have hapart := hh.apart_of_clear hlive (Heap.blocksFor_pos size) ha.clear
      have hpos := Heap.blocksFor_pos size
      have hpos' := Heap.blocksFor_pos size'
      omega
  have hroom := hh.ready.room
  have hfits := ha.fits
  have haddr := hh.ready.toNat_pointer hlt
  have hsizeLt : size.toNat + 4 ≤ 8 * Heap.blocksFor size := by
    rw [Heap.blocksFor]
    omega
  have hmap : ∀ a : BitVec 32, a.toNat < m.heapBase.toNat →
      (if a - h.pointer block < size then 0#8 else m.memory a) = m.memory a := by
    intro a hlow
    rw [ha.heapBase] at hlow
    refine if_neg ?_
    rw [BitVec.lt_def, BitVec.toNat_sub]
    omega
  have hbase : ∀ q, m.firstOf q = h.firstOf q := firstOf_congr ha.heapBase
  have hpointer : ∀ block, m.pointer block = h.pointer block := fun block => by
    rw [pointer, pointer, blockAddress, blockAddress, ha.heapBase]
  rw [hmalloc]
  dsimp only
  refine ⟨hnone, ⟨⟨ha.ready.base, ha.ready.room⟩, ha.ready.heapInitialized, ha.ready.top⟩, ?_, ?_, ?_, ?_⟩
  · intro q size' hq
    show q = m.pointer (m.firstOf q) ∧ m.firstOf q + Heap.blocksFor size' ≤ 524288
    rw [hbase, hpointer]
    obtain ⟨rfl, rfl⟩ | ⟨-, hq⟩ := live_take.mp hq
    · rw [hfirst]
      exact ⟨rfl, hfits⟩
    · exact hh.placed q size' hq
  · intro q size' hq other hlo hhi
    rw [ha.ready.words_block _ hmap, ha.words, WordMap.test_setRun, Bool.or_eq_true, decide_eq_true_eq]
    replace hlo : m.firstOf q ≤ other := hlo
    replace hhi : other < m.firstOf q + Heap.blocksFor size' := hhi
    rw [hbase] at hlo hhi
    obtain ⟨rfl, rfl⟩ | ⟨-, hq⟩ := live_take.mp hq
    · rw [hfirst] at hlo hhi
      exact .inl ⟨hlo, hhi⟩
    · exact .inr (hh.used q size' hq other hlo hhi)
  · intro q q' size' size'' hq hq' hdiff
    show m.firstOf q + _ ≤ m.firstOf q' ∨ m.firstOf q' + _ ≤ m.firstOf q
    rw [hbase, hbase]
    obtain ⟨rfl, rfl⟩ | ⟨-, hq⟩ := live_take.mp hq
    · obtain ⟨rfl, rfl⟩ | ⟨-, hq'⟩ := live_take.mp hq'
      · exact absurd rfl hdiff
      · rw [hfirst]
        exact (hh.apart_of_clear hq' (Heap.blocksFor_pos size) ha.clear).symm
    · obtain ⟨rfl, rfl⟩ | ⟨-, hq'⟩ := live_take.mp hq'
      · rw [hfirst]
        exact hh.apart_of_clear hq (Heap.blocksFor_pos size) ha.clear
      · exact hh.apart q q' size' size'' hq hq' hdiff
  · intro q size' hq o ho
    show (if q + o - h.pointer block < size then 0#8 else m.memory (q + o)) = (b.take (h.pointer block) size).cell q o
    rw [hheader]
    obtain ⟨rfl, rfl⟩ | ⟨hdiff, hq⟩ := live_take.mp hq
    · rw [cell_take_self]
      exact byte_calloc (by omega) ho
    · rw [cell_take_of_ne b hdiff, hh.byte_kept hq ho hfits ha.clear hkept]
      exact hh.byte_eq hq ho

/-- An allocation whose header is as it was goes back. -/
theorem free (hh : Holds h b) (hp : b.live p = some size) (hheader : b.word p header = Heap.blockAmt size) :
    Holds (h.free p) (b.release p) := by
  obtain ⟨heq, hfits⟩ := hh.placed p size hp
  have hpos := Heap.blocksFor_pos size
  have hsize := hh.size_lt hp
  have hlt : h.firstOf p < 524288 := by omega
  have hword : h.memory.loadWord (h.blockAddress (h.firstOf p)) = Heap.blockAmt size := by
    rw [← hheader, ← hh.word_eq hp (by rw [InBlockWord]; exact Nat.le_add_left 4 _), UserHeap.word,
      ← h.pointer_sub, ← heq, BitVec.sub_eq_add_neg]
  have hfree : h.free p = h.releaseRun (h.firstOf p) (Heap.blocksFor size) := by
    conv_lhs => rw [heq]
    refine hh.ready.free_pointer ?_ hlt hword
    rw [Heap.blocksFor] at hfits
    omega
  obtain ⟨hwords, -, hmap⟩ := hh.ready.toPlaced.releaseRun hfits
  have hkept : ∀ a : BitVec 32, h.heapBase.toNat ≤ a.toNat →
      (h.releaseRun (h.firstOf p) (Heap.blocksFor size)).memory a = h.memory a :=
    fun a ha => hh.ready.toPlaced.memory_releaseRun hfits ha
  rw [hfree]
  generalize h.releaseRun (h.firstOf p) (Heap.blocksFor size) = m at hwords hmap hkept ⊢
  have hbase : ∀ q, m.firstOf q = h.firstOf q := firstOf_congr hmap.heapBase
  have hpointer : ∀ block, m.pointer block = h.pointer block := fun block => by
    rw [pointer, pointer, blockAddress, blockAddress, hmap.heapBase]
  refine ⟨⟨hmap.placed hh.ready.toPlaced, hmap.heapInitialized.trans hh.ready.heapInitialized,
    hmap.sbrkTop.trans (hh.ready.top.trans hmap.brk.symm)⟩, ?_, ?_, ?_, ?_⟩
  · intro q size' hq
    rw [hbase, hpointer]
    exact hh.placed q size' (live_release.mp hq).2
  · intro q size' hq block hlo hhi
    obtain ⟨hdiff, hq⟩ := live_release.mp hq
    have hapart := hh.apart q p size' size hq hp hdiff
    rw [hbase] at hlo hhi
    rw [hwords, WordMap.test_unsetRun, decide_eq_false (by omega)]
    exact hh.used q size' hq block hlo hhi
  · intro q q' size' size'' hq hq' hdiff
    rw [hbase, hbase]
    exact hh.apart q q' size' size'' (live_release.mp hq).2 (live_release.mp hq').2 hdiff
  · intro q size' hq o ho
    obtain ⟨-, hq⟩ := live_release.mp hq
    have haddr := (hh.toNat_add hq ho).1
    exact (hkept _ (by omega)).trans (hh.byte_eq hq ho)

end Holds

end UserHeap

end Akos
