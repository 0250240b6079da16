import Akos.Cstdlib.Heap
import Akos.Lib.Transition

/-!
# The heap of a user process over whole runs

The table of the live allocations stands behind every state once `malloc` was called: its entries are the
pointers that were not freed, its bits are the bit map in memory, and every entry ends at or below the break.
-/

namespace Akos.UserHeap

/-- The heap and the allocations that were not freed since, with their sizes. -/
structure Clients where
  heap : UserHeap
  live : BitVec 32 → Option (BitVec 32)

/-- The calls, and a write of one byte at an offset from a live pointer. -/
inductive Op
  | malloc (size : BitVec 32)
  | free (p : BitVec 32)
  | write (p offset : BitVec 32) (value : BitVec 8)

namespace Clients

def start (memory : ByteMemory) (brk : BitVec 32) : Clients := ⟨UserHeap.start memory brk, fun _ => none⟩

def apply (c : Clients) : Op → Clients
  | .malloc size =>
    let result := c.heap.malloc size
    ⟨result.2, if result.1 = 0#32 then c.live else Function.update c.live result.1 (some size)⟩
  | .free p => ⟨c.heap.free p, Function.update c.live p none⟩
  | .write p offset value =>
    { c with heap := { c.heap with memory := Function.update c.heap.memory (p + offset) value } }

def Allowed (c : Clients) : Op → Prop
  | .malloc size => size.toNat ≤ 0xFFFFFFF4
  | .free p => p = 0#32 ∨ (c.live p).isSome
  | .write p offset _ => ∃ size, c.live p = some size ∧ offset.toNat < size.toNat

def Step (c : Clients) (op : Op) (c' : Clients) : Prop := c.Allowed op ∧ c' = c.apply op

/-- The number of blocks in the header of an allocation. -/
def header (c : Clients) (p : BitVec 32) : BitVec 32 := c.heap.memory.loadWord (p - blockAmtDescSize)

/-- The block belongs to a live allocation, as its header has it. -/
def Owns (c : Clients) (p : BitVec 32) (block : Nat) : Prop :=
  (c.live p).isSome ∧ c.heap.blockOf (p - blockAmtDescSize) ≤ block ∧
    block < c.heap.blockOf (p - blockAmtDescSize) + (c.header p).toNat

/-- What holds in every state once `malloc` was called. -/
structure Sound (c : Clients) : Prop where
  placed : ∀ p size, c.live p = some size → ∃ first, p.toNat = c.heap.heapBase.toNat + 8 * first + 4 ∧
    first + Heap.blocksFor size ≤ 524288 ∧ ∀ block, c.Owns p block ↔ first ≤ block ∧ block < first + Heap.blocksFor size
  disjoint : ∀ p q block, c.Owns p block → c.Owns q block → p = q
  apart : ∀ p block, c.Owns p block → c.heap.memoryMap.toNat + mapSize.toNat ≤ c.heap.heapBase.toNat + 8 * block
  bits : ∀ block, c.heap.words.test block = true ↔ ∃ p, c.Owns p block
  counted : c.heap.usedBlocks.toNat = c.heap.words.ones 524288
  top : c.heap.sbrkTop = c.heap.brk
  below : ∀ p block, c.Owns p block → c.heap.heapBase.toNat + 8 * (block + 1) ≤ c.heap.brk.toNat

/-- The table's entries are the live allocations, each with its length in front and at or below the break. -/
structure Represents (c : Clients) (t : RunTable (BitVec 32)) : Prop where
  bits : t.bits = c.heap.words
  live : ∀ p size, c.live p = some size ↔ ∃ first, p = c.heap.pointer first ∧ t.runs first = some size
  size : ∀ first size, t.runs first = some size → size.toNat ≤ 0xFFFFFFF4
  header : ∀ first size, t.runs first = some size →
    c.heap.memory.loadWord (c.heap.blockAddress first) = blockAmt size
  below : ∀ first size, t.runs first = some size →
    c.heap.heapBase.toNat + 8 * (first + Heap.blocksFor size) ≤ c.heap.brk.toNat

/-- The invariant once the allocator is set up. -/
structure Inv (c : Clients) (t : RunTable (BitVec 32)) : Prop where
  ready : Ready c.heap
  table : t.Sound Heap.blocksFor 524288
  represents : c.Represents t
  counted : c.heap.usedBlocks.toNat = t.bits.ones 524288

/-- In front of the first `malloc`. -/
structure Fresh (c : Clients) : Prop where
  heapInitialized : c.heap.heapInitialized = false
  usedBlocks : c.heap.usedBlocks = 0#32
  brk : c.heap.brk.toNat + 0x10000 + 0x400000 < 2 ^ 32
  live : ∀ p, c.live p = none

section Step

variable {c : Clients} {t : RunTable (BitVec 32)}

theorem Inv.first_lt (h : Inv c t) {first : Nat} {size : BitVec 32} (hrun : t.runs first = some size) :
    first < 524288 := by
  have hbounded := h.table.bounded first size hrun
  omega

/-- An entry of the table and the blocks its header gives it. -/
theorem Inv.owns_iff (h : Inv c t) (p : BitVec 32) (block : Nat) :
    c.Owns p block ↔ ∃ first, p = c.heap.pointer first ∧ t.Owns Heap.blocksFor first block := by
  have hrun : ∀ first size, t.runs first = some size → (c.Owns (c.heap.pointer first) block ↔
      first ≤ block ∧ block < first + Heap.blocksFor size) := by
    intro first size hrun
    have hlive := (h.represents.live _ size).mpr ⟨first, rfl, hrun⟩
    rw [Owns, header, c.heap.pointer_sub, h.ready.blockOf_blockAddress (h.first_lt hrun),
      h.represents.header first size hrun, Heap.toNat_blockAmt (h.represents.size first size hrun), hlive]
    exact and_iff_right rfl
  constructor
  · intro howns
    obtain ⟨size, hsize⟩ := Option.isSome_iff_exists.mp howns.1
    obtain ⟨first, rfl, hfirst⟩ := (h.represents.live p size).mp hsize
    exact ⟨first, rfl, size, hfirst, (hrun first size hfirst).mp howns⟩
  · rintro ⟨first, rfl, size, hfirst, hblock⟩
    exact (hrun first size hfirst).mpr hblock

theorem Inv.sound (h : Inv c t) : Sound c where
  placed p size hlive := by
    obtain ⟨first, rfl, hrun⟩ := (h.represents.live p size).mp hlive
    refine ⟨first, h.ready.toNat_pointer (h.first_lt hrun), (h.table.bounded first size hrun).2, fun block => ?_⟩
    rw [h.owns_iff]
    constructor
    · rintro ⟨other, hp, size', hrun', hblock⟩
      obtain rfl := h.ready.pointer_injective (h.first_lt hrun) (h.first_lt hrun') hp
      rwa [Option.some.inj (hrun.symm.trans hrun')]
    · exact fun hblock => ⟨first, rfl, size, hrun, hblock⟩
  disjoint p q block hp hq := by
    obtain ⟨first, rfl, hfirst⟩ := (h.owns_iff p block).mp hp
    obtain ⟨other, rfl, hother⟩ := (h.owns_iff q block).mp hq
    rw [h.table.balanced.apart hfirst hother]
  apart p block _ := by
    have hbase := h.ready.base
    have hsize : mapSize.toNat = 0x10000 := by decide
    omega
  bits block := by
    rw [← h.represents.bits, h.table.balanced.used_iff]
    simp only [Set.mem_empty_iff_false, false_or]
    constructor
    · rintro ⟨first, hfirst⟩
      exact ⟨_, (h.owns_iff _ block).mpr ⟨first, rfl, hfirst⟩⟩
    · rintro ⟨p, hp⟩
      obtain ⟨first, -, hfirst⟩ := (h.owns_iff p block).mp hp
      exact ⟨first, hfirst⟩
  counted := by rw [h.counted, h.represents.bits]
  top := h.ready.top
  below p block hp := by
    obtain ⟨first, rfl, size, hrun, hblock⟩ := (h.owns_iff p block).mp hp
    have hbelow := h.represents.below first size hrun
    omega

theorem blockAddress_congr {h h' : UserHeap} (hbase : h'.heapBase = h.heapBase) (block : Nat) :
    h'.blockAddress block = h.blockAddress block := by
  rw [blockAddress, blockAddress, hbase]

theorem pointer_congr {h h' : UserHeap} (hbase : h'.heapBase = h.heapBase) (block : Nat) :
    h'.pointer block = h.pointer block := by
  rw [pointer, pointer, blockAddress_congr hbase]

theorem Inv.malloc (h : Inv c t) {size : BitVec 32} (hsize : size.toNat ≤ 0xFFFFFFF4) :
    ∃ t', Inv (c.apply (.malloc size)) t' := by
  rw [Clients.apply]
  obtain ⟨block, h', heq, hallocates⟩ | heq := h.ready.malloc_cases hsize
  swap
  · rw [heq, if_pos rfl]
    exact ⟨t, h⟩
  have hpos := Heap.blocksFor_pos size
  have hlt : block < 524288 := by have := hallocates.fits; omega
  have hclear : t.bits.ClearRun block (Heap.blocksFor size) := h.represents.bits ▸ hallocates.clear
  have hfree : t.runs block = none := h.table.runs_eq_none (hclear block (Nat.le_refl _) (by omega))
  have hne : c.heap.pointer block ≠ 0#32 := by
    intro hzero
    have haddr := h.ready.toNat_pointer hlt
    rw [hzero, show (0#32).toNat = 0 from rfl] at haddr
    omega
  have htable := h.table.take (a := size) hpos hallocates.fits hclear
  rw [heq]
  dsimp only
  rw [if_neg hne]
  refine ⟨t.take Heap.blocksFor block size, hallocates.ready, htable, ⟨?_, ?_, ?_, ?_, ?_⟩, ?_⟩
  · rw [hallocates.words, ← h.represents.bits]
    rfl
  · intro p size'
    dsimp only
    rw [Function.update_apply]
    simp only [pointer_congr hallocates.heapBase, RunTable.runs_take]
    by_cases hnew : p = c.heap.pointer block
    · subst hnew
      rw [if_pos rfl]
      constructor
      · intro hsame
        exact ⟨block, rfl, by rwa [if_pos rfl]⟩
      · rintro ⟨first, hfirst, hrun⟩
        split at hrun
        · exact hrun
        · next hdiff =>
          exact absurd (h.ready.pointer_injective hlt (h.first_lt hrun) hfirst).symm hdiff
    · rw [if_neg hnew, h.represents.live]
      refine exists_congr fun first => and_congr_right fun hfirst => ?_
      rw [if_neg (fun hsame => hnew (by rw [hfirst, hsame]))]
  · intro first size' hrun
    rw [RunTable.runs_take] at hrun
    split at hrun
    · exact Option.some.inj hrun ▸ hsize
    · exact h.represents.size first size' hrun
  · intro first size' hrun
    rw [RunTable.runs_take] at hrun
    dsimp only
    rw [blockAddress_congr hallocates.heapBase]
    split at hrun
    · next hsame => rw [hsame, hallocates.header, Option.some.inj hrun]
    · next hdiff =>
      rw [hallocates.kept first (h.first_lt hrun) hdiff]
      exact h.represents.header first size' hrun
  · intro first size' hrun
    rw [RunTable.runs_take] at hrun
    dsimp only
    rw [hallocates.heapBase, hallocates.brk]
    split at hrun
    · next hsame =>
      rw [hsame, Option.some.inj hrun]
      exact Nat.le_max_right _ _
    · exact Nat.le_trans (h.represents.below first size' hrun) (Nat.le_max_left _ _)
  · have hones := RunTable.ones_take (a := size) hallocates.fits hclear
    have hle := WordMap.ones_le (t.take Heap.blocksFor block size).bits 524288
    have hcounted := h.counted
    dsimp only
    rw [hones] at hle ⊢
    rw [hallocates.used, BitVec.toNat_add, BitVec.toNat_ofNat]
    omega

theorem Inv.free (h : Inv c t) {p size : BitVec 32} (hlive : c.live p = some size) :
    ∃ t', Inv (c.apply (.free p)) t' := by
  obtain ⟨first, rfl, hrun⟩ := (h.represents.live p size).mp hlive
  have hlt := h.first_lt hrun
  have hbounded := h.table.bounded first size hrun
  have hfree := h.ready.free_pointer (h.represents.size first size hrun) hlt (h.represents.header first size hrun)
  obtain ⟨hwords, hused, hmap⟩ := h.ready.toPlaced.releaseRun hbounded.2
  rw [Clients.apply, hfree]
  generalize c.heap.releaseRun first (Heap.blocksFor size) = h' at hwords hused hmap ⊢
  have hentry : ∀ {other size'}, (t.release Heap.blocksFor first size).runs other = some size' →
      other ≠ first ∧ t.runs other = some size' := by
    intro other size' hother
    rw [RunTable.runs_release] at hother
    split at hother
    · cases hother
    · next hdiff => exact ⟨hdiff, hother⟩
  have hplaced := hmap.placed h.ready.toPlaced
  refine ⟨t.release Heap.blocksFor first size, ⟨hplaced, ?_, ?_⟩, h.table.release hrun, ⟨?_, ?_, ?_, ?_, ?_⟩, ?_⟩
  · exact hmap.heapInitialized.trans h.ready.heapInitialized
  · exact hmap.sbrkTop.trans (h.ready.top.trans hmap.brk.symm)
  · rw [hwords, ← h.represents.bits]
    rfl
  · intro q size'
    dsimp only
    rw [Function.update_apply]
    simp only [pointer_congr hmap.heapBase, RunTable.runs_release]
    by_cases hsame : q = c.heap.pointer first
    · subst hsame
      rw [if_pos rfl]
      refine iff_of_false (fun h => by cases h) ?_
      rintro ⟨other, hother, hrun'⟩
      split at hrun'
      · cases hrun'
      · next hdiff => exact hdiff (h.ready.pointer_injective hlt (h.first_lt hrun') hother).symm
    · rw [if_neg hsame, h.represents.live]
      refine exists_congr fun other => and_congr_right fun hother => ?_
      rw [if_neg (fun heq => hsame (by rw [hother, heq]))]
  · exact fun other size' hother => h.represents.size other size' (hentry hother).2
  · intro other size' hother
    obtain ⟨-, hrun'⟩ := hentry hother
    have haddr := h.ready.toNat_blockAddress (h.first_lt hrun')
    have hroom := h.ready.room
    have hlt' := h.first_lt hrun'
    dsimp only
    rw [blockAddress_congr hmap.heapBase, hmap.loadWord _ (by omega) (by omega)]
    exact h.represents.header other size' hrun'
  · intro other size' hother
    dsimp only
    rw [hmap.heapBase, hmap.brk]
    exact h.represents.below other size' (hentry hother).2
  · have hones := h.table.ones_release hrun
    have hle := WordMap.ones_le t.bits 524288
    have hcounted := h.counted
    dsimp only
    rw [hused, BitVec.toNat_sub, BitVec.toNat_ofNat]
    omega

/-- A client's write reaches no header and not the bit map. -/
theorem Inv.write (h : Inv c t) {p size offset : BitVec 32} (hlive : c.live p = some size)
    (hoffset : offset.toNat < size.toNat) (value : BitVec 8) : Inv (c.apply (.write p offset value)) t := by
  obtain ⟨first, rfl, hrun⟩ := (h.represents.live p size).mp hlive
  have hlt := h.first_lt hrun
  have hbounded := h.table.bounded first size hrun
  have hroom := h.ready.room
  have hsize : size.toNat + 4 ≤ 8 * Heap.blocksFor size := by
    rw [Heap.blocksFor]
    omega
  have haddr : (c.heap.pointer first + offset).toNat = c.heap.heapBase.toNat + 8 * first + 4 + offset.toNat := by
    rw [BitVec.toNat_add, h.ready.toNat_pointer hlt]
    omega
  have hwords : (c.apply (.write (c.heap.pointer first) offset value)).heap.words = c.heap.words :=
    h.ready.words_block _ fun b hb => Function.update_of_ne (fun heq => by
      rw [heq] at hb
      omega) _ _
  have hheader : ∀ other size', t.runs other = some size' →
      (c.apply (.write (c.heap.pointer first) offset value)).heap.memory.loadWord (c.heap.blockAddress other)
        = c.heap.memory.loadWord (c.heap.blockAddress other) := by
    intro other size' hrun'
    have haddr' := h.ready.toNat_blockAddress (h.first_lt hrun')
    have hlt' := h.first_lt hrun'
    refine ByteMemory.loadWord_congr fun k hk => Function.update_of_ne (fun heq => ?_) _ _
    have hbyte := ByteMemory.toNat_add_of_lt (a := c.heap.blockAddress other) (by omega) hk
    rw [heq, haddr, haddr'] at hbyte
    -- the byte lies in the first block of the other run and behind the header of this one
    have hsame := h.table.balanced.apart (h.table.owns_self hrun') (⟨size, hrun, by omega, by omega⟩ :
      t.Owns Heap.blocksFor first other)
    omega
  refine ⟨⟨⟨h.ready.base, h.ready.room⟩, h.ready.heapInitialized, h.ready.top⟩, h.table,
    ⟨h.represents.bits.trans hwords.symm, h.represents.live, h.represents.size, fun other size' hrun' => ?_,
      h.represents.below⟩, h.counted⟩
  exact (hheader other size' hrun').trans (h.represents.header other size' hrun')

theorem Fresh.malloc (h : Fresh c) {size : BitVec 32} (hsize : size.toNat ≤ 0xFFFFFFF4) :
    ∃ t', Inv (c.apply (.malloc size)) t' := by
  have hwords := heapInit_words h.brk
  have hinit : Inv ⟨c.heap.heapInit, c.live⟩ ⟨c.heap.heapInit.words, fun _ => none⟩ := by
    refine ⟨heapInit_ready h.brk, RunTable.sound_empty hwords, ⟨rfl, fun p size => ?_,
      (fun _ _ h => by cases h), (fun _ _ h => by cases h), fun _ _ h => by cases h⟩, ?_⟩
    · rw [h.live]
      refine iff_of_false (fun h => by cases h) fun h => ?_
      obtain ⟨_, _, hrun⟩ := h
      cases hrun
    · dsimp only
      rw [heapInit_usedBlocks, h.usedBlocks, WordMap.ones]
      simp [hwords]
  have hsame : c.apply (.malloc size) = Clients.apply ⟨c.heap.heapInit, c.live⟩ (.malloc size) := by
    rw [Clients.apply, Clients.apply, malloc_of_not_initialized h.heapInitialized]
  rw [hsame]
  exact hinit.malloc hsize

/-- Freeing the null pointer changes nothing. -/
theorem apply_free_null (hnull : c.live 0#32 = none) : c.apply (.free 0#32) = c := by
  rw [Clients.apply, UserHeap.free, if_neg (not_not_intro rfl), ← hnull, Function.update_eq_self]

theorem Inv.null (h : Inv c t) : c.live 0#32 = none := by
  cases hlive : c.live 0#32 with
  | none => rfl
  | some size =>
    obtain ⟨first, hzero, hrun⟩ := (h.represents.live 0#32 size).mp hlive
    have haddr := h.ready.toNat_pointer (h.first_lt hrun)
    rw [← hzero, show (0#32).toNat = 0 from rfl] at haddr
    omega

theorem Inv.step {op : Op} {c' : Clients} (h : Inv c t) (hstep : Step c op c') : ∃ t', Inv c' t' := by
  obtain ⟨hallowed, rfl⟩ := hstep
  cases op with
  | malloc size => exact h.malloc hallowed
  | free p =>
    cases hlive : c.live p with
    | none =>
      -- only the null pointer is freed without being live
      obtain rfl | hsome := hallowed
      · exact ⟨t, (apply_free_null hlive).symm ▸ h⟩
      · rw [hlive] at hsome
        cases hsome
    | some size => exact h.free hlive
  | write p offset value =>
    obtain ⟨size, hlive, hoffset⟩ := hallowed
    exact ⟨t, h.write hlive hoffset value⟩

theorem Fresh.step {op : Op} {c' : Clients} (h : Fresh c) (hstep : Step c op c') :
    (∃ t', Inv c' t') ∨ (Fresh c' ∧ ∀ size, op ≠ .malloc size) := by
  obtain ⟨hallowed, rfl⟩ := hstep
  cases op with
  | malloc size => exact .inl (h.malloc hallowed)
  | free p =>
    obtain rfl | hsome := hallowed
    · exact .inr ⟨(apply_free_null (h.live 0#32)).symm ▸ h, fun _ h => by cases h⟩
    · rw [h.live] at hsome
      cases hsome
  | write p offset value =>
    obtain ⟨size, hlive, -⟩ := hallowed
    rw [h.live] at hlive
    cases hlive

end Step

/-! ### Every run -/

section Runs

variable {c c' : Clients} {ops : List Op}

theorem fresh_start {memory : ByteMemory} {brk : BitVec 32} (hbrk : brk.toNat + 0x10000 + 0x400000 < 2 ^ 32) :
    Fresh (start memory brk) := ⟨rfl, rfl, hbrk, fun _ => rfl⟩

theorem Fresh.run (hrun : Transition.Run Step c ops c') (h : Fresh c) (hmalloc : ∃ size, Op.malloc size ∈ ops) :
    ∃ t, Inv c' t := by
  induction hrun with
  | nil => obtain ⟨size, hmem⟩ := hmalloc; cases hmem
  | cons hstep hrest ih =>
    cases h.step hstep with
    | inl hinv =>
      refine hrest.invariant (fun c => ∃ t, Inv c t) (fun _ _ _ h hs => ?_) hinv
      obtain ⟨t, ht⟩ := h
      exact ht.step hs
    | inr hfresh =>
      obtain ⟨size, hmem⟩ := hmalloc
      obtain heq | hmem := List.mem_cons.mp hmem
      · exact absurd heq.symm (hfresh.2 size)
      · exact ih hfresh.1 ⟨size, hmem⟩

/-- In every run of a process that leaves room for the heap behind its break, from the first call of `malloc` on,
the live allocations own disjoint runs of blocks of the right length behind the bit map, the set bits are their
blocks and are counted, and the top is the break, at or above the end of each. -/
theorem userSound_of_run {memory : ByteMemory} {brk : BitVec 32} (hbrk : brk.toNat + 0x10000 + 0x400000 < 2 ^ 32)
    (hrun : Transition.Run Step (start memory brk) ops c) (hmalloc : ∃ size, Op.malloc size ∈ ops) : Sound c := by
  obtain ⟨t, ht⟩ := (fresh_start hbrk).run hrun hmalloc
  exact ht.sound

end Runs

/-- The first call fetches the bit map and two blocks, the last byte is written, and the blocks are freed. -/
theorem userSound_of_run_twelve_bytes :
    Sound ((((start (fun _ => 0#8) 0x500000#32).apply (.malloc 12#32)).apply
      (.write 0x510004#32 11#32 0xFF#8)).apply (.free 0x510004#32)) := by
  have hlive : ((start (fun _ => 0#8) 0x500000#32).apply (.malloc 12#32)).live 0x510004#32 = some 12#32 := by
    decide +kernel
  generalize hc : (start (fun _ => 0#8) 0x500000#32).apply (.malloc 12#32) = c at hlive ⊢
  have hmalloc : Step (start (fun _ => 0#8) 0x500000#32) (.malloc 12#32) c :=
    ⟨show (12#32).toNat ≤ 0xFFFFFFF4 by decide, hc.symm⟩
  have hwrite : c.Allowed (.write 0x510004#32 11#32 0xFF#8) := ⟨12#32, hlive, by decide⟩
  have hfree : (c.apply (.write 0x510004#32 11#32 0xFF#8)).Allowed (.free 0x510004#32) :=
    Or.inr (Option.isSome_iff_exists.mpr ⟨_, hlive⟩)
  exact userSound_of_run (by decide) (.cons hmalloc (.cons ⟨hwrite, rfl⟩ (.cons ⟨hfree, rfl⟩ (.nil _))))
    ⟨12#32, List.mem_cons_self⟩

/-- In front of the first `malloc` the top is not the break yet; and with the break at the end of the address
space the second of two blocks ends at 0, so that the break is not raised for it. -/
theorem not_userSound_of_run : (∃ c, Transition.Run Step (start (fun _ => 0#8) 0x500000#32) [] c ∧ ¬ Sound c) ∧
    ∃ c, Transition.Run Step (start (fun _ => 0#8) 0xFFFEFFF0#32) [.malloc 4#32, .malloc 4#32] c ∧ ¬ Sound c := by
  refine ⟨⟨_, .nil _, fun hsound => absurd hsound.top (by decide)⟩, ?_⟩
  have hparts : ∃ c, ((start (fun _ => 0#8) 0xFFFEFFF0#32).apply (.malloc 4#32)).apply (.malloc 4#32) = c ∧
      c.live 0xFFFFFFFC#32 = some 4#32 ∧ c.heap.blockOf (0xFFFFFFFC#32 - blockAmtDescSize) = 1 ∧
      c.header 0xFFFFFFFC#32 = 1#32 ∧ c.heap.heapBase = 0xFFFFFFF0#32 ∧ c.heap.brk = 0xFFFFFFF8#32 :=
    ⟨_, rfl, by decide +kernel⟩
  obtain ⟨c, hc, hlive, hblock, hheader, hbase, hbrk⟩ := hparts
  have hsize : (4#32).toNat ≤ 0xFFFFFFF4 := by decide
  refine ⟨c, .cons ⟨hsize, rfl⟩ (.cons ⟨hsize, hc.symm⟩ (.nil _)), fun hsound => ?_⟩
  have howns : c.Owns 0xFFFFFFFC#32 1 := by
    rw [Owns, hlive, hblock, hheader]
    decide
  have hbelow := hsound.below _ _ howns
  rw [hbase, hbrk] at hbelow
  exact absurd hbelow (by decide)

end Clients

end Akos.UserHeap
