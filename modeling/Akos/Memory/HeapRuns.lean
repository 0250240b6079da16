import Akos.Memory.Heap

/-!
# The heap over whole runs

Clients allocate, free what they hold, and write into it. The header of an allocation lies in its first
block and no client writes there, so the number `kfree` reads is the number `kmalloc` wrote, and the blocks
of the live allocations are the set bits in every state of every run.
-/

namespace Akos.Heap

/-- The heap and the allocations that were not freed since, with their sizes. -/
structure Clients where
  heap : Heap
  live : BitVec 32 → Option (BitVec 32)

/-- The calls, and a client's write of one byte at an offset from a pointer it holds. -/
inductive Op
  | kmalloc (size : BitVec 32)
  | kfree (p : BitVec 32)
  | write (p offset : BitVec 32) (value : BitVec 8)

namespace Clients

def start (memory : ByteMemory) : Clients := ⟨Heap.empty memory, fun _ => none⟩

def apply (c : Clients) : Op → Clients
  | .kmalloc size =>
    let result := c.heap.kmalloc size
    ⟨result.2, if result.1 = 0#32 then c.live else Function.update c.live result.1 (some size)⟩
  | .kfree p => ⟨c.heap.kfree p, Function.update c.live p none⟩
  | .write p offset value =>
    { c with heap := { c.heap with memory := Function.update c.heap.memory (p + offset) value } }

def Allowed (c : Clients) : Op → Prop
  | .kmalloc size => size.toNat ≤ 0xFFFFFFF4
  | .kfree p => p = 0#32 ∨ (c.live p).isSome
  | .write p offset _ => ∃ size, c.live p = some size ∧ offset.toNat < size.toNat

def Step (c : Clients) (op : Op) (c' : Clients) : Prop := c.Allowed op ∧ c' = c.apply op

/-- The number of blocks in the header of an allocation. -/
def header (c : Clients) (p : BitVec 32) : BitVec 32 := c.heap.memory.loadWord (p - blockAmtDescSize)

/-- The block belongs to a live allocation, as its header has it. -/
def Owns (c : Clients) (p : BitVec 32) (block : Nat) : Prop :=
  (c.live p).isSome ∧ blockOf (p - blockAmtDescSize) ≤ block ∧
    block < blockOf (p - blockAmtDescSize) + (c.header p).toNat

/-- What holds in every state. -/
structure Sound (c : Clients) : Prop where
  placed : ∀ p size, c.live p = some size → ∃ first, p.toNat = base.toNat + 8 * first + 4 ∧
    base.toNat + 8 * (first + blocksFor size) ≤ ceiling.toNat ∧
    ∀ block, c.Owns p block ↔ first ≤ block ∧ block < first + blocksFor size
  disjoint : ∀ p q block, c.Owns p block → c.Owns q block → p = q
  bits : ∀ block, c.heap.allocMmapTest block = true ↔ ∃ p, c.Owns p block
  counted : c.heap.usedBlocks.toNat = c.heap.memoryMap.ones 262144
  freed : ∀ p, (c.live p).isSome → ∀ block,
    (c.heap.kfree p).allocMmapTest block = true ↔ c.heap.allocMmapTest block = true ∧ ¬ c.Owns p block

/-- The invariant: the ledger of allocations and blocks is balanced, and headers and counter are right. -/
structure Inv (c : Clients) : Prop where
  placed : ∀ p size, c.live p = some size → ∃ first, p = pointer first ∧ first + blocksFor size ≤ 262144 ∧
    size.toNat ≤ 0xFFFFFFF4 ∧ c.header p = blockAmt size
  balanced : Ledger.Balanced c.Owns ∅ (fun block => c.heap.allocMmapTest block = true)
  counted : c.heap.usedBlocks.toNat = c.heap.memoryMap.ones 262144

/-! ### Blocks and bytes of an allocation -/

section Allocation

variable {c : Clients} {p : BitVec 32} {first : Nat}

theorem pointer_injective {first other : Nat} (hfirst : first < 262144) (hother : other < 262144)
    (heq : pointer first = pointer other) : first = other := by
  have hp := toNat_pointer hfirst
  rw [heq, toNat_pointer hother] at hp
  omega

/-- The blocks of an allocation whose header is right. -/
theorem owns_iff {size : BitVec 32} (hlive : c.live (pointer first) = some size)
    (hfirst : first + blocksFor size ≤ 262144) (hsize : size.toNat ≤ 0xFFFFFFF4)
    (hheader : c.header (pointer first) = blockAmt size) (block : Nat) :
    c.Owns (pointer first) block ↔ first ≤ block ∧ block < first + blocksFor size := by
  have hpos := blocksFor_pos size
  rw [Owns, blockOf_pointer (by omega), hheader, toNat_blockAmt hsize, hlive]
  exact and_iff_right rfl

theorem toNat_headerByte {k : BitVec 32} (hfirst : first < 262144) (hk : k.toNat < 4) :
    (pointer first - blockAmtDescSize + k).toNat = 0xC0300000 + 8 * first + k.toNat := by
  rw [pointer_sub, BitVec.toNat_add, toNat_blockAddress hfirst]
  omega

/-- An address outside the first four bytes of a block is not written when its header is. -/
theorem outside_header {first : Nat} {b : BitVec 32} (hfirst : first < 262144)
    (h : b.toNat < 0xC0300000 + 8 * first ∨ 0xC0300000 + 8 * first + 4 ≤ b.toNat) :
    ByteMemory.Outside (pointer first - blockAmtDescSize) b := by
  have hne : ∀ k : BitVec 32, k.toNat < 4 → b ≠ pointer first - blockAmtDescSize + k := by
    intro k hk heq
    have haddr := toNat_headerByte hfirst hk
    rw [← heq] at haddr
    omega
  have h0 := hne 0#32 (by decide)
  rw [BitVec.add_zero] at h0
  exact ⟨h0, hne 1#32 (by decide), hne 2#32 (by decide), hne 3#32 (by decide)⟩

end Allocation

/-! ### One call -/

section Step

variable {c : Clients}

theorem Inv.owns (h : Inv c) {p size : BitVec 32} (hlive : c.live p = some size) :
    ∃ first, p = pointer first ∧ first + blocksFor size ≤ 262144 ∧
      ∀ block, c.Owns p block ↔ first ≤ block ∧ block < first + blocksFor size := by
  obtain ⟨first, rfl, hfirst, hsize, hheader⟩ := h.placed p size hlive
  exact ⟨first, rfl, hfirst, owns_iff hlive hfirst hsize hheader⟩

/-- Two live allocations in the same first block are one. -/
theorem Inv.first_ne (h : Inv c) {first other : Nat} {size : BitVec 32}
    (hlive : c.live (pointer first) = some size) (hclear : c.heap.allocMmapTest other = false)
    (hother : other < 262144) : first ≠ other := by
  rintro rfl
  obtain ⟨first', hp, hfirst', howns⟩ := h.owns hlive
  have hpos := blocksFor_pos size
  obtain rfl := pointer_injective hother (by omega) hp
  have hused := h.balanced.used_of_holds ((howns first).mpr ⟨Nat.le_refl _, by omega⟩)
  exact Bool.noConfusion (hclear.symm.trans hused)

theorem Inv.kmalloc (h : Inv c) {size : BitVec 32} (hsize : size.toNat ≤ 0xFFFFFFF4) :
    Inv (c.apply (.kmalloc size)) := by
  rw [Clients.apply]
  rcases c.heap.kmalloc_cases hsize with ⟨first, hfirst, hclear, heq⟩ | heq
  swap
  · rw [heq, if_pos rfl]
    exact h
  have hpos := blocksFor_pos size
  have hlt : first < 262144 := by omega
  have hne := pointer_ne_zero hlt
  have hfresh : c.heap.allocMmapTest first = false := hclear first (Nat.le_refl _) (by omega)
  rw [heq, if_neg hne]
  dsimp only
  generalize hc : Clients.mk _ _ = c'
  have hlive : ∀ q, c'.live q = if q = pointer first then some size else c.live q := by
    intro q
    rw [← hc]
    exact Function.update_apply _ _ _ _
  have htest : ∀ block, c'.heap.allocMmapTest block
      = (decide (first ≤ block ∧ block < first + blocksFor size) || c.heap.allocMmapTest block) := by
    intro block
    rw [← hc]
    show (c.heap.occupyRun first (blocksFor size)).memoryMap.test block = _
    rw [occupyRun_memoryMap, WordMap.test_setRun]
  have hheader : c'.header (pointer first) = blockAmt size := by
    rw [← hc]
    exact ByteMemory.loadWord_storeWord _ _ _
  -- the other headers lie in the first blocks of other allocations
  have hkept : ∀ {other : Nat} {size' : BitVec 32}, c.live (pointer other) = some size' →
      other + blocksFor size' ≤ 262144 → c'.header (pointer other) = c.header (pointer other) := by
    intro other size' hother hbound
    have hpos' := blocksFor_pos size'
    have hdiff := h.first_ne hother hfresh hlt
    refine ByteMemory.loadWord_congr fun k hk => ?_
    have haddr := toNat_headerByte (show other < 262144 by omega) hk
    rw [← hc]
    exact ByteMemory.storeWord_of_outside _ _ (outside_header hlt (by omega))
  have hplaced : ∀ q size', c'.live q = some size' → ∃ first', q = pointer first' ∧
      first' + blocksFor size' ≤ 262144 ∧ size'.toNat ≤ 0xFFFFFFF4 ∧ c'.header q = blockAmt size' := by
    intro q size' hq
    rw [hlive] at hq
    split at hq
    · next hnew =>
      obtain rfl := Option.some.inj hq
      exact ⟨first, hnew, hfirst, hsize, hnew ▸ hheader⟩
    · obtain ⟨other, rfl, hother, hsize', hheader'⟩ := h.placed q size' hq
      exact ⟨other, rfl, hother, hsize', (hkept hq hother).trans hheader'⟩
  have howns : ∀ q block, c'.Owns q block ↔
      c.Owns q block ∨ (q = pointer first ∧ block ∈ {b | first ≤ b ∧ b < first + blocksFor size}) := by
    intro q block
    by_cases hnew : q = pointer first
    · subst hnew
      have hold : ¬ c.Owns (pointer first) block := by
        rintro ⟨hsome, _⟩
        obtain ⟨size', hsize'⟩ := Option.isSome_iff_exists.mp hsome
        exact h.first_ne hsize' hfresh hlt rfl
      rw [owns_iff ((hlive _).trans (if_pos rfl)) hfirst hsize hheader]
      simp [hold]
    · rw [or_iff_left (fun hr => hnew hr.1)]
      unfold Owns
      rw [hlive, if_neg hnew]
      refine and_congr_right fun hsome => ?_
      obtain ⟨size', hsize'⟩ := Option.isSome_iff_exists.mp hsome
      obtain ⟨other, rfl, hother, _⟩ := h.placed q size' hsize'
      rw [hkept hsize' hother]
  refine ⟨hplaced, ?_, ?_⟩
  · refine h.balanced.take (pointer first) {b | first ≤ b ∧ b < first + blocksFor size}
      (fun block hblock hused => ?_) howns (fun block => ?_)
    · exact Bool.noConfusion ((hclear block hblock.1 hblock.2).symm.trans hused)
    · rw [htest, Bool.or_eq_true, decide_eq_true_eq, or_comm]
      rfl
  · have hones := WordMap.ones_setRun c.heap.memoryMap hfirst hclear
    have hcounted := h.counted
    have hle := WordMap.ones_le (c.heap.memoryMap.setRun first (blocksFor size)) 262144
    rw [← hc]
    show (c.heap.occupyRun first (blocksFor size)).usedBlocks.toNat
      = (c.heap.occupyRun first (blocksFor size)).memoryMap.ones 262144
    rw [occupyRun_usedBlocks, occupyRun_memoryMap, hones, BitVec.toNat_add, BitVec.toNat_ofNat]
    omega

/-- `kfree` clears the blocks of the allocation and nothing else. -/
theorem Inv.kfree_spec (h : Inv c) {p size : BitVec 32} (hlive : c.live p = some size) :
    ∃ first, p = pointer first ∧ first + blocksFor size ≤ 262144 ∧
      (∀ block, c.Owns p block ↔ first ≤ block ∧ block < first + blocksFor size) ∧
      c.heap.kfree p = c.heap.releaseRun first (blocksFor size) := by
  obtain ⟨first, rfl, hfirst, hsize, hheader⟩ := h.placed p size hlive
  have hpos := blocksFor_pos size
  exact ⟨first, rfl, hfirst, owns_iff hlive hfirst hsize hheader, c.heap.kfree_pointer hsize (by omega) hheader⟩

theorem Inv.freed (h : Inv c) {p size : BitVec 32} (hlive : c.live p = some size) (block : Nat) :
    (c.heap.kfree p).allocMmapTest block = true ↔
      c.heap.allocMmapTest block = true ∧ ¬ c.Owns p block := by
  obtain ⟨first, rfl, _, howns, heq⟩ := h.kfree_spec hlive
  rw [heq, howns, allocMmapTest, releaseRun_memoryMap, WordMap.test_unsetRun]
  simp only [Bool.and_eq_true, Bool.not_eq_true', decide_eq_false_iff_not]
  exact and_comm

theorem Inv.kfree (h : Inv c) {p size : BitVec 32} (hlive : c.live p = some size) :
    Inv (c.apply (.kfree p)) := by
  obtain ⟨first, hp, hfirst, howns, heq⟩ := h.kfree_spec hlive
  have hmemory : (c.apply (.kfree p)).heap.memory = c.heap.memory := by
    show (c.heap.kfree p).memory = _
    rw [heq, releaseRun_memory]
  have hheader : ∀ q, (c.apply (.kfree p)).header q = c.header q := by
    intro q
    rw [header, hmemory, header]
  have hlive' : ∀ q, (c.apply (.kfree p)).live q = if q = p then none else c.live q := fun q =>
    Function.update_apply _ _ _ _
  refine ⟨fun q size' hq => ?_, ?_, ?_⟩
  · rw [hlive'] at hq
    split at hq
    · exact absurd hq (by simp)
    · rw [hheader]
      exact h.placed q size' hq
  · refine h.balanced.close {p} {p} (Set.Subset.refl _) (fun q block => ?_) (fun block => ?_)
      (fun block => ?_)
    · unfold Owns
      rw [hlive', hheader, Set.mem_singleton_iff]
      by_cases hsame : q = p
      · simp [hsame]
      · simp [hsame]
    · simp
    · show (c.heap.kfree p).allocMmapTest block = true ↔ _
      rw [h.freed hlive]
      simp
  · have hset : ∀ block, first ≤ block → block < first + blocksFor size →
        c.heap.memoryMap.test block = true := fun block hlo hhi =>
      h.balanced.used_of_holds ((howns block).mpr ⟨hlo, hhi⟩)
    have hones := WordMap.ones_unsetRun c.heap.memoryMap hfirst hset
    have hcounted := h.counted
    have hle := WordMap.ones_le c.heap.memoryMap 262144
    show (c.heap.kfree p).usedBlocks.toNat = (c.heap.kfree p).memoryMap.ones 262144
    rw [heq, releaseRun_usedBlocks, releaseRun_memoryMap, BitVec.toNat_sub, BitVec.toNat_ofNat]
    omega

/-- A client's write reaches no header. -/
theorem Inv.write (h : Inv c) {p size offset : BitVec 32} (hlive : c.live p = some size)
    (hoffset : offset.toNat < size.toNat) (value : BitVec 8) :
    Inv (c.apply (.write p offset value)) := by
  obtain ⟨first, rfl, hfirst, howns⟩ := h.owns hlive
  have hpos := blocksFor_pos size
  have hsize : size.toNat + 4 ≤ 8 * blocksFor size := by
    unfold blocksFor
    omega
  have haddr : (pointer first + offset).toNat = 0xC0300000 + 8 * first + 4 + offset.toNat := by
    rw [BitVec.toNat_add, toNat_pointer (by omega)]
    omega
  have hheader : ∀ q size', c.live q = some size' →
      (c.apply (.write (pointer first) offset value)).header q = c.header q := by
    intro q size' hq
    obtain ⟨other, rfl, hother, howns'⟩ := h.owns hq
    have hpos' := blocksFor_pos size'
    refine ByteMemory.loadWord_congr fun k hk => Function.update_of_ne (fun heq => ?_) _ _
    have hbyte := toNat_headerByte (show other < 262144 by omega) hk
    rw [heq, haddr] at hbyte
    -- the byte lies in the first block of the other allocation and behind the header of this one
    have hmine : c.Owns (pointer first) other := (howns other).mpr ⟨by omega, by omega⟩
    have hother' : c.Owns (pointer other) other := (howns' other).mpr ⟨by omega, by omega⟩
    obtain rfl := pointer_injective (by omega) (by omega) (h.balanced.apart hmine hother')
    omega
  refine ⟨fun q size' hq => ?_, h.balanced.congr (fun q block => ?_) (fun block => Iff.rfl), h.counted⟩
  · obtain ⟨other, hq', hother, hsize', hheader'⟩ := h.placed q size' hq
    exact ⟨other, hq', hother, hsize', (hheader q size' hq).trans hheader'⟩
  · refine and_congr_right fun hsome => ?_
    obtain ⟨size', hsize'⟩ := Option.isSome_iff_exists.mp hsome
    rw [hheader q size' hsize']

theorem Inv.step {op : Op} {c' : Clients} (h : Inv c) (hstep : Step c op c') : Inv c' := by
  obtain ⟨hallowed, rfl⟩ := hstep
  cases op with
  | kmalloc size => exact h.kmalloc hallowed
  | kfree p =>
    rcases hlive : c.live p with _ | size
    · -- only the null pointer is freed without being held
      have hzero : p = 0#32 := by
        rcases hallowed with hzero | hsome
        · exact hzero
        · rw [hlive] at hsome
          exact Bool.noConfusion hsome
      have hsame : c.apply (.kfree p) = c := by
        show Clients.mk (c.heap.kfree p) (Function.update c.live p none) = c
        rw [← hlive, Function.update_eq_self, Heap.kfree, if_neg (by simpa using hzero)]
      rw [hsame]
      exact h
    · exact h.kfree hlive
  | write p offset value =>
    obtain ⟨size, hlive, hoffset⟩ := hallowed
    exact h.write hlive hoffset value

end Step

/-! ### Every run -/

theorem inv_start (memory : ByteMemory) : Inv (start memory) where
  placed p size hlive := absurd hlive (by simp [start])
  balanced := by
    have hnone : ∀ p block, ¬ (start memory).Owns p block := fun p block howns => Bool.noConfusion howns.1
    have hclear : ∀ block, (start memory).heap.allocMmapTest block = false := by
      intro block
      simp [start, empty, allocMmapTest, WordMap.test]
    refine ⟨fun h _ => absurd h (hnone _ _), fun _ h => hnone _ _ h, fun block => ?_⟩
    simp [hnone, hclear]
  counted := by
    have hclear : ∀ block, WordMap.test (fun _ => 0#32) block = false := by
      intro block
      simp [WordMap.test]
    show (0#32).toNat = WordMap.ones (fun _ => 0#32) 262144
    rw [WordMap.ones]
    simp [hclear]

theorem Inv.sound {c : Clients} (h : Inv c) : Sound c where
  placed p size hlive := by
    obtain ⟨first, rfl, hfirst, howns⟩ := h.owns hlive
    have hpos := blocksFor_pos size
    have hceiling : ceiling.toNat = 0xC0500000 := rfl
    refine ⟨first, toNat_pointer (by omega), ?_, howns⟩
    rw [toNat_base, hceiling]
    omega
  disjoint _ _ _ hp hq := h.balanced.apart hp hq
  bits block := by
    rw [h.balanced.used_iff]
    simp
  counted := h.counted
  freed p hsome block := by
    obtain ⟨size, hsize⟩ := Option.isSome_iff_exists.mp hsome
    exact h.freed hsize block

/-- In every state of every run from the empty heap, each live allocation owns the blocks its size needs,
right behind each other, with its pointer four bytes into the first; allocations share no block; the set bits
are the owned blocks, and the counter counts them; and freeing an allocation clears its blocks. -/
theorem sound_of_run {memory : ByteMemory} {ops : List Op} {c : Clients}
    (hrun : Transition.Run Step (start memory) ops c) : Sound c :=
  (hrun.invariant Inv (fun _ _ _ h hstep => h.step hstep) (inv_start memory)).sound

/-- Two blocks for twelve bytes, the last of which is written before both are freed. -/
theorem sound_of_run_twelve_bytes :
    Sound ((((start fun _ => 0#8).apply (.kmalloc 12#32)).apply
      (.write 0xC0300004#32 11#32 0xFF#8)).apply (.kfree 0xC0300004#32)) := by
  have hlive : ((start fun _ => 0#8).apply (.kmalloc 12#32)).live 0xC0300004#32 = some 12#32 := by
    decide +kernel
  generalize hc : (start fun _ => 0#8).apply (.kmalloc 12#32) = c at hlive ⊢
  have hkmalloc : Step (start fun _ => 0#8) (.kmalloc 12#32) c :=
    ⟨show (12#32).toNat ≤ 0xFFFFFFF4 by decide, hc.symm⟩
  have hwrite : c.Allowed (.write 0xC0300004#32 11#32 0xFF#8) := ⟨12#32, hlive, by decide⟩
  have hfree : (c.apply (.write 0xC0300004#32 11#32 0xFF#8)).Allowed (.kfree 0xC0300004#32) :=
    Or.inr (Option.isSome_iff_exists.mpr ⟨_, hlive⟩)
  exact sound_of_run (.cons hkmalloc (.cons ⟨hwrite, rfl⟩ (.cons ⟨hfree, rfl⟩ (.nil _))))

end Clients

end Akos.Heap
