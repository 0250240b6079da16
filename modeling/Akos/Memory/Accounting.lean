import Akos.Lib.Transition
import Akos.Memory.Pmm
import Mathlib.Data.Set.Insert

/-!
# What the block counter of the memory manager counts

Runs of the calls that change the frame map: regions released and reserved, frames handed out and given
back. The counter and the map are changed separately and nothing compares them, so they stay in step
exactly while no call releases a frame that is free, reserves one that is used, or goes past the end of
memory. `Tidy` is that condition on one call.
-/

namespace Akos.Pmm

/-- The manager and the frames its clients hold: handed out and not released since. -/
structure Clients where
  pmm : Pmm
  held : Set Nat

/-- The calls that change the frame map. -/
inductive Op
  | initRegion (base size : BitVec 32)
  | deinitRegion (base size : BitVec 32)
  | allocBlock
  | allocBlocks (seqLen : Int)
  | freeBlock (p : BitVec 32)
  | freeBlocks (p : BitVec 32) (seqLen : Int)

/-- A run of frames. -/
def frameRun (first n : Nat) : Set Nat := {f | first ≤ f ∧ f < first + n}

/-- The frames a region call goes through. -/
def regionFrames (s : Pmm) (base size : BitVec 32) : Set Nat :=
  {f | ¬ s.aboveMemory base ∧ frameOf base ≤ f ∧ f < frameOf base + regionBlocks size}

def Clients.apply (c : Clients) : Op → Clients
  | .initRegion base size =>
    ⟨c.pmm.pmmngrInitRegion base size, c.held \ c.pmm.regionFrames base size⟩
  | .deinitRegion base size => ⟨c.pmm.pmmngrDeinitRegion base size, c.held⟩
  | .allocBlock =>
    let r := c.pmm.pmmngrAllocBlock
    ⟨r.2, if r.1 = 0#32 then c.held else c.held ∪ frameRun (frameOf r.1) 1⟩
  | .allocBlocks seqLen =>
    let r := c.pmm.pmmngrAllocBlocks seqLen
    ⟨r.2, if r.1 = 0#32 then c.held else c.held ∪ frameRun (frameOf r.1) seqLen.toNat⟩
  | .freeBlock p => ⟨c.pmm.pmmngrFreeBlock p, c.held \ frameRun (frameOf p) 1⟩
  | .freeBlocks p seqLen =>
    ⟨c.pmm.pmmngrFreeBlocks p seqLen, c.held \ frameRun (frameOf p) seqLen.toNat⟩

/-- Clients give back only what they hold. -/
def Clients.Allowed (c : Clients) : Op → Prop
  | .freeBlock p => frameRun (frameOf p) 1 ⊆ c.held
  | .freeBlocks p seqLen => frameRun (frameOf p) seqLen.toNat ⊆ c.held
  | _ => True

/-- Frames that lie in the whole 32-bit words below the block count, which the searches look at. -/
def InSearch (s : Pmm) (frame : Nat) : Prop := (frame : Int) < 32 * s.pmmngrGetBlockCount.tdiv 32

instance (s : Pmm) (frame : Nat) : Decidable (s.InSearch frame) :=
  inferInstanceAs (Decidable (_ < _))

/-- A region call is tidy when it releases only used frames that the searches can find again, never
frame 0, and reserves only free frames of memory. -/
def Clients.Tidy (c : Clients) : Op → Prop
  | .initRegion base size => ∀ f ∈ c.pmm.regionFrames base size,
      0 < f ∧ c.pmm.InSearch f ∧ c.pmm.mmapTest f = true
  | .deinitRegion base size => ∀ f ∈ c.pmm.regionFrames base size,
      f < c.pmm.maxBlocks.toNat ∧ c.pmm.mmapTest f = false
  | _ => True

def Clients.Step (c : Clients) (op : Op) (c' : Clients) : Prop := c.Allowed op ∧ c' = c.apply op

def Clients.TidyStep (c : Clients) (op : Op) (c' : Clients) : Prop := c.Tidy op ∧ c.Step op c'

/-- The state `pmmngr_init` leaves, with nothing handed out. -/
def Clients.start (memSize : BitVec 32) (bitmap : WordMap) : Clients := ⟨pmmngrInit memSize bitmap, ∅⟩

/-- The bits of frames in a last partial byte of the map, which no `memset` reaches, happen to be set. -/
def TailSet (memSize : BitVec 32) (bitmap : WordMap) : Prop :=
  ∀ f < (pmmngrInit memSize bitmap).maxBlocks.toNat,
    8 * ((blockCount memSize).tdiv blocksPerByte).toNat ≤ f → bitmap.test f = true

/-- The counter counts the used frames of memory, nothing beyond memory is touched, and memory runs out
only when every frame is used. -/
structure Accounted (bitmap : WordMap) (s : Pmm) : Prop where
  used : s.usedBlocks.toNat = s.memoryMap.ones s.maxBlocks.toNat
  beyond : ∀ f, s.maxBlocks.toNat ≤ f → s.mmapTest f = bitmap.test f
  outOfMemory : s.pmmngrAllocBlock.1 = 0#32 → ∀ f < s.maxBlocks.toNat, s.mmapTest f = true

/-- What tidy calls keep. -/
structure TidyInv (bitmap : WordMap) (c : Clients) : Prop where
  lower : -(2 ^ 19) ≤ c.pmm.pmmngrGetBlockCount
  upper : c.pmm.pmmngrGetBlockCount < 2 ^ 19
  used : c.pmm.usedBlocks.toNat = c.pmm.memoryMap.ones c.pmm.maxBlocks.toNat
  beyond : ∀ f, c.pmm.maxBlocks.toNat ≤ f → c.pmm.mmapTest f = bitmap.test f
  zero : 0 < c.pmm.maxBlocks.toNat → c.pmm.mmapTest 0 = true
  searched : ∀ f < c.pmm.maxBlocks.toNat, c.pmm.mmapTest f = false → c.pmm.InSearch f
  held : ∀ f ∈ c.held, 0 < f ∧ c.pmm.InSearch f ∧ c.pmm.mmapTest f = true

/-! ### The block count as a number -/

theorem InSearch.lt_maxBlocks {s : Pmm} {f : Nat} (h : s.InSearch f) :
    f < s.maxBlocks.toNat ∧ 0 ≤ s.pmmngrGetBlockCount := by
  have hsign : Int.sign 32 = 1 := rfl
  have htoInt := BitVec.toInt_eq_toNat_cond s.maxBlocks
  unfold InSearch pmmngrGetBlockCount at *
  rw [Int.tdiv_eq_ediv, hsign] at h
  split at h <;> split at htoInt <;> omega

theorem inSearch_iff_lt_searchWords {s : Pmm} (hcount : 0 ≤ s.pmmngrGetBlockCount) (f : Nat) :
    s.InSearch f ↔ f < 32 * s.searchWords := by
  have hlt := BitVec.toInt_lt (x := s.maxBlocks)
  unfold InSearch searchWords
  rw [Int.tdiv_eq_ediv_of_nonneg hcount, BitVec.toNat_ofInt]
  unfold pmmngrGetBlockCount at *
  omega

theorem InSearch.congr {s s' : Pmm} (h : s'.maxBlocks = s.maxBlocks) {f : Nat} :
    s'.InSearch f ↔ s.InSearch f := by
  unfold InSearch pmmngrGetBlockCount
  rw [h]

theorem toInt_nonneg_toNat {x : BitVec 32} (h : 0 ≤ x.toInt) : (x.toNat : Int) = x.toInt := by
  have htoInt := BitVec.toInt_eq_toNat_cond x
  have hx := x.isLt
  split at htoInt <;> omega

/-! ### One tidy call -/

section Step

variable {bitmap : WordMap} {c : Clients}

theorem TidyInv.used_le (h : TidyInv bitmap c) :
    c.pmm.usedBlocks.toNat ≤ c.pmm.maxBlocks.toNat := by
  rw [h.used]
  exact WordMap.ones_le _ _

/-- The counter says that memory is out only when every frame is used. -/
theorem TidyInv.free_count_pos (h : TidyInv bitmap c) {f : Nat} (hf : f < c.pmm.maxBlocks.toNat)
    (hclear : c.pmm.mmapTest f = false) : 0 < c.pmm.pmmngrGetFreeBlockCount := by
  have hcount := (h.searched f hf hclear).lt_maxBlocks.2
  have hlt := WordMap.ones_lt_of_clear c.pmm.memoryMap hf hclear
  rw [← h.used] at hlt
  have hmax := toInt_nonneg_toNat hcount
  have hupper := h.upper
  unfold pmmngrGetFreeBlockCount
  have hsub : (c.pmm.maxBlocks - c.pmm.usedBlocks).toNat
      = c.pmm.maxBlocks.toNat - c.pmm.usedBlocks.toNat :=
    BitVec.toNat_sub_of_le (BitVec.le_def.mpr h.used_le)
  have hpos : 0 ≤ (c.pmm.maxBlocks - c.pmm.usedBlocks).toInt := by
    rw [BitVec.toInt_eq_toNat_cond, hsub]
    unfold pmmngrGetBlockCount at *
    split <;> omega
  rw [← toInt_nonneg_toNat hpos, hsub]
  omega

theorem TidyInv.all_used_of_free_count (h : TidyInv bitmap c)
    (hout : c.pmm.pmmngrGetFreeBlockCount ≤ 0) :
    ∀ f < c.pmm.maxBlocks.toNat, c.pmm.mmapTest f = true := by
  intro f hf
  by_contra hne
  have hpos := h.free_count_pos hf (by simpa using hne)
  omega

/-- While the counter leaves room, the searches look at frames of memory only. -/
theorem TidyInv.count_nonneg (h : TidyInv bitmap c) (hroom : 0 < c.pmm.pmmngrGetFreeBlockCount) :
    0 ≤ c.pmm.pmmngrGetBlockCount := by
  by_contra hneg
  have hall : ∀ f < c.pmm.maxBlocks.toNat, c.pmm.mmapTest f = true := by
    intro f hf
    by_contra hne
    exact hneg (h.searched f hf (by simpa using hne)).lt_maxBlocks.2
  have hones := WordMap.ones_eq_of_all c.pmm.memoryMap hall
  have heq : c.pmm.usedBlocks = c.pmm.maxBlocks := BitVec.eq_of_toNat_eq (h.used.trans hones)
  unfold pmmngrGetFreeBlockCount at hroom
  rw [heq, BitVec.sub_self] at hroom
  exact absurd hroom (by decide)

/-- Reserving a run of free frames of memory counts each of them once. -/
theorem TidyInv.occupyRun (h : TidyInv bitmap c) {first n : Nat} {held : Set Nat}
    (hbound : ∀ f ∈ frameRun first n, f < c.pmm.maxBlocks.toNat)
    (hclear : c.pmm.memoryMap.ClearRun first n)
    (hheld : ∀ f ∈ held, f ∈ c.held ∨ f ∈ frameRun first n) :
    TidyInv bitmap ⟨c.pmm.occupyRun first n, held⟩ := by
  have hmono : ∀ f, c.pmm.mmapTest f = true → (c.pmm.occupyRun first n).mmapTest f = true := by
    intro f hf
    rw [mmapTest_occupyRun, hf, Bool.or_true]
  have hsearch : ∀ f ∈ frameRun first n, c.pmm.InSearch f := fun f hf =>
    h.searched f (hbound f hf) (hclear f hf.1 hf.2)
  have hones : 0 < n → first + n ≤ c.pmm.maxBlocks.toNat := by
    intro hn
    have := hbound (first + n - 1) ⟨by omega, by omega⟩
    omega
  refine ⟨by simpa using h.lower, by simpa using h.upper, ?_, ?_, ?_, ?_, ?_⟩
  · rcases Nat.eq_zero_or_pos n with rfl | hn
    · simpa [Pmm.occupyRun] using h.used
    · have hcount := WordMap.ones_setRun c.pmm.memoryMap (hones hn) hclear
      have hle := WordMap.ones_le (c.pmm.memoryMap.setRun first n) c.pmm.maxBlocks.toNat
      have hlt := c.pmm.maxBlocks.isLt
      simp only [occupyRun_usedBlocks, occupyRun_memoryMap, occupyRun_maxBlocks, BitVec.toNat_add,
        BitVec.toNat_ofNat, h.used]
      omega
  · intro f hf
    simp only [occupyRun_maxBlocks] at hf
    simp only
    rw [mmapTest_occupyRun, decide_eq_false (fun hrun => by
      have := hbound f hrun
      omega), Bool.false_or]
    exact h.beyond f hf
  · intro hpos
    exact hmono 0 (h.zero (by simpa using hpos))
  · intro f hf hfree
    rw [InSearch.congr (occupyRun_maxBlocks _ _ _)]
    refine h.searched f (by simpa using hf) ?_
    by_contra hused
    simp only at hfree
    rw [hmono f (by simpa using hused)] at hfree
    exact Bool.noConfusion hfree
  · intro f hf
    rw [InSearch.congr (occupyRun_maxBlocks _ _ _)]
    rcases hheld f hf with hold | hnew
    · obtain ⟨hpos, hin, hset⟩ := h.held f hold
      exact ⟨hpos, hin, hmono f hset⟩
    · refine ⟨?_, hsearch f hnew, ?_⟩
      · rcases Nat.eq_zero_or_pos f with rfl | hpos
        · have hzero := h.zero (by have := hbound 0 hnew; omega)
          rw [mmapTest, hclear 0 hnew.1 hnew.2] at hzero
          exact Bool.noConfusion hzero
        · exact hpos
      · simp only
        rw [mmapTest_occupyRun, decide_eq_true (show first ≤ f ∧ f < first + n from hnew), Bool.true_or]

/-- Releasing a run of used frames other than frame 0 takes each of them off once. -/
theorem TidyInv.releaseRun (h : TidyInv bitmap c) {first n : Nat} {held : Set Nat}
    (hrun : ∀ f ∈ frameRun first n, 0 < f ∧ c.pmm.InSearch f ∧ c.pmm.mmapTest f = true)
    (hheld : ∀ f ∈ held, f ∈ c.held ∧ f ∉ frameRun first n) :
    TidyInv bitmap ⟨c.pmm.releaseRun first n, held⟩ := by
  have hkeep : ∀ f, f ∉ frameRun first n → (c.pmm.releaseRun first n).mmapTest f = c.pmm.mmapTest f := by
    intro f hf
    rw [mmapTest_releaseRun, decide_eq_false (show ¬ (first ≤ f ∧ f < first + n) from hf)]
    rfl
  have hbound : 0 < n → first + n ≤ c.pmm.maxBlocks.toNat := by
    intro hn
    have := (hrun (first + n - 1) ⟨by omega, by omega⟩).2.1.lt_maxBlocks.1
    omega
  refine ⟨by simpa using h.lower, by simpa using h.upper, ?_, ?_, ?_, ?_, ?_⟩
  · rcases Nat.eq_zero_or_pos n with rfl | hn
    · simpa [Pmm.releaseRun] using h.used
    · have hcount := WordMap.ones_unsetRun c.pmm.memoryMap (hbound hn)
        (fun f hlo hhi => (hrun f ⟨hlo, hhi⟩).2.2)
      have hused := h.used
      have hlt := c.pmm.usedBlocks.isLt
      simp only [releaseRun_usedBlocks, releaseRun_memoryMap, releaseRun_maxBlocks, BitVec.toNat_sub,
        BitVec.toNat_ofNat]
      omega
  · intro f hf
    simp only [releaseRun_maxBlocks] at hf
    have hnot : f ∉ frameRun first n := by
      intro hmem
      have := (hrun f hmem).2.1.lt_maxBlocks.1
      omega
    exact (hkeep f hnot).trans (h.beyond f hf)
  · intro hpos
    have hnot : 0 ∉ frameRun first n := fun hmem => absurd (hrun 0 hmem).1 (lt_irrefl 0)
    exact (hkeep 0 hnot).trans (h.zero (by simpa using hpos))
  · intro f hf hfree
    rw [InSearch.congr (releaseRun_maxBlocks _ _ _)]
    by_cases hmem : f ∈ frameRun first n
    · exact (hrun f hmem).2.1
    · exact h.searched f (by simpa using hf) ((hkeep f hmem).symm.trans hfree)
  · intro f hf
    rw [InSearch.congr (releaseRun_maxBlocks _ _ _)]
    obtain ⟨hold, hnot⟩ := hheld f hf
    obtain ⟨hpos, hin, hset⟩ := h.held f hold
    exact ⟨hpos, hin, (hkeep f hnot).trans hset⟩

theorem TidyInv.allocBlock (h : TidyInv bitmap c) : TidyInv bitmap (c.apply .allocBlock) := by
  rw [Clients.apply]
  rcases c.pmm.pmmngrAllocBlock_cases with ⟨frame, hroom, hfind, heq⟩ | ⟨_, heq⟩
  · obtain ⟨hlt, hclear, _⟩ := WordMap.firstClear_eq_some hfind
    have hin := (inSearch_iff_lt_searchWords (h.count_nonneg hroom) frame).mpr hlt
    have hframe : ∀ f ∈ frameRun frame 1, f = frame := by
      intro f hf
      have := hf.1
      have := hf.2
      omega
    have haddr : frameOf (BitVec.ofNat 32 frame * blockSize) = frame := by
      have hupper := h.upper
      have hsign : Int.sign 32 = 1 := rfl
      refine frameOf_mul_blockSize ?_
      unfold InSearch at hin
      rw [Int.tdiv_eq_ediv_of_nonneg (h.count_nonneg hroom)] at hin
      omega
    rw [heq]
    refine h.occupyRun ?_ ?_ ?_
    · intro f hf
      rw [hframe f hf]
      exact hin.lt_maxBlocks.1
    · intro f hlo hhi
      rwa [show f = frame by omega]
    · intro f hf
      rw [haddr] at hf
      split at hf
      · exact Or.inl hf
      · exact hf
  · rw [heq]
    exact h

theorem TidyInv.allocBlocks (h : TidyInv bitmap c) (seqLen : Int) :
    TidyInv bitmap (c.apply (.allocBlocks seqLen)) := by
  rw [Clients.apply]
  rcases c.pmm.pmmngrAllocBlocks_cases seqLen with ⟨frame, hroom, hfind, heq⟩ | ⟨_, heq⟩
  · rw [heq]
    rcases lt_or_ge 0 seqLen with hpos | hnone
    · have hcast : ((seqLen.toNat : Nat) : Int) = seqLen := Int.toNat_of_nonneg (by omega)
      have hwant : 0 < seqLen.toNat := by omega
      have hrun : c.pmm.memoryMap.LeastRun seqLen.toNat (32 * c.pmm.searchWords) frame := by
        refine WordMap.firstClearRun_eq_some hwant ?_
        rw [hcast]
        exact hfind
      have hin : ∀ f ∈ frameRun frame seqLen.toNat, c.pmm.InSearch f := by
        intro f hf
        rw [inSearch_iff_lt_searchWords (h.count_nonneg hroom)]
        exact lt_of_lt_of_le hf.2 hrun.1
      have haddr : frameOf (BitVec.ofNat 32 frame * blockSize) = frame := by
        have hupper := h.upper
        have hframe := hin frame ⟨le_rfl, by omega⟩
        refine frameOf_mul_blockSize ?_
        unfold InSearch at hframe
        rw [Int.tdiv_eq_ediv_of_nonneg (h.count_nonneg hroom)] at hframe
        omega
      refine h.occupyRun (fun f hf => (hin f hf).lt_maxBlocks.1) hrun.2.1 ?_
      intro f hf
      rw [haddr] at hf
      split at hf
      · exact Or.inl hf
      · exact hf
    · -- a count of 0 or less marks no frame
      have hzero : seqLen.toNat = 0 := by omega
      have hempty : ∀ first f, f ∉ frameRun first 0 := by
        intro first f hf
        have := hf.1
        have := hf.2
        omega
      rw [hzero]
      refine h.occupyRun (fun f hf => absurd hf (hempty _ f)) (fun f hlo hhi => by omega) ?_
      intro f hf
      split at hf
      · exact Or.inl hf
      · exact Or.inl (hf.resolve_right (hempty _ f))
  · rw [heq]
    exact h

theorem TidyInv.initRegion (h : TidyInv bitmap c) {base size : BitVec 32}
    (htidy : c.Tidy (.initRegion base size)) : TidyInv bitmap (c.apply (.initRegion base size)) := by
  unfold Clients.apply pmmngrInitRegion
  by_cases habove : c.pmm.aboveMemory base
  · have hempty : c.pmm.regionFrames base size = ∅ :=
      Set.eq_empty_of_forall_notMem fun f hf => hf.1 habove
    simp only [if_pos habove, hempty, Set.sdiff_empty]
    exact h
  · have hframes : c.pmm.regionFrames base size = frameRun (frameOf base) (regionBlocks size) := by
      ext f
      simp [regionFrames, frameRun, habove]
    have hrun : TidyInv bitmap ⟨c.pmm.releaseRun (frameOf base) (regionBlocks size),
        c.held \ c.pmm.regionFrames base size⟩ :=
      h.releaseRun (fun f hf => htidy f (by rwa [hframes]))
        (fun f hf => ⟨hf.1, by rw [← hframes]; exact hf.2⟩)
    have hpos : 0 < c.pmm.maxBlocks.toNat := by
      by_contra hzero
      have hmax : c.pmm.maxBlocks = 0#32 := BitVec.eq_of_toNat_eq (by simp; omega)
      apply habove
      unfold aboveMemory pmmngrGetBlockCount
      rw [hmax, BitVec.toInt_zero, Int.zero_tdiv]
      exact Int.natCast_nonneg _
    -- frame 0 was set all along, so setting it again changes nothing
    have hset : ∀ f, ((c.pmm.releaseRun (frameOf base) (regionBlocks size)).memoryMap.set 0).test f
        = (c.pmm.releaseRun (frameOf base) (regionBlocks size)).mmapTest f := by
      intro f
      rw [WordMap.test_set]
      by_cases hf : 0 = f
      · subst hf
        rw [hrun.zero (by simpa using hpos)]
        rfl
      · rw [decide_eq_false hf, Bool.false_or]
    simp only [if_neg habove]
    refine ⟨hrun.lower, hrun.upper, ?_, ?_, ?_, ?_, ?_⟩
    · rw [hrun.used]
      exact WordMap.ones_congr fun f _ => (hset f).symm
    · exact fun f hf => (hset f).trans (hrun.beyond f hf)
    · exact fun hpos' => (hset 0).trans (hrun.zero hpos')
    · exact fun f hf hfree => hrun.searched f hf ((hset f).symm.trans hfree)
    · intro f hf
      obtain ⟨hpos', hin, htest⟩ := hrun.held f hf
      exact ⟨hpos', hin, (hset f).trans htest⟩

theorem TidyInv.deinitRegion (h : TidyInv bitmap c) {base size : BitVec 32}
    (htidy : c.Tidy (.deinitRegion base size)) :
    TidyInv bitmap (c.apply (.deinitRegion base size)) := by
  unfold Clients.apply pmmngrDeinitRegion
  by_cases habove : c.pmm.aboveMemory base
  · simp only [if_pos habove]
    exact h
  · have hframes : ∀ f ∈ frameRun (frameOf base) (regionBlocks size),
        f ∈ c.pmm.regionFrames base size := fun f hf => ⟨habove, hf.1, hf.2⟩
    simp only [if_neg habove]
    exact h.occupyRun (fun f hf => (htidy f (hframes f hf)).1)
      (fun f hlo hhi => (htidy f (hframes f ⟨hlo, hhi⟩)).2) (fun f hf => Or.inl hf)

theorem TidyInv.step {op : Op} {c' : Clients} (h : TidyInv bitmap c) (hstep : c.TidyStep op c') :
    TidyInv bitmap c' := by
  obtain ⟨htidy, hallowed, rfl⟩ := hstep
  cases op with
  | initRegion base size => exact h.initRegion htidy
  | deinitRegion base size => exact h.deinitRegion htidy
  | allocBlock => exact h.allocBlock
  | allocBlocks seqLen => exact h.allocBlocks seqLen
  | freeBlock p =>
    exact h.releaseRun (fun f hf => h.held f (hallowed hf)) (fun f hf => hf)
  | freeBlocks p seqLen =>
    exact h.releaseRun (fun f hf => h.held f (hallowed hf)) (fun f hf => hf)

/-- The invariant says all that the accounting asks for. -/
theorem TidyInv.accounted (h : TidyInv bitmap c) : Accounted bitmap c.pmm := by
  refine ⟨h.used, h.beyond, fun hout f hf => ?_⟩
  rcases c.pmm.pmmngrAllocBlock_cases with ⟨frame, hroom, hfind, heq⟩ | ⟨hfail, heq⟩
  · -- an allocation that finds a frame returns its address, which is not 0
    obtain ⟨hlt, hclear, _⟩ := WordMap.firstClear_eq_some hfind
    have hin := (inSearch_iff_lt_searchWords (h.count_nonneg hroom) frame).mpr hlt
    have hzero := h.zero (by have := hin.lt_maxBlocks.1; omega)
    have hne : frame ≠ 0 := by
      rintro rfl
      rw [mmapTest, hclear] at hzero
      exact Bool.noConfusion hzero
    rw [heq] at hout
    have haddr := congrArg frameOf hout
    rw [frameOf_mul_blockSize] at haddr
    · exact absurd haddr hne
    · have hupper := h.upper
      unfold InSearch at hin
      rw [Int.tdiv_eq_ediv_of_nonneg (h.count_nonneg hroom)] at hin
      omega
  · rcases hfail with hroom | hnone
    · exact h.all_used_of_free_count hroom f hf
    · by_contra hfree
      have hclear : c.pmm.mmapTest f = false := by simpa using hfree
      have hin := h.searched f hf hclear
      have hlt := (inSearch_iff_lt_searchWords hin.lt_maxBlocks.2 f).mp hin
      rw [mmapTest, WordMap.firstClear_eq_none hnone f hlt] at hclear
      exact Bool.noConfusion hclear

end Step

/-! ### Whole runs -/

theorem tidyInv_start {memSize : BitVec 32} {bitmap : WordMap} (htail : TailSet memSize bitmap) :
    TidyInv bitmap (Clients.start memSize bitmap) := by
  have hcount := pmmngrInit_blockCount memSize bitmap
  obtain ⟨hlo, hhi⟩ := blockCount_bounds memSize
  have hmax : (pmmngrInit memSize bitmap).maxBlocks.toInt = blockCount memSize := hcount
  have htest : ∀ f, (pmmngrInit memSize bitmap).mmapTest f
      = (decide (f < 8 * ((blockCount memSize).tdiv blocksPerByte).toNat) || bitmap.test f) := by
    intro f
    have hbytes : (BitVec.ofInt 32 (blockCount memSize)).toInt = blockCount memSize := hcount
    simp only [mmapTest, pmmngrInit, WordMap.test_setRun, hbytes, Nat.zero_le, true_and, Nat.zero_add]
  have hall : ∀ f < (pmmngrInit memSize bitmap).maxBlocks.toNat,
      (pmmngrInit memSize bitmap).mmapTest f = true := by
    intro f hf
    rw [htest]
    by_cases hlt : f < 8 * ((blockCount memSize).tdiv blocksPerByte).toNat
    · simp [hlt]
    · simp [hlt, htail f hf (by omega)]
  have hcover : 8 * ((blockCount memSize).tdiv blocksPerByte).toNat
      ≤ (pmmngrInit memSize bitmap).maxBlocks.toNat := by
    have hsign : Int.sign 8 = 1 := rfl
    have htoInt := BitVec.toInt_eq_toNat_cond (pmmngrInit memSize bitmap).maxBlocks
    have hlt := (pmmngrInit memSize bitmap).maxBlocks.isLt
    rw [hmax] at htoInt
    rw [blocksPerByte, Int.tdiv_eq_ediv, hsign]
    split at htoInt <;> split <;> omega
  refine ⟨by rw [← hcount] at hlo; exact hlo, by rw [← hcount] at hhi; exact hhi, ?_, ?_, hall 0, ?_, ?_⟩
  · exact (WordMap.ones_eq_of_all _ hall).symm
  · intro f hf
    change (pmmngrInit memSize bitmap).maxBlocks.toNat ≤ f at hf
    refine (htest f).trans ?_
    rw [decide_eq_false (by omega), Bool.false_or]
  · intro f hf hfree
    rw [show (Clients.start memSize bitmap).pmm.mmapTest f = true from hall f hf] at hfree
    exact Bool.noConfusion hfree
  · intro f hf
    exact absurd hf (Set.notMem_empty f)

/-- While every region call of a run is tidy, the counter counts the used frames, no bit beyond memory
changes, and an allocation fails only when every frame is used. -/
theorem accounted_of_tidy_run {memSize : BitVec 32} {bitmap : WordMap} {ops : List Op} {c : Clients}
    (htail : TailSet memSize bitmap)
    (hrun : Transition.Run Clients.TidyStep (Clients.start memSize bitmap) ops c) :
    Accounted bitmap c.pmm :=
  (hrun.invariant (TidyInv bitmap) (fun _ _ _ h hstep => h.step hstep)
    (tidyInv_start htail)).accounted

/-- 128 KB of memory: two frames are released and one of them is handed out again. -/
theorem accounted_of_tidy_run_small :
    Accounted (fun _ => 0#32) ((((Clients.start 128#32 fun _ => 0#32).apply
      (.initRegion 0x1000#32 0x2000#32)).apply .allocBlock)).pmm := by
  have htail : TailSet 128#32 fun _ => 0#32 := by
    intro f hf htail
    have hlt : f < 32 := hf
    have hge : 32 ≤ f := htail
    omega
  have htidy : (Clients.start 128#32 fun _ => 0#32).Tidy (.initRegion 0x1000#32 0x2000#32) := by
    rintro f ⟨_, hlo, hhi⟩
    have hlo' : 1 ≤ f := hlo
    have hhi' : f < 3 := hhi
    rcases (by omega : f = 1 ∨ f = 2) with rfl | rfl <;> exact ⟨by decide, by decide, by decide⟩
  have hrun : Transition.Run Clients.TidyStep (Clients.start 128#32 fun _ => 0#32)
      [.initRegion 0x1000#32 0x2000#32, .allocBlock] _ :=
    .cons ⟨htidy, trivial, rfl⟩ (.cons ⟨trivial, trivial, rfl⟩ (.nil _))
  exact accounted_of_tidy_run htail hrun

/-- Reserving a frame that is already used counts it a second time: 33 frames used out of 32. -/
theorem deinitRegion_counts_twice :
    Transition.Run Clients.Step (Clients.start 128#32 fun _ => 0#32)
      [.deinitRegion 0x1000#32 0x1000#32]
      ((Clients.start 128#32 fun _ => 0#32).apply (.deinitRegion 0x1000#32 0x1000#32)) ∧
    ¬ Accounted (fun _ => 0#32)
      ((Clients.start 128#32 fun _ => 0#32).apply (.deinitRegion 0x1000#32 0x1000#32)).pmm := by
  refine ⟨.single ⟨trivial, rfl⟩, fun h => ?_⟩
  have hused := h.used
  have hcounter : ((Clients.start 128#32 fun _ => 0#32).apply
      (.deinitRegion 0x1000#32 0x1000#32)).pmm.usedBlocks.toNat = 33 := by decide
  have hle := WordMap.ones_le ((Clients.start 128#32 fun _ => 0#32).apply
      (.deinitRegion 0x1000#32 0x1000#32)).pmm.memoryMap 32
  have hmax : ((Clients.start 128#32 fun _ => 0#32).apply
      (.deinitRegion 0x1000#32 0x1000#32)).pmm.maxBlocks.toNat = 32 := by decide
  rw [hmax, hcounter] at hused
  omega

end Akos.Pmm
