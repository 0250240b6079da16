import Akos.Memory.MappedPages

/-!
# The attributes of a new page

`vmmngr_alloc_page` adds attributes to the entry it finds, and no function takes any but the present bit away. What a
new page may do depends on what the entry was used for before.
-/

namespace Akos

namespace Entry

/-- The bits of an entry below the frame's. -/
abbrev attribMask : BitVec 32 := 0xFFF#32

def attributes (e : BitVec 32) : BitVec 32 := e &&& attribMask

theorem getLsbD_attribMask {i : Nat} (h : i < 32) : attribMask.getLsbD i = decide (i < 12) := by
  have hall : ∀ j : Fin 32, attribMask.getLsbD j = decide (j.val < 12) := by decide
  exact hall ⟨i, h⟩

theorem getLsbD_frameMask {i : Nat} (h : i < 32) : frameMask.getLsbD i = decide (12 ≤ i) := by
  have hall : ∀ j : Fin 32, frameMask.getLsbD j = decide (12 ≤ j.val) := by decide
  exact hall ⟨i, h⟩

theorem getLsbD_present {i : Nat} : present.getLsbD i = decide (i = 0) := by
  rw [show present = 1#32 from rfl, BitVec.getLsbD_one]
  simp

/-- A word below 4096 has no bits of the frame. -/
theorem toNat_lt_iff {flags : BitVec 32} : flags.toNat < 4096 ↔ ∀ i < 32, 12 ≤ i → flags.getLsbD i = false := by
  constructor
  · intro h i _ hi
    have hpow : 4096 ≤ 2 ^ i := Nat.pow_le_pow_right (by decide : 0 < 2) hi
    exact Nat.testBit_lt_two_pow (Nat.lt_of_lt_of_le h hpow)
  · intro h
    have hflags : flags = flags &&& attribMask := by
      refine BitVec.eq_of_getLsbD_eq fun i hi => ?_
      rw [BitVec.getLsbD_and, getLsbD_attribMask hi]
      by_cases hlow : i < 12
      · simp [hlow]
      · simp [h i hi (by omega), hlow]
    rw [hflags, BitVec.toNat_and, show attribMask.toNat = 2 ^ 12 - 1 from rfl, Nat.and_two_pow_sub_one_eq_mod]
    omega

/-- The bits of the word that `vmmngr_alloc_page` writes. -/
theorem getLsbD_allocatedWord (e p flags : BitVec 32) {i : Nat} (h : i < 32) :
    (Machine.allocatedWord e p flags).getLsbD i =
      ((if i < 12 then e.getLsbD i else p.getLsbD i) || decide (i = 0) || flags.getLsbD i) := by
  simp only [Machine.allocatedWord, addAttrib, setFrame, delAttrib, BitVec.getLsbD_or, BitVec.getLsbD_and,
    BitVec.getLsbD_not, getLsbD_frameMask h, getLsbD_present]
  by_cases hlow : i < 12
  · simp [hlow, h, Nat.not_le_of_lt hlow]
  · simp [hlow, Nat.le_of_not_lt hlow]

theorem getLsbD_attributes (e : BitVec 32) {i : Nat} (h : i < 32) :
    (attributes e).getLsbD i = (e.getLsbD i && decide (i < 12)) := by
  rw [attributes, BitVec.getLsbD_and, getLsbD_attribMask h]

/-- An attribute that was not asked for is left from an earlier use of the entry. -/
def stale (e flags : BitVec 32) : BitVec 32 := attributes e &&& ~~~(present ||| flags)

/-- The new word has the attributes that were asked for when no other was left, and these were attributes. -/
theorem attributes_allocatedWord_iff (e p flags : BitVec 32) :
    attributes (Machine.allocatedWord e p flags) = present ||| flags ↔ flags.toNat < 4096 ∧ stale e flags = 0#32 := by
  constructor
  · intro h
    have hbit := fun i => congrArg (fun w => BitVec.getLsbD w i) h
    refine ⟨toNat_lt_iff.mpr fun i hi hhigh => ?_, BitVec.eq_of_getLsbD_eq fun i hi => ?_⟩
    · have heq := hbit i
      simp only [getLsbD_attributes _ hi, BitVec.getLsbD_or, getLsbD_present] at heq
      simpa [Nat.not_lt_of_le hhigh, show i ≠ 0 by omega] using heq.symm
    · have heq := hbit i
      simp only [getLsbD_attributes _ hi, getLsbD_allocatedWord e p flags hi, BitVec.getLsbD_or, getLsbD_present] at heq
      simp only [stale, BitVec.getLsbD_and, BitVec.getLsbD_not, BitVec.getLsbD_or, getLsbD_attributes e hi,
        getLsbD_present, BitVec.getLsbD_zero]
      by_cases hlow : i < 12
      · simp only [hlow, hi, if_true, decide_true, Bool.and_true, Bool.true_and] at heq ⊢
        revert heq
        cases e.getLsbD i <;> cases flags.getLsbD i <;> cases decide (i = 0) <;> decide
      · simp [hlow]
  · intro h
    obtain ⟨hflags, hstale⟩ := h
    refine BitVec.eq_of_getLsbD_eq fun i hi => ?_
    have hbit := congrArg (fun w => BitVec.getLsbD w i) hstale
    simp only [stale, BitVec.getLsbD_and, BitVec.getLsbD_not, BitVec.getLsbD_or, getLsbD_attributes e hi,
      getLsbD_present, BitVec.getLsbD_zero] at hbit
    simp only [getLsbD_attributes _ hi, getLsbD_allocatedWord e p flags hi, BitVec.getLsbD_or, getLsbD_present]
    by_cases hlow : i < 12
    · simp only [hlow, hi, if_true, decide_true, Bool.and_true, Bool.true_and] at hbit ⊢
      revert hbit
      cases e.getLsbD i <;> cases flags.getLsbD i <;> cases decide (i = 0) <;> decide
    · have hzero := toNat_lt_iff.mp hflags i hi (by omega)
      simp [hlow, hzero, show i ≠ 0 by omega]

/-- The frame of the new word is the one that was allocated, unless the flags have bits of a frame. -/
theorem pfn_allocatedWord {p flags : BitVec 32} (hp : p.toNat % 4096 = 0) (hflags : flags.toNat < 4096) (e : BitVec 32) :
    pfn (Machine.allocatedWord e p flags) = p := by
  rw [pfn_eq_of_frameOf_eq (Directories.frameOf_allocatedWord e p hflags)]
  refine BitVec.eq_of_toNat_eq ?_
  rw [toNat_pfn, Pmm.frameOf_eq]
  omega

end Entry

namespace Machine

/-- A call that changes what the pages of a directory are mapped to. -/
inductive PageCall
  | allocVirt (virt pdeFlags pteFlags : BitVec 32)
  | mapPage (phys virt pdeFlags pteFlags : BitVec 32)
  | freeVirt (virt : BitVec 32)
  | unmapVirt (virt : BitVec 32)

def perform (m : Machine) (dir : BitVec 32) : PageCall → Machine
  | .allocVirt virt pdeFlags pteFlags => m.vmmngrAllocVirt dir virt pdeFlags pteFlags
  | .mapPage phys virt pdeFlags pteFlags => m.vmmngrMapPage dir phys virt pdeFlags pteFlags
  | .freeVirt virt => m.vmmngrFreeVirt dir virt
  | .unmapVirt virt => m.vmmngrUnmapVirt dir virt

/-- A history of such calls. -/
def performAll (m : Machine) (dir : BitVec 32) (calls : List PageCall) : Machine :=
  calls.foldl (fun m call => m.perform dir call) m

/-- The machine in `vmmngr_alloc_virt` where it looks at the page's entry: the table is entered, if there is a frame
for it, and has its attributes. -/
def withTable (m : Machine) (dir virt pdeFlags : BitVec 32) : Machine :=
  let e := vmmngrPdirectoryLookupEntry dir virt
  let entered := (m.tableForEntry e).2
  entered.store e (pdEntryAddAttrib (entered.memory e) pdeFlags)

/-- The place of the page's entry, behind the entry of the directory. -/
def pagePlace (m : Machine) (dir virt : BitVec 32) : Word :=
  vmmngrPtableLookupEntry (pdEntryPfn (m.memory (vmmngrPdirectoryLookupEntry dir virt))) virt

variable {m : Machine} {dir virt pdeFlags pteFlags : BitVec 32}

/-- The page's entry as `vmmngr_alloc_virt` finds it. -/
def foundWord (m : Machine) (dir virt pdeFlags : BitVec 32) : BitVec 32 :=
  (m.withTable dir virt pdeFlags).memory ((m.withTable dir virt pdeFlags).pagePlace dir virt)

/-- The page's entry as it leaves it. -/
def leftWord (m : Machine) (dir virt pdeFlags pteFlags : BitVec 32) : BitVec 32 :=
  (m.vmmngrAllocVirt dir virt pdeFlags pteFlags).memory ((m.withTable dir virt pdeFlags).pagePlace dir virt)

/-- The call makes the page present, and it was not. -/
structure MakesPresent (m : Machine) (dir virt pdeFlags pteFlags : BitVec 32) : Prop where
  table : (m.tableForEntry (vmmngrPdirectoryLookupEntry dir virt)).1 = true
  absent : ptEntryIsPresent (m.foundWord dir virt pdeFlags) = false
  present : ptEntryIsPresent (m.leftWord dir virt pdeFlags pteFlags) = true

/-- The new entry has the attributes that were asked for, and the frame that was allocated. -/
def AsAsked (m : Machine) (dir virt pdeFlags pteFlags : BitVec 32) : Prop :=
  Entry.attributes (m.leftWord dir virt pdeFlags pteFlags) = Entry.present ||| pteFlags ∧
    ptEntryPfn (m.leftWord dir virt pdeFlags pteFlags) = (m.withTable dir virt pdeFlags).pmm.pmmngrAllocBlock.1

theorem allocVirt_eq (h : (m.tableForEntry (vmmngrPdirectoryLookupEntry dir virt)).1 = true) :
    m.vmmngrAllocVirt dir virt pdeFlags pteFlags =
      if ptEntryIsPresent (m.foundWord dir virt pdeFlags) then m.withTable dir virt pdeFlags
      else
        (m.withTable dir virt pdeFlags).vmmngrAllocPage ((m.withTable dir virt pdeFlags).pagePlace dir virt)
          pteFlags := by
  unfold vmmngrAllocVirt
  dsimp only
  rw [h, Bool.not_true, if_neg Bool.false_ne_true]
  rfl

/-- A page that is made present got a frame. -/
theorem MakesPresent.leftWord_eq (h : m.MakesPresent dir virt pdeFlags pteFlags) :
    m.leftWord dir virt pdeFlags pteFlags = allocatedWord (m.foundWord dir virt pdeFlags)
      (m.withTable dir virt pdeFlags).pmm.pmmngrAllocBlock.1 pteFlags := by
  have hpresent := h.present
  rw [leftWord, allocVirt_eq h.table, h.absent, if_neg Bool.false_ne_true, vmmngrAllocPage_eq] at hpresent ⊢
  split at hpresent
  · exact absurd (h.absent.symm.trans hpresent) Bool.false_ne_true
  · next hp =>
    rw [if_neg hp]
    exact Function.update_self _ _ _

/-- Where the table is not the directory itself, that entry is the one behind every translation. -/
theorem pageWord_allocVirt (h : m.MakesPresent dir virt pdeFlags pteFlags)
    (hplace : (m.withTable dir virt pdeFlags).pagePlace dir virt ≠ vmmngrPdirectoryLookupEntry dir virt)
    (htable : pdEntryIsPresent ((m.withTable dir virt pdeFlags).memory (vmmngrPdirectoryLookupEntry dir virt)) = true) :
    (m.vmmngrAllocVirt dir virt pdeFlags pteFlags).pageWord dir virt = m.leftWord dir virt pdeFlags pteFlags := by
  have hkept : (m.vmmngrAllocVirt dir virt pdeFlags pteFlags).memory (vmmngrPdirectoryLookupEntry dir virt) =
      (m.withTable dir virt pdeFlags).memory (vmmngrPdirectoryLookupEntry dir virt) := by
    rw [allocVirt_eq h.table, h.absent, if_neg Bool.false_ne_true, vmmngrAllocPage_eq]
    split
    · rfl
    · exact Function.update_of_ne hplace.symm _ _
  rw [pageWord, hkept, if_pos htable]
  rfl

/-- What is allocated is the address of a frame. -/
theorem allocBlock_aligned (pmm : Pmm) : pmm.pmmngrAllocBlock.1.toNat % 4096 = 0 := by
  obtain ⟨frame, _, _, heq⟩ | ⟨_, heq⟩ := pmm.pmmngrAllocBlock_cases
  · rw [heq, BitVec.toNat_mul, show Pmm.blockSize.toNat = 4096 from rfl]
    omega
  · rw [heq]
    rfl

/-- In every history, a page that is made present has what was asked for exactly when that are attributes, and no other
attribute was left in its entry. -/
theorem asAsked_iff (m : Machine) (dir : BitVec 32) (calls : List PageCall) (virt pdeFlags pteFlags : BitVec 32)
    (h : (m.performAll dir calls).MakesPresent dir virt pdeFlags pteFlags) :
    (m.performAll dir calls).AsAsked dir virt pdeFlags pteFlags ↔
      pteFlags.toNat < 0x1000 ∧ Entry.stale ((m.performAll dir calls).foundWord dir virt pdeFlags) pteFlags = 0#32 := by
  rw [AsAsked, h.leftWord_eq, Entry.attributes_allocatedWord_iff]
  refine and_iff_left_of_imp fun hclean => ?_
  exact Entry.pfn_allocatedWord (allocBlock_aligned _) hclean.1 _

/-- The directory has no tables. -/
def Cleared (m : Machine) (dir : BitVec 32) : Prop := ∀ i < 1024, m.entry dir i = 0#32

/-- A directory in frame 1, without tables. -/
def clearedDirectory : Machine where
  pmm := { memorySize := 256#32, usedBlocks := 2#32, maxBlocks := 64#32,
           memoryMap := fun w => if w = 0 then 0x3#32 else 0#32 }
  memory _ := 0#32
  curDirectory := 0x1000#32

/-- A page is given out with the user's rights, freed, and given out without. -/
theorem not_asAsked : ¬ ∀ (m : Machine) (dir : BitVec 32) (calls : List PageCall) (virt pdeFlags pteFlags : BitVec 32),
    m.Cleared dir → (m.performAll dir calls).MakesPresent dir virt pdeFlags pteFlags →
      (m.performAll dir calls).AsAsked dir virt pdeFlags pteFlags := by
  intro h
  have hasked := h clearedDirectory 0x1000#32 [.allocVirt 0x400000#32 6#32 6#32, .freeVirt 0x400000#32] 0x400000#32 0#32
    0#32 (fun _ _ => rfl) ⟨by decide +kernel, by decide +kernel, by decide +kernel⟩
  exact absurd hasked.1 (by decide +kernel)

/-- The first page of a directory. -/
theorem asAsked_iff_cleared : (clearedDirectory.performAll 0x1000#32 []).AsAsked 0x1000#32 0x400000#32 6#32 6#32 :=
  (asAsked_iff clearedDirectory 0x1000#32 [] 0x400000#32 6#32 6#32
    ⟨by decide +kernel, by decide +kernel, by decide +kernel⟩).mpr (by decide +kernel)

end Machine

end Akos
