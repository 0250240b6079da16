import Akos.Memory.AddressSpaces

/-!
# One kernel mapping in all address spaces

The directories have the entries of the kernel's addresses in common, and so the tables behind them. A mapping
entered or taken out through one directory is seen through all. Nothing else than the frame map keeps a
directory or a table from being handed out again, so the runs are those that do not free one.
-/

namespace Akos

/-- The entries from 0xC0000000 to 0xC1000000. -/
def KernelSlot (i : Nat) : Prop := 768 ≤ i ∧ i < 772

/-- The entries of the user addresses and of the kernel's. -/
def MappedSlot (i : Nat) : Prop := 1 ≤ i ∧ i < 772

def KernelAddress (virt : BitVec 32) : Prop := 0xC0000000 ≤ virt.toNat ∧ virt.toNat < 0xC1000000

instance (virt : BitVec 32) : Decidable (KernelAddress virt) := inferInstanceAs (Decidable (_ ∧ _))

theorem KernelSlot.mapped {i : Nat} (h : KernelSlot i) : MappedSlot i := by
  unfold KernelSlot at h
  unfold MappedSlot
  omega

theorem UserSlot.mapped {i : Nat} (h : UserSlot i) : MappedSlot i := by
  unfold UserSlot at h
  unfold MappedSlot
  omega

theorem KernelAddress.slot {virt : BitVec 32} (h : KernelAddress virt) : KernelSlot (pageDirectoryIndex virt) := by
  unfold KernelAddress at h
  rw [KernelSlot, pageDirectoryIndex, BitVec.toNat_and, show (0x3ff#32).toNat = 2 ^ 10 - 1 from rfl,
    Nat.and_two_pow_sub_one_eq_mod, BitVec.toNat_ushiftRight, Nat.shiftRight_eq_div_pow]
  omega

/-- The frame of an entry is the upper part of its word. -/
theorem Entry.toNat_pfn (e : BitVec 32) : (pfn e).toNat = 4096 * Pmm.frameOf e := by
  have hlow : (pfn e).toNat % 2 ^ 12 = 0 := by
    rw [pfn, BitVec.toNat_and, Nat.and_mod_two_pow, show frameMask.toNat % 2 ^ 12 = 0 from rfl, Nat.and_zero]
  have hframe := frameOf_pfn e
  rw [Pmm.frameOf_eq] at hframe
  omega

theorem Entry.pfn_eq_of_frameOf_eq {e e' : BitVec 32} (h : Pmm.frameOf e = Pmm.frameOf e') : pfn e = pfn e' :=
  BitVec.eq_of_toNat_eq (by rw [toNat_pfn, toNat_pfn, h])

theorem Machine.entry_store_self (m : Machine) (dir : BitVec 32) (i : Nat) (value : BitVec 32) :
    (m.store (Pmm.frameOf dir, i) value).entry dir i = value :=
  Function.update_self _ _ _

theorem Machine.entry_store_of_ne (m : Machine) {dir : BitVec 32} {i : Nat} {w : Word}
    (h : (Pmm.frameOf dir, i) ≠ w) (value : BitVec 32) : (m.store w value).entry dir i = m.entry dir i :=
  Function.update_of_ne h _ _

/-- The frame that `vmmngr_free_virt` gives back. -/
def Machine.Releases (m : Machine) (dir virt : BitVec 32) (frame : Nat) : Prop :=
  let e := m.memory (vmmngrPdirectoryLookupEntry dir virt)
  let page := m.memory (vmmngrPtableLookupEntry (pdEntryPfn e) virt)
  pdEntryIsPresent e = true ∧ ptEntryIsPresent page = true ∧ frame = Pmm.frameOf page

/-- The machine and the directories made so far. -/
structure Directories where
  machine : Machine
  live : Set (BitVec 32)

namespace Directories

variable {slots : Nat → Prop} {s t : Directories} {m m' : Machine} {dir dir' virt : BitVec 32} {i frame : Nat}
  {w : Word}

def Used (s : Directories) (frame : Nat) : Prop := s.machine.pmm.mmapTest frame = true

/-- The frame is that of a directory, or of a table behind one of these entries. -/
def Holds (slots : Nat → Prop) (s : Directories) (frame : Nat) : Prop :=
  (∃ dir ∈ s.live, frame = Pmm.frameOf dir) ∨
    ∃ dir ∈ s.live, ∃ i, slots i ∧ pdEntryIsPresent (s.machine.entry dir i) = true ∧
      frame = Pmm.frameOf (s.machine.entry dir i)

/-- Directories and tables are in frames in use, and no table is a directory. -/
structure Apart (slots : Nat → Prop) (s : Directories) : Prop where
  search : 32 * s.machine.pmm.searchWords ≤ 2 ^ 20
  current : s.machine.curDirectory ∈ s.live
  ne_zero : ∀ dir ∈ s.live, Pmm.frameOf dir ≠ 0
  used : ∀ frame, s.Holds slots frame → s.Used frame
  apart : ∀ dir ∈ s.live, ∀ i, slots i → pdEntryIsPresent (s.machine.entry dir i) = true →
    ∀ dir' ∈ s.live, Pmm.frameOf (s.machine.entry dir i) ≠ Pmm.frameOf dir'

/-- The invariant of the runs: the directories have the kernel's tables in common. -/
structure Inv (s : Directories) : Prop extends s.Apart MappedSlot where
  kernel : ∀ dir ∈ s.live, ∀ i, KernelSlot i → pdEntryIsPresent (s.machine.entry dir i) = true ∧
    Pmm.frameOf (s.machine.entry dir i) = Pmm.frameOf (s.machine.entry s.machine.curDirectory i)

theorem holds_dir (hdir : dir ∈ s.live) : s.Holds slots (Pmm.frameOf dir) := .inl ⟨dir, hdir, rfl⟩

theorem holds_table (hdir : dir ∈ s.live) (hi : slots i)
    (hpresent : pdEntryIsPresent (s.machine.entry dir i) = true) :
    s.Holds slots (Pmm.frameOf (s.machine.entry dir i)) :=
  .inr ⟨dir, hdir, i, hi, hpresent, rfl⟩

/-- What a function of the memory manager keeps: present entries stay so, with their tables. -/
structure Follows (slots : Nat → Prop) (s : Directories) (m : Machine) : Prop where
  apart : Apart slots { s with machine := m }
  current : m.curDirectory = s.machine.curDirectory
  stays : ∀ dir ∈ s.live, ∀ i, pdEntryIsPresent (s.machine.entry dir i) = true →
    pdEntryIsPresent (m.entry dir i) = true ∧ Pmm.frameOf (m.entry dir i) = Pmm.frameOf (s.machine.entry dir i)

namespace Follows

theorem refl (h : s.Apart slots) : Follows slots s s.machine := ⟨h, rfl, fun _ _ _ hpresent => ⟨hpresent, rfl⟩⟩

theorem trans (hm : Follows slots s m) (hm' : Follows slots { s with machine := m } m') : Follows slots s m' where
  apart := hm'.apart
  current := hm'.current.trans hm.current
  stays dir hdir i hpresent := by
    obtain ⟨hpresent', hframe⟩ := hm.stays dir hdir i hpresent
    obtain ⟨hpresent'', hframe'⟩ := hm'.stays dir hdir i hpresent'
    exact ⟨hpresent'', hframe'.trans hframe⟩

/-- The kernel's entries are present, so they stay the same in all directories. -/
theorem inv (hm : Follows MappedSlot s m) (h : s.Inv) : Inv { s with machine := m } where
  toApart := hm.apart
  kernel dir hdir i hi := by
    obtain ⟨hpresent, hframe⟩ := h.kernel dir hdir i hi
    obtain ⟨hpresent', hframe'⟩ := hm.stays dir hdir i hpresent
    refine ⟨hpresent', ?_⟩
    show Pmm.frameOf (m.entry dir i) = Pmm.frameOf (m.entry m.curDirectory i)
    rw [hframe', hframe, hm.current]
    exact (hm.stays _ h.current i (h.kernel _ h.current i hi).1).2.symm

end Follows

/-- An entry is as it was, or a frame that was not in use became its table. -/
def Enters (s : Directories) (m : Machine) (dir : BitVec 32) (i : Nat) : Prop :=
  (pdEntryIsPresent (m.entry dir i) = pdEntryIsPresent (s.machine.entry dir i) ∧
    Pmm.frameOf (m.entry dir i) = Pmm.frameOf (s.machine.entry dir i)) ∨
  (pdEntryIsPresent (s.machine.entry dir i) = false ∧ ¬ s.Used (Pmm.frameOf (m.entry dir i)) ∧
    m.pmm.mmapTest (Pmm.frameOf (m.entry dir i)) = true)

namespace Apart

/-- Only the entries of the directories and the frames in use matter. -/
theorem of_enters (h : s.Apart slots) (hcur : m.curDirectory = s.machine.curDirectory)
    (hmax : m.pmm.maxBlocks = s.machine.pmm.maxBlocks)
    (hused : ∀ frame, s.Holds slots frame → m.pmm.mmapTest frame = true)
    (hentry : ∀ dir ∈ s.live, ∀ i, s.Enters m dir i) : Follows slots s m where
  apart :=
    { search := by
        show 32 * m.pmm.searchWords ≤ 2 ^ 20
        rw [Pmm.searchWords, Pmm.pmmngrGetBlockCount, hmax]
        exact h.search
      current := by
        show m.curDirectory ∈ s.live
        rw [hcur]
        exact h.current
      ne_zero := h.ne_zero
      used := by
        rintro frame (⟨dir, hdir, rfl⟩ | ⟨dir, hdir, i, hi, hpresent, rfl⟩)
        · exact hused _ (holds_dir hdir)
        · show m.pmm.mmapTest (Pmm.frameOf (m.entry dir i)) = true
          obtain ⟨hsame, heq⟩ | ⟨-, -, hnew⟩ := hentry dir hdir i
          · rw [heq]
            exact hused _ (holds_table hdir hi (hsame ▸ hpresent))
          · exact hnew
      apart := by
        intro dir hdir i hi hpresent dir' hdir'
        show Pmm.frameOf (m.entry dir i) ≠ Pmm.frameOf dir'
        obtain ⟨hsame, heq⟩ | ⟨-, hunused, -⟩ := hentry dir hdir i
        · rw [heq]
          exact h.apart dir hdir i hi (hsame ▸ hpresent) dir' hdir'
        · intro heq
          exact hunused (heq ▸ h.used _ (holds_dir hdir')) }
  current := hcur
  stays dir hdir i hpresent := by
    obtain ⟨hsame, heq⟩ | ⟨habsent, -⟩ := hentry dir hdir i
    · exact ⟨hsame.trans hpresent, heq⟩
    · rw [hpresent] at habsent
      cases habsent

/-- A word outside the directories changes no entry. -/
theorem store (h : s.Apart slots) (value : BitVec 32) (hw : ∀ dir ∈ s.live, w.1 ≠ Pmm.frameOf dir) :
    Follows slots s (s.machine.store w value) := by
  refine h.of_enters rfl rfl h.used fun dir hdir i => .inl ?_
  rw [Machine.entry_store_of_ne _ fun heq => hw dir hdir (congrArg Prod.fst heq).symm]
  exact ⟨rfl, rfl⟩

theorem follows_store (hm : Follows slots s m) (value : BitVec 32) (hw : ∀ dir ∈ s.live, w.1 ≠ Pmm.frameOf dir) :
    Follows slots s (m.store w value) :=
  hm.trans (hm.apart.store value hw)

/-- More frames can be in use, and frames that nothing of it lies in can be given back. -/
theorem setPmm (h : s.Apart slots) {pmm : Pmm} (hmax : pmm.maxBlocks = s.machine.pmm.maxBlocks)
    (hused : ∀ frame, s.Holds slots frame → pmm.mmapTest frame = true) :
    Follows slots s { s.machine with pmm } :=
  h.of_enters rfl hmax hused fun _ _ _ => .inl ⟨rfl, rfl⟩

/-! ### The functions of the memory manager -/

/-- What an allocation does: frames stay in use, and a new one was not. -/
theorem allocBlock_cases (hsearch : 32 * s.machine.pmm.searchWords ≤ 2 ^ 20) :
    ∃ p pmm, s.machine.pmm.pmmngrAllocBlock = (p, pmm) ∧
    pmm.maxBlocks = s.machine.pmm.maxBlocks ∧ (∀ frame, s.Used frame → pmm.mmapTest frame = true) ∧
    (p ≠ 0#32 → Pmm.frameOf p ≠ 0 ∧ ¬ s.Used (Pmm.frameOf p) ∧ pmm.mmapTest (Pmm.frameOf p) = true) := by
  rcases s.machine.pmm.pmmngrAllocBlock_cases with ⟨frame, _, hfind, heq⟩ | ⟨_, heq⟩
  · obtain ⟨hlt, hclear, _⟩ := WordMap.firstClear_eq_some hfind
    have hframe := Pmm.frameOf_mul_blockSize (show frame < 2 ^ 20 by omega)
    refine ⟨_, _, heq, Pmm.occupyRun_maxBlocks _ _ _, fun other hother => ?_, fun hp => ?_⟩
    · rw [Pmm.mmapTest_occupyRun, show s.machine.pmm.mmapTest other = true from hother, Bool.or_true]
    · rw [hframe]
      refine ⟨?_, ?_, ?_⟩
      · rintro rfl
        exact hp rfl
      · intro hused
        exact absurd (hclear.symm.trans hused) Bool.noConfusion
      · rw [Pmm.mmapTest_occupyRun, decide_eq_true ⟨Nat.le_refl frame, Nat.lt_succ_self frame⟩, Bool.true_or]
  · exact ⟨_, _, heq, rfl, fun _ hused => hused, fun hp => absurd rfl hp⟩

theorem dir_ne_zero (h : s.Apart slots) (hdir : dir ∈ s.live) : dir ≠ 0#32 := by
  rintro rfl
  exact h.ne_zero _ hdir rfl

theorem lookup_directory (h : s.Apart slots) (hdir : dir ∈ s.live) (virt : BitVec 32) :
    Machine.vmmngrPdirectoryLookupEntry dir virt = (Pmm.frameOf dir, pageDirectoryIndex virt) := by
  rw [Machine.vmmngrPdirectoryLookupEntry, if_neg (h.dir_ne_zero hdir)]

/-- The entries of tables lie in no directory. -/
theorem lookup_table_ne (h : s.Apart slots) (hdir : dir ∈ s.live) (hi : slots i)
    (hpresent : pdEntryIsPresent (s.machine.entry dir i) = true) (virt : BitVec 32) :
    ∀ dir' ∈ s.live, (Machine.vmmngrPtableLookupEntry (pdEntryPfn (s.machine.entry dir i)) virt).1
      ≠ Pmm.frameOf dir' := by
  intro dir' hdir'
  unfold Machine.vmmngrPtableLookupEntry
  split
  · exact (h.ne_zero dir' hdir').symm
  · show Pmm.frameOf (pdEntryPfn (s.machine.entry dir i)) ≠ Pmm.frameOf dir'
    rw [Entry.frameOf_pfn]
    exact h.apart dir hdir i hi hpresent dir' hdir'

/-- A frame that was not in use becomes the table behind an absent entry. -/
theorem tableForEntry (h : s.Apart slots) (dir : BitVec 32) (i : Nat) :
    Follows slots s (s.machine.tableForEntry (Pmm.frameOf dir, i)).2 := by
  rw [Machine.tableForEntry]
  split
  · exact Follows.refl h
  next habsent =>
  obtain ⟨p, pmm, heq, hmax, hgrow, hnew⟩ := allocBlock_cases h.search
  dsimp only
  rw [heq]
  dsimp only
  split
  · exact h.setPmm hmax fun frame hframe => hgrow frame (h.used frame hframe)
  next hp =>
  obtain ⟨-, hunused, hused⟩ := hnew hp
  refine h.of_enters rfl hmax (fun frame hframe => hgrow frame (h.used frame hframe)) fun dir' hdir' k => ?_
  by_cases hsame : (Pmm.frameOf dir', k) = (Pmm.frameOf dir, i)
  · obtain ⟨hframe, rfl⟩ := Prod.mk.inj hsame
    have hentry : s.machine.entry dir' k = s.machine.memory (Pmm.frameOf dir, k) := by
      rw [Machine.entry, hframe]
    refine .inr ⟨hentry ▸ Bool.eq_false_iff.mpr habsent, ?_⟩
    simp only [Machine.entry, Machine.store, hframe, Function.update_self, Entry.frameOf_setFrame]
    exact ⟨hunused, hused⟩
  · have hne : Pmm.frameOf dir' ≠ Pmm.frameOf p := by
      intro hframe
      exact hunused (hframe ▸ h.used _ (holds_dir hdir'))
    rw [Enters, Machine.entry_store_of_ne _ hsame, Machine.entry_store_of_ne _ hsame]
    simp [Machine.entry, Machine.vmmngrPtableClear, Machine.clearWords, hne]

theorem tableForEntry_present {m : Machine} {e : Word} (hfound : (m.tableForEntry e).1 = true) :
    pdEntryIsPresent ((m.tableForEntry e).2.memory e) = true := by
  unfold Machine.tableForEntry at hfound ⊢
  dsimp only at hfound ⊢
  split at hfound
  · next hpresent =>
    rw [if_pos hpresent]
    exact hpresent
  next habsent =>
  rw [if_neg habsent]
  split at hfound
  · cases hfound
  next hp =>
  rw [if_neg hp]
  simp [Machine.store]

/-- Attributes are added to a present entry. -/
theorem addAttrib (h : s.Apart slots) (hpresent : pdEntryIsPresent (s.machine.memory w) = true)
    {flags : BitVec 32} (hflags : flags.toNat < 4096) :
    Follows slots s (s.machine.store w (pdEntryAddAttrib (s.machine.memory w) flags)) := by
  refine h.of_enters rfl rfl h.used fun dir hdir i => .inl ?_
  by_cases hsame : (Pmm.frameOf dir, i) = w
  · subst hsame
    have hentry : s.machine.entry dir i = s.machine.memory (Pmm.frameOf dir, i) := rfl
    rw [Machine.entry_store_self, hentry]
    refine ⟨(Entry.isPresent_addAttrib _ _).trans (Eq.trans ?_ hpresent.symm), Entry.frameOf_addAttrib _ hflags⟩
    exact (Bool.or_eq_true _ _).mpr (.inl hpresent)
  · rw [Machine.entry_store_of_ne _ hsame]
    exact ⟨rfl, rfl⟩

theorem allocPage (h : s.Apart slots) (hw : ∀ dir ∈ s.live, w.1 ≠ Pmm.frameOf dir) (flags : BitVec 32) :
    Follows slots s (s.machine.vmmngrAllocPage w flags) := by
  obtain ⟨p, pmm, heq, hmax, hgrow, -⟩ := allocBlock_cases h.search
  have hpmm := h.setPmm hmax fun frame hframe => hgrow frame (h.used frame hframe)
  rw [Machine.vmmngrAllocPage, heq]
  dsimp only
  split
  · exact hpmm
  · exact follows_store (follows_store (follows_store hpmm _ hw) _ hw) _ hw

theorem freePage (h : s.Apart slots) (hw : ∀ dir ∈ s.live, w.1 ≠ Pmm.frameOf dir)
    (hfreed : ¬ s.Holds slots (Pmm.frameOf (s.machine.memory w))) :
    Follows slots s (s.machine.vmmngrFreePage w) := by
  rw [Machine.vmmngrFreePage]
  split
  · have hpmm := h.setPmm (Machine.freeBlock_maxBlocks _ (ptEntryPfn (s.machine.memory w))) fun frame hframe =>
      (Spaces.used_freeBlock s.machine.pmm _ (Entry.frameOf_pfn _) frame).mpr
        ⟨h.used frame hframe, fun heq => hfreed (heq ▸ hframe)⟩
    exact follows_store hpmm _ hw
  · exact h.store _ hw

/-- The first part of a new mapping: the table is there, and its entry has the attributes. -/
theorem enterTable (h : s.Apart slots) (dir : BitVec 32) (i : Nat) {flags : BitVec 32}
    (hflags : flags.toNat < 4096) (hm : s.machine.tableForEntry (Pmm.frameOf dir, i) = (true, m)) :
    Follows slots s (m.store (Pmm.frameOf dir, i)
      (pdEntryAddAttrib (m.memory (Pmm.frameOf dir, i)) flags)) ∧
      pdEntryIsPresent ((m.store (Pmm.frameOf dir, i)
        (pdEntryAddAttrib (m.memory (Pmm.frameOf dir, i)) flags)).entry dir i) = true := by
  have htable := h.tableForEntry dir i
  have hpresent : pdEntryIsPresent ((s.machine.tableForEntry (Pmm.frameOf dir, i)).2.memory
    (Pmm.frameOf dir, i)) = true := tableForEntry_present (by rw [hm])
  rw [hm] at htable hpresent
  refine ⟨htable.trans (htable.apart.addAttrib hpresent hflags), ?_⟩
  rw [Machine.entry_store_self]
  exact (Entry.isPresent_addAttrib _ _).trans ((Bool.or_eq_true _ _).mpr (.inl hpresent))

theorem allocVirt (h : s.Apart slots) (hdir : dir ∈ s.live) (hi : slots (pageDirectoryIndex virt))
    {pdeFlags : BitVec 32} (hflags : pdeFlags.toNat < 4096) (pteFlags : BitVec 32) :
    Follows slots s (s.machine.vmmngrAllocVirt dir virt pdeFlags pteFlags) := by
  have htable := h.tableForEntry dir (pageDirectoryIndex virt)
  rw [Machine.vmmngrAllocVirt]
  dsimp only
  rw [h.lookup_directory hdir]
  cases hm : s.machine.tableForEntry (Pmm.frameOf dir, pageDirectoryIndex virt) with | mk found m =>
  cases found with
  | false =>
    rw [hm] at htable
    exact htable
  | true =>
    obtain ⟨henter, hpresent⟩ := h.enterTable dir _ hflags hm
    simp only [Bool.not_true, Bool.false_eq_true, if_false]
    split
    · exact henter
    · exact henter.trans
        (henter.apart.allocPage (henter.apart.lookup_table_ne hdir hi hpresent virt) pteFlags)

theorem mapPage (h : s.Apart slots) (hdir : dir ∈ s.live) (hi : slots (pageDirectoryIndex virt))
    {pdeFlags : BitVec 32} (hflags : pdeFlags.toNat < 4096) (phys pteFlags : BitVec 32) :
    Follows slots s (s.machine.vmmngrMapPage dir phys virt pdeFlags pteFlags) := by
  have htable := h.tableForEntry dir (pageDirectoryIndex virt)
  rw [Machine.vmmngrMapPage]
  dsimp only
  rw [h.lookup_directory hdir]
  cases hm : s.machine.tableForEntry (Pmm.frameOf dir, pageDirectoryIndex virt) with | mk found m =>
  cases found with
  | false =>
    rw [hm] at htable
    exact htable
  | true =>
    obtain ⟨henter, hpresent⟩ := h.enterTable dir _ hflags hm
    have hout := henter.apart.lookup_table_ne hdir hi hpresent virt
    simp only [Bool.not_true, Bool.false_eq_true, if_false]
    exact follows_store (follows_store (follows_store henter _ hout) _ hout) _ hout

theorem unmapVirt (h : s.Apart slots) (hdir : dir ∈ s.live) (hi : slots (pageDirectoryIndex virt)) :
    Follows slots s (s.machine.vmmngrUnmapVirt dir virt) := by
  rw [Machine.vmmngrUnmapVirt]
  dsimp only
  rw [h.lookup_directory hdir]
  by_cases hpresent : pdEntryIsPresent (s.machine.memory (Pmm.frameOf dir, pageDirectoryIndex virt)) = true
  · rw [if_neg (by simp [hpresent])]
    have hout := h.lookup_table_ne hdir hi hpresent virt
    exact follows_store (h.store _ hout) _ hout
  · rw [if_pos (by simpa using hpresent)]
    exact Follows.refl h

/-- A page is given back whose frame is not that of a directory or a table. -/
theorem freeVirt (h : s.Apart slots) (hdir : dir ∈ s.live) (hi : slots (pageDirectoryIndex virt))
    (hkept : ∀ frame, s.machine.Releases dir virt frame → ¬ s.Holds slots frame) :
    Follows slots s (s.machine.vmmngrFreeVirt dir virt) := by
  have hlookup := h.lookup_directory hdir virt
  rw [Machine.vmmngrFreeVirt]
  dsimp only
  by_cases hpresent : pdEntryIsPresent
      (s.machine.memory (Machine.vmmngrPdirectoryLookupEntry dir virt)) = true
  · rw [if_neg (by simp [hpresent])]
    split
    · next hpage =>
      refine h.freePage ?_ (hkept _ ⟨hpresent, hpage, rfl⟩)
      rw [hlookup] at hpresent ⊢
      exact h.lookup_table_ne hdir hi hpresent virt
    · exact Follows.refl h
  · rw [if_pos (by simpa using hpresent)]
    exact Follows.refl h

end Apart

namespace Inv

/-- A new directory: its kernel entries are those of the current one, and no frame of it was in use. -/
theorem insert_dir (h : s.Inv) {p : BitVec 32} (hp : Pmm.frameOf p ≠ 0) (hused : s.Used (Pmm.frameOf p))
    (hfresh : ∀ dir ∈ s.live, ∀ i, MappedSlot i → pdEntryIsPresent (s.machine.entry dir i) = true →
      Pmm.frameOf (s.machine.entry dir i) ≠ Pmm.frameOf p)
    (hshared : ∀ i, KernelSlot i → s.machine.entry p i = s.machine.entry s.machine.curDirectory i)
    (hclear : ∀ i, UserSlot i → pdEntryIsPresent (s.machine.entry p i) = false) :
    Inv { s with live := insert p s.live } := by
  -- a table of the new directory is one of the current directory
  have htable : ∀ dir ∈ insert p s.live, ∀ i, MappedSlot i → pdEntryIsPresent (s.machine.entry dir i) = true →
      ∃ dir' ∈ s.live, s.machine.entry dir i = s.machine.entry dir' i := by
    rintro dir (rfl | hdir) i hi hpresent
    · refine ⟨_, h.current, hshared i ⟨?_, hi.2⟩⟩
      by_contra hlt
      rw [hclear i ⟨hi.1, by omega⟩] at hpresent
      cases hpresent
    · exact ⟨dir, hdir, rfl⟩
  refine ⟨⟨h.search, .inr h.current, ?_, ?_, ?_⟩, ?_⟩
  · rintro dir (rfl | hdir)
    · exact hp
    · exact h.ne_zero dir hdir
  · rintro frame (⟨dir, rfl | hdir, rfl⟩ | ⟨dir, hdir, i, hi, hpresent, rfl⟩)
    · exact hused
    · exact h.used _ (holds_dir hdir)
    · obtain ⟨dir', hdir', heq⟩ := htable dir hdir i hi hpresent
      have hpresent' : pdEntryIsPresent (s.machine.entry dir' i) = true := heq ▸ hpresent
      show s.Used (Pmm.frameOf (s.machine.entry dir i))
      rw [heq]
      exact h.used _ (holds_table hdir' hi hpresent')
  · intro dir hdir i hi hpresent dir'' hdir''
    obtain ⟨dir', hdir', heq⟩ := htable dir hdir i hi hpresent
    have hpresent' : pdEntryIsPresent (s.machine.entry dir' i) = true := heq ▸ hpresent
    show Pmm.frameOf (s.machine.entry dir i) ≠ Pmm.frameOf dir''
    rw [heq]
    rcases hdir'' with rfl | hdir''
    · exact hfresh dir' hdir' i hi hpresent'
    · exact h.apart dir' hdir' i hi hpresent' dir'' hdir''
  · rintro dir (rfl | hdir) i hi
    · show pdEntryIsPresent (s.machine.entry dir i) = true ∧ Pmm.frameOf (s.machine.entry dir i) = _
      rw [hshared i hi]
      exact ⟨(h.kernel _ h.current i hi).1, rfl⟩
    · exact h.kernel dir hdir i hi

end Inv

/-- The state after `create_address_space`. -/
def create (s : Directories) : Directories :=
  let (space, m) := s.machine.createAddressSpace
  { machine := m, live := if space = 0#32 then s.live else insert space s.live }

namespace Inv

theorem create (h : s.Inv) : s.create.Inv := by
  obtain ⟨p, pmm, heq, hmax, hgrow, hnew⟩ := Apart.allocBlock_cases h.search
  have hholds : ∀ frame, s.Holds MappedSlot frame → pmm.mmapTest frame = true :=
    fun frame hframe => hgrow frame (h.used frame hframe)
  unfold Directories.create Machine.createAddressSpace Machine.vmmngrCreatePdir
  rw [heq]
  dsimp only
  by_cases hp : p = 0#32
  · -- memory is out: the kernel's entries are copied over the frame at address 0
    rw [if_pos hp]
    dsimp only
    rw [if_pos rfl]
    refine Follows.inv ?_ h
    refine h.of_enters rfl hmax hholds fun dir hdir i => .inl ?_
    have hne : ¬ (Pmm.frameOf dir = Pmm.frameOf 0#32 ∧ SharedSlot i) := fun hout => h.ne_zero dir hdir hout.1
    simp [Machine.entry, Spaces.cloneKernelSpace_memory, hne]
  · rw [if_neg hp]
    dsimp only
    rw [if_neg hp]
    obtain ⟨hzero, hunused, hused⟩ := hnew hp
    generalize hm : Machine.cloneKernelSpace _ _ = m
    have hdirs : ∀ dir ∈ s.live, Pmm.frameOf dir ≠ Pmm.frameOf p := fun dir hdir hframe =>
      hunused (hframe ▸ h.used _ (holds_dir hdir))
    have hmemory : ∀ w, m.memory w = if w.1 = Pmm.frameOf p ∧ SharedSlot w.2 then
        s.machine.memory (Pmm.frameOf s.machine.curDirectory, w.2)
        else if w.1 = Pmm.frameOf p ∧ w.2 < 1024 then 0#32 else s.machine.memory w := by
      intro w
      rw [← hm, Spaces.cloneKernelSpace_memory]
      simp [Machine.vmmngrPdirectoryClear, Machine.clearWords, hdirs _ h.current]
    have hentry : ∀ dir ∈ s.live, ∀ i, m.entry dir i = s.machine.entry dir i := by
      intro dir hdir i
      rw [Machine.entry, hmemory, if_neg fun hout => hdirs dir hdir hout.1,
        if_neg fun hout => hdirs dir hdir hout.1]
      rfl
    have hcur : m.curDirectory = s.machine.curDirectory := by rw [← hm]; rfl
    have hpmm : m.pmm = pmm := by rw [← hm]; rfl
    have hkept : Inv { s with machine := m } :=
      (h.of_enters hcur (by rw [hpmm]; exact hmax) (by rw [hpmm]; exact hholds)
        fun dir hdir i => .inl (by rw [hentry dir hdir]; exact ⟨rfl, rfl⟩)).inv h
    refine hkept.insert_dir hzero (by rw [Used, hpmm]; exact hused) ?_ ?_ ?_
    · intro dir hdir i hi hpresent hframe
      dsimp only at hpresent hframe
      rw [hentry dir hdir] at hpresent hframe
      exact hunused (hframe ▸ h.used _ (holds_table hdir hi hpresent))
    · intro i hi
      show m.entry p i = m.entry m.curDirectory i
      rw [hcur, hentry _ h.current, Machine.entry, hmemory, if_pos ⟨rfl, .inr (.inl hi)⟩]
      rfl
    · intro i hi
      have hlt : i < 1024 := by
        unfold UserSlot at hi
        omega
      show pdEntryIsPresent (m.entry p i) = false
      rw [Machine.entry, hmemory, if_neg fun hout => hi.not_shared hout.2, if_pos ⟨rfl, hlt⟩]
      rfl

theorem switchTo (h : s.Inv) (hdir : dir ∈ s.live) :
    Inv { s with machine := s.machine.vmmngrSwitchPdirectory dir } := by
  rw [Machine.vmmngrSwitchPdirectory, if_neg (h.dir_ne_zero hdir)]
  refine ⟨⟨h.search, hdir, h.ne_zero, h.used, h.apart⟩, fun dir' hdir' i hi => ⟨(h.kernel dir' hdir' i hi).1, ?_⟩⟩
  exact (h.kernel dir' hdir' i hi).2.trans (h.kernel dir hdir i hi).2.symm

/-- The kernel's addresses are translated alike by all directories. -/
theorem virt2phys_eq (h : s.Inv) (hdir : dir ∈ s.live) (hdir' : dir' ∈ s.live) (hvirt : KernelAddress virt) :
    s.machine.vmmngrVirt2physPdir dir virt = s.machine.vmmngrVirt2physPdir dir' virt := by
  have hkernel : ∀ dir ∈ s.live, s.machine.vmmngrVirt2physPdir dir virt
      = s.machine.vmmngrVirt2physPdir s.machine.curDirectory virt := by
    intro dir hdir
    obtain ⟨hpresent, hframe⟩ := h.kernel dir hdir _ hvirt.slot
    obtain ⟨hpresent', -⟩ := h.kernel _ h.current _ hvirt.slot
    rw [Machine.entry] at hpresent hpresent' hframe
    rw [Machine.entry] at hframe
    rw [Machine.vmmngrVirt2physPdir, Machine.vmmngrVirt2physPdir]
    dsimp only
    rw [h.lookup_directory hdir, h.lookup_directory h.current, hpresent, hpresent',
      show pdEntryPfn _ = _ from Entry.pfn_eq_of_frameOf_eq hframe]
  rw [hkernel dir hdir, hkernel dir' hdir']

end Inv

/-! ### Runs -/

/-- The calls on mappings, with the creation of directories and the change of the current one. -/
inductive Op
  | create
  | switchTo (dir : BitVec 32)
  | allocVirt (dir virt pdeFlags pteFlags : BitVec 32)
  | mapPage (dir phys virt pdeFlags pteFlags : BitVec 32)
  | freeVirt (dir virt : BitVec 32)
  | unmapVirt (dir virt : BitVec 32)

def apply (s : Directories) : Op → Directories
  | .create => s.create
  | .switchTo dir => { s with machine := s.machine.vmmngrSwitchPdirectory dir }
  | .allocVirt dir virt pdeFlags pteFlags =>
    { s with machine := s.machine.vmmngrAllocVirt dir virt pdeFlags pteFlags }
  | .mapPage dir phys virt pdeFlags pteFlags =>
    { s with machine := s.machine.vmmngrMapPage dir phys virt pdeFlags pteFlags }
  | .freeVirt dir virt => { s with machine := s.machine.vmmngrFreeVirt dir virt }
  | .unmapVirt dir virt => { s with machine := s.machine.vmmngrUnmapVirt dir virt }

/-- The call works on an existing directory and an address of the user or the kernel. -/
def Called (s : Directories) : Op → Prop
  | .create => True
  | .switchTo dir => dir ∈ s.live
  | .allocVirt dir virt _ _ => dir ∈ s.live ∧ (UserAddress virt ∨ KernelAddress virt)
  | .mapPage dir _ virt _ _ => dir ∈ s.live ∧ (UserAddress virt ∨ KernelAddress virt)
  | .freeVirt dir virt => dir ∈ s.live ∧ (UserAddress virt ∨ KernelAddress virt)
  | .unmapVirt dir virt => dir ∈ s.live ∧ (UserAddress virt ∨ KernelAddress virt)

/-- The flags of an entry are attributes, and no page is given back that is a directory or a table. -/
def Spares (s : Directories) : Op → Prop
  | .allocVirt _ _ pdeFlags _ => pdeFlags.toNat < 4096
  | .mapPage _ _ _ pdeFlags _ => pdeFlags.toNat < 4096
  | .freeVirt dir virt => ∀ frame, s.machine.Releases dir virt frame → ¬ s.Holds MappedSlot frame
  | _ => True

def CalledStep (s : Directories) (op : Op) (t : Directories) : Prop := s.Called op ∧ t = s.apply op

def Step (s : Directories) (op : Op) (t : Directories) : Prop := s.Spares op ∧ s.CalledStep op t

theorem mapped_of_address (h : UserAddress virt ∨ KernelAddress virt) : MappedSlot (pageDirectoryIndex virt) :=
  h.elim (fun huser => huser.slot.mapped) (fun hkernel => hkernel.slot.mapped)

theorem Inv.step {op : Op} (h : s.Inv) (hstep : s.Step op t) : t.Inv := by
  obtain ⟨hspares, hcalled, rfl⟩ := hstep
  cases op with
  | create => exact h.create
  | switchTo dir => exact h.switchTo hcalled
  | allocVirt dir virt pdeFlags pteFlags =>
    exact (h.allocVirt hcalled.1 (mapped_of_address hcalled.2) hspares pteFlags).inv h
  | mapPage dir phys virt pdeFlags pteFlags =>
    exact (h.mapPage hcalled.1 (mapped_of_address hcalled.2) hspares phys pteFlags).inv h
  | freeVirt dir virt => exact (h.freeVirt hcalled.1 (mapped_of_address hcalled.2) hspares).inv h
  | unmapVirt dir virt => exact (h.unmapVirt hcalled.1 (mapped_of_address hcalled.2)).inv h

/-- A machine with its boot directory: the entries of the kernel's addresses are present, and the directory
and the tables are in frames in use. -/
structure KernelMapped (m : Machine) : Prop where
  search : 32 * m.pmm.searchWords ≤ 2 ^ 20
  directory : m.pmm.mmapTest (Pmm.frameOf m.curDirectory) = true ∧ Pmm.frameOf m.curDirectory ≠ 0
  tables : ∀ i, MappedSlot i → pdEntryIsPresent (m.entry m.curDirectory i) = true →
    m.pmm.mmapTest (Pmm.frameOf (m.entry m.curDirectory i)) = true ∧
      Pmm.frameOf (m.entry m.curDirectory i) ≠ Pmm.frameOf m.curDirectory
  kernel : ∀ i, KernelSlot i → pdEntryIsPresent (m.entry m.curDirectory i) = true

def start (m : Machine) : Directories where
  machine := m
  live := {m.curDirectory}

theorem inv_start (hmapped : KernelMapped m) : (start m).Inv where
  search := hmapped.search
  current := rfl
  ne_zero dir hdir := by
    obtain rfl : dir = m.curDirectory := hdir
    exact hmapped.directory.2
  used frame hframe := by
    obtain ⟨dir, hdir, rfl⟩ | ⟨dir, hdir, i, hi, hpresent, rfl⟩ := hframe <;>
      obtain rfl : dir = m.curDirectory := hdir
    · exact hmapped.directory.1
    · exact (hmapped.tables i hi hpresent).1
  apart dir hdir i hi hpresent dir' hdir' := by
    obtain rfl : dir = m.curDirectory := hdir
    obtain rfl : dir' = m.curDirectory := hdir'
    exact (hmapped.tables i hi hpresent).2
  kernel dir hdir i hi := by
    obtain rfl : dir = m.curDirectory := hdir
    exact ⟨hmapped.kernel i hi, rfl⟩

/-! ### The boot directory -/

theorem pageDirectoryIndex_lt (virt : BitVec 32) : pageDirectoryIndex virt < 1024 := by
  rw [pageDirectoryIndex, BitVec.toNat_and, show (0x3ff#32).toNat = 2 ^ 10 - 1 from rfl,
    Nat.and_two_pow_sub_one_eq_mod]
  omega

theorem Apart.mmap (h : s.Apart (· < 1024)) (hdir : dir ∈ s.live) {pdeFlags : BitVec 32}
    (hflags : pdeFlags.toNat < 4096) (phys virt pteFlags : BitVec 32) (range : Nat) :
    Follows (· < 1024) s (s.machine.vmmngrMmap dir phys virt range pdeFlags pteFlags) := by
  induction range generalizing s phys virt with
  | zero => exact Follows.refl h
  | succ range ih =>
    have hpage := h.mapPage hdir (pageDirectoryIndex_lt virt) hflags phys pteFlags
    have hrest : Follows (· < 1024) { s with machine := s.machine.vmmngrMapPage dir phys virt pdeFlags pteFlags }
      _ := ih hpage.apart hdir (phys + 4096#32) (virt + 4096#32)
    exact hpage.trans hrest

theorem Apart.three_mmaps (h : s.Apart (· < 1024)) (hdir : dir ∈ s.live) {pdeFlags : BitVec 32}
    (hflags : pdeFlags.toNat < 4096)
    (phys₁ virt₁ phys₂ virt₂ phys₃ virt₃ flags₁ flags₂ flags₃ : BitVec 32) (n₁ n₂ n₃ : Nat) :
    Follows (· < 1024) s (((s.machine.vmmngrMmap dir phys₁ virt₁ n₁ pdeFlags flags₁).vmmngrMmap dir phys₂ virt₂
      n₂ pdeFlags flags₂).vmmngrMmap dir phys₃ virt₃ n₃ pdeFlags flags₃) := by
  have h₁ := h.mmap hdir hflags phys₁ virt₁ flags₁ n₁
  have h₂ := h₁.trans (h₁.apart.mmap hdir hflags phys₂ virt₂ flags₂ n₂)
  exact h₂.trans (h₂.apart.mmap hdir hflags phys₃ virt₃ flags₃ n₃)

/-- A machine right after its first directory was made. -/
theorem apart_createPdir (hsearch : 32 * m.pmm.searchWords ≤ 2 ^ 20) (hdir : m.vmmngrCreatePdir.1 ≠ 0#32) :
    Apart (· < 1024)
      (start { m.vmmngrCreatePdir.2 with curDirectory := m.vmmngrCreatePdir.1 }) := by
  have hsearch' : 32 * (start m).machine.pmm.searchWords ≤ 2 ^ 20 := hsearch
  obtain ⟨p, pmm, heq, hmax, -, hnew⟩ := Apart.allocBlock_cases hsearch'
  unfold Machine.vmmngrCreatePdir at hdir ⊢
  rw [show m.pmm.pmmngrAllocBlock = (p, pmm) from heq] at hdir ⊢
  dsimp only at hdir ⊢
  split at hdir
  · exact absurd rfl hdir
  next hp =>
  rw [if_neg hp]
  obtain ⟨hzero, -, hused⟩ := hnew hp
  have habsent : ∀ dir ∈ ({p} : Set (BitVec 32)), ∀ i < 1024, pdEntryIsPresent (Machine.entry
      { Machine.vmmngrPdirectoryClear { m with pmm } p with curDirectory := p } dir i) = false := by
    rintro dir rfl i hi
    simp only [Machine.entry, Machine.vmmngrPdirectoryClear, Machine.clearWords, Nat.zero_le, Nat.zero_add, hi,
      and_self, if_true]
    rfl
  refine ⟨?_, rfl, ?_, ?_, ?_⟩
  · show 32 * pmm.searchWords ≤ 2 ^ 20
    rw [Pmm.searchWords, Pmm.pmmngrGetBlockCount, hmax]
    exact hsearch
  · rintro dir rfl
    exact hzero
  · rintro frame (⟨dir, rfl, rfl⟩ | ⟨dir, hlive, i, hi, hpresent, -⟩)
    · exact hused
    · exact Bool.noConfusion ((habsent dir hlive i hi).symm.trans hpresent)
  · intro dir hlive i hi hpresent
    exact Bool.noConfusion ((habsent dir hlive i hi).symm.trans hpresent)

/-- The directory that `vmmngr_initialize` made is one, when the entries of the kernel got their tables. -/
theorem kernelMapped_vmmngrInitialize (hsearch : 32 * m.pmm.searchWords ≤ 2 ^ 20)
    (hdir : m.vmmngrCreatePdir.1 ≠ 0#32) (hkernel : ∀ i, KernelSlot i →
      pdEntryIsPresent (m.vmmngrInitialize.entry m.vmmngrInitialize.curDirectory i) = true) :
    KernelMapped m.vmmngrInitialize := by
  have hmapped : Follows (· < 1024)
      (start { m.vmmngrCreatePdir.2 with curDirectory := m.vmmngrCreatePdir.1 }) m.vmmngrInitialize := by
    have hwritable : Entry.writable.toNat < 4096 := by decide
    rw [Machine.vmmngrInitialize]
    dsimp only
    rw [if_neg hdir]
    exact (apart_createPdir hsearch hdir).three_mmaps rfl hwritable 0x1000#32 0x1000#32 0x100000#32
      0xC0000000#32 0xFD000000#32 0xCD000000#32 Entry.writable Entry.writable (Entry.writable ||| Entry.pat) 1023
      (1024 * 4) (Machine.framebufferBytes / 4096 + 100)
  have hlive : m.vmmngrInitialize.curDirectory ∈
      (start { m.vmmngrCreatePdir.2 with curDirectory := m.vmmngrCreatePdir.1 }).live := hmapped.apart.current
  refine ⟨hmapped.apart.search, ⟨hmapped.apart.used _ (holds_dir hlive), hmapped.apart.ne_zero _ hlive⟩,
    fun i hi hpresent => ?_, hkernel⟩
  have hlt : i < 1024 := by
    unfold MappedSlot at hi
    omega
  exact ⟨hmapped.apart.used _ (holds_table hlive hlt hpresent),
    hmapped.apart.apart _ hlive i hlt hpresent _ hlive⟩

/-- In every run in which the flags of directory entries are attributes and no page is given back that is a
directory or a table, all directories translate the kernel's addresses alike. -/
theorem kernelMapping_of_run {ops : List Op} (hmapped : KernelMapped m)
    (hrun : Transition.Run Step (start m) ops t) (hdir : dir ∈ t.live) (hdir' : dir' ∈ t.live)
    (hvirt : KernelAddress virt) :
    t.machine.vmmngrVirt2physPdir dir virt = t.machine.vmmngrVirt2physPdir dir' virt :=
  (hrun.invariant Inv (fun _ _ _ hs hstep => hs.step hstep) (inv_start hmapped)).virt2phys_eq hdir hdir' hvirt

/-! ### A boot directory, and the two ways to break the mapping -/

/-- A directory in frame 1 and the kernel's tables in frames 2 to 5, the first of which maps frame 6 and the
directory itself. -/
def fourTables : Machine where
  pmm := { memorySize := 256#32, usedBlocks := 6#32, maxBlocks := 64#32,
           memoryMap := fun w => if w = 0 then 0x3F#32 else 0#32 }
  memory w :=
    if w = (1, 768) then 0x2003#32
    else if w = (1, 769) then 0x3003#32
    else if w = (1, 770) then 0x4003#32
    else if w = (1, 771) then 0x5003#32
    else if w = (2, 0) then 0x6003#32
    else if w = (2, 1) then 0x1003#32
    else 0#32
  curDirectory := 0x1000#32

theorem present_fourTables {i : Nat} (hpresent : pdEntryIsPresent (fourTables.entry fourTables.curDirectory i)
    = true) : KernelSlot i := by
  by_contra hslot
  unfold KernelSlot at hslot
  have hzero : fourTables.entry fourTables.curDirectory i = 0#32 := by
    have hframe : Pmm.frameOf fourTables.curDirectory = 1 := by decide
    rw [Machine.entry, hframe, fourTables]
    simp only [Prod.mk.injEq, true_and]
    repeat rw [if_neg (by omega)]
  rw [hzero] at hpresent
  cases hpresent

theorem kernelMapped_fourTables : KernelMapped fourTables := by
  have hcases : ∀ i, KernelSlot i → i = 768 ∨ i = 769 ∨ i = 770 ∨ i = 771 := by
    intro i hi
    unfold KernelSlot at hi
    omega
  refine ⟨by decide, by decide, fun i _ hpresent => ?_, fun i hi => ?_⟩
  · obtain rfl | rfl | rfl | rfl := hcases i (present_fourTables hpresent) <;> decide
  · obtain rfl | rfl | rfl | rfl := hcases i hi <;> decide

theorem live_create_fourTables : (start fourTables).create.live = {0x6000#32, 0x1000#32} := by
  have hspace : (start fourTables).machine.createAddressSpace.1 = 0x6000#32 := by decide
  show (if (start fourTables).machine.createAddressSpace.1 = 0#32 then (start fourTables).live
    else insert (start fourTables).machine.createAddressSpace.1 (start fourTables).live) = _
  rw [hspace]
  rfl

/-- A page entered through a new directory is seen through the boot directory. -/
theorem kernelMapping_of_run_fourTables :
    ((start fourTables).create.apply (.allocVirt 0x6000#32 0xC0002000#32 3#32 3#32)).machine.vmmngrVirt2physPdir
      0x1000#32 0xC0002000#32 = 0x7000#32 := by
  have hrun : Transition.Run Step (start fourTables) [.create, .allocVirt 0x6000#32 0xC0002000#32 3#32 3#32]
      ((start fourTables).create.apply (.allocVirt 0x6000#32 0xC0002000#32 3#32 3#32)) := by
    have hflags : (3#32).toNat < 4096 := by decide
    have hnew : 0x6000#32 ∈ (start fourTables).create.live := live_create_fourTables ▸ Or.inl rfl
    exact .cons ⟨trivial, trivial, rfl⟩ (.cons ⟨hflags, ⟨hnew, .inr (by decide)⟩, rfl⟩ (.nil _))
  have hlive : ((start fourTables).create.apply (.allocVirt 0x6000#32 0xC0002000#32 3#32 3#32)).live
      = {0x6000#32, 0x1000#32} := live_create_fourTables
  have hboot : 0x1000#32 ∈ ((start fourTables).create.apply
    (.allocVirt 0x6000#32 0xC0002000#32 3#32 3#32)).live := hlive ▸ Or.inr rfl
  have hnew : 0x6000#32 ∈ ((start fourTables).create.apply
    (.allocVirt 0x6000#32 0xC0002000#32 3#32 3#32)).live := hlive ▸ Or.inl rfl
  rw [kernelMapping_of_run kernelMapped_fourTables hrun hboot hnew (by decide)]
  decide

/-- Giving back a page that is a directory lets its frame become a table, and a flag above the attributes
changes the table of one directory: in both runs the two directories translate 0xC0001000 differently. -/
theorem not_kernelMapping_of_run : KernelMapped fourTables ∧
    (∃ t, Transition.Run CalledStep (start fourTables)
        [.create, .freeVirt 0x1000#32 0xC0000000#32, .allocVirt 0x1000#32 0x400000#32 3#32 3#32] t ∧
      0x1000#32 ∈ t.live ∧ 0x6000#32 ∈ t.live ∧
      t.machine.vmmngrVirt2physPdir 0x1000#32 0xC0001000#32
        ≠ t.machine.vmmngrVirt2physPdir 0x6000#32 0xC0001000#32) ∧
    (∃ t, Transition.Run CalledStep (start fourTables)
        [.create, .allocVirt 0x6000#32 0xC0001000#32 0x8003#32 3#32] t ∧
      0x1000#32 ∈ t.live ∧ 0x6000#32 ∈ t.live ∧
      t.machine.vmmngrVirt2physPdir 0x1000#32 0xC0001000#32
        ≠ t.machine.vmmngrVirt2physPdir 0x6000#32 0xC0001000#32) := by
  have hboot : 0x1000#32 ∈ (start fourTables).create.live := live_create_fourTables ▸ Or.inr rfl
  have hnew : 0x6000#32 ∈ (start fourTables).create.live := live_create_fourTables ▸ Or.inl rfl
  refine ⟨kernelMapped_fourTables, ⟨_, .cons ⟨trivial, rfl⟩ (.cons ⟨⟨hboot, .inr ?_⟩, rfl⟩
    (.cons ⟨⟨hboot, .inl ?_⟩, rfl⟩ (.nil _))), hboot, hnew, ?_⟩,
    ⟨_, .cons ⟨trivial, rfl⟩ (.cons ⟨⟨hnew, .inr ?_⟩, rfl⟩ (.nil _)), hboot, hnew, ?_⟩⟩
  · decide
  · show 0x400000 ≤ (0x400000#32).toNat ∧ (0x400000#32).toNat < 0xC0000000
    decide
  · decide
  · decide
  · decide

end Directories

end Akos
