import Akos.Memory.PageFrames

/-!
# The pages that a mapping changes

One directory whose tables are frames of their own. `vmmngr_map_page` changes what its page translates to and nothing
else, and `vmmngr_mmap` does so for a range of pages.
-/

namespace Akos

open Machine (mappedWord)

namespace Machine

variable {m m' m'' : Machine} {dir phys virt virt' frame c pdeFlags pteFlags : BitVec 32} {i j k n : Nat}

/-- The directory and its tables are different frames in use, and can be reached: neither is at address 0, which the
lookups take for no table. -/
structure OwnTables (m : Machine) (dir : BitVec 32) : Prop where
  search : 32 * m.pmm.searchWords ≤ 2 ^ 20
  zero : m.pmm.mmapTest 0 = true
  directory : Pmm.frameOf dir ≠ 0 ∧ m.pmm.mmapTest (Pmm.frameOf dir) = true
  table : ∀ i < 1024, pdEntryIsPresent (m.entry dir i) = true → Pmm.frameOf (m.entry dir i) ≠ 0 ∧
    Pmm.frameOf (m.entry dir i) ≠ Pmm.frameOf dir ∧ m.pmm.mmapTest (Pmm.frameOf (m.entry dir i)) = true
  own : ∀ i < 1024, ∀ j < 1024, pdEntryIsPresent (m.entry dir i) = true → pdEntryIsPresent (m.entry dir j) = true →
    Pmm.frameOf (m.entry dir i) = Pmm.frameOf (m.entry dir j) → i = j

/-- A frame is free. -/
def FrameFree (m : Machine) : Prop :=
  0 < m.pmm.pmmngrGetFreeBlockCount ∧ ∃ frame < 32 * m.pmm.searchWords, m.pmm.mmapTest frame = false

/-- The table of the page is present, or a frame is free. -/
def Mappable (m : Machine) (dir virt : BitVec 32) : Prop :=
  pdEntryIsPresent (m.entry dir (pageDirectoryIndex virt)) = true ∨ m.FrameFree

/-- So it is for every page of a range, when it is its turn. -/
def MappableAll (dir pdeFlags pteFlags : BitVec 32) : Nat → BitVec 32 → BitVec 32 → Machine → Prop
  | 0, _, _, _ => True
  | n + 1, frame, virt, m => m.Mappable dir virt ∧ MappableAll dir pdeFlags pteFlags n (frame + 4096#32)
      (virt + 4096#32) (m.vmmngrMapPage dir frame virt pdeFlags pteFlags)

/-! ### The current directory does not matter -/

theorem mapPage_setCurrent (m : Machine) (c dir phys virt pdeFlags pteFlags : BitVec 32) :
    ({ m with curDirectory := c } : Machine).vmmngrMapPage dir phys virt pdeFlags pteFlags =
      { m.vmmngrMapPage dir phys virt pdeFlags pteFlags with curDirectory := c } := by
  unfold vmmngrMapPage tableForEntry
  by_cases hpresent : pdEntryIsPresent (m.memory (vmmngrPdirectoryLookupEntry dir virt)) = true
  · simp only [if_pos hpresent]
    rfl
  · simp only [if_neg hpresent]
    by_cases hp : m.pmm.pmmngrAllocBlock.1 = 0#32
    · simp only [if_pos hp]
      rfl
    · simp only [if_neg hp]
      rfl

/-- The directory as the only one. -/
def alone (m : Machine) (dir : BitVec 32) : Directories := ⟨{ m with curDirectory := dir }, {dir}⟩

theorem separate_alone_iff : (m.alone dir).Separate ∧ m.pmm.mmapTest 0 = true ↔ OwnTables m dir := by
  have hlive : ∀ {dir'}, dir' ∈ (m.alone dir).live → dir' = dir := fun hdir => hdir
  constructor
  · intro h
    obtain ⟨h, hzero⟩ := h
    have hdir : dir ∈ (m.alone dir).live := rfl
    exact ⟨h.search, hzero, ⟨h.ne_zero dir hdir, h.used _ (Directories.holds_dir hdir)⟩,
      fun i hi hpresent => ⟨h.table_ne_zero dir hdir i hi hpresent, h.apart dir hdir i hi hpresent dir hdir,
        h.used _ (Directories.holds_table hdir hi hpresent)⟩,
      fun i hi j hj hpresent hpresent' hframe =>
        (h.own dir hdir dir hdir i hi j hj hpresent hpresent' hframe).1⟩
  · intro h
    refine ⟨⟨⟨h.search, rfl, fun dir' hdir' => hlive hdir' ▸ h.directory.1, fun frame hholds => ?_,
      fun dir' hdir' i hi hpresent dir'' hdir'' => ?_⟩,
      fun dir' hdir' dir'' hdir'' _ => (hlive hdir').trans (hlive hdir'').symm,
      fun dir' hdir' i hi hpresent => ?_, fun dir' hdir' dir'' hdir'' i hi j hj hpresent hpresent' hframe => ?_⟩, h.zero⟩
    · obtain ⟨dir', hdir', rfl⟩ | ⟨dir', hdir', i, hi, hpresent, rfl⟩ := hholds
      · exact hlive hdir' ▸ h.directory.2
      · obtain rfl := hlive hdir'
        exact (h.table i hi hpresent).2.2
    · obtain rfl := hlive hdir'
      obtain rfl := hlive hdir''
      exact (h.table i hi hpresent).2.1
    · obtain rfl := hlive hdir'
      exact (h.table i hi hpresent).1
    · obtain rfl := hlive hdir'
      obtain rfl := hlive hdir''
      exact ⟨h.own i hi j hj hpresent hpresent' hframe, .inl rfl⟩

/-! ### A table can be had -/

/-- A free frame is one that an allocation finds. -/
theorem allocBlock_ne_zero (hsearch : 32 * m.pmm.searchWords ≤ 2 ^ 20) (hzero : m.pmm.mmapTest 0 = true)
    (h : m.FrameFree) : m.pmm.pmmngrAllocBlock.1 ≠ 0#32 := by
  obtain ⟨hcount, frame, hlt, hclear⟩ := h
  obtain ⟨found, hle, hfound⟩ := WordMap.firstClear_of_clear hlt hclear
  obtain ⟨found', _, hfind, heq⟩ | ⟨hnone, -⟩ := m.pmm.pmmngrAllocBlock_cases
  · obtain ⟨hbound, hfree, -⟩ := WordMap.firstClear_eq_some hfind
    have hframe := Pmm.frameOf_mul_blockSize (show found' < 2 ^ 20 by omega)
    rw [heq]
    intro hp
    dsimp only at hp
    rw [hp] at hframe
    have hused : m.pmm.mmapTest found' = true := by
      rw [← hframe]
      exact hzero
    exact absurd (hfree.symm.trans hused) Bool.noConfusion
  · rw [Pmm.mmapFirstFree, hfound] at hnone
    rcases hnone with hnone | hnone
    · omega
    · cases hnone

theorem tableForEntry_of_mappable (h : OwnTables m dir) (hmap : m.Mappable dir virt) :
    (m.tableForEntry (vmmngrPdirectoryLookupEntry dir virt)).1 = true := by
  have hdir : dir ≠ 0#32 := by
    rintro rfl
    exact h.directory.1 rfl
  have hlookup : vmmngrPdirectoryLookupEntry dir virt = (Pmm.frameOf dir, pageDirectoryIndex virt) := if_neg hdir
  rw [hlookup, tableForEntry]
  split
  · rfl
  · next habsent =>
    have hp := allocBlock_ne_zero h.search h.zero (hmap.resolve_left habsent)
    dsimp only
    rw [if_neg hp]

/-! ### One page -/

theorem isPresent_pageWord_mapped (e : BitVec 32) : ptEntryIsPresent (mappedWord e phys pteFlags) = true :=
  Directories.isPresent_mappedWord e phys pteFlags

theorem pfn_mappedWord (hphys : phys.toNat % 4096 = 0) (hpte : pteFlags.toNat < 4096) (e : BitVec 32) :
    ptEntryPfn (mappedWord e phys pteFlags) = phys := by
  have hframe := Directories.frameOf_mappedWord e phys hpte
  rw [ptEntryPfn, Entry.pfn_eq_of_frameOf_eq hframe]
  refine BitVec.eq_of_toNat_eq ?_
  rw [Entry.toNat_pfn, Pmm.frameOf_eq]
  omega

/-- An address in a page: its page, and its place there. -/
theorem offset_eq {o : BitVec 32} (hvirt : virt.toNat % 4096 = 0) (ho : o.toNat < 4096) :
    SamePage (virt + o) virt ∧ (virt + o) &&& 0xfff#32 = o := by
  have hlt := virt.isLt
  have hsum : (virt + o).toNat = virt.toNat + o.toNat := by
    rw [BitVec.toNat_add]
    omega
  refine ⟨samePage_iff.mpr (by rw [hsum]; omega), BitVec.eq_of_toNat_eq ?_⟩
  rw [BitVec.toNat_and, show (0xfff#32).toNat = 2 ^ 12 - 1 from rfl, Nat.and_two_pow_sub_one_eq_mod, hsum]
  omega

/-- What is claimed of a mapping of `n` pages. -/
structure MapsPages (m : Machine) (dir frame virt : BitVec 32) (n : Nat) (m' : Machine) : Prop where
  tables : OwnTables m' dir
  mapped : ∀ o < 4096 * n, m'.vmmngrVirt2physPdir dir (virt + BitVec.ofNat 32 o) = frame + BitVec.ofNat 32 o
  others : ∀ virt' : BitVec 32, virt'.toNat < virt.toNat ∨ virt.toNat + 4096 * n ≤ virt'.toNat →
    m'.vmmngrVirt2physPdir dir virt' = m.vmmngrVirt2physPdir dir virt'

theorem mapPage_mapsPages (h : OwnTables m dir) (hmap : m.Mappable dir virt) (hvirt : virt.toNat % 4096 = 0)
    (hphys : phys.toNat % 4096 = 0) (hpde : pdeFlags.toNat < 4096) (hpte : pteFlags.toNat < 4096) :
    MapsPages m dir phys virt 1 (m.vmmngrMapPage dir phys virt pdeFlags pteFlags) := by
  have halone : (m.alone dir).machine.OwnTables dir := ⟨h.search, h.zero, h.directory, h.table, h.own⟩
  obtain ⟨hseparate, hzero⟩ := separate_alone_iff.mpr h
  have hremaps := hseparate.mapPage (Set.mem_singleton dir) hpde phys pteFlags
    (tableForEntry_of_mappable halone hmap)
  have hmapped : (m.alone dir).machine.vmmngrMapPage dir phys virt pdeFlags pteFlags =
      { m.vmmngrMapPage dir phys virt pdeFlags pteFlags with curDirectory := dir } := mapPage_setCurrent ..
  rw [hmapped] at hremaps
  refine ⟨separate_alone_iff.mp ⟨hremaps.separate, hremaps.grows 0 hzero⟩, fun o ho => ?_, fun virt' hother => ?_⟩
  · have hoffset : (BitVec.ofNat 32 o).toNat = o := by
      rw [BitVec.toNat_ofNat]
      omega
    obtain ⟨hsame, hplace⟩ := offset_eq hvirt (o := BitVec.ofNat 32 o) (by omega)
    have hword : (m.vmmngrMapPage dir phys virt pdeFlags pteFlags).pageWord dir (virt + BitVec.ofNat 32 o) =
        mappedWord (m.pageWord dir virt) phys pteFlags := hremaps.self _ hsame
    rw [vmmngrVirt2physPdir_eq, hword, if_pos (isPresent_pageWord_mapped _),
      pfn_mappedWord hphys hpte, hplace]
  · have hne : ¬ SamePage virt' virt := by
      rw [samePage_iff]
      omega
    have hword : (m.vmmngrMapPage dir phys virt pdeFlags pteFlags).pageWord dir virt' = m.pageWord dir virt' :=
      hremaps.others dir rfl virt' fun hboth => hne hboth.1
    rw [vmmngrVirt2physPdir_eq, hword, vmmngrVirt2physPdir_eq]

/-! ### A range of pages -/

theorem mapsPages_zero (h : OwnTables m dir) (frame virt : BitVec 32) : MapsPages m dir frame virt 0 m :=
  ⟨h, fun _ ho => absurd ho (Nat.not_lt_zero _), fun _ _ => rfl⟩

/-- One page, and the pages behind it. -/
theorem MapsPages.cons (hm : MapsPages m dir frame virt 1 m')
    (hm' : MapsPages m' dir (frame + 4096#32) (virt + 4096#32) n m'')
    (hnext : (virt + 4096#32).toNat = virt.toNat + 4096) (hrange : virt.toNat + 4096 * (n + 1) ≤ 2 ^ 32) :
    MapsPages m dir frame virt (n + 1) m'' where
  tables := hm'.tables
  mapped o ho := by
    by_cases hfirst : o < 4096
    · have hplace : (virt + BitVec.ofNat 32 o).toNat = virt.toNat + o := by
        rw [BitVec.toNat_add, BitVec.toNat_ofNat]
        omega
      rw [hm'.others _ (.inl (by omega))]
      exact hm.mapped o (by omega)
    · obtain ⟨k, rfl⟩ := Nat.exists_eq_add_of_le (Nat.le_of_not_lt hfirst)
      rw [BitVec.ofNat_add, ← BitVec.add_assoc, ← BitVec.add_assoc]
      exact hm'.mapped k (by omega)
  others virt' hother := by
    rw [Nat.mul_succ] at hother hrange
    rw [hm'.others virt' (by omega)]
    exact hm.others virt' (hother.imp_right fun hle =>
      Nat.le_trans (Nat.add_le_add_left (Nat.le_add_left 4096 (4096 * n)) _) hle)

/-- The loop over pages, page by page. -/
theorem mmap_mapsPages (h : OwnTables m dir) (hmap : MappableAll dir pdeFlags pteFlags n frame virt m)
    (hvirt : virt.toNat % 4096 = 0) (hframe : frame.toNat % 4096 = 0) (hpde : pdeFlags.toNat < 4096)
    (hpte : pteFlags.toNat < 4096) (hrange : virt.toNat + 4096 * n ≤ 2 ^ 32) :
    MapsPages m dir frame virt n (m.vmmngrMmap dir frame virt n pdeFlags pteFlags) := by
  induction n generalizing m frame virt with
  | zero => exact mapsPages_zero h frame virt
  | succ n ih =>
    have hone := mapPage_mapsPages h hmap.1 hvirt hframe hpde hpte
    rw [vmmngrMmap]
    cases n with
    | zero => exact hone
    | succ n =>
      have hnext : (virt + 4096#32).toNat = virt.toNat + 4096 := by
        rw [BitVec.toNat_add, show (4096#32).toNat = 4096 from rfl]
        omega
      have haligned : (frame + 4096#32).toNat % 4096 = 0 := by
        rw [BitVec.toNat_add, show (4096#32).toNat = 4096 from rfl]
        omega
      have hstart : (virt + 4096#32).toNat % 4096 = 0 := by rw [hnext, Nat.add_mod_right, hvirt]
      refine hone.cons (ih hone.tables hmap.2 hstart haligned ?_) hnext hrange
      rw [hnext, Nat.add_assoc, Nat.add_comm 4096]
      exact hrange

/-- What `vmmngr_map_page` and `vmmngr_mmap` change, for every directory with its own tables: what the pages that are
mapped translate to, and nothing else. -/
theorem maps_exactly (phys virt pdeFlags pteFlags : BitVec 32) (h : OwnTables m dir)
    (hvirt : virt.toNat % 4096 = 0) (hphys : phys.toNat % 4096 = 0)
    (hpde : pdeFlags.toNat < 0x1000) (hpte : pteFlags.toNat < 0x1000) :
    (m.Mappable dir virt →
      (∀ o < 4096, (m.vmmngrMapPage dir phys virt pdeFlags pteFlags).vmmngrVirt2physPdir dir (virt + BitVec.ofNat 32 o) =
        phys + BitVec.ofNat 32 o) ∧
      ∀ virt' : BitVec 32, virt'.toNat / 4096 ≠ virt.toNat / 4096 →
        (m.vmmngrMapPage dir phys virt pdeFlags pteFlags).vmmngrVirt2physPdir dir virt' = m.vmmngrVirt2physPdir dir virt') ∧
    ∀ n, virt.toNat + 4096 * n ≤ 2 ^ 32 → MappableAll dir pdeFlags pteFlags n phys virt m →
      (∀ k < 4096 * n, (m.vmmngrMmap dir phys virt n pdeFlags pteFlags).vmmngrVirt2physPdir dir
        (virt + BitVec.ofNat 32 k) = phys + BitVec.ofNat 32 k) ∧
      ∀ virt' : BitVec 32, virt'.toNat < virt.toNat ∨ virt.toNat + 4096 * n ≤ virt'.toNat →
        (m.vmmngrMmap dir phys virt n pdeFlags pteFlags).vmmngrVirt2physPdir dir virt' =
          m.vmmngrVirt2physPdir dir virt' := by
  refine ⟨fun hmap => ?_, fun n hrange hmap => ?_⟩
  · have hone := mapPage_mapsPages h hmap hvirt hphys hpde hpte
    exact ⟨fun o ho => hone.mapped o (by omega), fun virt' hne => hone.others virt' (by omega)⟩
  · have hall := mmap_mapsPages h hmap hvirt hphys hpde hpte hrange
    exact ⟨hall.mapped, hall.others⟩

theorem ownTables_fourTables : OwnTables Directories.fourTables 0x1000#32 where
  search := by decide
  zero := by decide
  directory := by decide
  table i hi hpresent := by
    have hslot := Directories.present_fourTables hpresent
    have hcases : i = 768 ∨ i = 769 ∨ i = 770 ∨ i = 771 := by
      unfold KernelSlot at hslot
      omega
    obtain rfl | rfl | rfl | rfl := hcases <;> decide
  own i hi j hj hpresent hpresent' hframe := by
    have hslot := Directories.present_fourTables hpresent
    have hslot' := Directories.present_fourTables hpresent'
    unfold KernelSlot at hslot hslot'
    have hcases : i = 768 ∨ i = 769 ∨ i = 770 ∨ i = 771 := by omega
    have hcases' : j = 768 ∨ j = 769 ∨ j = 770 ∨ j = 771 := by omega
    revert hframe
    obtain rfl | rfl | rfl | rfl := hcases <;> obtain rfl | rfl | rfl | rfl := hcases' <;> decide

/-- Two pages over the border of two tables, neither of which is present. -/
theorem maps_exactly_fourTables :
    (∀ o < 4096, (Directories.fourTables.vmmngrMapPage 0x1000#32 0x20000#32 0x7FF000#32 3#32 3#32).vmmngrVirt2physPdir
      0x1000#32 (0x7FF000#32 + BitVec.ofNat 32 o) = 0x20000#32 + BitVec.ofNat 32 o) ∧
    ∀ k < 4096 * 2, (Directories.fourTables.vmmngrMmap 0x1000#32 0x20000#32 0x7FF000#32 2 3#32 3#32).vmmngrVirt2physPdir
      0x1000#32 (0x7FF000#32 + BitVec.ofNat 32 k) = 0x20000#32 + BitVec.ofNat 32 k := by
  have hmaps :=
    maps_exactly 0x20000#32 0x7FF000#32 3#32 3#32 ownTables_fourTables (by decide) (by decide) (by decide) (by decide)
  have hfirst : Directories.fourTables.Mappable 0x1000#32 0x7FF000#32 := .inr ⟨by decide, 9, by decide, by decide⟩
  have hsecond : (Directories.fourTables.vmmngrMapPage 0x1000#32 0x20000#32 0x7FF000#32 3#32 3#32).Mappable 0x1000#32
      0x800000#32 := .inr ⟨by decide, 9, by decide, by decide⟩
  exact ⟨(hmaps.1 hfirst).1, (hmaps.2 2 (by decide) ⟨hfirst, hsecond, trivial⟩).1⟩

end Machine

end Akos
