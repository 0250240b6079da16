import Mathlib.Tactic.IntervalCases
import Akos.Lib.Strided
import Akos.Memory.KernelMapping

/-!
# What an address is mapped to

The functions of `vmm.c` seen through the word that maps an address: entering a table changes no such word, and
a new mapping changes that of one page. Directories whose tables are their own do not see each other's pages.
-/

namespace Akos

/-- `I86_PDE_USER` and `I86_PTE_USER` -/
abbrev Entry.user : BitVec 32 := 4#32

namespace Machine

def vmmngrCheckVirtPresent (m : Machine) (dir virt : BitVec 32) : Bool :=
  let e := m.memory (vmmngrPdirectoryLookupEntry dir virt)
  if !pdEntryIsPresent e then false
  else ptEntryIsPresent (m.memory (vmmngrPtableLookupEntry (pdEntryPfn e) virt))

def vmmngrMmapVirt2virt (m : Machine) (orig new origVirt newVirt pdeFlags pteFlags : BitVec 32) : Machine :=
  m.vmmngrMapPage new (m.vmmngrVirt2physPdir orig origVirt) newVirt pdeFlags pteFlags

/-- The word that maps an address, and 0 where there is no table. -/
def pageWord (m : Machine) (dir virt : BitVec 32) : BitVec 32 :=
  let e := m.memory (vmmngrPdirectoryLookupEntry dir virt)
  if pdEntryIsPresent e then m.memory (vmmngrPtableLookupEntry (pdEntryPfn e) virt) else 0#32

theorem isPresent_zero : Entry.isPresent 0#32 = false := rfl

theorem vmmngrCheckVirtPresent_eq (m : Machine) (dir virt : BitVec 32) :
    m.vmmngrCheckVirtPresent dir virt = ptEntryIsPresent (m.pageWord dir virt) := by
  unfold vmmngrCheckVirtPresent pageWord
  by_cases h : pdEntryIsPresent (m.memory (vmmngrPdirectoryLookupEntry dir virt)) = true <;>
    simp [h, isPresent_zero]

theorem vmmngrVirt2physPdir_eq (m : Machine) (dir virt : BitVec 32) :
    m.vmmngrVirt2physPdir dir virt = if ptEntryIsPresent (m.pageWord dir virt) then
      ptEntryPfn (m.pageWord dir virt) + (virt &&& 0xfff#32) else 0#32 := by
  unfold vmmngrVirt2physPdir pageWord
  generalize m.memory (vmmngrPdirectoryLookupEntry dir virt) = e
  dsimp only
  by_cases h : pdEntryIsPresent e = true
  · by_cases hpage : ptEntryIsPresent (m.memory (vmmngrPtableLookupEntry (pdEntryPfn e) virt)) = true <;>
      simp [h, hpage]
  · simp [h, isPresent_zero]

/-- The place of that word, where there is a table. -/
def tableWord (m : Machine) (dir virt : BitVec 32) : Word :=
  vmmngrPtableLookupEntry (pdEntryPfn (m.entry dir (pageDirectoryIndex virt))) virt

/-- What `vmmngr_alloc_page` writes over a word. -/
def allocatedWord (e p flags : BitVec 32) : BitVec 32 :=
  ptEntryAddAttrib (ptEntryAddAttrib (ptEntrySetFrame e p) Entry.present) flags

/-- What `vmmngr_map_page` writes over a word. -/
def mappedWord (e phys flags : BitVec 32) : BitVec 32 :=
  ptEntryAddAttrib (ptEntryAddAttrib (ptEntrySetFrame e phys) flags) Entry.present

theorem vmmngrAllocPage_eq (m : Machine) (w : Word) (flags : BitVec 32) :
    m.vmmngrAllocPage w flags =
      if m.pmm.pmmngrAllocBlock.1 = 0#32 then { m with pmm := m.pmm.pmmngrAllocBlock.2 }
      else { m with pmm := m.pmm.pmmngrAllocBlock.2 }.store w
        (allocatedWord (m.memory w) m.pmm.pmmngrAllocBlock.1 flags) := by
  unfold vmmngrAllocPage
  dsimp only
  split
  · rfl
  · simp [store, allocatedWord]

theorem store_mapped (m : Machine) (w : Word) (phys flags : BitVec 32) :
    (let m := m.store w (ptEntrySetFrame (m.memory w) phys)
      let m := m.store w (ptEntryAddAttrib (m.memory w) flags)
      m.store w (ptEntryAddAttrib (m.memory w) Entry.present)) = m.store w (mappedWord (m.memory w) phys flags) := by
  simp [store, mappedWord]

/-- No allocation that `vmmngr_alloc_virt` makes fails. -/
def Supplied (m : Machine) (dir virt : BitVec 32) : Prop :=
  let r := m.tableForEntry (vmmngrPdirectoryLookupEntry dir virt)
  r.1 = true ∧ (m.vmmngrCheckVirtPresent dir virt = false → r.2.pmm.pmmngrAllocBlock.1 ≠ 0#32)

/-- The addresses that a loop over pages visits on its way to `top`, or `none` if it does not end. -/
def pagesFrom (virt top : BitVec 32) : Option (List (BitVec 32)) := Strided.visits 4096#32 top (2 ^ 20) virt

/-- The body of such a loop is a call of `vmmngr_alloc_virt`. -/
def allocPages (dir pdeFlags pteFlags : BitVec 32) : List (BitVec 32) → Machine → Machine
  | [], m => m
  | virt :: virts, m => allocPages dir pdeFlags pteFlags virts (m.vmmngrAllocVirt dir virt pdeFlags pteFlags)

/-- No allocation of the loop fails. -/
def SuppliedAll (dir pdeFlags pteFlags : BitVec 32) : List (BitVec 32) → Machine → Prop
  | [], _ => True
  | virt :: virts, m => m.Supplied dir virt ∧
      SuppliedAll dir pdeFlags pteFlags virts (m.vmmngrAllocVirt dir virt pdeFlags pteFlags)

theorem exists_pagesFrom {virt top : BitVec 32} (h : top.toNat ≤ 0xFFFFF000 + virt.toNat % 4096) :
    ∃ l, pagesFrom virt top = some l ∧
      ∀ v, v ∈ l ↔ ∃ k, v.toNat = virt.toNat + 4096 * k ∧ v.toNat < top.toNat := by
  have hlt := virt.isLt
  have hstop : Strided.Stops 4096#32 top virt ((0xFFFFF000 - (virt.toNat - virt.toNat % 4096)) / 4096) := by
    constructor <;> rw [show (4096#32).toNat = 4096 from rfl] <;> omega
  exact Strided.exists_visits hstop (by omega)

/-- A loop whose bound lies in the last page above all its addresses does not end. -/
theorem pagesFrom_eq_none {virt top : BitVec 32} (h : 0xFFFFF000 + virt.toNat % 4096 < top.toNat) :
    pagesFrom virt top = none := by
  refine Strided.visits_eq_none fun k => ?_
  rw [BitVec.lt_def, BitVec.toNat_add, BitVec.toNat_mul, BitVec.toNat_ofNat, show (4096#32).toNat = 4096 from rfl]
  omega

end Machine

/-- Two addresses of one page. -/
def SamePage (virt virt' : BitVec 32) : Prop :=
  pageDirectoryIndex virt = pageDirectoryIndex virt' ∧ pageTableIndex virt = pageTableIndex virt'

instance (virt virt' : BitVec 32) : Decidable (SamePage virt virt') := inferInstanceAs (Decidable (_ ∧ _))

theorem toNat_div_page (virt : BitVec 32) :
    virt.toNat / 4096 = 1024 * pageDirectoryIndex virt + pageTableIndex virt := by
  have hlt := virt.isLt
  rw [pageDirectoryIndex, pageTableIndex, BitVec.toNat_and, BitVec.toNat_and,
    show (0x3ff#32).toNat = 2 ^ 10 - 1 from rfl, Nat.and_two_pow_sub_one_eq_mod, Nat.and_two_pow_sub_one_eq_mod,
    BitVec.toNat_ushiftRight, BitVec.toNat_ushiftRight, Nat.shiftRight_eq_div_pow, Nat.shiftRight_eq_div_pow]
  omega

theorem samePage_iff {virt virt' : BitVec 32} : SamePage virt virt' ↔ virt.toNat / 4096 = virt'.toNat / 4096 := by
  have h := pageTableIndex_lt virt
  have h' := pageTableIndex_lt virt'
  rw [SamePage, toNat_div_page, toNat_div_page]
  omega

/-- Addresses of one page are mapped by one word. -/
theorem SamePage.pageWord_eq {virt virt' : BitVec 32} (h : SamePage virt virt') (m : Machine) (dir : BitVec 32) :
    m.pageWord dir virt = m.pageWord dir virt' := by
  unfold Machine.pageWord Machine.vmmngrPdirectoryLookupEntry Machine.vmmngrPtableLookupEntry
  rw [h.1, h.2]

namespace Entry

theorem getLsbD_setFrame {e p : BitVec 32} {b : Nat} (h : b < 12) : (setFrame e p).getLsbD b = e.getLsbD b := by
  have hmask : frameMask.getLsbD b = false := by
    interval_cases b <;> rfl
  simp only [setFrame, delAttrib, BitVec.getLsbD_or, BitVec.getLsbD_and, BitVec.getLsbD_not, hmask]
  simp [show b < 32 by omega]

theorem getLsbD_addAttrib_present {e : BitVec 32} {b : Nat} (h : 0 < b) :
    (addAttrib e present).getLsbD b = e.getLsbD b := by
  have hbit : present.getLsbD b = false := by
    rw [show present = 1#32 from rfl, BitVec.getLsbD_one]
    simp [Nat.ne_of_gt h]
  rw [addAttrib, BitVec.getLsbD_or, hbit, Bool.or_false]

end Entry

namespace Directories

variable {s t : Directories} {m m' : Machine} {dir dir' virt virt' flags : BitVec 32} {i j k frame : Nat} {w : Word}

/-! ### A table is entered -/

namespace Apart

theorem pageWord_eq {slots : Nat → Prop} (h : s.Apart slots) (hdir : dir ∈ s.live) (m : Machine) (virt : BitVec 32) :
    m.pageWord dir virt = if pdEntryIsPresent (m.entry dir (pageDirectoryIndex virt)) then
      m.memory (m.tableWord dir virt) else 0#32 := by
  rw [Machine.pageWord, h.lookup_directory hdir]
  rfl

end Apart

/-- What the first part of `vmmngr_alloc_virt` and `vmmngr_map_page` does when it does not fail. -/
structure Entered (s : Directories) (dir : BitVec 32) (i : Nat) (flags : BitVec 32) (m : Machine) : Prop where
  follows : Follows (· < 1024) s m
  grows : ∀ frame, s.Used frame → m.pmm.mmapTest frame = true
  others : ∀ dir' ∈ s.live, ∀ k, (Pmm.frameOf dir', k) ≠ (Pmm.frameOf dir, i) →
    m.entry dir' k = s.machine.entry dir' k
  present : pdEntryIsPresent (m.entry dir i) = true
  fresh : pdEntryIsPresent (s.machine.entry dir i) = false →
    Pmm.frameOf (m.entry dir i) ≠ 0 ∧ ¬ s.Used (Pmm.frameOf (m.entry dir i))
  bits : ∀ b, 0 < b → b < 12 →
    (m.entry dir i).getLsbD b = ((s.machine.entry dir i).getLsbD b || flags.getLsbD b)
  words : ∀ dir' ∈ s.live, ∀ virt, m.pageWord dir' virt = s.machine.pageWord dir' virt

theorem Entered.trans (hdir : dir ∈ s.live) (hm : Entered s dir i 0#32 m)
    (hm' : Entered { s with machine := m } dir i flags m') : Entered s dir i flags m' where
  follows := hm.follows.trans hm'.follows
  grows frame hframe := hm'.grows frame (hm.grows frame hframe)
  others dir' hdir' k hne := (hm'.others dir' hdir' k hne).trans (hm.others dir' hdir' k hne)
  present := hm'.present
  fresh habsent := by
    rw [(hm'.follows.stays dir hdir i hm.present).2]
    exact hm.fresh habsent
  bits b hpos hb := by
    rw [hm'.bits b hpos hb]
    show ((m.entry dir i).getLsbD b || _) = _
    rw [hm.bits b hpos hb, BitVec.getLsbD_zero, Bool.or_false]
  words dir' hdir' virt := (hm'.words dir' hdir' virt).trans (hm.words dir' hdir' virt)

namespace Apart

/-- Words of tables are in no directory, and in no frame that is not in use. -/
theorem tableWord_fst (h : s.Apart (· < 1024)) (hdir : dir ∈ s.live)
    (hpresent : pdEntryIsPresent (s.machine.entry dir (pageDirectoryIndex virt)) = true) :
    (∀ dir' ∈ s.live, (s.machine.tableWord dir virt).1 ≠ Pmm.frameOf dir') ∧
      (∀ p, p ≠ 0 → ¬ s.Used p → (s.machine.tableWord dir virt).1 ≠ p) := by
  have hi := pageDirectoryIndex_lt virt
  refine ⟨h.lookup_table_ne hdir hi hpresent virt, fun p hp hunused => ?_⟩
  unfold Machine.tableWord Machine.vmmngrPtableLookupEntry
  split
  · exact hp.symm
  · rw [Entry.frameOf_pfn]
    rintro rfl
    exact hunused (h.used _ (holds_table hdir hi hpresent))

/-- A word is kept with its entry and its table. -/
theorem pageWord_congr (h : s.Apart (· < 1024)) (hm : Apart (· < 1024) { s with machine := m }) (hdir : dir ∈ s.live)
    (hentry : pdEntryIsPresent (m.entry dir (pageDirectoryIndex virt))
      = pdEntryIsPresent (s.machine.entry dir (pageDirectoryIndex virt)))
    (hframe : Pmm.frameOf (m.entry dir (pageDirectoryIndex virt))
      = Pmm.frameOf (s.machine.entry dir (pageDirectoryIndex virt)))
    (hword : pdEntryIsPresent (s.machine.entry dir (pageDirectoryIndex virt)) = true →
      m.memory (s.machine.tableWord dir virt) = s.machine.memory (s.machine.tableWord dir virt)) :
    m.pageWord dir virt = s.machine.pageWord dir virt := by
  rw [h.pageWord_eq hdir, hm.pageWord_eq hdir, hentry]
  split
  · next hpresent =>
    rw [Machine.tableWord, show pdEntryPfn _ = _ from Entry.pfn_eq_of_frameOf_eq hframe]
    exact hword hpresent
  · rfl

/-- Attributes added to a present entry change neither its presence nor its frame. -/
theorem entry_addAttrib (hpresent : pdEntryIsPresent (s.machine.entry dir i) = true) (hflags : flags.toNat < 4096)
    (dir' : BitVec 32) (k : Nat) :
    pdEntryIsPresent ((s.machine.store (Pmm.frameOf dir, i)
        (pdEntryAddAttrib (s.machine.entry dir i) flags)).entry dir' k)
      = pdEntryIsPresent (s.machine.entry dir' k) ∧
    Pmm.frameOf ((s.machine.store (Pmm.frameOf dir, i)
        (pdEntryAddAttrib (s.machine.entry dir i) flags)).entry dir' k)
      = Pmm.frameOf (s.machine.entry dir' k) := by
  by_cases hsame : (Pmm.frameOf dir', k) = (Pmm.frameOf dir, i)
  · have hentry : s.machine.entry dir' k = s.machine.entry dir i := congrArg s.machine.memory hsame
    have hstored : (s.machine.store (Pmm.frameOf dir, i) (pdEntryAddAttrib (s.machine.entry dir i) flags)).entry dir' k
        = pdEntryAddAttrib (s.machine.entry dir i) flags := by
      rw [Machine.entry, hsame]
      exact Function.update_self _ _ _
    rw [hentry, hstored]
    refine ⟨(Entry.isPresent_addAttrib _ _).trans ?_, Entry.frameOf_addAttrib _ hflags⟩
    rw [hpresent]
    exact (Bool.or_eq_true _ _).mpr (.inl hpresent)
  · rw [Machine.entry_store_of_ne _ hsame]
    exact ⟨rfl, rfl⟩

/-- Attributes are added to the entry of a table. -/
theorem entered_present (h : s.Apart (· < 1024)) (hdir : dir ∈ s.live)
    (hpresent : pdEntryIsPresent (s.machine.entry dir i) = true) (hflags : flags.toNat < 4096) :
    Entered s dir i flags (s.machine.store (Pmm.frameOf dir, i)
      (pdEntryAddAttrib (s.machine.entry dir i) flags)) where
  follows := h.addAttrib hpresent hflags
  grows frame hframe := hframe
  others dir' hdir' k hne := Machine.entry_store_of_ne _ hne _
  present := by
    rw [(entry_addAttrib hpresent hflags dir i).1, hpresent]
  fresh habsent := by
    rw [hpresent] at habsent
    cases habsent
  bits b _ _ := by
    rw [Machine.entry_store_self]
    exact BitVec.getLsbD_or
  words dir' hdir' virt := by
    obtain ⟨hsame, hframe⟩ := entry_addAttrib hpresent hflags dir' (pageDirectoryIndex virt)
    refine h.pageWord_congr (h.addAttrib hpresent hflags).apart hdir' hsame hframe fun hpresent' => ?_
    exact Function.update_of_ne (fun heq => (h.tableWord_fst hdir' hpresent').1 dir hdir (congrArg Prod.fst heq)) _ _

/-- A cleared frame that was not in use becomes the table. -/
theorem entered_absent (h : s.Apart (· < 1024)) (hdir : dir ∈ s.live)
    (habsent : pdEntryIsPresent (s.machine.entry dir i) = false)
    (hfound : (s.machine.tableForEntry (Pmm.frameOf dir, i)).1 = true) :
    Entered s dir i 0#32 (s.machine.tableForEntry (Pmm.frameOf dir, i)).2 := by
  have hfollows := h.tableForEntry dir i
  have hpresent := tableForEntry_present hfound
  obtain ⟨p, pmm, heq, hmax, hgrow, hnew⟩ := allocBlock_cases h.search
  have hmemory : s.machine.memory (Pmm.frameOf dir, i) = s.machine.entry dir i := rfl
  rw [Machine.tableForEntry, hmemory, if_neg (by simp [habsent]), heq] at hfound hfollows hpresent ⊢
  dsimp only at hfound hfollows hpresent ⊢
  split at hfound
  · cases hfound
  next hp =>
  rw [if_neg hp] at hfollows hpresent ⊢
  obtain ⟨hzero, hunused, hused⟩ := hnew hp
  have hdirs : ∀ dir' ∈ s.live, Pmm.frameOf dir' ≠ Pmm.frameOf p := fun dir' hdir' hframe =>
    hunused (hframe ▸ h.used _ (holds_dir hdir'))
  generalize hm : Machine.store _ _ _ = m at hfollows hpresent ⊢
  have hpmm : m.pmm = pmm := by rw [← hm]; rfl
  have hkept : ∀ w, w ≠ (Pmm.frameOf dir, i) → w.1 ≠ Pmm.frameOf p → m.memory w = s.machine.memory w := by
    intro w hne hw
    rw [← hm]
    simp [Machine.store, Machine.vmmngrPtableClear, Machine.clearWords, hne, hw]
  have hclear : ∀ j < 1024, m.memory (Pmm.frameOf p, j) = 0#32 := by
    intro j hj
    rw [← hm]
    simp [Machine.store, Machine.vmmngrPtableClear, Machine.clearWords, (hdirs dir hdir).symm, hj]
  have hself : m.entry dir i = pdEntrySetFrame (pdEntryAddAttrib (s.machine.entry dir i) Entry.present) p := by
    rw [← hm, Machine.entry_store_self]
    simp [Machine.store, Machine.vmmngrPtableClear, Machine.clearWords, hdirs dir hdir, hmemory]
  have hframe : Pmm.frameOf (m.entry dir i) = Pmm.frameOf p := by rw [hself, Entry.frameOf_setFrame]
  have hothers : ∀ dir' ∈ s.live, ∀ k, (Pmm.frameOf dir', k) ≠ (Pmm.frameOf dir, i) →
      m.entry dir' k = s.machine.entry dir' k := fun dir' hdir' k hne => hkept _ hne (hdirs dir' hdir')
  refine ⟨hfollows, fun frame hframe' => hpmm ▸ hgrow frame hframe', hothers, hpresent,
    fun _ => ⟨hframe ▸ hzero, hframe ▸ hunused⟩, fun b hpos hb => ?_, fun dir' hdir' virt => ?_⟩
  · rw [hself, Entry.getLsbD_setFrame hb, Entry.getLsbD_addAttrib_present hpos]
    simp
  by_cases hsame : (Pmm.frameOf dir', pageDirectoryIndex virt) = (Pmm.frameOf dir, i)
  · -- the words of the new table are clear
    have hold : pdEntryIsPresent (s.machine.entry dir' (pageDirectoryIndex virt)) = false := by
      rw [Machine.entry, hsame]
      exact habsent
    have hnew' : Pmm.frameOf (m.entry dir' (pageDirectoryIndex virt)) = Pmm.frameOf p := by
      rw [Machine.entry, hsame]
      exact hframe
    have hword : m.tableWord dir' virt = (Pmm.frameOf p, pageTableIndex virt) := by
      have hne : pdEntryPfn (m.entry dir' (pageDirectoryIndex virt)) ≠ 0#32 := by
        intro hpfn
        have hframe' := Entry.frameOf_pfn (m.entry dir' (pageDirectoryIndex virt))
        rw [show Entry.pfn _ = 0#32 from hpfn, hnew'] at hframe'
        exact hzero hframe'.symm
      rw [Machine.tableWord, Machine.vmmngrPtableLookupEntry, if_neg hne, Entry.frameOf_pfn, hnew']
    rw [h.pageWord_eq hdir', hfollows.apart.pageWord_eq hdir', hold, if_neg Bool.false_ne_true, hword,
      hclear _ (pageTableIndex_lt virt)]
    split <;> rfl
  · refine h.pageWord_congr hfollows.apart hdir' (by rw [hothers dir' hdir' _ hsame])
      (by rw [hothers dir' hdir' _ hsame]) fun hpresent' => ?_
    obtain ⟨hout, hapart⟩ := h.tableWord_fst hdir' hpresent'
    exact hkept _ (fun heq => hout dir hdir (congrArg Prod.fst heq)) (hapart _ hzero hunused)

/-- The first part of a new mapping fails, which only the frame map can show, or enters the table. -/
theorem enter_cases (h : s.Apart (· < 1024)) (hdir : dir ∈ s.live) (i : Nat) (hflags : flags.toNat < 4096)
    {found : Bool} (hm : s.machine.tableForEntry (Pmm.frameOf dir, i) = (found, m)) :
    (found = false ∧ m = { s.machine with pmm := s.machine.pmm.pmmngrAllocBlock.2 }) ∨
      (found = true ∧ Entered s dir i flags (m.store (Pmm.frameOf dir, i)
        (pdEntryAddAttrib (m.entry dir i) flags))) := by
  by_cases hpresent : pdEntryIsPresent (s.machine.entry dir i) = true
  · have hsame : s.machine.tableForEntry (Pmm.frameOf dir, i) = (true, s.machine) := by
      rw [Machine.tableForEntry]
      exact if_pos hpresent
    obtain ⟨rfl, rfl⟩ := Prod.mk.inj (hsame.symm.trans hm)
    exact .inr ⟨rfl, h.entered_present hdir hpresent hflags⟩
  · rw [Bool.not_eq_true] at hpresent
    cases found with
    | false =>
      refine .inl ⟨rfl, ?_⟩
      have hmemory : s.machine.memory (Pmm.frameOf dir, i) = s.machine.entry dir i := rfl
      rw [Machine.tableForEntry, hmemory, if_neg (by simp [hpresent])] at hm
      dsimp only at hm
      split at hm
      · rw [← (Prod.mk.inj hm).2]
      · cases (Prod.mk.inj hm).1
    | true =>
      have henter := h.entered_absent hdir hpresent (by rw [hm])
      rw [hm] at henter
      exact .inr ⟨rfl, henter.trans hdir (henter.follows.apart.entered_present hdir henter.present hflags)⟩

/-- `vmmngr_alloc_virt` fails to enter the table, or goes on with the page. -/
theorem allocVirt_cases (h : s.Apart (· < 1024)) (hdir : dir ∈ s.live) {pdeFlags : BitVec 32}
    (hflags : pdeFlags.toNat < 4096) (virt pteFlags : BitVec 32) :
    (s.machine.vmmngrAllocVirt dir virt pdeFlags pteFlags =
          { s.machine with pmm := s.machine.pmm.pmmngrAllocBlock.2 } ∧
        ¬ s.machine.Supplied dir virt) ∨
      ∃ m, Entered s dir (pageDirectoryIndex virt) pdeFlags m ∧
        s.machine.vmmngrAllocVirt dir virt pdeFlags pteFlags =
          (if ptEntryIsPresent (m.pageWord dir virt) then m
            else m.vmmngrAllocPage (m.tableWord dir virt) pteFlags) ∧
        (s.machine.Supplied dir virt ↔
          (ptEntryIsPresent (m.pageWord dir virt) = false → m.pmm.pmmngrAllocBlock.1 ≠ 0#32)) := by
  have hlookup := h.lookup_directory hdir virt
  cases hm : s.machine.tableForEntry (Pmm.frameOf dir, pageDirectoryIndex virt) with | mk found m =>
  obtain ⟨rfl, hspent⟩ | ⟨rfl, henter⟩ := h.enter_cases hdir _ hflags hm
  · refine .inl ⟨?_, fun hsupplied => ?_⟩
    · rw [Machine.vmmngrAllocVirt, hlookup, hm]
      exact hspent
    · rw [Machine.Supplied, hlookup, hm] at hsupplied
      exact Bool.noConfusion hsupplied.1
  · refine .inr ⟨_, henter, ?_, ?_⟩
    · rw [Machine.vmmngrAllocVirt, hlookup, hm, henter.follows.apart.pageWord_eq hdir, if_pos henter.present]
      rfl
    · rw [Machine.Supplied, hlookup, hm, Machine.vmmngrCheckVirtPresent_eq, ← henter.words dir hdir virt]
      exact and_iff_right rfl

/-- `vmmngr_map_page` fails to enter the table, or writes the word of the page. -/
theorem mapPage_cases (h : s.Apart (· < 1024)) (hdir : dir ∈ s.live) {pdeFlags : BitVec 32}
    (hflags : pdeFlags.toNat < 4096) (phys virt pteFlags : BitVec 32) :
    ((s.machine.vmmngrMapPage dir phys virt pdeFlags pteFlags).memory = s.machine.memory ∧
        (s.machine.tableForEntry (Machine.vmmngrPdirectoryLookupEntry dir virt)).1 = false) ∨
      ∃ m, Entered s dir (pageDirectoryIndex virt) pdeFlags m ∧
        s.machine.vmmngrMapPage dir phys virt pdeFlags pteFlags = m.store (m.tableWord dir virt)
          (Machine.mappedWord (m.memory (m.tableWord dir virt)) phys pteFlags) := by
  have hlookup := h.lookup_directory hdir virt
  cases hm : s.machine.tableForEntry (Pmm.frameOf dir, pageDirectoryIndex virt) with | mk found m =>
  obtain ⟨rfl, hspent⟩ | ⟨rfl, henter⟩ := h.enter_cases hdir _ hflags hm
  · refine .inl ⟨?_, by rw [hlookup, hm]⟩
    rw [Machine.vmmngrMapPage, hlookup, hm, hspent]
    rfl
  · refine .inr ⟨_, henter, ?_⟩
    rw [Machine.vmmngrMapPage, hlookup, hm]
    exact Machine.store_mapped _ _ phys pteFlags

/-! ### The word of a page is written -/

/-- Only the addresses mapped by that word see a change. -/
theorem pageWord_store (h : s.Apart (· < 1024)) (hdir : dir ∈ s.live)
    (hpresent : pdEntryIsPresent (s.machine.entry dir (pageDirectoryIndex virt)) = true) (value : BitVec 32)
    (hdir' : dir' ∈ s.live) (virt' : BitVec 32) :
    (s.machine.store (s.machine.tableWord dir virt) value).pageWord dir' virt' =
      if pdEntryIsPresent (s.machine.entry dir' (pageDirectoryIndex virt')) ∧
        s.machine.tableWord dir' virt' = s.machine.tableWord dir virt then value
      else s.machine.pageWord dir' virt' := by
  have hout := (h.tableWord_fst hdir hpresent).1
  have hentry : (s.machine.store (s.machine.tableWord dir virt) value).entry dir' (pageDirectoryIndex virt')
      = s.machine.entry dir' (pageDirectoryIndex virt') :=
    Machine.entry_store_of_ne _ (fun heq => hout dir' hdir' (congrArg Prod.fst heq).symm) _
  have hword : (s.machine.store (s.machine.tableWord dir virt) value).tableWord dir' virt'
      = s.machine.tableWord dir' virt' := by
    rw [Machine.tableWord, hentry]
    rfl
  rw [(h.store value hout).apart.pageWord_eq hdir', h.pageWord_eq hdir', hentry, hword]
  by_cases hpresent' : pdEntryIsPresent (s.machine.entry dir' (pageDirectoryIndex virt')) = true
  · rw [if_pos hpresent', if_pos hpresent']
    by_cases hsame : s.machine.tableWord dir' virt' = s.machine.tableWord dir virt
    · rw [if_pos ⟨hpresent', hsame⟩, hsame]
      exact Function.update_self _ _ _
    · rw [if_neg fun hboth => hsame hboth.2]
      exact Function.update_of_ne hsame _ _
  · rw [if_neg hpresent', if_neg hpresent', if_neg fun hboth => hpresent' hboth.1]

theorem pageWord_store_self (h : s.Apart (· < 1024)) (hdir : dir ∈ s.live)
    (hpresent : pdEntryIsPresent (s.machine.entry dir (pageDirectoryIndex virt)) = true) (value : BitVec 32) :
    (s.machine.store (s.machine.tableWord dir virt) value).pageWord dir virt = value := by
  rw [h.pageWord_store hdir hpresent value hdir virt, if_pos ⟨hpresent, rfl⟩]

/-- A word gets a new frame, if there is one. -/
theorem pageWord_allocPage (h : s.Apart (· < 1024)) (hdir : dir ∈ s.live)
    (hpresent : pdEntryIsPresent (s.machine.entry dir (pageDirectoryIndex virt)) = true) (flags : BitVec 32)
    (hdir' : dir' ∈ s.live) (virt' : BitVec 32) :
    (s.machine.vmmngrAllocPage (s.machine.tableWord dir virt) flags).pageWord dir' virt' =
      if s.machine.pmm.pmmngrAllocBlock.1 ≠ 0#32 ∧
        pdEntryIsPresent (s.machine.entry dir' (pageDirectoryIndex virt')) ∧
        s.machine.tableWord dir' virt' = s.machine.tableWord dir virt then
        Machine.allocatedWord (s.machine.memory (s.machine.tableWord dir virt)) s.machine.pmm.pmmngrAllocBlock.1 flags
      else s.machine.pageWord dir' virt' := by
  rw [Machine.vmmngrAllocPage_eq]
  split
  · next hfull =>
    rw [if_neg fun hall => hall.1 hfull]
    rfl
  · next hframe =>
    refine Eq.trans (h.pageWord_store hdir hpresent _ hdir' virt') ?_
    refine if_congr ?_ rfl rfl
    rw [and_iff_right hframe]

/-! ### Present pages -/

theorem isPresent_allocatedWord (e p flags : BitVec 32) :
    ptEntryIsPresent (Machine.allocatedWord e p flags) = true := by
  simp [Machine.allocatedWord]

/-- `vmmngr_alloc_virt` keeps what is present, and adds its page if there are frames. -/
theorem present_allocVirt (h : s.Apart (· < 1024)) (hdir : dir ∈ s.live) {pdeFlags : BitVec 32}
    (hflags : pdeFlags.toNat < 4096) (virt pteFlags : BitVec 32) :
    (∀ dir' ∈ s.live, ∀ virt', ptEntryIsPresent (s.machine.pageWord dir' virt') = true →
      ptEntryIsPresent ((s.machine.vmmngrAllocVirt dir virt pdeFlags pteFlags).pageWord dir' virt') = true) ∧
    (s.machine.Supplied dir virt →
      ptEntryIsPresent ((s.machine.vmmngrAllocVirt dir virt pdeFlags pteFlags).pageWord dir virt) = true) := by
  obtain ⟨hspent, hfails⟩ | ⟨m, henter, heq, hframe⟩ := h.allocVirt_cases hdir hflags virt pteFlags
  · refine ⟨fun dir' _ virt' hpresent => ?_, fun hsupplied => absurd hsupplied hfails⟩
    rw [hspent]
    exact hpresent
  rw [heq]
  have hkept : ∀ dir' ∈ s.live, ∀ virt', ptEntryIsPresent (s.machine.pageWord dir' virt') = true →
      ptEntryIsPresent (m.pageWord dir' virt') = true := fun dir' hdir' virt' hpresent => by
    rw [henter.words dir' hdir' virt']
    exact hpresent
  split
  · next hpage => exact ⟨hkept, fun _ => hpage⟩
  next habsent =>
  rw [Bool.not_eq_true] at habsent
  have hm := henter.follows.apart
  refine ⟨fun dir' hdir' virt' hpresent => ?_, fun hsupplied => ?_⟩
  · have hword := hm.pageWord_allocPage hdir henter.present pteFlags hdir' virt'
    dsimp only at hword
    rw [hword]
    split
    · exact isPresent_allocatedWord _ _ _
    · exact hkept dir' hdir' virt' hpresent
  · have hword := hm.pageWord_allocPage hdir henter.present pteFlags hdir virt
    dsimp only at hword
    rw [hword, if_pos ⟨hframe.mp hsupplied habsent, henter.present, rfl⟩]
    exact isPresent_allocatedWord _ _ _

/-- The loop over pages keeps what is present, and adds its pages if there are frames. -/
theorem present_allocPages (h : s.Apart (· < 1024)) (hdir : dir ∈ s.live) {pdeFlags : BitVec 32}
    (hflags : pdeFlags.toNat < 4096) (pteFlags : BitVec 32) (virts : List (BitVec 32)) :
    Follows (· < 1024) s (s.machine.allocPages dir pdeFlags pteFlags virts) ∧
    (∀ dir' ∈ s.live, ∀ virt', ptEntryIsPresent (s.machine.pageWord dir' virt') = true →
      ptEntryIsPresent ((s.machine.allocPages dir pdeFlags pteFlags virts).pageWord dir' virt') = true) ∧
    (s.machine.SuppliedAll dir pdeFlags pteFlags virts → ∀ virt ∈ virts,
      ptEntryIsPresent ((s.machine.allocPages dir pdeFlags pteFlags virts).pageWord dir virt) = true) := by
  induction virts generalizing s with
  | nil => exact ⟨Follows.refl h, fun _ _ _ hpresent => hpresent, fun _ _ hvirt => absurd hvirt List.not_mem_nil⟩
  | cons virt virts ih =>
    have hfollows := h.allocVirt hdir (pageDirectoryIndex_lt virt) hflags pteFlags
    obtain ⟨hkept, hadded⟩ := h.present_allocVirt hdir hflags virt pteFlags
    obtain ⟨hfollows', hkept', hadded'⟩ := ih hfollows.apart hdir
    refine ⟨hfollows.trans hfollows', fun dir' hdir' virt' hpresent =>
      hkept' dir' hdir' virt' (hkept dir' hdir' virt' hpresent), fun hsupplied virt' hvirt' => ?_⟩
    rcases List.mem_cons.mp hvirt' with rfl | hmem
    · exact hkept' dir hdir virt' (hadded hsupplied.1)
    · exact hadded' hsupplied.2 virt' hmem

end Apart

/-! ### Directories with tables of their own -/

/-- Two entries with one table are the same entry, or that of one kernel slot in two directories. -/
structure Separate (s : Directories) : Prop extends s.Apart (· < 1024) where
  aligned : ∀ dir ∈ s.live, ∀ dir' ∈ s.live, Pmm.frameOf dir = Pmm.frameOf dir' → dir = dir'
  table_ne_zero : ∀ dir ∈ s.live, ∀ i < 1024, pdEntryIsPresent (s.machine.entry dir i) = true →
    Pmm.frameOf (s.machine.entry dir i) ≠ 0
  own : ∀ dir ∈ s.live, ∀ dir' ∈ s.live, ∀ i < 1024, ∀ j < 1024,
    pdEntryIsPresent (s.machine.entry dir i) = true → pdEntryIsPresent (s.machine.entry dir' j) = true →
    Pmm.frameOf (s.machine.entry dir i) = Pmm.frameOf (s.machine.entry dir' j) →
    i = j ∧ (dir = dir' ∨ SharedSlot i)

namespace Separate

theorem tableWord_eq (h : s.Separate) (hdir : dir ∈ s.live)
    (hpresent : pdEntryIsPresent (s.machine.entry dir (pageDirectoryIndex virt)) = true) :
    s.machine.tableWord dir virt =
      (Pmm.frameOf (s.machine.entry dir (pageDirectoryIndex virt)), pageTableIndex virt) := by
  have hne : pdEntryPfn (s.machine.entry dir (pageDirectoryIndex virt)) ≠ 0#32 := by
    intro hzero
    refine h.table_ne_zero dir hdir _ (pageDirectoryIndex_lt virt) hpresent ?_
    rw [← Entry.frameOf_pfn, show Entry.pfn _ = 0#32 from hzero]
    rfl
  rw [Machine.tableWord, Machine.vmmngrPtableLookupEntry, if_neg hne, Entry.frameOf_pfn]

/-- Addresses with one word are in one page, of one directory or of the kernel. -/
theorem samePage_of_tableWord_eq (h : s.Separate) (hdir : dir ∈ s.live) (hdir' : dir' ∈ s.live)
    (hpresent : pdEntryIsPresent (s.machine.entry dir (pageDirectoryIndex virt)) = true)
    (hpresent' : pdEntryIsPresent (s.machine.entry dir' (pageDirectoryIndex virt')) = true)
    (heq : s.machine.tableWord dir' virt' = s.machine.tableWord dir virt) :
    SamePage virt' virt ∧ (dir' = dir ∨ SharedSlot (pageDirectoryIndex virt)) := by
  rw [h.tableWord_eq hdir hpresent, h.tableWord_eq hdir' hpresent'] at heq
  obtain ⟨hframe, hindex⟩ := Prod.mk.inj heq
  obtain ⟨hslot, hshared⟩ := h.own dir' hdir' dir hdir _ (pageDirectoryIndex_lt virt') _ (pageDirectoryIndex_lt virt)
    hpresent' hpresent hframe
  exact ⟨⟨hslot, hindex⟩, hslot ▸ hshared⟩

/-- A directory whose table is entered still has tables of its own. -/
theorem entered (h : s.Separate) (hdir : dir ∈ s.live) (hm : Entered s dir i flags m) :
    Separate { s with machine := m } := by
  -- an entry keeps its table, or got one that was not in use
  have hcases : ∀ dir' ∈ s.live, ∀ k < 1024, pdEntryIsPresent (m.entry dir' k) = true →
      (pdEntryIsPresent (s.machine.entry dir' k) = true ∧
        Pmm.frameOf (m.entry dir' k) = Pmm.frameOf (s.machine.entry dir' k)) ∨
      (dir' = dir ∧ k = i ∧ Pmm.frameOf (m.entry dir' k) ≠ 0 ∧ ¬ s.Used (Pmm.frameOf (m.entry dir' k))) := by
    intro dir' hdir' k hk hpresent
    by_cases hold : pdEntryIsPresent (s.machine.entry dir' k) = true
    · exact .inl ⟨hold, (hm.follows.stays dir' hdir' k hold).2⟩
    · by_cases hsame : (Pmm.frameOf dir', k) = (Pmm.frameOf dir, i)
      · obtain ⟨hframe, rfl⟩ := Prod.mk.inj hsame
        obtain rfl := h.aligned dir' hdir' dir hdir hframe
        exact .inr ⟨rfl, rfl, hm.fresh (Bool.not_eq_true _ ▸ hold)⟩
      · rw [hm.others dir' hdir' k hsame] at hpresent
        exact absurd hpresent hold
  refine { hm.follows.apart with aligned := h.aligned, table_ne_zero := ?_, own := ?_ }
  · intro dir' hdir' k hk hpresent
    obtain ⟨hold, hframe⟩ | ⟨-, -, hne, -⟩ := hcases dir' hdir' k hk hpresent
    · exact fun hzero => h.table_ne_zero dir' hdir' k hk hold (hframe ▸ hzero)
    · exact hne
  · intro dir₁ hdir₁ dir₂ hdir₂ k hk l hl hpresent₁ hpresent₂ heq
    dsimp only at hpresent₁ hpresent₂ heq
    obtain ⟨hold₁, hframe₁⟩ | ⟨rfl, rfl, -, hunused₁⟩ := hcases dir₁ hdir₁ k hk hpresent₁
    · obtain ⟨hold₂, hframe₂⟩ | ⟨rfl, rfl, -, hunused₂⟩ := hcases dir₂ hdir₂ l hl hpresent₂
      · exact h.own dir₁ hdir₁ dir₂ hdir₂ k hk l hl hold₁ hold₂ (by rw [← hframe₁, ← hframe₂, heq])
      · refine absurd (h.used _ (holds_table hdir₁ hk hold₁)) ?_
        rw [← hframe₁, heq]
        exact hunused₂
    · obtain ⟨hold₂, hframe₂⟩ | ⟨rfl, rfl, -, -⟩ := hcases dir₂ hdir₂ l hl hpresent₂
      · refine absurd (h.used _ (holds_table hdir₂ hl hold₂)) ?_
        rw [← hframe₂, ← heq]
        exact hunused₁
      · exact ⟨rfl, .inl rfl⟩

/-- Directories that keep their entries have tables of their own. -/
theorem of_entries (h : s.Separate) (hfollows : Follows (· < 1024) s m)
    (hentry : ∀ dir ∈ s.live, ∀ i, m.entry dir i = s.machine.entry dir i) : Separate { s with machine := m } :=
  { hfollows.apart with
    aligned := h.aligned
    table_ne_zero := fun dir hdir i hi hpresent => by
      dsimp only at hpresent ⊢
      rw [hentry dir hdir i] at hpresent ⊢
      exact h.table_ne_zero dir hdir i hi hpresent
    own := fun dir hdir dir' hdir' i hi j hj hpresent hpresent' heq => by
      dsimp only at hpresent hpresent' heq
      rw [hentry dir hdir i] at hpresent heq
      rw [hentry dir' hdir' j] at hpresent' heq
      exact h.own dir hdir dir' hdir' i hi j hj hpresent hpresent' heq }

end Separate

/-- What the functions that map pages keep: tables of their own, frames in use, and attributes of tables. -/
structure Keeps (s : Directories) (m : Machine) : Prop where
  separate : Separate { s with machine := m }
  current : m.curDirectory = s.machine.curDirectory
  grows : ∀ frame, s.Used frame → m.pmm.mmapTest frame = true
  bits : ∀ dir ∈ s.live, ∀ i b, 0 < b → b < 12 →
    (s.machine.entry dir i).getLsbD b = true → (m.entry dir i).getLsbD b = true

namespace Keeps

theorem refl (h : s.Separate) : Keeps s s.machine := ⟨h, rfl, fun _ hused => hused, fun _ _ _ _ _ _ hbit => hbit⟩

theorem trans (hm : Keeps s m) (hm' : Keeps { s with machine := m } m') : Keeps s m' where
  separate := hm'.separate
  current := hm'.current.trans hm.current
  grows frame hused := hm'.grows frame (hm.grows frame hused)
  bits dir hdir i b hpos hb hbit := hm'.bits dir hdir i b hpos hb (hm.bits dir hdir i b hpos hb hbit)

theorem entered (h : s.Separate) (hdir : dir ∈ s.live) (hm : Entered s dir i flags m) : Keeps s m where
  separate := h.entered hdir hm
  current := hm.follows.current
  grows := hm.grows
  bits dir' hdir' k b hpos hb hbit := by
    by_cases hsame : (Pmm.frameOf dir', k) = (Pmm.frameOf dir, i)
    · obtain ⟨hframe, rfl⟩ := Prod.mk.inj hsame
      obtain rfl := h.aligned dir' hdir' dir hdir hframe
      rw [hm.bits b hpos hb, hbit, Bool.true_or]
    · rw [hm.others dir' hdir' k hsame]
      exact hbit

/-- Memory outside the directories and the frame map can change, as long as frames stay in use. -/
theorem of_entries (h : s.Separate) (hfollows : Follows (· < 1024) s m)
    (hgrows : ∀ frame, s.Used frame → m.pmm.mmapTest frame = true)
    (hentry : ∀ dir ∈ s.live, ∀ i, m.entry dir i = s.machine.entry dir i) : Keeps s m where
  separate := h.of_entries hfollows hentry
  current := hfollows.current
  grows := hgrows
  bits dir hdir i b _ _ hbit := by
    rw [hentry dir hdir i]
    exact hbit

/-- The word of a page is written. -/
theorem store (h : s.Separate) (hdir : dir ∈ s.live)
    (hpresent : pdEntryIsPresent (s.machine.entry dir (pageDirectoryIndex virt)) = true) (value : BitVec 32) :
    Keeps s (s.machine.store (s.machine.tableWord dir virt) value) := by
  have hout := (h.tableWord_fst hdir hpresent).1
  exact of_entries h (h.store value hout) (fun _ hused => hused) fun dir' hdir' i =>
    Machine.entry_store_of_ne _ (fun heq => hout dir' hdir' (congrArg Prod.fst heq).symm) _

end Keeps

/-- The page of an address gets a word, in its directory or, behind an entry of the kernel, in all of them. -/
structure Remaps (s : Directories) (dir virt value : BitVec 32) (m : Machine) : Prop extends Keeps s m where
  self : ∀ virt', SamePage virt' virt → m.pageWord dir virt' = value
  others : ∀ dir' ∈ s.live, ∀ virt',
    ¬ (SamePage virt' virt ∧ (dir' = dir ∨ SharedSlot (pageDirectoryIndex virt))) →
    m.pageWord dir' virt' = s.machine.pageWord dir' virt'

namespace Separate

/-- A word that maps a page is written. -/
theorem remaps_store (h : s.Separate) (hdir : dir ∈ s.live)
    (hpresent : pdEntryIsPresent (s.machine.entry dir (pageDirectoryIndex virt)) = true) (value : BitVec 32) :
    Remaps s dir virt value (s.machine.store (s.machine.tableWord dir virt) value) where
  toKeeps := .store h hdir hpresent value
  self virt' hsame := by
    have hword : s.machine.tableWord dir virt' = s.machine.tableWord dir virt := by
      rw [h.tableWord_eq hdir hpresent, h.tableWord_eq hdir (by rw [hsame.1]; exact hpresent), hsame.1, hsame.2]
    rw [h.pageWord_store hdir hpresent value hdir virt', if_pos ⟨by rw [hsame.1]; exact hpresent, hword⟩]
  others dir' hdir' virt' hother := by
    rw [h.pageWord_store hdir hpresent value hdir' virt', if_neg]
    rintro ⟨hpresent', heq⟩
    exact hother (h.samePage_of_tableWord_eq hdir hdir' hpresent hpresent' heq)

end Separate

theorem Remaps.of_keeps {value : BitVec 32} (hm : Keeps s m)
    (hwords : ∀ dir' ∈ s.live, ∀ virt', m.pageWord dir' virt' = s.machine.pageWord dir' virt')
    (hm' : Remaps { s with machine := m } dir virt value m') : Remaps s dir virt value m' where
  toKeeps := hm.trans hm'.toKeeps
  self := hm'.self
  others dir' hdir' virt' hother := (hm'.others dir' hdir' virt' hother).trans (hwords dir' hdir' virt')

namespace Separate

/-- A word gets a frame that was not in use. -/
theorem remaps_allocPage (h : s.Separate) (hdir : dir ∈ s.live)
    (hpresent : pdEntryIsPresent (s.machine.entry dir (pageDirectoryIndex virt)) = true)
    (hframe : s.machine.pmm.pmmngrAllocBlock.1 ≠ 0#32) (flags : BitVec 32) :
    ∃ p, Pmm.frameOf p ≠ 0 ∧ ¬ s.Used (Pmm.frameOf p) ∧
      (s.machine.vmmngrAllocPage (s.machine.tableWord dir virt) flags).pmm.mmapTest (Pmm.frameOf p) = true ∧
      Remaps s dir virt (Machine.allocatedWord (s.machine.pageWord dir virt) p flags)
        (s.machine.vmmngrAllocPage (s.machine.tableWord dir virt) flags) := by
  obtain ⟨p, pmm, heq, hmax, hgrow, hnew⟩ := Apart.allocBlock_cases h.search
  rw [Machine.vmmngrAllocPage_eq, if_neg hframe]
  rw [heq] at hframe ⊢
  obtain ⟨hzero, hunused, hused⟩ := hnew hframe
  have hkeeps : Keeps s { s.machine with pmm } := .of_entries h
    (h.setPmm hmax fun frame hframe => hgrow frame (h.used frame hframe)) hgrow fun _ _ _ => rfl
  refine ⟨p, hzero, hunused, hused, .of_keeps hkeeps (fun _ _ _ => rfl) ?_⟩
  have hword : s.machine.pageWord dir virt = s.machine.memory (s.machine.tableWord dir virt) := by
    rw [h.pageWord_eq hdir, if_pos hpresent]
  rw [hword]
  exact hkeeps.separate.remaps_store hdir hpresent _

/-- `vmmngr_alloc_virt` on a page that is there changes the attributes of its table only. -/
theorem allocVirt_present (h : s.Separate) (hdir : dir ∈ s.live) {pdeFlags : BitVec 32}
    (hflags : pdeFlags.toNat < 4096) (pteFlags : BitVec 32)
    (hpage : ptEntryIsPresent (s.machine.pageWord dir virt) = true) :
    Keeps s (s.machine.vmmngrAllocVirt dir virt pdeFlags pteFlags) ∧
      ∀ dir' ∈ s.live, ∀ virt', (s.machine.vmmngrAllocVirt dir virt pdeFlags pteFlags).pageWord dir' virt'
        = s.machine.pageWord dir' virt' := by
  have hpresent : pdEntryIsPresent (s.machine.entry dir (pageDirectoryIndex virt)) = true := by
    by_contra habsent
    rw [h.pageWord_eq hdir, if_neg habsent] at hpage
    cases hpage
  obtain ⟨-, hfails⟩ | ⟨m, henter, heq, -⟩ := h.allocVirt_cases hdir hflags virt pteFlags
  · refine absurd ⟨?_, fun habsent => ?_⟩ hfails
    · rw [h.lookup_directory hdir, Machine.tableForEntry]
      exact congrArg Prod.fst (if_pos hpresent)
    · rw [Machine.vmmngrCheckVirtPresent_eq, hpage] at habsent
      cases habsent
  · rw [heq, if_pos (by rw [henter.words dir hdir virt]; exact hpage)]
    exact ⟨.entered h hdir henter, henter.words⟩

/-- Only the frame map shows an allocation for which there is no frame. -/
theorem keeps_allocBlock (h : s.Separate) : Keeps s { s.machine with pmm := s.machine.pmm.pmmngrAllocBlock.2 } := by
  obtain ⟨p, pmm, heq, hmax, hgrow, -⟩ := Apart.allocBlock_cases h.search
  rw [heq]
  exact .of_entries h (h.setPmm hmax fun frame hframe => hgrow frame (h.used frame hframe)) hgrow fun _ _ _ => rfl

/-- `vmmngr_alloc_virt` without a frame for the table or the page changes no word of a page. -/
theorem allocVirt_fails (h : s.Separate) (hdir : dir ∈ s.live) {pdeFlags : BitVec 32}
    (hflags : pdeFlags.toNat < 4096) (pteFlags : BitVec 32) (hfails : ¬ s.machine.Supplied dir virt) :
    Keeps s (s.machine.vmmngrAllocVirt dir virt pdeFlags pteFlags) ∧
      ∀ dir' ∈ s.live, ∀ virt', (s.machine.vmmngrAllocVirt dir virt pdeFlags pteFlags).pageWord dir' virt'
        = s.machine.pageWord dir' virt' := by
  obtain ⟨hspent, -⟩ | ⟨m, henter, heq, hframe⟩ := h.allocVirt_cases hdir hflags virt pteFlags
  · rw [hspent]
    exact ⟨h.keeps_allocBlock, fun _ _ _ => rfl⟩
  · rw [hframe, Classical.not_imp, not_ne_iff] at hfails
    obtain ⟨habsent, hnone⟩ := hfails
    have hkeeps := Keeps.entered h hdir henter
    rw [heq, if_neg (by rw [habsent]; exact Bool.false_ne_true), Machine.vmmngrAllocPage_eq, if_pos hnone]
    exact ⟨hkeeps.trans hkeeps.separate.keeps_allocBlock, henter.words⟩

/-- `vmmngr_alloc_virt` on a page that is not there maps it to a frame that was not in use. -/
theorem allocVirt_absent (h : s.Separate) (hdir : dir ∈ s.live) {pdeFlags : BitVec 32}
    (hflags : pdeFlags.toNat < 4096) (pteFlags : BitVec 32)
    (hpage : ptEntryIsPresent (s.machine.pageWord dir virt) = false) (hsupplied : s.machine.Supplied dir virt) :
    ∃ p, Pmm.frameOf p ≠ 0 ∧ ¬ s.Used (Pmm.frameOf p) ∧
      (s.machine.vmmngrAllocVirt dir virt pdeFlags pteFlags).pmm.mmapTest (Pmm.frameOf p) = true ∧
      Remaps s dir virt (Machine.allocatedWord (s.machine.pageWord dir virt) p pteFlags)
        (s.machine.vmmngrAllocVirt dir virt pdeFlags pteFlags) ∧
      ∀ b, 0 < b → b < 12 → pdeFlags.getLsbD b = true →
        ((s.machine.vmmngrAllocVirt dir virt pdeFlags pteFlags).entry dir (pageDirectoryIndex virt)).getLsbD b
          = true := by
  obtain ⟨-, hfails⟩ | ⟨m, henter, heq, hframe⟩ := h.allocVirt_cases hdir hflags virt pteFlags
  · exact absurd hsupplied hfails
  have hword := henter.words dir hdir virt
  have hkeeps := Keeps.entered h hdir henter
  have habsent : ptEntryIsPresent (m.pageWord dir virt) = false := hword ▸ hpage
  obtain ⟨p, hzero, hunused, hused, hremaps⟩ := hkeeps.separate.remaps_allocPage hdir henter.present
    (hframe.mp hsupplied habsent) pteFlags
  rw [heq, if_neg (by simp [habsent])]
  rw [show Machine.pageWord _ dir virt = _ from hword] at hremaps
  refine ⟨p, hzero, fun hold => hunused (henter.grows _ hold), hused, .of_keeps hkeeps henter.words hremaps,
    fun b hpos hb hbit => ?_⟩
  refine hremaps.bits dir hdir _ b hpos hb ?_
  show (m.entry dir (pageDirectoryIndex virt)).getLsbD b = true
  rw [henter.bits b hpos hb, hbit, Bool.or_true]

/-- `vmmngr_map_page` maps the page to the given frame. -/
theorem mapPage (h : s.Separate) (hdir : dir ∈ s.live) {pdeFlags : BitVec 32} (hflags : pdeFlags.toNat < 4096)
    (phys pteFlags : BitVec 32)
    (hfound : (s.machine.tableForEntry (Machine.vmmngrPdirectoryLookupEntry dir virt)).1 = true) :
    Remaps s dir virt (Machine.mappedWord (s.machine.pageWord dir virt) phys pteFlags)
      (s.machine.vmmngrMapPage dir phys virt pdeFlags pteFlags) := by
  obtain ⟨-, hfails⟩ | ⟨m, henter, heq⟩ := h.mapPage_cases hdir hflags phys virt pteFlags
  · rw [hfails] at hfound
    cases hfound
  have hkeeps := Keeps.entered h hdir henter
  have hword : s.machine.pageWord dir virt = m.memory (m.tableWord dir virt) := by
    rw [← henter.words dir hdir virt, henter.follows.apart.pageWord_eq hdir, if_pos henter.present]
  rw [heq, hword]
  exact .of_keeps hkeeps henter.words (hkeeps.separate.remaps_store hdir henter.present _)

end Separate

/-- What a loop over pages does to the words of its directory: a page that was there or is not visited keeps its
word, and another one gets a frame and the attributes. -/
structure AllocatesPages (s : Directories) (dir pdeFlags pteFlags : BitVec 32) (virts : List (BitVec 32)) (m : Machine) :
    Prop extends Keeps s m where
  kept : ∀ virt, ptEntryIsPresent (s.machine.pageWord dir virt) = true ∨ (∀ v ∈ virts, ¬ SamePage virt v) →
    m.pageWord dir virt = s.machine.pageWord dir virt
  new : ∀ virt, ptEntryIsPresent (s.machine.pageWord dir virt) = false → (∃ v ∈ virts, SamePage virt v) →
    (∃ p, m.pageWord dir virt = Machine.allocatedWord (s.machine.pageWord dir virt) p pteFlags) ∧
      ∀ b, 0 < b → b < 12 → pdeFlags.getLsbD b = true → (m.entry dir (pageDirectoryIndex virt)).getLsbD b = true

theorem SamePage.symm {virt virt' : BitVec 32} (h : SamePage virt virt') : SamePage virt' virt := ⟨h.1.symm, h.2.symm⟩

theorem Separate.allocPages (h : s.Separate) (hdir : dir ∈ s.live) {pdeFlags : BitVec 32}
    (hflags : pdeFlags.toNat < 4096) (pteFlags : BitVec 32) (virts : List (BitVec 32))
    (hsupplied : s.machine.SuppliedAll dir pdeFlags pteFlags virts) :
    AllocatesPages s dir pdeFlags pteFlags virts (s.machine.allocPages dir pdeFlags pteFlags virts) := by
  induction virts generalizing s with
  | nil =>
    refine ⟨.refl h, fun _ _ => rfl, fun virt _ hvisit => ?_⟩
    obtain ⟨v, hv, -⟩ := hvisit
    cases hv
  | cons v virts ih =>
    by_cases hpage : ptEntryIsPresent (s.machine.pageWord dir v) = true
    · obtain ⟨hkeeps, hwords⟩ := h.allocVirt_present hdir hflags pteFlags hpage
      have hrest := ih hkeeps.separate hdir hsupplied.2
      have hword : ∀ virt, Machine.pageWord _ dir virt = s.machine.pageWord dir virt := hwords dir hdir
      refine ⟨hkeeps.trans hrest.toKeeps, fun virt hkept => ?_, fun virt habsent hvisit => ?_⟩
      · refine (hrest.kept virt ?_).trans (hword virt)
        rw [show Machine.pageWord _ dir virt = _ from hword virt]
        exact hkept.imp_right fun hout v' hv' => hout v' (List.mem_cons_of_mem _ hv')
      · have hnew := hrest.new virt (by rw [show Machine.pageWord _ dir virt = _ from hword virt]; exact habsent)
        rw [show Machine.pageWord _ dir virt = _ from hword virt] at hnew
        refine hnew ?_
        obtain ⟨v', hv', hsame⟩ := hvisit
        rcases List.mem_cons.mp hv' with rfl | hmem
        · rw [hsame.pageWord_eq, hpage] at habsent
          cases habsent
        · exact ⟨v', hmem, hsame⟩
    · rw [Bool.not_eq_true] at hpage
      obtain ⟨p, -, -, -, hremaps, hbits⟩ := h.allocVirt_absent hdir hflags pteFlags hpage hsupplied.1
      have hrest := ih hremaps.separate hdir hsupplied.2
      refine ⟨hremaps.toKeeps.trans hrest.toKeeps, fun virt hkept => ?_, fun virt habsent hvisit => ?_⟩
      · have hother : ¬ SamePage virt v := by
          rcases hkept with hpresent | hout
          · intro hsame
            rw [hsame.pageWord_eq, hpage] at hpresent
            cases hpresent
          · exact hout v List.mem_cons_self
        have hword := hremaps.others dir hdir virt fun hboth => hother hboth.1
        refine (hrest.kept virt ?_).trans hword
        rw [show Machine.pageWord _ dir virt = _ from hword]
        exact hkept.imp_right fun hout v' hv' => hout v' (List.mem_cons_of_mem _ hv')
      · by_cases hsame : SamePage virt v
        · have hword := hremaps.self virt hsame
          have hfinal := hrest.kept virt (.inl (by
            rw [show Machine.pageWord _ dir virt = _ from hword]
            exact Apart.isPresent_allocatedWord _ _ _))
          refine ⟨⟨p, ?_⟩, fun b hpos hb hbit => hrest.bits dir hdir _ b hpos hb ?_⟩
          · rw [hsame.pageWord_eq s.machine dir, ← hword]
            exact hfinal
          · rw [hsame.1]
            exact hbits b hpos hb hbit
        · have hword := hremaps.others dir hdir virt fun hboth => hsame hboth.1
          have hnew := hrest.new virt (by rw [show Machine.pageWord _ dir virt = _ from hword]; exact habsent)
          rw [show Machine.pageWord _ dir virt = _ from hword] at hnew
          refine hnew ?_
          obtain ⟨v', hv', hsame'⟩ := hvisit
          rcases List.mem_cons.mp hv' with rfl | hmem
          · exact absurd hsame' hsame
          · exact ⟨v', hmem, hsame'⟩

end Directories

end Akos
