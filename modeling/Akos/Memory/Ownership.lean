import Akos.Lib.Ledger
import Akos.Lib.Transition
import Akos.Memory.Paging

/-!
# Who holds a frame

Frames become page directories, page tables and user pages through `create_address_space` and
`vmmngr_alloc_virt`, and come back through `vmmngr_free_virt` and the destruction of a directory. The
kernel's tables are entered in every directory and held once. What is proved of every run is that the
ledger of roles and frames stays balanced, with the frame map as the record of the frames in use.
-/

namespace Akos

/-- The entries of the kernel, which all directories have in common. -/
def SharedSlot (i : Nat) : Prop := i = 0 ∨ (768 ≤ i ∧ i < 772) ∨ (820 ≤ i ∧ i < 824)

instance (i : Nat) : Decidable (SharedSlot i) := inferInstanceAs (Decidable (_ ∨ _))

/-- The entries of the user addresses, from 0x400000 to 0xC0000000. -/
def UserSlot (i : Nat) : Prop := 1 ≤ i ∧ i < 768

def UserAddress (virt : BitVec 32) : Prop := 0x400000 ≤ virt.toNat ∧ virt.toNat < 0xC0000000

theorem UserSlot.not_shared {i : Nat} (h : UserSlot i) : ¬ SharedSlot i := by
  unfold UserSlot at h
  unfold SharedSlot
  omega

theorem pageTableIndex_lt (virt : BitVec 32) : pageTableIndex virt < 1024 := by
  rw [pageTableIndex, BitVec.toNat_and, show (0x3ff#32).toNat = 2 ^ 10 - 1 from rfl,
    Nat.and_two_pow_sub_one_eq_mod]
  omega

theorem UserAddress.slot {virt : BitVec 32} (h : UserAddress virt) : UserSlot (pageDirectoryIndex virt) := by
  have hlt := virt.isLt
  unfold UserAddress at h
  rw [UserSlot, pageDirectoryIndex, BitVec.toNat_and, show (0x3ff#32).toNat = 2 ^ 10 - 1 from rfl,
    Nat.and_two_pow_sub_one_eq_mod, BitVec.toNat_ushiftRight, Nat.shiftRight_eq_div_pow]
  omega

/-- What a frame is used for: a directory, a table behind one of the kernel's entries, a table behind
another entry of a directory, or the page behind an entry of a user table. -/
inductive Role
  | directory (dir : BitVec 32)
  | kernelTable (slot : Nat)
  | table (dir : BitVec 32) (slot : Nat)
  | page (dir : BitVec 32) (slot index : Nat)

/-- The directory a role belongs to. -/
def Role.dir : Role → Option (BitVec 32)
  | .directory dir => some dir
  | .kernelTable _ => none
  | .table dir _ => some dir
  | .page dir _ _ => some dir

namespace Machine

/-- An entry of a directory. -/
def entry (m : Machine) (dir : BitVec 32) (slot : Nat) : BitVec 32 := m.memory (Pmm.frameOf dir, slot)

/-- An entry of the table behind an entry of a directory. -/
def pageEntry (m : Machine) (dir : BitVec 32) (slot index : Nat) : BitVec 32 :=
  m.memory (Pmm.frameOf (m.entry dir slot), index)

end Machine

/-- The machine, the directories in existence, and the frames that are in use without a role: those
reserved from the start, and the pages left in a directory when it was destroyed. -/
structure Spaces where
  machine : Machine
  live : Set (BitVec 32)
  spare : Set Nat

namespace Spaces

def Used (s : Spaces) (frame : Nat) : Prop := s.machine.pmm.mmapTest frame = true

/-- The frame is in the role. -/
def Holds (s : Spaces) : Role → Nat → Prop
  | .directory dir, frame => dir ∈ s.live ∧ frame = Pmm.frameOf dir
  | .kernelTable i, frame =>
    SharedSlot i ∧ pdEntryIsPresent (s.machine.entry s.machine.curDirectory i) = true ∧
      frame = Pmm.frameOf (s.machine.entry s.machine.curDirectory i)
  | .table dir i, frame =>
    dir ∈ s.live ∧ i < 1024 ∧ ¬ SharedSlot i ∧ pdEntryIsPresent (s.machine.entry dir i) = true ∧
      frame = Pmm.frameOf (s.machine.entry dir i)
  | .page dir i j, frame =>
    dir ∈ s.live ∧ UserSlot i ∧ j < 1024 ∧ pdEntryIsPresent (s.machine.entry dir i) = true ∧
      ptEntryIsPresent (s.machine.pageEntry dir i j) = true ∧
      frame = Pmm.frameOf (s.machine.pageEntry dir i j)

/-- The invariant of the runs. -/
structure Owned (s : Spaces) : Prop where
  balanced : Ledger.Balanced s.Holds s.spare s.Used
  zero : 0 ∈ s.spare
  current : s.machine.curDirectory ∈ s.live
  aligned : ∀ dir ∈ s.live, BitVec.ofNat 32 (Pmm.frameOf dir) * Pmm.blockSize = dir
  shared : ∀ dir ∈ s.live, ∀ i, SharedSlot i →
    s.machine.entry dir i = s.machine.entry s.machine.curDirectory i
  search : 32 * s.machine.pmm.searchWords ≤ 2 ^ 20

/-! ### Frames of different roles -/

namespace Owned

variable {s : Spaces} {dir dir' : BitVec 32} {i i' : Nat}

theorem holds_ne_zero (h : s.Owned) {r : Role} {frame : Nat} (hr : s.Holds r frame) : frame ≠ 0 :=
  fun hzero => h.balanced.spare_apart (hzero ▸ h.zero) hr

theorem holds_directory (hdir : dir ∈ s.live) : s.Holds (.directory dir) (Pmm.frameOf dir) :=
  ⟨hdir, rfl⟩

theorem frameOf_injective (h : s.Owned) (hdir : dir ∈ s.live) (hdir' : dir' ∈ s.live)
    (heq : Pmm.frameOf dir = Pmm.frameOf dir') : dir = dir' := by
  rw [← h.aligned dir hdir, heq, h.aligned dir' hdir']

theorem dir_ne_zero (h : s.Owned) (hdir : dir ∈ s.live) : dir ≠ 0#32 := by
  intro hzero
  exact h.holds_ne_zero (holds_directory hdir) (by rw [hzero]; rfl)

theorem holds_table (hdir : dir ∈ s.live) (hslot : i < 1024 ∧ ¬ SharedSlot i)
    (hpresent : pdEntryIsPresent (s.machine.entry dir i) = true) :
    s.Holds (.table dir i) (Pmm.frameOf (s.machine.entry dir i)) :=
  ⟨hdir, hslot.1, hslot.2, hpresent, rfl⟩

theorem table_ne_dir (h : s.Owned) (hdir : dir ∈ s.live) (hslot : i < 1024 ∧ ¬ SharedSlot i)
    (hpresent : pdEntryIsPresent (s.machine.entry dir i) = true) (hdir' : dir' ∈ s.live) :
    Pmm.frameOf (s.machine.entry dir i) ≠ Pmm.frameOf dir' := by
  intro heq
  have htable : s.Holds (.table dir i) (Pmm.frameOf dir') := heq ▸ holds_table hdir hslot hpresent
  exact Role.noConfusion (h.balanced.apart htable (holds_directory hdir'))

theorem table_injective (h : s.Owned) (hdir : dir ∈ s.live) (hslot : i < 1024 ∧ ¬ SharedSlot i)
    (hpresent : pdEntryIsPresent (s.machine.entry dir i) = true) (hdir' : dir' ∈ s.live)
    (hslot' : i' < 1024 ∧ ¬ SharedSlot i')
    (hpresent' : pdEntryIsPresent (s.machine.entry dir' i') = true)
    (heq : Pmm.frameOf (s.machine.entry dir i) = Pmm.frameOf (s.machine.entry dir' i')) :
    dir = dir' ∧ i = i' := by
  have htable := holds_table hdir hslot hpresent
  rw [heq] at htable
  have hrole := h.balanced.apart htable (holds_table hdir' hslot' hpresent')
  injection hrole with hd hi
  exact ⟨hd, hi⟩

theorem userSlot_bound (hi : UserSlot i) : i < 1024 ∧ ¬ SharedSlot i :=
  ⟨by have := hi.2; omega, hi.not_shared⟩

end Owned

/-! ### A new frame -/

/-- What an allocation does under the invariant: nothing, or it takes a frame that was not in use. -/
theorem Owned.allocBlock_cases {s : Spaces} (h : s.Owned) :
    s.machine.pmm.pmmngrAllocBlock = (0#32, s.machine.pmm) ∨
    ∃ p frame, s.machine.pmm.pmmngrAllocBlock = (p, s.machine.pmm.occupyRun frame 1) ∧
      p ≠ 0#32 ∧ Pmm.frameOf p = frame ∧ BitVec.ofNat 32 frame * Pmm.blockSize = p ∧ ¬ s.Used frame := by
  rcases s.machine.pmm.pmmngrAllocBlock_cases with ⟨frame, _, hfind, heq⟩ | ⟨_, heq⟩
  · refine Or.inr ⟨_, frame, heq, ?_, ?_, rfl, ?_⟩ <;>
      obtain ⟨hlt, hclear, _⟩ := WordMap.firstClear_eq_some hfind <;>
      have hsearch := h.search
    · intro hzero
      have hframe := Pmm.frameOf_mul_blockSize (show frame < 2 ^ 20 by omega)
      rw [hzero] at hframe
      have hused : s.Used 0 := h.balanced.used_of_spare h.zero
      rw [← show frame = 0 from hframe.symm] at hused
      exact absurd (hclear.symm.trans hused) Bool.noConfusion
    · exact Pmm.frameOf_mul_blockSize (by omega)
    · intro hused
      exact absurd (hclear.symm.trans hused) Bool.noConfusion
  · exact Or.inl heq

theorem used_occupyRun (s : Spaces) (frame : Nat) (m : Machine)
    (hpmm : m.pmm = s.machine.pmm.occupyRun frame 1) (other : Nat) :
    m.pmm.mmapTest other = true ↔ s.Used other ∨ other ∈ ({frame} : Set Nat) := by
  rw [hpmm, Pmm.mmapTest_occupyRun]
  simp only [Bool.or_eq_true, decide_eq_true_eq, Used, Set.mem_singleton_iff]
  constructor
  · rintro (h | h)
    · exact Or.inr (by omega)
    · exact Or.inl h
  · rintro (h | h)
    · exact Or.inr h
    · exact Or.inl (by omega)

theorem used_freeBlock (pmm : Pmm) (p : BitVec 32) {frame : Nat} (hframe : Pmm.frameOf p = frame)
    (other : Nat) :
    (pmm.pmmngrFreeBlock p).mmapTest other = true ↔ pmm.mmapTest other = true ∧ ¬ other = frame := by
  rw [Pmm.pmmngrFreeBlock, Pmm.mmapTest_releaseRun, hframe]
  simp only [Bool.and_eq_true, Bool.not_eq_true', decide_eq_false_iff_not]
  rw [and_comm]
  refine and_congr_right fun _ => not_congr ?_
  omega

/-! ### One word of a directory or a table changes

Every change of a mapping writes one word: an entry of a directory or of a table. A new table is a whole
frame that changes as well, but nothing in a role lies in it.
-/

/-- `m` is the machine after word `w` and the frames of `fresh`, which nobody held, changed. -/
structure Writes (s : Spaces) (m : Machine) (w : Word) (fresh : Set Nat) : Prop where
  current : m.curDirectory = s.machine.curDirectory
  maxBlocks : m.pmm.maxBlocks = s.machine.pmm.maxBlocks
  kept : ∀ v, v ≠ w → v.1 ∉ fresh → m.memory v = s.machine.memory v
  unheld : ∀ frame ∈ fresh, ∀ r, ¬ s.Holds r frame

namespace Owned

variable {s : Spaces} {m : Machine} {w : Word} {fresh : Set Nat} {dir : BitVec 32} {i j frame : Nat}

theorem entry_kept (hw : Writes s m w fresh) {dir' : BitVec 32} (hdir' : dir' ∈ s.live)
    {k : Nat} (hne : (Pmm.frameOf dir', k) ≠ w) : m.entry dir' k = s.machine.entry dir' k :=
  hw.kept _ hne fun hfresh => hw.unheld _ hfresh _ (holds_directory hdir')

theorem pageEntry_kept (hw : Writes s m w fresh) {dir' : BitVec 32} (hdir' : dir' ∈ s.live)
    {k l : Nat} (hk : UserSlot k) (hpresent : pdEntryIsPresent (s.machine.entry dir' k) = true)
    (hentry : (Pmm.frameOf dir', k) ≠ w) (hne : (Pmm.frameOf (s.machine.entry dir' k), l) ≠ w) :
    m.pageEntry dir' k l = s.machine.pageEntry dir' k l := by
  unfold Machine.pageEntry
  rw [entry_kept hw hdir' hentry]
  have htable := holds_table hdir' (userSlot_bound hk) hpresent
  exact hw.kept _ hne fun hfresh => hw.unheld _ hfresh _ htable

/-- The rest of the invariant is kept when no entry of the kernel is written. -/
theorem of_writes (h : s.Owned) (hw : Writes s m w fresh)
    (hshared : ∀ dir' ∈ s.live, ∀ k, SharedSlot k → (Pmm.frameOf dir', k) ≠ w)
    (hbalanced : Ledger.Balanced (Spaces.Holds { s with machine := m }) s.spare
      (Spaces.Used { s with machine := m })) : Owned { s with machine := m } where
  balanced := hbalanced
  zero := h.zero
  current := by
    show m.curDirectory ∈ s.live
    rw [hw.current]
    exact h.current
  aligned := h.aligned
  shared dir' hdir' k hk := by
    show m.entry dir' k = m.entry m.curDirectory k
    rw [hw.current, entry_kept hw hdir' (hshared _ hdir' k hk),
      entry_kept hw h.current (hshared _ h.current k hk)]
    exact h.shared dir' hdir' k hk
  search := by
    show 32 * m.pmm.searchWords ≤ 2 ^ 20
    rw [Pmm.searchWords, Pmm.pmmngrGetBlockCount, hw.maxBlocks]
    exact h.search

/-- An entry of a user slot of one directory is no entry of the kernel in another. -/
theorem entry_not_shared (hi : UserSlot i) (dir' : BitVec 32) {k : Nat} (hk : SharedSlot k) :
    (Pmm.frameOf dir', k) ≠ (Pmm.frameOf dir, i) := by
  intro heq
  exact hi.not_shared ((Prod.mk.inj heq).2 ▸ hk)

/-- A table's words are in no directory. -/
theorem pageWord_ne (h : s.Owned) (hdir : dir ∈ s.live) (hi : UserSlot i)
    (hpresent : pdEntryIsPresent (s.machine.entry dir i) = true) {dir' : BitVec 32}
    (hdir' : dir' ∈ s.live) (k l : Nat) :
    (Pmm.frameOf dir', k) ≠ (Pmm.frameOf (s.machine.entry dir i), l) := by
  intro heq
  exact h.table_ne_dir hdir (userSlot_bound hi) hpresent hdir' (Prod.mk.inj heq).1.symm

/-- What holds a frame after a cleared table was entered in a user slot. -/
theorem holds_enterTable (h : s.Owned) (hdir : dir ∈ s.live) (hi : UserSlot i)
    (habsent : pdEntryIsPresent (s.machine.entry dir i) = false)
    (hw : Writes s m (Pmm.frameOf dir, i) {frame})
    (hpresent : pdEntryIsPresent (m.entry dir i) = true) (hframe : Pmm.frameOf (m.entry dir i) = frame)
    (hclear : ∀ j < 1024, m.memory (frame, j) = 0#32) (r : Role) (f : Nat) :
    Spaces.Holds { s with machine := m } r f ↔
      s.Holds r f ∨ (r = .table dir i ∧ f ∈ ({frame} : Set Nat)) := by
  cases r with
  | directory dir' => simp [Holds]
  | kernelTable k =>
    simp only [Holds, hw.current, reduceCtorEq, false_and, or_false]
    refine and_congr_right fun hk => ?_
    rw [entry_kept hw h.current (entry_not_shared hi _ hk)]
  | table dir' k =>
    by_cases hsame : dir' = dir ∧ k = i
    · obtain ⟨rfl, rfl⟩ := hsame
      have hslot := userSlot_bound hi
      simp [Holds, hdir, hslot.1, hslot.2, hpresent, hframe, habsent]
    · have hrole : ¬ Role.table dir' k = Role.table dir i := by
        intro heq
        injection heq with hd hk
        exact hsame ⟨hd, hk⟩
      simp only [Holds, hrole, false_and, or_false]
      refine and_congr_right fun hdir' => ?_
      have hne : (Pmm.frameOf dir', k) ≠ (Pmm.frameOf dir, i) := by
        intro heq
        exact hsame ⟨h.frameOf_injective hdir' hdir (Prod.mk.inj heq).1, (Prod.mk.inj heq).2⟩
      rw [entry_kept hw hdir' hne]
  | page dir' k l =>
    simp only [Holds, reduceCtorEq, false_and, or_false]
    refine and_congr_right fun hdir' => and_congr_right fun hk => and_congr_right fun hl => ?_
    by_cases hsame : dir' = dir ∧ k = i
    · obtain ⟨rfl, rfl⟩ := hsame
      have hzero : m.pageEntry dir' k l = 0#32 := by
        unfold Machine.pageEntry
        rw [hframe, hclear l hl]
      have hnone : ptEntryIsPresent 0#32 = false := rfl
      simp [hzero, hnone, habsent]
    · have hne : (Pmm.frameOf dir', k) ≠ (Pmm.frameOf dir, i) := by
        intro heq
        exact hsame ⟨h.frameOf_injective hdir' hdir (Prod.mk.inj heq).1, (Prod.mk.inj heq).2⟩
      rw [entry_kept hw hdir' hne]
      refine and_congr_right fun hpresent' => ?_
      have hword := h.pageWord_ne hdir' hk hpresent' hdir i l
      have hword' : (Pmm.frameOf (s.machine.entry dir' k), l) ≠ (Pmm.frameOf dir, i) := by
        intro heq
        exact h.table_ne_dir hdir' (userSlot_bound hk) hpresent' hdir (Prod.mk.inj heq).1
      rw [pageEntry_kept hw hdir' hk hpresent' hne hword']

/-- A role keeps its frames when the entries of the directories stay present and point to the same tables, and the
words of its page are the same. -/
theorem holds_of_entries (h : s.Owned) (hcurrent : m.curDirectory = s.machine.curDirectory)
    (hentry : ∀ dir' ∈ s.live, ∀ k, pdEntryIsPresent (m.entry dir' k) = pdEntryIsPresent (s.machine.entry dir' k) ∧
      Pmm.frameOf (m.entry dir' k) = Pmm.frameOf (s.machine.entry dir' k)) {r : Role}
    (hpage : ∀ dir' k l, r = .page dir' k l → dir' ∈ s.live → UserSlot k →
      pdEntryIsPresent (s.machine.entry dir' k) = true → m.pageEntry dir' k l = s.machine.pageEntry dir' k l) (f : Nat) :
    Spaces.Holds { s with machine := m } r f ↔ s.Holds r f := by
  cases r with
  | directory dir' => exact Iff.rfl
  | kernelTable k =>
    simp only [Holds, hcurrent, hentry _ h.current k]
  | table dir' k =>
    simp only [Holds]
    refine and_congr_right fun hdir' => ?_
    rw [(hentry dir' hdir' k).1, (hentry dir' hdir' k).2]
  | page dir' k l =>
    simp only [Holds]
    refine and_congr_right fun hdir' => and_congr_right fun hk => and_congr_right fun _ => ?_
    rw [(hentry dir' hdir' k).1]
    refine and_congr_right fun hpresent => ?_
    rw [hpage dir' k l rfl hdir' hk hpresent]

/-- What holds a frame after the attributes of a present user entry changed. -/
theorem holds_setAttrib (h : s.Owned) (hdir : dir ∈ s.live) (hi : UserSlot i)
    (hw : Writes s m (Pmm.frameOf dir, i) ∅)
    (hpresent : pdEntryIsPresent (m.entry dir i) = pdEntryIsPresent (s.machine.entry dir i))
    (hframe : Pmm.frameOf (m.entry dir i) = Pmm.frameOf (s.machine.entry dir i)) (r : Role) (f : Nat) :
    Spaces.Holds { s with machine := m } r f ↔ s.Holds r f := by
  -- presence and frame of every entry are as before
  have hentry : ∀ dir' ∈ s.live, ∀ k,
      pdEntryIsPresent (m.entry dir' k) = pdEntryIsPresent (s.machine.entry dir' k) ∧
        Pmm.frameOf (m.entry dir' k) = Pmm.frameOf (s.machine.entry dir' k) := by
    intro dir' hdir' k
    by_cases hsame : (Pmm.frameOf dir', k) = (Pmm.frameOf dir, i)
    · obtain rfl := h.frameOf_injective hdir' hdir (Prod.mk.inj hsame).1
      obtain rfl := (Prod.mk.inj hsame).2
      exact ⟨hpresent, hframe⟩
    · rw [entry_kept hw hdir' hsame]
      exact ⟨rfl, rfl⟩
  refine h.holds_of_entries hw.current hentry (fun dir' k l _ hdir' hk hpresent' => ?_) f
  unfold Machine.pageEntry
  rw [(hentry dir' hdir' k).2]
  refine hw.kept _ (fun heq => ?_) (Set.notMem_empty _)
  exact h.table_ne_dir hdir' (userSlot_bound hk) hpresent' hdir (Prod.mk.inj heq).1

/-- What holds a frame after an entry of a user table changed: the roles of other pages are as before. -/
theorem holds_setPage (h : s.Owned) (hdir : dir ∈ s.live) (hi : UserSlot i)
    (hpresent : pdEntryIsPresent (s.machine.entry dir i) = true)
    (hw : Writes s m (Pmm.frameOf (s.machine.entry dir i), j) ∅) {r : Role}
    (hother : r ≠ .page dir i j) (f : Nat) :
    Spaces.Holds { s with machine := m } r f ↔ s.Holds r f := by
  have hentry : ∀ dir' ∈ s.live, ∀ k, m.entry dir' k = s.machine.entry dir' k :=
    fun dir' hdir' k => entry_kept hw hdir' (h.pageWord_ne hdir hi hpresent hdir' k j)
  refine h.holds_of_entries hw.current (fun dir' hdir' k => ?_) (fun dir' k l hr hdir' hk hpresent' => ?_) f
  · rw [hentry dir' hdir' k]
    exact ⟨rfl, rfl⟩
  · have hne : (Pmm.frameOf (s.machine.entry dir' k), l) ≠ (Pmm.frameOf (s.machine.entry dir i), j) := by
      intro heq
      obtain ⟨hframe, rfl⟩ := Prod.mk.inj heq
      obtain ⟨rfl, rfl⟩ := h.table_injective hdir' (userSlot_bound hk) hpresent' hdir
        (userSlot_bound hi) hpresent hframe
      exact hother hr
    exact pageEntry_kept hw hdir' hk hpresent' (h.pageWord_ne hdir hi hpresent hdir' k j) hne

end Owned

/-! ### The functions of the memory manager -/

/-- What a function that works on one directory keeps: the invariant, and every role of the others. -/
structure Follows (dir : BitVec 32) (s t : Spaces) : Prop where
  owned : t.Owned
  live : t.live = s.live
  spare : t.spare = s.spare
  others : ∀ r frame, r.dir ≠ some dir → (t.Holds r frame ↔ s.Holds r frame)

namespace Follows

variable {dir : BitVec 32} {s t u : Spaces}

theorem refl (h : s.Owned) : Follows dir s s := ⟨h, rfl, rfl, fun _ _ _ => Iff.rfl⟩

theorem trans (hst : Follows dir s t) (htu : Follows dir t u) : Follows dir s u where
  owned := htu.owned
  live := htu.live.trans hst.live
  spare := htu.spare.trans hst.spare
  others r frame hr := (htu.others r frame hr).trans (hst.others r frame hr)

end Follows

namespace Owned

variable {s : Spaces} {dir : BitVec 32} {i j : Nat}

theorem lookup_directory (h : s.Owned) (hdir : dir ∈ s.live) (virt : BitVec 32) :
    Machine.vmmngrPdirectoryLookupEntry dir virt = (Pmm.frameOf dir, pageDirectoryIndex virt) := by
  rw [Machine.vmmngrPdirectoryLookupEntry, if_neg (h.dir_ne_zero hdir)]

theorem lookup_table (h : s.Owned) (hdir : dir ∈ s.live) (hi : UserSlot i)
    (hpresent : pdEntryIsPresent (s.machine.entry dir i) = true) (virt : BitVec 32) :
    Machine.vmmngrPtableLookupEntry (pdEntryPfn (s.machine.entry dir i)) virt
      = (Pmm.frameOf (s.machine.entry dir i), pageTableIndex virt) := by
  have hne : pdEntryPfn (s.machine.entry dir i) ≠ 0#32 := by
    intro hzero
    refine h.holds_ne_zero (holds_table hdir (userSlot_bound hi) hpresent) ?_
    rw [← Entry.frameOf_pfn]
    exact congrArg Pmm.frameOf hzero
  rw [Machine.vmmngrPtableLookupEntry, if_neg hne]
  exact congrArg (·, _) (Entry.frameOf_pfn _)

/-- A frame's fresh table is entered, or nothing happens. -/
theorem tableForEntry (h : s.Owned) (hdir : dir ∈ s.live) (hi : UserSlot i) :
    Follows dir s { s with machine := (s.machine.tableForEntry (Pmm.frameOf dir, i)).2 } ∧
      ((s.machine.tableForEntry (Pmm.frameOf dir, i)).1 = true → pdEntryIsPresent
        ((s.machine.tableForEntry (Pmm.frameOf dir, i)).2.entry dir i) = true) := by
  by_cases habsent : pdEntryIsPresent (s.machine.memory (Pmm.frameOf dir, i)) = true
  · rw [Machine.tableForEntry, if_pos habsent]
    exact ⟨Follows.refl h, fun _ => habsent⟩
  rw [Machine.tableForEntry, if_neg habsent]
  dsimp only
  rcases h.allocBlock_cases with heq | ⟨p, frame, heq, hne, hframe, _, hunused⟩
  · rw [heq, if_pos rfl]
    exact ⟨Follows.refl h, fun hfalse => Bool.noConfusion hfalse⟩
  · rw [heq, if_neg hne]
    dsimp only
    generalize hm : Machine.store _ _ _ = m
    have hdirFrame : Pmm.frameOf dir ≠ frame := by
      rintro rfl
      exact hunused (h.balanced.used_of_holds (holds_directory hdir))
    have hentry : m.entry dir i = pdEntrySetFrame (pdEntryAddAttrib
        (s.machine.memory (Pmm.frameOf dir, i)) Entry.present) p := by
      rw [← hm]
      simp [Machine.entry, Machine.store, Machine.vmmngrPtableClear, Machine.clearWords, hframe, hdirFrame]
    have hpresent : pdEntryIsPresent (m.entry dir i) = true := by
      rw [hentry]
      simp
    have hframe' : Pmm.frameOf (m.entry dir i) = frame := by
      rw [hentry, ← hframe]
      exact Entry.frameOf_setFrame _ _
    have hw : Writes s m (Pmm.frameOf dir, i) {frame} := by
      refine ⟨by rw [← hm]; rfl, ?_, fun v hv hfresh => ?_, fun f hf => ?_⟩
      · rw [← hm]
        exact Pmm.occupyRun_maxBlocks _ _ _
      · rw [← hm]
        have hv' : v.1 ≠ frame := hfresh
        simp [Machine.store, hv, Machine.vmmngrPtableClear, Machine.clearWords, hframe, hv']
      · rw [Set.mem_singleton_iff.mp hf]
        exact fun r hr => hunused (h.balanced.used_of_holds hr)
    have hclear : ∀ j < 1024, m.memory (frame, j) = 0#32 := by
      intro j hj
      have hv : (frame, j) ≠ (Pmm.frameOf dir, i) := fun he => hdirFrame (Prod.mk.inj he).1.symm
      rw [← hm]
      simp [Machine.store, hv, Machine.vmmngrPtableClear, Machine.clearWords, hframe, hj]
    have hholds := h.holds_enterTable hdir hi (Bool.eq_false_iff.mpr habsent) hw hpresent hframe' hclear
    have hused := used_occupyRun s frame m (by rw [← hm]; rfl)
    have hbalanced := h.balanced.take (.table dir i) {frame}
      (fun u hu => by rwa [Set.mem_singleton_iff.mp hu]) hholds hused
    refine ⟨⟨h.of_writes hw (fun dir' _ k hk => entry_not_shared hi dir' hk) hbalanced, rfl, rfl,
      fun r f hr => ?_⟩, fun _ => hpresent⟩
    rw [hholds]
    refine or_iff_left fun hnew => hr ?_
    rw [hnew.1]
    rfl

/-- Attributes are added to a present entry. -/
theorem addAttrib (h : s.Owned) (hdir : dir ∈ s.live) (hi : UserSlot i)
    (hpresent : pdEntryIsPresent (s.machine.entry dir i) = true) {flags : BitVec 32}
    (hflags : flags.toNat < 4096) :
    Follows dir s { s with machine := (s.machine.store (Pmm.frameOf dir, i)
      (pdEntryAddAttrib (s.machine.memory (Pmm.frameOf dir, i)) flags)) } ∧
      pdEntryIsPresent (Machine.entry (s.machine.store (Pmm.frameOf dir, i)
        (pdEntryAddAttrib (s.machine.memory (Pmm.frameOf dir, i)) flags)) dir i) = true := by
  generalize hm : Machine.store _ _ _ = m
  have hentry : m.entry dir i = pdEntryAddAttrib (s.machine.entry dir i) flags := by
    rw [← hm]
    simp [Machine.entry, Machine.store]
  have hpresent' : pdEntryIsPresent (m.entry dir i) = true := by
    rw [hentry]
    simp [hpresent]
  have hw : Writes s m (Pmm.frameOf dir, i) ∅ := by
    refine ⟨by rw [← hm]; rfl, by rw [← hm]; rfl, fun v hv _ => ?_, fun f hf => absurd hf (Set.notMem_empty f)⟩
    rw [← hm]
    simp [Machine.store, hv]
  have hholds := h.holds_setAttrib hdir hi hw (hpresent'.trans hpresent.symm)
    (by rw [hentry]; exact Entry.frameOf_addAttrib _ hflags)
  have hbalanced := h.balanced.congr hholds
    (show ∀ f, Spaces.Used { s with machine := m } f ↔ s.Used f from fun f => by rw [← hm]; rfl)
  exact ⟨⟨h.of_writes hw (fun dir' _ k hk => entry_not_shared hi dir' hk) hbalanced, rfl, rfl,
    fun r f _ => hholds r f⟩, hpresent'⟩

/-- A new frame goes to an absent page of a present table, if there is one. -/
theorem allocPage (h : s.Owned) (hdir : dir ∈ s.live) (hi : UserSlot i) (hj : j < 1024)
    (hpresent : pdEntryIsPresent (s.machine.entry dir i) = true)
    (habsent : ptEntryIsPresent (s.machine.pageEntry dir i j) = false) {flags : BitVec 32}
    (hflags : flags.toNat < 4096) :
    Follows dir s { s with machine :=
      (s.machine.vmmngrAllocPage (Pmm.frameOf (s.machine.entry dir i), j) flags) } := by
  rw [Machine.vmmngrAllocPage]
  dsimp only
  rcases h.allocBlock_cases with heq | ⟨p, frame, heq, hne, hframe, _, hunused⟩
  · rw [heq, if_pos rfl]
    exact Follows.refl h
  · rw [heq, if_neg hne]
    dsimp only
    generalize hm : Machine.store _ _ _ = m
    have hw : Writes s m (Pmm.frameOf (s.machine.entry dir i), j) ∅ := by
      refine ⟨by rw [← hm]; rfl, ?_, fun v hv _ => ?_, fun f hf => absurd hf (Set.notMem_empty f)⟩
      · rw [← hm]
        exact Pmm.occupyRun_maxBlocks _ _ _
      · rw [← hm]
        simp [Machine.store, hv]
    have hentry : m.entry dir i = s.machine.entry dir i :=
      entry_kept hw hdir (h.pageWord_ne hdir hi hpresent hdir i j)
    have hpage : m.pageEntry dir i j = ptEntryAddAttrib (ptEntryAddAttrib
        (ptEntrySetFrame (s.machine.pageEntry dir i j) p) Entry.present) flags := by
      rw [Machine.pageEntry, hentry, ← hm]
      simp [Machine.pageEntry, Machine.store]
    have hpage' : ptEntryIsPresent (m.pageEntry dir i j) = true := by
      rw [hpage]
      simp
    have hframe' : Pmm.frameOf (m.pageEntry dir i j) = frame := by
      rw [hpage, ← hframe]
      exact (Entry.frameOf_addAttrib _ hflags).trans
        ((Entry.frameOf_addAttrib _ (by decide)).trans (Entry.frameOf_setFrame _ _))
    have hholds : ∀ r f, Spaces.Holds { s with machine := m } r f ↔
        s.Holds r f ∨ (r = .page dir i j ∧ f ∈ ({frame} : Set Nat)) := by
      intro r f
      by_cases hsame : r = .page dir i j
      · subst hsame
        simp [Holds, hdir, hi, hj, hentry, hpresent, hpage', hframe', habsent]
      · rw [h.holds_setPage hdir hi hpresent hw hsame]
        simp [hsame]
    have hused := used_occupyRun s frame m (by rw [← hm]; rfl)
    have hbalanced := h.balanced.take (.page dir i j) {frame}
      (fun u hu => by rwa [Set.mem_singleton_iff.mp hu]) hholds hused
    refine ⟨h.of_writes hw (fun dir' hdir' k _ => h.pageWord_ne hdir hi hpresent hdir' k j) hbalanced,
      rfl, rfl, fun r f hr => ?_⟩
    rw [hholds]
    refine or_iff_left fun hnew => hr ?_
    rw [hnew.1]
    rfl

/-- `vmmngr_alloc_virt` on a user address. -/
theorem allocVirt (h : s.Owned) (hdir : dir ∈ s.live) {virt pdeFlags pteFlags : BitVec 32}
    (hvirt : UserAddress virt) (hpde : pdeFlags.toNat < 4096) (hpte : pteFlags.toNat < 4096) :
    Follows dir s { s with machine := s.machine.vmmngrAllocVirt dir virt pdeFlags pteFlags } := by
  have hi := hvirt.slot
  rw [Machine.vmmngrAllocVirt]
  dsimp only
  rw [h.lookup_directory hdir]
  obtain ⟨htable, hpresent⟩ := h.tableForEntry hdir hi
  generalize s.machine.tableForEntry (Pmm.frameOf dir, pageDirectoryIndex virt) = r at htable hpresent ⊢
  obtain ⟨found, m⟩ := r
  cases found with
  | false => exact htable
  | true =>
    simp only [Bool.not_true, Bool.false_eq_true, if_false]
    obtain ⟨hattrib, hpresent'⟩ := htable.owned.addAttrib hdir hi (hpresent rfl) hpde
    dsimp only at hattrib hpresent'
    generalize m.store _ _ = m' at hattrib hpresent' ⊢
    have hlookup := hattrib.owned.lookup_table hdir hi hpresent' virt
    rw [show m'.memory (Pmm.frameOf dir, pageDirectoryIndex virt) = m'.entry dir (pageDirectoryIndex virt)
      from rfl, hlookup]
    split
    · exact htable.trans hattrib
    · next habsent =>
      exact (htable.trans hattrib).trans (hattrib.owned.allocPage hdir hi (pageTableIndex_lt virt) hpresent'
        (Bool.eq_false_iff.mpr habsent) hpte)

/-- A present page of a user table is given back. -/
theorem freePage (h : s.Owned) (hdir : dir ∈ s.live) (hi : UserSlot i) (hj : j < 1024)
    (hpresent : pdEntryIsPresent (s.machine.entry dir i) = true)
    (hpage : ptEntryIsPresent (s.machine.pageEntry dir i j) = true) :
    Follows dir s { s with machine :=
      (s.machine.vmmngrFreePage (Pmm.frameOf (s.machine.entry dir i), j)) } := by
  have hheld : s.Holds (.page dir i j) (Pmm.frameOf (s.machine.pageEntry dir i j)) :=
    ⟨hdir, hi, hj, hpresent, hpage, rfl⟩
  have hpfn : ptEntryPfn (s.machine.pageEntry dir i j) ≠ 0#32 := by
    intro hzero
    refine h.holds_ne_zero hheld ?_
    rw [← Entry.frameOf_pfn]
    exact congrArg Pmm.frameOf hzero
  rw [Machine.vmmngrFreePage]
  rw [show s.machine.memory (Pmm.frameOf (s.machine.entry dir i), j) = s.machine.pageEntry dir i j from
    rfl, if_pos hpfn]
  generalize hm : Machine.store _ _ _ = m
  have hw : Writes s m (Pmm.frameOf (s.machine.entry dir i), j) ∅ := by
    refine ⟨by rw [← hm]; rfl, ?_, fun v hv _ => ?_, fun f hf => absurd hf (Set.notMem_empty f)⟩
    · rw [← hm]
      exact Pmm.releaseRun_maxBlocks _ _ _
    · rw [← hm]
      simp [Machine.store, hv]
  have hentry : m.entry dir i = s.machine.entry dir i :=
    entry_kept hw hdir (h.pageWord_ne hdir hi hpresent hdir i j)
  have hpage' : m.pageEntry dir i j = ptEntryDelAttrib (s.machine.pageEntry dir i j) Entry.present := by
    rw [Machine.pageEntry, hentry, ← hm]
    simp [Machine.pageEntry, Machine.store]
  have hholds : ∀ r f, Spaces.Holds { s with machine := m } r f ↔
      s.Holds r f ∧ r ∉ ({.page dir i j} : Set Role) := by
    intro r f
    by_cases hsame : r = .page dir i j
    · subst hsame
      simp [Holds, hpage']
    · rw [h.holds_setPage hdir hi hpresent hw hsame]
      simp [hsame]
  have hused : ∀ f, Spaces.Used { s with machine := m } f ↔
      s.Used f ∧ ¬ ∃ r ∈ ({.page dir i j} : Set Role), s.Holds r f := by
    intro f
    have hframe : (∃ r ∈ ({.page dir i j} : Set Role), s.Holds r f) ↔
        f = Pmm.frameOf (s.machine.pageEntry dir i j) := by
      simp [Holds, hdir, hi, hj, hpresent, hpage]
    rw [hframe, Used, ← hm]
    exact used_freeBlock s.machine.pmm _ (Entry.frameOf_pfn _) f
  have hspare : ∀ u, u ∈ s.spare ↔ u ∈ s.spare ∨ ∃ r ∈ ({.page dir i j} : Set Role),
      r ∉ ({.page dir i j} : Set Role) ∧ s.Holds r u := by
    intro u
    simp
  have hbalanced := h.balanced.close {.page dir i j} {.page dir i j} (Set.Subset.refl _) hholds hspare hused
  refine ⟨h.of_writes hw (fun dir' hdir' k _ => h.pageWord_ne hdir hi hpresent hdir' k j) hbalanced,
    rfl, rfl, fun r f hr => ?_⟩
  rw [hholds]
  refine and_iff_left fun hnew => hr ?_
  rw [Set.mem_singleton_iff.mp hnew]
  rfl

/-- `vmmngr_free_virt` on a user address. -/
theorem freeVirt (h : s.Owned) (hdir : dir ∈ s.live) {virt : BitVec 32} (hvirt : UserAddress virt) :
    Follows dir s { s with machine := s.machine.vmmngrFreeVirt dir virt } := by
  have hi := hvirt.slot
  rw [Machine.vmmngrFreeVirt]
  dsimp only
  rw [h.lookup_directory hdir, show s.machine.memory (Pmm.frameOf dir, pageDirectoryIndex virt)
    = s.machine.entry dir (pageDirectoryIndex virt) from rfl]
  by_cases hpresent : pdEntryIsPresent (s.machine.entry dir (pageDirectoryIndex virt)) = true
  · rw [if_neg (by simp [hpresent]), h.lookup_table hdir hi hpresent virt]
    split
    · next hpage => exact h.freePage hdir hi (pageTableIndex_lt virt) hpresent hpage
    · exact Follows.refl h
  · rw [if_pos (by simpa using hpresent)]
    exact Follows.refl h

end Owned

end Spaces

end Akos
