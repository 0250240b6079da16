import Akos.Memory.Ownership

/-!
# Address spaces over whole runs

Directories are made with the kernel's entries copied in, get and lose user pages, and are destroyed after
the kernel's entries were cleared. In every run the roles stay apart, every frame in a role is marked used,
the destruction of a directory frees no table another one refers to, and a directory that lost all its
pages leaves the frame map as it was before it was made.
-/

namespace Akos.Spaces

namespace Owned

variable {s : Spaces} {m : Machine} {w : Word} {fresh : Set Nat} {dir : BitVec 32}

/-- Memory that is in no role can change. -/
theorem holds_kept (hw : Writes s m w fresh) (hword : ∀ r, ¬ s.Holds r w.1) (h : s.Owned) (r : Role)
    (f : Nat) : Spaces.Holds { s with machine := m } r f ↔ s.Holds r f := by
  have hdirWord : ∀ dir' ∈ s.live, ∀ k, (Pmm.frameOf dir', k) ≠ w :=
    fun dir' hdir' k heq => hword (.directory dir') (heq ▸ holds_directory hdir')
  refine h.holds_of_entries hw.current (fun dir' hdir' k => ?_) (fun dir' k l _ hdir' hk hpresent => ?_) f
  · rw [entry_kept hw hdir' (hdirWord dir' hdir' k)]
    exact ⟨rfl, rfl⟩
  · exact pageEntry_kept hw hdir' hk hpresent (hdirWord dir' hdir' k) fun heq =>
      hword (.table dir' k) (heq ▸ holds_table hdir' (userSlot_bound hk) hpresent)

end Owned

/-! ### A directory is made -/

theorem cloneKernelSpace_memory (m : Machine) (out : BitVec 32) (w : Word) :
    (m.cloneKernelSpace out).memory w
      = if w.1 = Pmm.frameOf out ∧ SharedSlot w.2 then m.memory (Pmm.frameOf m.curDirectory, w.2)
        else m.memory w := by
  have hcopy : Machine.pageTablesToCopy = 4 := by decide
  unfold Machine.cloneKernelSpace Machine.copyWords SharedSlot
  obtain ⟨frame, i⟩ := w
  by_cases hframe : frame = Pmm.frameOf out
  swap
  · simp [hframe]
  subst hframe
  by_cases hsame : Pmm.frameOf m.curDirectory = Pmm.frameOf out
  · simp [hsame]
  · simp only [hcopy, true_and, hsame, false_and, if_false]
    split_ifs <;> first | rfl | omega

theorem clearKernelSpace_memory (m : Machine) (out : BitVec 32) (w : Word) :
    (m.clearKernelSpace out).memory w
      = if w.1 = Pmm.frameOf out ∧ SharedSlot w.2 then 0#32 else m.memory w := by
  have hcopy : Machine.pageTablesToCopy = 4 := by decide
  unfold Machine.clearKernelSpace Machine.clearWords SharedSlot
  obtain ⟨frame, i⟩ := w
  by_cases hframe : frame = Pmm.frameOf out
  · simp only [hcopy, hframe, true_and]
    split_ifs <;> first | rfl | omega
  · simp [hframe]

/-- The state after `create_address_space`. -/
def create (s : Spaces) : Spaces :=
  let (space, m) := s.machine.createAddressSpace
  { s with machine := m, live := if space = 0#32 then s.live else insert space s.live }

/-- What making a directory does: the invariant holds, the new directory was not in existence (memory being
out, it is 0), and the roles of the others are as before. -/
structure Created (dir : BitVec 32) (s t : Spaces) : Prop where
  owned : t.Owned
  fresh : dir ∉ s.live
  live : t.live = if dir = 0#32 then s.live else insert dir s.live
  spare : t.spare = s.spare
  others : ∀ r frame, r.dir ≠ some dir → (t.Holds r frame ↔ s.Holds r frame)
  empty : ∀ i j frame, ¬ t.Holds (.page dir i j) frame

namespace Owned

variable {s : Spaces} {m : Machine} {dir : BitVec 32} {frame : Nat}

/-- The roles after a frame that nobody held became a directory with the kernel's entries. -/
theorem holds_enterDirectory (h : s.Owned) (hfresh : dir ∉ s.live) (hframe : Pmm.frameOf dir = frame)
    (hw : Writes s m (frame, 0) {frame}) (hunheld : ∀ r, ¬ s.Holds r frame)
    (hclear : ∀ i < 1024, ¬ SharedSlot i → m.entry dir i = 0#32) (r : Role) (f : Nat) :
    Spaces.Holds { s with machine := m, live := insert dir s.live } r f ↔
      s.Holds r f ∨ (r = .directory dir ∧ f ∈ ({frame} : Set Nat)) := by
  have hkept := holds_kept hw hunheld h r f
  have hnone : pdEntryIsPresent 0#32 = false := rfl
  cases r with
  | directory dir' =>
    simp only [Holds, Set.mem_insert_iff, Role.directory.injEq, Set.mem_singleton_iff]
    constructor
    · rintro ⟨rfl | hlive, hf⟩
      · exact Or.inr ⟨rfl, hf.trans hframe⟩
      · exact Or.inl ⟨hlive, hf⟩
    · rintro (⟨hlive, hf⟩ | ⟨rfl, hf⟩)
      · exact ⟨Or.inr hlive, hf⟩
      · exact ⟨Or.inl rfl, hf.trans hframe.symm⟩
  | kernelTable k =>
    rw [← hkept]
    simp [Holds]
  | table dir' k =>
    rw [← hkept]
    simp only [Holds, Set.mem_insert_iff, reduceCtorEq, false_and, or_false]
    constructor
    · rintro ⟨rfl | hlive, hk, hslot, hpresent, hf⟩
      · rw [hclear k hk hslot, hnone] at hpresent
        exact Bool.noConfusion hpresent
      · exact ⟨hlive, hk, hslot, hpresent, hf⟩
    · rintro ⟨hlive, hrest⟩
      exact ⟨Or.inr hlive, hrest⟩
  | page dir' k l =>
    rw [← hkept]
    simp only [Holds, Set.mem_insert_iff, reduceCtorEq, false_and, or_false]
    constructor
    · rintro ⟨rfl | hlive, hk, hl, hpresent, hrest⟩
      · rw [hclear k (userSlot_bound hk).1 hk.not_shared, hnone] at hpresent
        exact Bool.noConfusion hpresent
      · exact ⟨hlive, hk, hl, hpresent, hrest⟩
    · rintro ⟨hlive, hrest⟩
      exact ⟨Or.inr hlive, hrest⟩

theorem create (h : s.Owned) : Created s.machine.createAddressSpace.1 s s.create := by
  unfold Spaces.create Machine.createAddressSpace Machine.vmmngrCreatePdir
  dsimp only
  rcases h.allocBlock_cases with heq | ⟨p, frame, heq, hne, hframe, haligned, hunused⟩
  · -- memory is out: the kernel's entries are copied over the frame at address 0, which is in no role
    rw [heq, if_pos rfl]
    dsimp only
    rw [if_pos rfl]
    generalize hm : Machine.cloneKernelSpace _ _ = m
    have hunheld : ∀ r, ¬ s.Holds r 0 := fun r hr => h.balanced.spare_apart h.zero hr
    have hw : Writes s m (0, 0) {0} := by
      refine ⟨by rw [← hm]; rfl, by rw [← hm]; rfl, fun v _ hv => ?_, fun f hf => ?_⟩
      · rw [← hm, cloneKernelSpace_memory, if_neg (fun hout => hv hout.1)]
      · rw [Set.mem_singleton_iff.mp hf]
        exact hunheld
    have hholds := holds_kept hw hunheld h
    have hbalanced := h.balanced.congr hholds
      (show ∀ f, Spaces.Used { s with machine := m } f ↔ s.Used f from fun f => by rw [← hm]; rfl)
    refine ⟨h.of_writes hw (fun dir' hdir' k _ heq' => ?_) hbalanced, fun hlive => h.dir_ne_zero hlive rfl,
      (if_pos rfl).symm, rfl, fun r f _ => hholds r f, fun i j f hpage => h.dir_ne_zero hpage.1 rfl⟩
    exact hunheld (.directory dir') ((Prod.mk.inj heq').1 ▸ holds_directory hdir')
  · rw [heq, if_neg hne]
    dsimp only
    rw [if_neg hne]
    generalize hm : Machine.cloneKernelSpace _ _ = m
    have hunheld : ∀ r, ¬ s.Holds r frame := fun r hr => hunused (h.balanced.used_of_holds hr)
    have hfresh : p ∉ s.live := fun hlive => hunheld _ (hframe ▸ holds_directory hlive)
    have hmemory : ∀ w, m.memory w = if w.1 = frame ∧ SharedSlot w.2 then
        s.machine.memory (Pmm.frameOf s.machine.curDirectory, w.2)
        else if w.1 = frame ∧ w.2 < 1024 then 0#32 else s.machine.memory w := by
      intro w
      have hcur : Pmm.frameOf s.machine.curDirectory ≠ frame := fun heq' =>
        hunheld (.directory s.machine.curDirectory) (heq' ▸ holds_directory h.current)
      rw [← hm, cloneKernelSpace_memory, hframe]
      simp [Machine.vmmngrPdirectoryClear, Machine.clearWords, hframe, hcur]
    have hw : Writes s m (frame, 0) {frame} := by
      refine ⟨by rw [← hm]; rfl, ?_, fun v _ hv => ?_, fun f hf => ?_⟩
      · rw [← hm]
        exact Pmm.occupyRun_maxBlocks _ _ _
      · rw [hmemory, if_neg (fun hout => hv hout.1), if_neg (fun hout => hv hout.1)]
      · rw [Set.mem_singleton_iff.mp hf]
        exact hunheld
    have hclear : ∀ i < 1024, ¬ SharedSlot i → m.entry p i = 0#32 := by
      intro i hi hslot
      rw [Machine.entry, hmemory, if_neg (fun hout => hslot hout.2), if_pos ⟨hframe, hi⟩]
    have hholds := h.holds_enterDirectory hfresh hframe hw hunheld hclear
    have hused := used_occupyRun s frame m (by rw [← hm]; rfl)
    have hbalanced := h.balanced.take (.directory p) {frame}
      (fun u hu => by rwa [Set.mem_singleton_iff.mp hu]) hholds hused
    have hentry : ∀ dir' ∈ s.live, ∀ k, m.entry dir' k = s.machine.entry dir' k := fun dir' hdir' k =>
      entry_kept hw hdir' fun heq' =>
        hunheld (.directory dir') ((Prod.mk.inj heq').1 ▸ holds_directory hdir')
    refine ⟨⟨hbalanced, h.zero, ?_, ?_, ?_, ?_⟩, hfresh, (if_neg hne).symm, rfl, fun r f hr => ?_,
      fun i j f hpage => ?_⟩
    · show m.curDirectory ∈ insert p s.live
      rw [hw.current]
      exact Or.inr h.current
    · rintro dir' (rfl | hdir')
      · rw [hframe]
        exact haligned
      · exact h.aligned dir' hdir'
    · rintro dir' hdir' k hk
      show m.entry dir' k = m.entry m.curDirectory k
      rw [hw.current, hentry _ h.current]
      rcases hdir' with rfl | hdir'
      · rw [Machine.entry, hmemory, if_pos ⟨hframe, hk⟩]
        rfl
      · rw [hentry dir' hdir']
        exact h.shared dir' hdir' k hk
    · show 32 * m.pmm.searchWords ≤ 2 ^ 20
      rw [Pmm.searchWords, Pmm.pmmngrGetBlockCount, hw.maxBlocks]
      exact h.search
    · rw [hholds]
      refine or_iff_left fun hnew => hr ?_
      rw [hnew.1]
      rfl
    · rcases (hholds _ _).mp hpage with hold | ⟨hrole, _⟩
      · exact hfresh hold.1
      · exact Role.noConfusion hrole

end Owned

/-! ### A directory is destroyed -/

/-- The state after `clear_kernel_space` and `vmmngr_free_pdir`. The pages still in the directory are lost. -/
def destroy (s : Spaces) (dir : BitVec 32) : Spaces where
  machine := (s.machine.clearKernelSpace dir).vmmngrFreePdir dir
  live := s.live \ {dir}
  spare := s.spare ∪ {frame | ∃ i j, s.Holds (.page dir i j) frame}

theorem mmapTest_freeTables (m : Machine) (dir : BitVec 32) (n frame : Nat) :
    (m.freeTables dir n).mmapTest frame = true ↔ m.pmm.mmapTest frame = true ∧
      ¬ ∃ i < n, pdEntryIsPresent (m.entry dir i) = true ∧ frame = Pmm.frameOf (m.entry dir i) := by
  induction n with
  | zero => simp [Machine.freeTables]
  | succ n ih =>
    have hsplit : (∃ i < n + 1, pdEntryIsPresent (m.entry dir i) = true ∧
        frame = Pmm.frameOf (m.entry dir i)) ↔
        (∃ i < n, pdEntryIsPresent (m.entry dir i) = true ∧ frame = Pmm.frameOf (m.entry dir i)) ∨
          (pdEntryIsPresent (m.entry dir n) = true ∧ frame = Pmm.frameOf (m.entry dir n)) := by
      constructor
      · rintro ⟨i, hi, hrest⟩
        rcases Nat.lt_succ_iff_lt_or_eq.mp hi with hlt | rfl
        · exact Or.inl ⟨i, hlt, hrest⟩
        · exact Or.inr hrest
      · rintro (⟨i, hi, hrest⟩ | hrest)
        · exact ⟨i, by omega, hrest⟩
        · exact ⟨n, by omega, hrest⟩
    rw [hsplit, Machine.freeTables]
    rw [show m.memory (Pmm.frameOf dir, n) = m.entry dir n from rfl]
    by_cases hpresent : pdEntryIsPresent (m.entry dir n) = true
    · rw [if_pos hpresent, used_freeBlock _ _ (Entry.frameOf_pfn _), ih, and_iff_right hpresent,
        and_assoc, not_or]
    · rw [if_neg hpresent, ih, or_iff_left (fun h => hpresent h.1)]

/-- The roles that a directory's destruction gives back. -/
def destroyedRoles (dir : BitVec 32) : Set Role := {r | r = .directory dir ∨ ∃ i, r = .table dir i}

/-- What destroying a directory does: the invariant holds, and the roles of the others are as before. -/
structure Destroyed (dir : BitVec 32) (s t : Spaces) : Prop where
  owned : t.Owned
  live : t.live = s.live \ {dir}
  spare : ∀ frame, frame ∈ t.spare ↔ frame ∈ s.spare ∨ ∃ i j, s.Holds (.page dir i j) frame
  others : ∀ r frame, r.dir ≠ some dir → (t.Holds r frame ↔ s.Holds r frame)

namespace Owned

variable {s : Spaces} {dir : BitVec 32} {i : Nat}

theorem entry_clearKernelSpace (m : Machine) (dir dir' : BitVec 32) (i : Nat) :
    (m.clearKernelSpace dir).entry dir' i
      = if Pmm.frameOf dir' = Pmm.frameOf dir ∧ SharedSlot i then 0#32 else m.entry dir' i :=
  clearKernelSpace_memory m dir (Pmm.frameOf dir', i)

/-- The tables that `vmmngr_free_pdir` frees are the tables that only this directory has. -/
theorem present_clearKernelSpace (i : Nat) :
    pdEntryIsPresent ((s.machine.clearKernelSpace dir).entry dir i) = true ↔
      ¬ SharedSlot i ∧ pdEntryIsPresent (s.machine.entry dir i) = true := by
  rw [entry_clearKernelSpace]
  by_cases hslot : SharedSlot i
  · rw [if_pos ⟨rfl, hslot⟩]
    exact iff_of_false (by decide) (fun h => h.1 hslot)
  · rw [if_neg (fun h => hslot h.2)]
    exact (and_iff_right hslot).symm

/-- None of them is behind an entry of another directory. -/
theorem freed_not_referenced (h : s.Owned) (hdir : dir ∈ s.live) {dir' : BitVec 32} (hdir' : dir' ∈ s.live)
    (hne : dir' ≠ dir) {i k : Nat} (hi : i < 1024) (hk : k < 1024)
    (hfreed : pdEntryIsPresent ((s.machine.clearKernelSpace dir).entry dir i) = true)
    (hpresent : pdEntryIsPresent (s.machine.entry dir' k) = true) :
    Pmm.frameOf ((s.machine.clearKernelSpace dir).entry dir i)
      ≠ Pmm.frameOf (s.machine.entry dir' k) := by
  obtain ⟨hslot, hpresent'⟩ := (present_clearKernelSpace i).mp hfreed
  rw [entry_clearKernelSpace, if_neg (fun h => hslot h.2)]
  have htable := holds_table hdir ⟨hi, hslot⟩ hpresent'
  intro heq
  rw [heq] at htable
  by_cases hshared : SharedSlot k
  · rw [h.shared dir' hdir' k hshared] at htable hpresent
    have hkernel : s.Holds (.kernelTable k) _ := ⟨hshared, hpresent, rfl⟩
    exact Role.noConfusion (h.balanced.apart htable hkernel)
  · have hrole := h.balanced.apart htable (holds_table hdir' ⟨hk, hshared⟩ hpresent)
    injection hrole with hd _
    exact hne hd.symm

theorem destroy (h : s.Owned) (hdir : dir ∈ s.live) (hcur : dir ≠ s.machine.curDirectory) :
    Destroyed dir s (s.destroy dir) := by
  have hcurrent : (s.destroy dir).machine.curDirectory = s.machine.curDirectory := rfl
  -- the other directories and their tables are untouched
  have hentry : ∀ dir' ∈ s.live, dir' ≠ dir → ∀ k,
      (s.destroy dir).machine.entry dir' k = s.machine.entry dir' k := by
    intro dir' hdir' hne k
    show (s.machine.clearKernelSpace dir).entry dir' k = _
    rw [entry_clearKernelSpace, if_neg (fun heq => hne (h.frameOf_injective hdir' hdir heq.1))]
  have hpage : ∀ dir' ∈ s.live, dir' ≠ dir → ∀ k l, UserSlot k →
      pdEntryIsPresent (s.machine.entry dir' k) = true →
      (s.destroy dir).machine.pageEntry dir' k l = s.machine.pageEntry dir' k l := by
    intro dir' hdir' hne k l hk hpresent
    rw [Machine.pageEntry, hentry dir' hdir' hne]
    show (s.machine.clearKernelSpace dir).memory _ = _
    rw [clearKernelSpace_memory,
      if_neg (fun heq => h.table_ne_dir hdir' (userSlot_bound hk) hpresent hdir heq.1)]
    rfl
  have hcurEntry : ∀ k, (s.destroy dir).machine.entry (s.destroy dir).machine.curDirectory k
      = s.machine.entry s.machine.curDirectory k := fun k => hentry _ h.current hcur.symm k
  have hholds : ∀ r f, (s.destroy dir).Holds r f ↔ s.Holds r f ∧ r ∉ {r : Role | r.dir = some dir} := by
    intro r f
    cases r with
    | directory dir' =>
      simp only [Holds, Spaces.destroy, Set.mem_sdiff, Set.mem_singleton_iff, Role.dir, Set.mem_ofPred_eq,
        Option.some.injEq]
      tauto
    | kernelTable k =>
      simp [Holds, hcurEntry, Role.dir]
    | table dir' k =>
      simp only [Role.dir, Set.mem_ofPred_eq, Option.some.injEq]
      constructor
      · rintro ⟨⟨hlive, hne⟩, hrest⟩
        rw [hentry dir' hlive hne] at hrest
        exact ⟨⟨hlive, hrest⟩, hne⟩
      · rintro ⟨⟨hlive, hrest⟩, hne⟩
        refine ⟨⟨hlive, hne⟩, ?_⟩
        rw [hentry dir' hlive hne]
        exact hrest
    | page dir' k l =>
      simp only [Role.dir, Set.mem_ofPred_eq, Option.some.injEq]
      constructor
      · rintro ⟨⟨hlive, hne⟩, hk, hl, hpresent, hrest⟩
        rw [hentry dir' hlive hne] at hpresent
        rw [hpage dir' hlive hne k l hk hpresent] at hrest
        exact ⟨⟨hlive, hk, hl, hpresent, hrest⟩, hne⟩
      · rintro ⟨⟨hlive, hk, hl, hpresent, hrest⟩, hne⟩
        refine ⟨⟨hlive, hne⟩, hk, hl, ?_, ?_⟩
        · rw [hentry dir' hlive hne]
          exact hpresent
        · rw [hpage dir' hlive hne k l hk hpresent]
          exact hrest
  have hspare : ∀ f, f ∈ (s.destroy dir).spare ↔
      f ∈ s.spare ∨ ∃ r ∈ {r : Role | r.dir = some dir}, r ∉ destroyedRoles dir ∧ s.Holds r f := by
    intro f
    refine or_congr_right ⟨?_, ?_⟩
    · rintro ⟨i, j, hheld⟩
      exact ⟨.page dir i j, rfl, by simp [destroyedRoles], hheld⟩
    · rintro ⟨r, hr, hkept, hheld⟩
      cases r with
      | directory dir' => exact absurd (Or.inl (congrArg Role.directory (Option.some.inj hr))) hkept
      | kernelTable k => exact absurd hr (by simp [Role.dir])
      | table dir' k =>
        exact absurd (Or.inr ⟨k, congrArg (Role.table · k) (Option.some.inj hr)⟩) hkept
      | page dir' k l =>
        obtain rfl : dir' = dir := Option.some.inj hr
        exact ⟨k, l, hheld⟩
  have hused : ∀ f, (s.destroy dir).Used f ↔ s.Used f ∧ ¬ ∃ r ∈ destroyedRoles dir, s.Holds r f := by
    intro f
    have hfreed : (∃ r ∈ destroyedRoles dir, s.Holds r f) ↔ f = Pmm.frameOf dir ∨
        ∃ i < 1024, pdEntryIsPresent ((s.machine.clearKernelSpace dir).entry dir i) = true ∧
          f = Pmm.frameOf ((s.machine.clearKernelSpace dir).entry dir i) := by
      constructor
      · rintro ⟨r, rfl | ⟨i, rfl⟩, hheld⟩
        · exact Or.inl hheld.2
        · obtain ⟨_, hi, hslot, hpresent, hf⟩ := hheld
          refine Or.inr ⟨i, hi, (present_clearKernelSpace i).mpr ⟨hslot, hpresent⟩, ?_⟩
          rw [entry_clearKernelSpace, if_neg (fun h => hslot h.2)]
          exact hf
      · rintro (hf | ⟨i, hi, hpresent, hf⟩)
        · exact ⟨.directory dir, Or.inl rfl, hdir, hf⟩
        · obtain ⟨hslot, hpresent'⟩ := (present_clearKernelSpace i).mp hpresent
          rw [entry_clearKernelSpace, if_neg (fun h => hslot h.2)] at hf
          exact ⟨.table dir i, Or.inr ⟨i, rfl⟩, hdir, hi, hslot, hpresent', hf⟩
    rw [hfreed]
    show (Pmm.pmmngrFreeBlock _ dir).mmapTest f = true ↔ _
    rw [used_freeBlock _ _ rfl, mmapTest_freeTables]
    show (s.Used f ∧ _) ∧ _ ↔ _
    rw [and_assoc, ← not_or, or_comm]
  have hbalanced := h.balanced.close {r : Role | r.dir = some dir} (destroyedRoles dir)
    (by rintro r (rfl | ⟨i, rfl⟩) <;> rfl) hholds hspare hused
  have hmax : (s.destroy dir).machine.pmm.maxBlocks = s.machine.pmm.maxBlocks := by
    show (Pmm.pmmngrFreeBlock _ dir).maxBlocks = _
    rw [Pmm.pmmngrFreeBlock, Pmm.releaseRun_maxBlocks]
    exact Machine.freeTables_maxBlocks _ _ _
  refine ⟨⟨hbalanced, Or.inl h.zero, ⟨h.current, hcur.symm⟩, fun dir' hdir' => h.aligned dir' hdir'.1,
    fun dir' hdir' k hk => ?_, ?_⟩, rfl, fun f => Iff.rfl, fun r f hr => ?_⟩
  · rw [hcurEntry, hentry dir' hdir'.1 hdir'.2]
    exact h.shared dir' hdir'.1 k hk
  · rw [Pmm.searchWords, Pmm.pmmngrGetBlockCount, hmax]
    exact h.search
  · rw [hholds]
    exact and_iff_left hr

end Owned

/-! ### Runs -/

/-- The calls on address spaces, with the change of the current directory that processes make between
them. -/
inductive Op
  | create
  | allocVirt (dir virt pdeFlags pteFlags : BitVec 32)
  | freeVirt (dir virt : BitVec 32)
  | destroy (dir : BitVec 32)
  | switchTo (dir : BitVec 32)

def apply (s : Spaces) : Op → Spaces
  | .create => s.create
  | .allocVirt dir virt pdeFlags pteFlags =>
    { s with machine := s.machine.vmmngrAllocVirt dir virt pdeFlags pteFlags }
  | .freeVirt dir virt => { s with machine := s.machine.vmmngrFreeVirt dir virt }
  | .destroy dir => s.destroy dir
  | .switchTo dir => { s with machine := s.machine.vmmngrSwitchPdirectory dir }

/-- Calls name existing directories and user addresses, and their flags are attributes. The current directory
is not destroyed: `createProcess` switches back before it does, and `scheduler_dispatch` checks. -/
def Allowed (s : Spaces) : Op → Prop
  | .create => True
  | .allocVirt dir virt pdeFlags pteFlags =>
    dir ∈ s.live ∧ UserAddress virt ∧ pdeFlags.toNat < 4096 ∧ pteFlags.toNat < 4096
  | .freeVirt dir virt => dir ∈ s.live ∧ UserAddress virt
  | .destroy dir => dir ∈ s.live ∧ dir ≠ s.machine.curDirectory
  | .switchTo dir => dir ∈ s.live

def Step (s : Spaces) (op : Op) (t : Spaces) : Prop := s.Allowed op ∧ t = s.apply op

/-- The call works on the pages of this directory. -/
def Op.PagesOf (dir : BitVec 32) : Op → Prop
  | .allocVirt dir' _ _ _ => dir' = dir
  | .freeVirt dir' _ => dir' = dir
  | .switchTo _ => True
  | _ => False

/-- Every page of the directory was freed. -/
def NoPages (s : Spaces) (dir : BitVec 32) : Prop := ∀ i j frame, ¬ s.Holds (.page dir i j) frame

/-- A frame that is in use for something else than the directory. -/
def Foreign (s : Spaces) (dir : BitVec 32) (frame : Nat) : Prop :=
  frame ∈ s.spare ∨ ∃ r : Role, r.dir ≠ some dir ∧ s.Holds r frame

/-- A machine with one directory, whose tables are marked used, each in a frame of its own, and which has no
table for user addresses yet. Frame 0 is always marked used. -/
structure KernelReady (m : Machine) : Prop where
  aligned : BitVec.ofNat 32 (Pmm.frameOf m.curDirectory) * Pmm.blockSize = m.curDirectory
  search : 32 * m.pmm.searchWords ≤ 2 ^ 20
  zero : m.pmm.mmapTest 0 = true
  directory : m.pmm.mmapTest (Pmm.frameOf m.curDirectory) = true ∧ Pmm.frameOf m.curDirectory ≠ 0
  tables : ∀ i < 1024, pdEntryIsPresent (m.entry m.curDirectory i) = true →
    m.pmm.mmapTest (Pmm.frameOf (m.entry m.curDirectory i)) = true ∧
      Pmm.frameOf (m.entry m.curDirectory i) ≠ 0 ∧
      Pmm.frameOf (m.entry m.curDirectory i) ≠ Pmm.frameOf m.curDirectory
  distinct : ∀ i < 1024, ∀ k < 1024, pdEntryIsPresent (m.entry m.curDirectory i) = true →
    pdEntryIsPresent (m.entry m.curDirectory k) = true →
    Pmm.frameOf (m.entry m.curDirectory i) = Pmm.frameOf (m.entry m.curDirectory k) → i = k
  user : ∀ i, UserSlot i → pdEntryIsPresent (m.entry m.curDirectory i) = false

/-- The state the runs start in. What is in use without a role is reserved. -/
def start (m : Machine) : Spaces where
  machine := m
  live := {m.curDirectory}
  spare := {frame | m.pmm.mmapTest frame = true ∧ ∀ r, ¬ Holds ⟨m, {m.curDirectory}, ∅⟩ r frame}

theorem SharedSlot.lt {i : Nat} (h : SharedSlot i) : i < 1024 := by
  unfold SharedSlot at h
  omega

section Start

variable {m : Machine}

/-- The roles at the start are the directory and its tables. -/
theorem holds_start (hready : KernelReady m) {r : Role} {frame : Nat} (h : (start m).Holds r frame) :
    (r = .directory m.curDirectory ∧ frame = Pmm.frameOf m.curDirectory) ∨
    ∃ i < 1024, pdEntryIsPresent (m.entry m.curDirectory i) = true ∧
      frame = Pmm.frameOf (m.entry m.curDirectory i) ∧
      r = if SharedSlot i then .kernelTable i else .table m.curDirectory i := by
  cases r with
  | directory dir =>
    obtain ⟨hlive, hframe⟩ := h
    obtain rfl : dir = m.curDirectory := hlive
    exact Or.inl ⟨rfl, hframe⟩
  | kernelTable i =>
    obtain ⟨hi, hpresent, hframe⟩ := h
    exact Or.inr ⟨i, SharedSlot.lt hi, hpresent, hframe, (if_pos hi).symm⟩
  | table dir i =>
    obtain ⟨hlive, hi, hslot, hpresent, hframe⟩ := h
    obtain rfl : dir = m.curDirectory := hlive
    exact Or.inr ⟨i, hi, hpresent, hframe, (if_neg hslot).symm⟩
  | page dir i j =>
    obtain ⟨hlive, hi, _, hpresent, _⟩ := h
    obtain rfl : dir = m.curDirectory := hlive
    exact absurd hpresent (by rw [show (start m).machine = m from rfl, hready.user i hi]; decide)

theorem owned_start (hready : KernelReady m) : (start m).Owned where
  balanced := by
    refine ⟨fun {r r' frame} h h' => ?_, fun {r frame} hspare h => hspare.2 r h, fun frame => ⟨fun hused => ?_, ?_⟩⟩
    · rcases holds_start hready h with ⟨rfl, hframe⟩ | ⟨i, hi, hpresent, hframe, rfl⟩ <;>
        rcases holds_start hready h' with ⟨rfl, hframe'⟩ | ⟨k, hk, hpresent', hframe', rfl⟩
      · rfl
      · exact absurd (hframe'.symm.trans hframe) (hready.tables k hk hpresent').2.2
      · exact absurd (hframe.symm.trans hframe') (hready.tables i hi hpresent).2.2
      · rw [hready.distinct i hi k hk hpresent hpresent' (hframe.symm.trans hframe')]
    · by_cases hheld : ∃ r, (start m).Holds r frame
      · exact Or.inr hheld
      · exact Or.inl ⟨hused, fun r hr => hheld ⟨r, hr⟩⟩
    · rintro (hspare | ⟨r, hr⟩)
      · exact hspare.1
      · rcases holds_start hready hr with ⟨_, rfl⟩ | ⟨i, hi, hpresent, rfl, _⟩
        · exact hready.directory.1
        · exact (hready.tables i hi hpresent).1
  zero := by
    refine ⟨hready.zero, fun r hr => ?_⟩
    rcases holds_start hready hr with ⟨_, hframe⟩ | ⟨i, hi, hpresent, hframe, _⟩
    · exact hready.directory.2 hframe.symm
    · exact (hready.tables i hi hpresent).2.1 hframe.symm
  current := rfl
  aligned dir hdir := by
    obtain rfl : dir = m.curDirectory := hdir
    exact hready.aligned
  shared dir hdir i _ := by
    obtain rfl : dir = m.curDirectory := hdir
    rfl
  search := hready.search

end Start

/-! ### One call, and every run -/

section Step

variable {s t u v : Spaces} {dir : BitVec 32}

theorem holds_switchTo (h : s.Owned) (hdir : dir ∈ s.live) (r : Role) (frame : Nat) :
    (s.apply (.switchTo dir)).Holds r frame ↔ s.Holds r frame := by
  have hswitch : s.machine.vmmngrSwitchPdirectory dir = { s.machine with curDirectory := dir } :=
    if_neg (h.dir_ne_zero hdir)
  unfold Spaces.apply
  dsimp only
  rw [hswitch]
  cases r with
  | kernelTable k =>
    simp only [Holds]
    refine and_congr_right fun hk => ?_
    rw [← h.shared dir hdir k hk]
    rfl
  | _ => exact Iff.rfl

theorem Owned.switchTo (h : s.Owned) (hdir : dir ∈ s.live) : (s.apply (.switchTo dir)).Owned := by
  have hbalanced := h.balanced.congr (holds_switchTo h hdir) (fun f => Iff.rfl)
  have hswitch : s.machine.vmmngrSwitchPdirectory dir = { s.machine with curDirectory := dir } :=
    if_neg (h.dir_ne_zero hdir)
  unfold Spaces.apply at hbalanced ⊢
  dsimp only at hbalanced ⊢
  rw [hswitch] at hbalanced ⊢
  exact ⟨hbalanced, h.zero, hdir, h.aligned,
    fun dir' hdir' i hi => (h.shared dir' hdir' i hi).trans (h.shared dir hdir i hi).symm, h.search⟩

/-- Every call keeps the invariant. -/
theorem Owned.step {op : Op} (h : s.Owned) (hstep : Step s op t) : t.Owned := by
  obtain ⟨hallowed, rfl⟩ := hstep
  cases op with
  | create => exact h.create.owned
  | allocVirt dir virt pdeFlags pteFlags =>
    obtain ⟨hdir, hvirt, hpde, hpte⟩ := hallowed
    exact (h.allocVirt hdir hvirt hpde hpte).owned
  | freeVirt dir virt => exact (h.freeVirt hallowed.1 hallowed.2).owned
  | destroy dir => exact (h.destroy hallowed.1 hallowed.2).owned
  | switchTo dir => exact h.switchTo hallowed

/-- A call on the pages of a directory changes nothing that is in use for something else. -/
theorem foreign_of_pagesOf {op : Op} (h : s.Owned) (hstep : Step s op t) (hop : op.PagesOf dir)
    (frame : Nat) : t.Foreign dir frame ↔ s.Foreign dir frame := by
  have hfollows : ∀ {t : Spaces}, Follows dir s t → (t.Foreign dir frame ↔ s.Foreign dir frame) := by
    intro t hf
    unfold Foreign
    rw [hf.spare]
    exact or_congr_right (exists_congr fun r => and_congr_right fun hr => hf.others r frame hr)
  obtain ⟨hallowed, rfl⟩ := hstep
  cases op with
  | create => exact absurd hop not_false
  | allocVirt dir' virt pdeFlags pteFlags =>
    obtain rfl : dir' = dir := hop
    obtain ⟨hdir, hvirt, hpde, hpte⟩ := hallowed
    exact hfollows (h.allocVirt hdir hvirt hpde hpte)
  | freeVirt dir' virt =>
    obtain rfl : dir' = dir := hop
    exact hfollows (h.freeVirt hallowed.1 hallowed.2)
  | destroy dir' => exact absurd hop not_false
  | switchTo dir' =>
    exact or_congr_right (exists_congr fun r => and_congr_right fun _ => holds_switchTo h hallowed r frame)

theorem foreign_of_pagesOf_run {ops : List Op} (h : s.Owned) (hrun : Transition.Run Step s ops t)
    (hops : ∀ op ∈ ops, op.PagesOf dir) (frame : Nat) : t.Foreign dir frame ↔ s.Foreign dir frame := by
  induction hrun with
  | nil _ => exact Iff.rfl
  | cons hstep _ ih =>
    rw [ih (h.step hstep) fun op hop => hops op (List.mem_cons_of_mem _ hop)]
    exact foreign_of_pagesOf h hstep (hops _ List.mem_cons_self) frame

/-- What is not foreign to a directory that does not exist is not in use. -/
theorem used_iff_foreign (h : s.Owned) (hdir : dir ∉ s.live) (frame : Nat) :
    s.Used frame ↔ s.Foreign dir frame := by
  rw [h.balanced.used_iff]
  refine or_congr_right (exists_congr fun r => (and_iff_right_of_imp fun hr heq => ?_).symm)
  cases r with
  | kernelTable i => exact absurd heq (by simp [Role.dir])
  | directory dir' => exact hdir (Option.some.inj heq ▸ hr.1)
  | table dir' i => exact hdir (Option.some.inj heq ▸ hr.1)
  | page dir' i j => exact hdir (Option.some.inj heq ▸ hr.1)

theorem foreign_create (h : s.Owned) (frame : Nat) :
    s.create.Foreign s.machine.createAddressSpace.1 frame ↔
      s.Foreign s.machine.createAddressSpace.1 frame := by
  have hcreated := h.create
  unfold Foreign
  rw [hcreated.spare]
  exact or_congr_right (exists_congr fun r => and_congr_right fun hr => hcreated.others r frame hr)

theorem foreign_destroy (h : s.Owned) (hallowed : s.Allowed (.destroy dir)) (hpages : s.NoPages dir)
    (frame : Nat) : (s.destroy dir).Foreign dir frame ↔ s.Foreign dir frame := by
  have hdestroyed := h.destroy hallowed.1 hallowed.2
  have hspare : frame ∈ (s.destroy dir).spare ↔ frame ∈ s.spare := by
    rw [hdestroyed.spare]
    refine or_iff_left fun h => ?_
    obtain ⟨i, j, hheld⟩ := h
    exact hpages i j frame hheld
  unfold Foreign
  rw [hspare]
  exact or_congr_right (exists_congr fun r => and_congr_right fun hr => hdestroyed.others r frame hr)

/-- A directory that lost all its pages leaves no trace in the frame map. -/
theorem used_of_create_destroy (h : s.Owned) (hv : v.Owned)
    (hallowed : v.Allowed (.destroy s.machine.createAddressSpace.1))
    (hpages : v.NoPages s.machine.createAddressSpace.1)
    (hforeign : ∀ frame, v.Foreign s.machine.createAddressSpace.1 frame ↔
      s.Foreign s.machine.createAddressSpace.1 frame) (frame : Nat) :
    (v.destroy s.machine.createAddressSpace.1).Used frame ↔ s.Used frame := by
  have hdestroyed := hv.destroy hallowed.1 hallowed.2
  have hgone : s.machine.createAddressSpace.1 ∉ (v.destroy s.machine.createAddressSpace.1).live :=
    fun hlive => hlive.2 rfl
  rw [used_iff_foreign hdestroyed.owned hgone, foreign_destroy hv hallowed hpages, hforeign,
    ← used_iff_foreign h h.create.fresh]

end Step

/-- A machine with a directory in frame 1 and two of the kernel's tables in frames 2 and 3. -/
def twoTables : Machine where
  pmm :=
    { memorySize := 256#32, usedBlocks := 4#32, maxBlocks := 64#32,
      memoryMap := fun w => if w = 0 then 0xF#32 else 0#32 }
  memory w := if w = (1, 0) then 0x2003#32 else if w = (1, 768) then 0x3003#32 else 0#32
  curDirectory := 0x1000#32

theorem kernelReady_twoTables : KernelReady twoTables := by
  have hentry : ∀ i, pdEntryIsPresent (twoTables.entry twoTables.curDirectory i) = true →
      i = 0 ∨ i = 768 := by
    intro i hpresent
    by_contra hne
    have hzero : twoTables.entry twoTables.curDirectory i = 0#32 := by
      unfold Machine.entry twoTables
      simp only [Prod.mk.injEq]
      rw [if_neg (fun h => hne (Or.inl h.2)), if_neg (fun h => hne (Or.inr h.2))]
    rw [hzero] at hpresent
    exact absurd hpresent (by decide)
  refine ⟨by decide, by decide, by decide, by decide, fun i _ hi => ?_, fun i _ k _ hi hk heq => ?_,
    fun i hi => ?_⟩
  · rcases hentry i hi with rfl | rfl <;> decide
  · rcases hentry i hi with rfl | rfl <;> rcases hentry k hk with rfl | rfl <;>
      first | rfl | exact absurd heq (by decide)
  · by_contra hpresent
    have hslot := hentry i (by simpa using hpresent)
    unfold UserSlot at hi
    omega

end Akos.Spaces
