import Akos.Memory.PageFrames

/-!
# Directories with tables of their own

Directories are made and destroyed, and memory is written in frames that are not directories or tables. The tables
stay apart, and the words of pages are kept.
-/

namespace Akos.Directories

variable {s t : Directories} {m : Machine} {dir virt : BitVec 32} {virts : List (BitVec 32)} {frame : Nat}

/-- The frames in use that are not directories or tables stay so, and what pages are mapped to. -/
structure Leaves (s t : Directories) : Prop where
  separate : t.Separate
  used : ∀ frame, s.Used frame → ¬ s.Holds (· < 1024) frame → t.Used frame
  holds : ∀ frame, s.Used frame → t.Holds (· < 1024) frame → s.Holds (· < 1024) frame
  words : ∀ dir ∈ s.live, dir ∈ t.live → ∀ virt, t.machine.pageWord dir virt = s.machine.pageWord dir virt

theorem Backs.leaves (h : s.Backs dir virts) (ht : Leaves s t) (hdir : dir ∈ s.live) (hdir' : dir ∈ t.live) :
    t.Backs dir virts :=
  h.of_kept (fun v _ => ht.words dir hdir hdir' v) (fun v hv => ht.used _ (h.used v hv) (h.plain v hv))
    fun v hv hholds => h.plain v hv (ht.holds _ (h.used v hv) hholds)

namespace Separate

/-- A page keeps its word with the words of its directory and of its tables. -/
theorem pageWord_of_kept (h : s.Separate) (hdir : dir ∈ s.live)
    (hentries : ∀ i, m.entry dir i = s.machine.entry dir i)
    (htables : ∀ i < 1024, pdEntryIsPresent (s.machine.entry dir i) = true → ∀ k,
      m.memory (Pmm.frameOf (s.machine.entry dir i), k) = s.machine.memory (Pmm.frameOf (s.machine.entry dir i), k))
    (virt : BitVec 32) : m.pageWord dir virt = s.machine.pageWord dir virt := by
  have hword : m.tableWord dir virt = s.machine.tableWord dir virt := by
    rw [Machine.tableWord, hentries, Machine.tableWord]
  rw [h.pageWord_eq hdir m, h.pageWord_eq hdir s.machine, hentries, hword]
  split
  · next hpresent =>
    rw [h.tableWord_eq hdir hpresent]
    exact htables _ (pageDirectoryIndex_lt virt) hpresent _
  · rfl

/-- A word is written in a frame that is not a directory or a table. -/
theorem store_plain (h : s.Separate) {w : Word} (hplain : ¬ s.Holds (· < 1024) w.1) (value : BitVec 32) :
    Enlarges s (s.machine.store w value) ∧
      ∀ dir ∈ s.live, ∀ virt, (s.machine.store w value).pageWord dir virt = s.machine.pageWord dir virt := by
  have hentries : ∀ dir ∈ s.live, ∀ i, (s.machine.store w value).entry dir i = s.machine.entry dir i :=
    fun dir hdir i => Machine.entry_store_of_ne _ (fun heq => hplain (by rw [← heq]; exact holds_dir hdir)) _
  refine ⟨.of_entries h (h.store value fun dir hdir heq => hplain (heq ▸ holds_dir hdir)) (fun _ hused => hused)
    hentries, fun dir hdir virt => h.pageWord_of_kept hdir (hentries dir hdir) (fun i hi hpresent k => ?_) virt⟩
  exact Function.update_of_ne (fun heq => hplain (by rw [← heq]; exact holds_table hdir hi hpresent)) _ _

/-- A table of a directory and the one that another entry refers to are the same only behind the kernel's entries. -/
theorem insert_dir (h : s.Separate) {p : BitVec 32} (hp : Pmm.frameOf p ≠ 0) (hused : s.Used (Pmm.frameOf p))
    (hfresh : ¬ s.Holds (· < 1024) (Pmm.frameOf p))
    (hshared : ∀ i, SharedSlot i → s.machine.entry p i = s.machine.entry s.machine.curDirectory i)
    (hclear : ∀ i < 1024, ¬ SharedSlot i → pdEntryIsPresent (s.machine.entry p i) = false) :
    Separate { s with live := insert p s.live } ∧
      ∀ frame, frame ≠ Pmm.frameOf p → Holds (· < 1024) { s with live := insert p s.live } frame →
        s.Holds (· < 1024) frame := by
  -- a table of the new directory is one of the current directory
  have htable : ∀ dir ∈ insert p s.live, ∀ i < 1024, pdEntryIsPresent (s.machine.entry dir i) = true →
      ∃ dir' ∈ s.live, s.machine.entry dir i = s.machine.entry dir' i ∧ (dir = dir' ∨ SharedSlot i) := by
    intro dir hdir i hi hpresent
    rcases hdir with heq | hdir
    · obtain rfl := heq
      by_cases hslot : SharedSlot i
      · exact ⟨_, h.current, hshared i hslot, .inr hslot⟩
      · rw [hclear i hi hslot] at hpresent
        cases hpresent
    · exact ⟨dir, hdir, rfl, .inl rfl⟩
  have hframe : ∀ dir ∈ insert p s.live, ∀ i < 1024, pdEntryIsPresent (s.machine.entry dir i) = true →
      s.Holds (· < 1024) (Pmm.frameOf (s.machine.entry dir i)) := by
    intro dir hdir i hi hpresent
    obtain ⟨dir', hdir', heq, -⟩ := htable dir hdir i hi hpresent
    rw [heq] at hpresent ⊢
    exact holds_table hdir' hi hpresent
  have hdirs : ∀ dir ∈ s.live, Pmm.frameOf dir ≠ Pmm.frameOf p := fun dir hdir heq => hfresh (heq ▸ holds_dir hdir)
  refine ⟨⟨⟨h.search, .inr h.current, ?_, ?_, ?_⟩, ?_, ?_, ?_⟩, ?_⟩
  · intro dir hdir
    rcases hdir with heq | hdir
    · rw [heq]
      exact hp
    · exact h.ne_zero dir hdir
  · intro frame hholds
    obtain ⟨dir, hdir, hframe'⟩ | ⟨dir, hdir, i, hi, hpresent, hframe'⟩ := hholds
    · rw [hframe']
      rcases hdir with heq | hdir
      · rw [heq]
        exact hused
      · exact h.used _ (holds_dir hdir)
    · rw [hframe']
      exact h.used _ (hframe dir hdir i hi hpresent)
  · intro dir hdir i hi hpresent dir' hdir'
    rcases hdir' with heq | hdir'
    · rw [heq]
      exact fun hsame => hfresh (hsame ▸ hframe dir hdir i hi hpresent)
    · obtain ⟨dir'', hdir'', heq, -⟩ := htable dir hdir i hi hpresent
      have hpresent' : pdEntryIsPresent (s.machine.entry dir'' i) = true := heq ▸ hpresent
      show Pmm.frameOf (s.machine.entry dir i) ≠ Pmm.frameOf dir'
      rw [heq]
      exact h.apart dir'' hdir'' i hi hpresent' dir' hdir'
  · intro dir hdir dir' hdir' hsame
    rcases hdir with heq | hdir
    · rcases hdir' with heq' | hdir'
      · rw [heq, heq']
      · exact absurd (hsame.symm.trans (by rw [heq])) (hdirs dir' hdir')
    · rcases hdir' with heq' | hdir'
      · exact absurd (hsame.trans (by rw [heq'])) (hdirs dir hdir)
      · exact h.aligned dir hdir dir' hdir' hsame
  · intro dir hdir i hi hpresent
    obtain ⟨dir', hdir', heq, -⟩ := htable dir hdir i hi hpresent
    have hpresent' : pdEntryIsPresent (s.machine.entry dir' i) = true := heq ▸ hpresent
    show Pmm.frameOf (s.machine.entry dir i) ≠ 0
    rw [heq]
    exact h.table_ne_zero dir' hdir' i hi hpresent'
  · intro dir hdir dir' hdir' i hi j hj hpresent hpresent' hsame
    obtain ⟨dir₁, hdir₁, heq, hor⟩ := htable dir hdir i hi hpresent
    obtain ⟨dir₂, hdir₂, heq', hor'⟩ := htable dir' hdir' j hj hpresent'
    have hsame' : Pmm.frameOf (s.machine.entry dir₁ i) = Pmm.frameOf (s.machine.entry dir₂ j) := by
      rw [← heq, ← heq']
      exact hsame
    obtain ⟨rfl, hshared'⟩ := h.own dir₁ hdir₁ dir₂ hdir₂ i hi j hj (heq ▸ hpresent) (heq' ▸ hpresent') hsame'
    refine ⟨rfl, ?_⟩
    rcases hor with rfl | hslot
    · rcases hor' with rfl | hslot
      · exact hshared'
      · exact .inr hslot
    · exact .inr hslot
  · intro frame hne hholds
    obtain ⟨dir, hdir, hframe'⟩ | ⟨dir, hdir, i, hi, hpresent, hframe'⟩ := hholds
    · rw [hframe']
      rcases hdir with heq | hdir
      · exact absurd (hframe'.trans (by rw [heq])) hne
      · exact holds_dir hdir
    · rw [hframe']
      exact hframe dir hdir i hi hpresent

/-- The current directory changes. -/
theorem setCurrent (h : s.Separate) (hdir : dir ∈ s.live) :
    Separate { s with machine := { s.machine with curDirectory := dir } } :=
  { h with current := hdir }

end Separate

/-! ### Directories are made -/

theorem Separate.create (h : s.Separate) :
    Leaves s s.create ∧ s.create.machine.curDirectory = s.machine.curDirectory ∧
      ∀ dir ∈ s.live, dir ∈ s.create.live := by
  obtain ⟨p, pmm, heq, hmax, hgrow, hnew⟩ := Apart.allocBlock_cases h.search
  have hholds : ∀ frame, s.Holds (· < 1024) frame → pmm.mmapTest frame = true :=
    fun frame hframe => hgrow frame (h.used frame hframe)
  -- frame 0, or a frame that was not in use, is written
  have hkept : ∀ m : Machine, m.curDirectory = s.machine.curDirectory → m.pmm = pmm →
      (∀ frame, s.Holds (· < 1024) frame → ∀ k, m.memory (frame, k) = s.machine.memory (frame, k)) →
      Enlarges s m ∧ ∀ dir ∈ s.live, ∀ virt, m.pageWord dir virt = s.machine.pageWord dir virt := by
    intro m hcur hpmm hmemory
    have hentries : ∀ dir ∈ s.live, ∀ i, m.entry dir i = s.machine.entry dir i := fun dir hdir i =>
      hmemory _ (holds_dir hdir) i
    have hfollows : Follows (· < 1024) s m := h.of_enters hcur (by rw [hpmm]; exact hmax)
      (by rw [hpmm]; exact hholds) fun dir hdir i => .inl (by rw [hentries dir hdir]; exact ⟨rfl, rfl⟩)
    refine ⟨.of_entries h hfollows (by rw [hpmm]; exact hgrow) hentries, fun dir hdir => ?_⟩
    exact h.pageWord_of_kept hdir (hentries dir hdir) fun i hi hpresent k => hmemory _ (holds_table hdir hi hpresent) k
  unfold Directories.create Machine.createAddressSpace Machine.vmmngrCreatePdir
  rw [heq]
  dsimp only
  by_cases hp : p = 0#32
  · rw [if_pos hp]
    dsimp only
    rw [if_pos rfl]
    obtain ⟨henlarges, hwords⟩ := hkept (Machine.cloneKernelSpace { s.machine with pmm } 0#32) rfl rfl
      fun frame hframe k => by
        rw [Spaces.cloneKernelSpace_memory, if_neg]
        intro hzero
        obtain ⟨dir, hdir, hsame⟩ | ⟨dir, hdir, i, hi, hpresent, hsame⟩ := hframe
        · exact h.ne_zero dir hdir (hsame.symm.trans hzero.1)
        · exact h.table_ne_zero dir hdir i hi hpresent (hsame.symm.trans hzero.1)
    exact ⟨⟨henlarges.separate, fun frame hused _ => henlarges.grows frame hused, henlarges.holds,
      fun dir hdir _ => hwords dir hdir⟩, rfl, fun _ hdir => hdir⟩
  · rw [if_neg hp]
    dsimp only
    rw [if_neg hp]
    obtain ⟨hzero, hunused, hused⟩ := hnew hp
    have hne : ∀ frame, s.Holds (· < 1024) frame → frame ≠ Pmm.frameOf p := fun frame hframe hsame =>
      hunused (hsame ▸ h.used frame hframe)
    generalize hm : Machine.cloneKernelSpace _ _ = m
    have hmemory : ∀ w, m.memory w = if w.1 = Pmm.frameOf p ∧ SharedSlot w.2 then
        s.machine.memory (Pmm.frameOf s.machine.curDirectory, w.2)
        else if w.1 = Pmm.frameOf p ∧ w.2 < 1024 then 0#32 else s.machine.memory w := by
      intro w
      rw [← hm, Spaces.cloneKernelSpace_memory]
      simp [Machine.vmmngrPdirectoryClear, Machine.clearWords, hne _ (holds_dir h.current)]
    have hcur : m.curDirectory = s.machine.curDirectory := by rw [← hm]; rfl
    have hpmm : m.pmm = pmm := by rw [← hm]; rfl
    obtain ⟨henlarges, hwords⟩ := hkept m hcur hpmm fun frame hframe k => by
      rw [hmemory, if_neg fun hout => hne frame hframe hout.1, if_neg fun hout => hne frame hframe hout.1]
    have hcurrent : m.entry m.curDirectory = s.machine.entry s.machine.curDirectory := by
      funext i
      rw [hcur, Machine.entry, hmemory, if_neg fun hout => hne _ (holds_dir h.current) hout.1,
        if_neg fun hout => hne _ (holds_dir h.current) hout.1]
      rfl
    have hfresh : ¬ Holds (· < 1024) { s with machine := m } (Pmm.frameOf p) := by
      intro hframe
      obtain ⟨dir, hdir, hsame⟩ | ⟨dir, hdir, i, hi, hpresent, hsame⟩ := hframe
      · exact hne _ (holds_dir hdir) hsame.symm
      · have hentry : m.entry dir i = s.machine.entry dir i := by
          rw [Machine.entry, hmemory, if_neg fun hout => hne _ (holds_dir hdir) hout.1,
            if_neg fun hout => hne _ (holds_dir hdir) hout.1]
          rfl
        rw [show Machine.entry _ dir i = _ from hentry] at hpresent hsame
        exact hne _ (holds_table hdir hi hpresent) hsame.symm
    have hsaved : Used { s with machine := m } (Pmm.frameOf p) := by
      rw [Used, hpmm]
      exact hused
    obtain ⟨hseparate, hold⟩ := henlarges.separate.insert_dir hzero hsaved hfresh
      (fun i hi => by
        show m.entry p i = m.entry m.curDirectory i
        rw [hcurrent, Machine.entry, hmemory, if_pos ⟨rfl, hi⟩]
        rfl)
      (fun i hi hslot => by
        show pdEntryIsPresent (m.entry p i) = false
        rw [Machine.entry, hmemory, if_neg fun hout => hslot hout.2, if_pos ⟨rfl, hi⟩]
        rfl)
    refine ⟨⟨hseparate, fun frame hframe _ => henlarges.grows frame hframe, fun frame hframe hholds' => ?_,
      fun dir hdir _ => hwords dir hdir⟩, hcur, fun _ hdir => .inr hdir⟩
    refine henlarges.holds frame hframe (hold frame ?_ hholds')
    rintro rfl
    exact hunused hframe

/-! ### Directories are destroyed -/

/-- The state after `clear_kernel_space` and `vmmngr_free_pdir`. -/
def destroy (s : Directories) (dir : BitVec 32) : Directories where
  machine := (s.machine.clearKernelSpace dir).vmmngrFreePdir dir
  live := s.live \ {dir}

theorem entry_destroy (h : s.Separate) (hdir : dir ∈ s.live) {dir' : BitVec 32} (hdir' : dir' ∈ (s.destroy dir).live)
    (i : Nat) : (s.destroy dir).machine.entry dir' i = s.machine.entry dir' i := by
  have hne : Pmm.frameOf dir' ≠ Pmm.frameOf dir := fun hsame => hdir'.2 (h.aligned dir' hdir'.1 dir hdir hsame)
  show (s.machine.clearKernelSpace dir).memory (Pmm.frameOf dir', i) = _
  rw [Spaces.clearKernelSpace_memory, if_neg fun hout => hne hout.1]
  rfl

/-- The frames given back are the directory and the tables that only it has. -/
theorem used_destroy (dir : BitVec 32) {frame : Nat} (hused : s.Used frame) (hne : frame ≠ Pmm.frameOf dir)
    (htables : ∀ i < 1024, ¬ SharedSlot i → pdEntryIsPresent (s.machine.entry dir i) = true →
      frame ≠ Pmm.frameOf (s.machine.entry dir i)) : (s.destroy dir).Used frame := by
  refine (Spaces.used_freeBlock _ dir rfl frame).mpr ⟨?_, hne⟩
  rw [Spaces.mmapTest_freeTables]
  refine ⟨hused, fun hfreed => ?_⟩
  obtain ⟨i, hi, hpresent, hsame⟩ := hfreed
  rw [Spaces.Owned.entry_clearKernelSpace] at hpresent hsame
  by_cases hslot : SharedSlot i
  · rw [if_pos ⟨rfl, hslot⟩] at hpresent
    cases hpresent
  · rw [if_neg fun hout => hslot hout.2] at hpresent hsame
    exact htables i hi hslot hpresent hsame

theorem Separate.destroy (h : s.Separate) (hdir : dir ∈ s.live) (hcur : dir ≠ s.machine.curDirectory) :
    Leaves s (s.destroy dir) := by
  have hentry : ∀ dir' ∈ (s.destroy dir).live, ∀ i,
      (s.destroy dir).machine.entry dir' i = s.machine.entry dir' i := fun dir' hdir' i => entry_destroy h hdir hdir' i
  have hframes : ∀ dir' ∈ (s.destroy dir).live, Pmm.frameOf dir' ≠ Pmm.frameOf dir := fun dir' hdir' hsame =>
    hdir'.2 (h.aligned dir' hdir'.1 dir hdir hsame)
  have hholds : ∀ frame, (s.destroy dir).Holds (· < 1024) frame → s.Holds (· < 1024) frame := by
    intro frame hframe
    obtain ⟨dir', hdir', hsame⟩ | ⟨dir', hdir', i, hi, hpresent, hsame⟩ := hframe
    · exact .inl ⟨dir', hdir'.1, hsame⟩
    · rw [hentry dir' hdir' i] at hpresent hsame
      exact .inr ⟨dir', hdir'.1, i, hi, hpresent, hsame⟩
  have hused : ∀ frame, (s.destroy dir).Holds (· < 1024) frame → (s.destroy dir).Used frame := by
    intro frame hframe
    refine used_destroy dir (h.used frame (hholds frame hframe)) ?_ ?_
    · obtain ⟨dir', hdir', hsame⟩ | ⟨dir', hdir', i, hi, hpresent, hsame⟩ := hframe
      · rw [hsame]
        exact hframes dir' hdir'
      · rw [hentry dir' hdir' i] at hpresent hsame
        rw [hsame]
        exact h.apart dir' hdir'.1 i hi hpresent dir hdir
    · intro j hj hslot hfreed hsame'
      obtain ⟨dir', hdir', hsame⟩ | ⟨dir', hdir', i, hi, hpresent, hsame⟩ := hframe
      · exact h.apart dir hdir j hj hfreed dir' hdir'.1 (hsame'.symm.trans hsame)
      · rw [hentry dir' hdir' i] at hpresent hsame
        obtain ⟨rfl, heq | hshared⟩ := h.own dir' hdir'.1 dir hdir i hi j hj hpresent hfreed (hsame.symm.trans hsame')
        · exact hdir'.2 heq
        · exact hslot hshared
  refine ⟨⟨⟨?_, ?_, fun dir' hdir' => h.ne_zero dir' hdir'.1, hused, ?_⟩, ?_, ?_, ?_⟩, fun frame hframe hplain => ?_,
    fun frame _ => hholds frame, fun dir' hlive hdir' => ?_⟩
  · show 32 * ((s.machine.clearKernelSpace dir).vmmngrFreePdir dir).pmm.searchWords ≤ 2 ^ 20
    have hmax : ((s.machine.clearKernelSpace dir).vmmngrFreePdir dir).pmm.maxBlocks = s.machine.pmm.maxBlocks :=
      (Machine.freeBlock_maxBlocks _ _).trans (Machine.freeTables_maxBlocks _ _ _)
    rw [Pmm.searchWords, Pmm.pmmngrGetBlockCount, hmax]
    exact h.search
  · exact ⟨h.current, fun heq => hcur heq.symm⟩
  · intro dir' hdir' i hi hpresent dir'' hdir''
    rw [hentry dir' hdir' i] at hpresent ⊢
    exact h.apart dir' hdir'.1 i hi hpresent dir'' hdir''.1
  · exact fun dir' hdir' dir'' hdir'' => h.aligned dir' hdir'.1 dir'' hdir''.1
  · intro dir' hdir' i hi hpresent
    rw [hentry dir' hdir' i] at hpresent ⊢
    exact h.table_ne_zero dir' hdir'.1 i hi hpresent
  · intro dir' hdir' dir'' hdir'' i hi j hj hpresent hpresent' hsame
    rw [hentry dir' hdir' i] at hpresent hsame
    rw [hentry dir'' hdir'' j] at hpresent' hsame
    exact h.own dir' hdir'.1 dir'' hdir''.1 i hi j hj hpresent hpresent' hsame
  · exact used_destroy dir hframe (fun hsame => hplain (hsame ▸ holds_dir hdir)) fun i hi _ hpresent hsame =>
      hplain (hsame ▸ holds_table hdir hi hpresent)
  · refine h.pageWord_of_kept hlive (hentry dir' hdir') fun i hi hpresent k => ?_
    show (s.machine.clearKernelSpace dir).memory _ = _
    rw [Spaces.clearKernelSpace_memory, if_neg fun hout => h.apart dir' hlive i hi hpresent dir hdir hout.1]

end Akos.Directories
