import Akos.Memory.Translation

/-!
# The frames behind pages

Pages of a directory that are mapped to frames of their own. New directories, tables and pages are made from frames
that were not in use, so that such pages are left alone by everything but what gives back or maps over them.
-/

namespace Akos

/-- The frame behind a page. -/
def Machine.frameAt (m : Machine) (dir virt : BitVec 32) : Nat := Pmm.frameOf (m.pageWord dir virt)

/-- The frame is not the one that `vmmngr_free_virt` gives back. -/
def Machine.KeepsFrame (m : Machine) (dir virt : BitVec 32) (frame : Nat) : Prop :=
  ∀ freed, m.Releases dir virt freed → frame ≠ freed

/-- `vmmngr_free_page` changes the word of the page and the use of its frame. -/
theorem Machine.vmmngrFreePage_eq (m : Machine) (w : Word) :
    ∃ pmm, m.vmmngrFreePage w = { m with pmm }.store w (ptEntryDelAttrib (m.memory w) Entry.present) ∧
      ∀ frame, frame ≠ Pmm.frameOf (m.memory w) → m.pmm.mmapTest frame = true → pmm.mmapTest frame = true := by
  rw [vmmngrFreePage]
  split
  · refine ⟨_, rfl, fun frame hne hused => ?_⟩
    exact (Spaces.used_freeBlock m.pmm _ (Entry.frameOf_pfn _) frame).mpr ⟨hused, hne⟩
  · exact ⟨m.pmm, rfl, fun _ _ hused => hused⟩

namespace Directories

variable {s t : Directories} {m m' : Machine} {dir dir' virt : BitVec 32} {virts virts' : List (BitVec 32)}
  {i frame : Nat} {flags pdeFlags : BitVec 32} {w : Word}

/-- Each of the pages is present in a frame of its own, in use, that is not a directory or a table. -/
structure Backs (s : Directories) (dir : BitVec 32) (virts : List (BitVec 32)) : Prop where
  present : ∀ v ∈ virts, ptEntryIsPresent (s.machine.pageWord dir v) = true
  used : ∀ v ∈ virts, s.Used (s.machine.frameAt dir v)
  plain : ∀ v ∈ virts, ¬ s.Holds (· < 1024) (s.machine.frameAt dir v)
  nodup : (virts.map (s.machine.frameAt dir)).Nodup

/-- What is kept, and no frame in use became a directory or a table. -/
structure Enlarges (s : Directories) (m : Machine) : Prop extends Keeps s m where
  holds : ∀ frame, s.Used frame → Holds (· < 1024) { s with machine := m } frame → s.Holds (· < 1024) frame

namespace Enlarges

theorem refl (h : s.Separate) : Enlarges s s.machine := ⟨.refl h, fun _ _ hholds => hholds⟩

theorem trans (hm : Enlarges s m) (hm' : Enlarges { s with machine := m } m') : Enlarges s m' where
  toKeeps := hm.toKeeps.trans hm'.toKeeps
  holds frame hused hholds := hm.holds frame hused (hm'.holds frame (hm.grows frame hused) hholds)

theorem holds_congr (hentry : ∀ dir ∈ s.live, ∀ i, m.entry dir i = s.machine.entry dir i) (frame : Nat) :
    Holds (· < 1024) { s with machine := m } frame ↔ s.Holds (· < 1024) frame := by
  refine or_congr_right (exists_congr fun dir => and_congr_right fun hdir => exists_congr fun i => ?_)
  rw [hentry dir hdir i]

theorem of_entries (h : s.Separate) (hfollows : Follows (· < 1024) s m)
    (hgrows : ∀ frame, s.Used frame → m.pmm.mmapTest frame = true)
    (hentry : ∀ dir ∈ s.live, ∀ i, m.entry dir i = s.machine.entry dir i) : Enlarges s m where
  toKeeps := .of_entries h hfollows hgrows hentry
  holds frame _ hholds := (holds_congr hentry frame).mp hholds

theorem entered (h : s.Separate) (hdir : dir ∈ s.live) (hm : Entered s dir i flags m) : Enlarges s m where
  toKeeps := .entered h hdir hm
  holds frame hused hholds := by
    obtain hframe | ⟨dir', hdir', k, hk, hpresent, rfl⟩ := hholds
    · exact .inl hframe
    by_cases hold : pdEntryIsPresent (s.machine.entry dir' k) = true
    · rw [show Pmm.frameOf (m.entry dir' k) = _ from (hm.follows.stays dir' hdir' k hold).2]
      exact holds_table hdir' hk hold
    · by_cases hsame : (Pmm.frameOf dir', k) = (Pmm.frameOf dir, i)
      · obtain ⟨hframe, rfl⟩ := Prod.mk.inj hsame
        obtain rfl := h.aligned dir' hdir' dir hdir hframe
        exact absurd hused (hm.fresh (Bool.not_eq_true _ ▸ hold)).2
      · have hkept : m.entry dir' k = s.machine.entry dir' k := hm.others dir' hdir' k hsame
        exact absurd (hkept ▸ hpresent) hold

/-- The word of a page is written. -/
theorem store (h : s.Separate) (hdir : dir ∈ s.live)
    (hpresent : pdEntryIsPresent (s.machine.entry dir (pageDirectoryIndex virt)) = true) (value : BitVec 32) :
    Enlarges s (s.machine.store (s.machine.tableWord dir virt) value) := by
  have hout := (h.tableWord_fst hdir hpresent).1
  exact of_entries h (h.store value hout) (fun _ hused => hused) fun dir' hdir' i =>
    Machine.entry_store_of_ne _ (fun heq => hout dir' hdir' (congrArg Prod.fst heq).symm) _

/-- The frame map gets more frames in use. -/
theorem setPmm (h : s.Separate) {pmm : Pmm} (hmax : pmm.maxBlocks = s.machine.pmm.maxBlocks)
    (hgrow : ∀ frame, s.Used frame → pmm.mmapTest frame = true) : Enlarges s { s.machine with pmm } :=
  of_entries h (h.setPmm hmax fun frame hframe => hgrow frame (h.used frame hframe)) hgrow fun _ _ _ => rfl

end Enlarges

namespace Backs

theorem nil : s.Backs dir [] where
  present _ hv := absurd hv List.not_mem_nil
  used _ hv := absurd hv List.not_mem_nil
  plain _ hv := absurd hv List.not_mem_nil
  nodup := List.nodup_nil

/-- Pages that keep their words and whose frames stay in use for them stay backed. -/
theorem of_kept (h : s.Backs dir virts)
    (hwords : ∀ v ∈ virts, t.machine.pageWord dir v = s.machine.pageWord dir v)
    (hused : ∀ v ∈ virts, t.Used (s.machine.frameAt dir v))
    (hplain : ∀ v ∈ virts, ¬ t.Holds (· < 1024) (s.machine.frameAt dir v)) : t.Backs dir virts := by
  have hframes : ∀ v ∈ virts, t.machine.frameAt dir v = s.machine.frameAt dir v := fun v hv =>
    congrArg Pmm.frameOf (hwords v hv)
  constructor
  · intro v hv
    rw [hwords v hv]
    exact h.present v hv
  · intro v hv
    rw [hframes v hv]
    exact hused v hv
  · intro v hv
    rw [hframes v hv]
    exact hplain v hv
  · rw [List.map_congr_left hframes]
    exact h.nodup

theorem congr (h : s.Backs dir virts) (hm : Enlarges s m)
    (hwords : ∀ v ∈ virts, m.pageWord dir v = s.machine.pageWord dir v) :
    Backs { s with machine := m } dir virts :=
  h.of_kept hwords (fun v hv => hm.grows _ (h.used v hv)) fun v hv hholds =>
    h.plain v hv (hm.holds _ (h.used v hv) hholds)

theorem perm (h : s.Backs dir virts) (hperm : virts.Perm virts') : s.Backs dir virts' where
  present v hv := h.present v (hperm.mem_iff.mpr hv)
  used v hv := h.used v (hperm.mem_iff.mpr hv)
  plain v hv := h.plain v (hperm.mem_iff.mpr hv)
  nodup := (hperm.map _).nodup_iff.mp h.nodup

/-- Pages of two lists are backed when no frame is behind both. -/
theorem append (h : s.Backs dir virts) (h' : s.Backs dir virts')
    (hne : ∀ v ∈ virts, ∀ v' ∈ virts', s.machine.frameAt dir v ≠ s.machine.frameAt dir v') :
    s.Backs dir (virts ++ virts') where
  present v hv := (List.mem_append.mp hv).elim (h.present v) (h'.present v)
  used v hv := (List.mem_append.mp hv).elim (h.used v) (h'.used v)
  plain v hv := (List.mem_append.mp hv).elim (h.plain v) (h'.plain v)
  nodup := by
    rw [List.map_append, List.nodup_append]
    refine ⟨h.nodup, h'.nodup, fun f hf f' hf' => ?_⟩
    obtain ⟨v, hv, rfl⟩ := List.mem_map.mp hf
    obtain ⟨v', hv', rfl⟩ := List.mem_map.mp hf'
    exact hne v hv v' hv'

end Backs

namespace Separate

/-- When the first part of a new mapping fails, only the frame map can show it. -/
theorem tableForEntry_fails (h : s.Separate) {found : Bool}
    (hm : s.machine.tableForEntry (Pmm.frameOf dir, i) = (found, m)) (hfound : found = false) :
    Enlarges s m ∧ m.memory = s.machine.memory := by
  obtain ⟨p, pmm, heq, hmax, hgrow, -⟩ := Apart.allocBlock_cases h.search
  rw [Machine.tableForEntry, heq] at hm
  dsimp only at hm
  split at hm
  · rw [hfound] at hm
    cases (Prod.mk.inj hm).1
  split at hm
  · rw [← (Prod.mk.inj hm).2]
    exact ⟨.setPmm h hmax hgrow, rfl⟩
  · rw [hfound] at hm
    cases (Prod.mk.inj hm).1

/-- A word gets a frame, if there is one, and those of present and of other pages stay. -/
theorem allocPage_enlarges (h : s.Separate) (hdir : dir ∈ s.live)
    (hentry : pdEntryIsPresent (s.machine.entry dir (pageDirectoryIndex virt)) = true)
    (habsent : ptEntryIsPresent (s.machine.pageWord dir virt) = false) (pteFlags : BitVec 32) :
    Enlarges s (s.machine.vmmngrAllocPage (s.machine.tableWord dir virt) pteFlags) ∧
      ∀ dir' ∈ s.live, ∀ virt', ptEntryIsPresent (s.machine.pageWord dir' virt') = true ∨
        ¬ (SamePage virt' virt ∧ (dir' = dir ∨ SharedSlot (pageDirectoryIndex virt))) →
        (s.machine.vmmngrAllocPage (s.machine.tableWord dir virt) pteFlags).pageWord dir' virt'
          = s.machine.pageWord dir' virt' := by
  obtain ⟨p, pmm, heq, hmax, hgrow, -⟩ := Apart.allocBlock_cases h.search
  have hpmm : Enlarges s { s.machine with pmm } := .setPmm h hmax hgrow
  rw [Machine.vmmngrAllocPage_eq, heq]
  dsimp only
  split
  · exact ⟨hpmm, fun _ _ _ _ => rfl⟩
  refine ⟨hpmm.trans (.store hpmm.separate hdir hentry _), fun dir' hdir' virt' hkept => ?_⟩
  refine (hpmm.separate.pageWord_store hdir hentry _ hdir' virt').trans (if_neg ?_)
  intro hsame
  have hentry' : pdEntryIsPresent (s.machine.entry dir' (pageDirectoryIndex virt')) = true := hsame.1
  have hword : s.machine.tableWord dir' virt' = s.machine.tableWord dir virt := hsame.2
  rcases hkept with hpresent | hother
  · have hwords : s.machine.pageWord dir' virt' = s.machine.pageWord dir virt := by
      rw [h.pageWord_eq hdir', h.pageWord_eq hdir, if_pos hentry, if_pos hentry']
      exact congrArg s.machine.memory hword
    rw [hwords, habsent] at hpresent
    cases hpresent
  · exact hother (h.samePage_of_tableWord_eq hdir hdir' hentry hentry' hword)

/-- `vmmngr_alloc_virt` keeps the words of present and of other pages. -/
theorem allocVirt_enlarges (h : s.Separate) (hdir : dir ∈ s.live) (hflags : pdeFlags.toNat < 4096)
    (virt pteFlags : BitVec 32) :
    Enlarges s (s.machine.vmmngrAllocVirt dir virt pdeFlags pteFlags) ∧
      ∀ dir' ∈ s.live, ∀ virt', ptEntryIsPresent (s.machine.pageWord dir' virt') = true ∨
        ¬ (SamePage virt' virt ∧ (dir' = dir ∨ SharedSlot (pageDirectoryIndex virt))) →
        (s.machine.vmmngrAllocVirt dir virt pdeFlags pteFlags).pageWord dir' virt'
          = s.machine.pageWord dir' virt' := by
  have hlookup := h.lookup_directory hdir virt
  cases hm : s.machine.tableForEntry (Pmm.frameOf dir, pageDirectoryIndex virt) with | mk found m =>
  obtain ⟨hfound, -⟩ | ⟨rfl, henter⟩ := h.enter_cases hdir _ hflags hm
  · obtain ⟨hkept, hmemory⟩ := h.tableForEntry_fails hm hfound
    have heq : s.machine.vmmngrAllocVirt dir virt pdeFlags pteFlags = m := by
      rw [Machine.vmmngrAllocVirt, hlookup, hm, hfound]
      rfl
    rw [heq]
    exact ⟨hkept, fun dir' _ virt' _ => by rw [Machine.pageWord, hmemory, Machine.pageWord]⟩
  · obtain ⟨m₁, henter, heq⟩ : ∃ m₁, Entered s dir (pageDirectoryIndex virt) pdeFlags m₁ ∧
        s.machine.vmmngrAllocVirt dir virt pdeFlags pteFlags = (if ptEntryIsPresent (m₁.pageWord dir virt) then m₁
          else m₁.vmmngrAllocPage (m₁.tableWord dir virt) pteFlags) := by
      refine ⟨_, henter, ?_⟩
      rw [Machine.vmmngrAllocVirt, hlookup, hm, henter.follows.apart.pageWord_eq hdir, if_pos henter.present]
      rfl
    rw [heq]
    have hkept : Enlarges s m₁ := .entered h hdir henter
    split
    · exact ⟨hkept, fun dir' hdir' virt' _ => henter.words dir' hdir' virt'⟩
    next habsent =>
    obtain ⟨halloc, hothers⟩ :=
      hkept.separate.allocPage_enlarges hdir henter.present (Bool.not_eq_true _ ▸ habsent) pteFlags
    refine ⟨hkept.trans halloc, fun dir' hdir' virt' hother => ?_⟩
    have hold := henter.words dir' hdir' virt'
    exact (hothers dir' hdir' virt' (by rw [show Machine.pageWord _ dir' virt' = _ from hold]; exact hother)).trans hold

/-- `vmmngr_map_page` keeps the words of other pages. -/
theorem mapPage_enlarges (h : s.Separate) (hdir : dir ∈ s.live) (hflags : pdeFlags.toNat < 4096)
    (phys virt pteFlags : BitVec 32) :
    Enlarges s (s.machine.vmmngrMapPage dir phys virt pdeFlags pteFlags) ∧
      ∀ dir' ∈ s.live, ∀ virt', ¬ (SamePage virt' virt ∧ (dir' = dir ∨ SharedSlot (pageDirectoryIndex virt))) →
        (s.machine.vmmngrMapPage dir phys virt pdeFlags pteFlags).pageWord dir' virt'
          = s.machine.pageWord dir' virt' := by
  have hlookup := h.lookup_directory hdir virt
  cases hm : s.machine.tableForEntry (Pmm.frameOf dir, pageDirectoryIndex virt) with | mk found m =>
  obtain ⟨hfound, -⟩ | ⟨rfl, henter⟩ := h.enter_cases hdir _ hflags hm
  · obtain ⟨hkept, hmemory⟩ := h.tableForEntry_fails hm hfound
    have heq : s.machine.vmmngrMapPage dir phys virt pdeFlags pteFlags = m := by
      rw [Machine.vmmngrMapPage, hlookup, hm, hfound]
      rfl
    rw [heq]
    exact ⟨hkept, fun dir' _ virt' _ => by rw [Machine.pageWord, hmemory, Machine.pageWord]⟩
  · obtain ⟨m₁, henter, heq⟩ : ∃ m₁, Entered s dir (pageDirectoryIndex virt) pdeFlags m₁ ∧
        s.machine.vmmngrMapPage dir phys virt pdeFlags pteFlags = m₁.store (m₁.tableWord dir virt)
          (Machine.mappedWord (m₁.memory (m₁.tableWord dir virt)) phys pteFlags) := by
      refine ⟨_, henter, ?_⟩
      rw [Machine.vmmngrMapPage, hlookup, hm]
      exact Machine.store_mapped _ _ phys pteFlags
    rw [heq]
    have hkept : Enlarges s m₁ := .entered h hdir henter
    refine ⟨hkept.trans (.store hkept.separate hdir henter.present _), fun dir' hdir' virt' hother => ?_⟩
    refine Eq.trans ?_ (henter.words dir' hdir' virt')
    exact (hkept.separate.remaps_store hdir henter.present _).others dir' hdir' virt' hother

end Separate

/-! ### Pages are mapped -/

theorem frameOf_mappedWord (e phys : BitVec 32) (hflags : flags.toNat < 4096) :
    Pmm.frameOf (Machine.mappedWord e phys flags) = Pmm.frameOf phys := by
  rw [Machine.mappedWord, Entry.frameOf_addAttrib _ (by decide), Entry.frameOf_addAttrib _ hflags,
    Entry.frameOf_setFrame]

theorem isPresent_mappedWord (e phys flags : BitVec 32) :
    ptEntryIsPresent (Machine.mappedWord e phys flags) = true := by
  simp [Machine.mappedWord]

/-- The physical address of a present page lies in its frame. -/
theorem frameOf_virt2phys (hpresent : ptEntryIsPresent (m.pageWord dir virt) = true) :
    Pmm.frameOf (m.vmmngrVirt2physPdir dir virt) = m.frameAt dir virt := by
  have hpfn := Entry.toNat_pfn (m.pageWord dir virt)
  have hlt := Pmm.frameOf_lt (m.pageWord dir virt)
  have hoffset : (virt &&& 0xfff#32).toNat < 4096 := by
    rw [BitVec.toNat_and, show (0xfff#32).toNat = 2 ^ 12 - 1 from rfl, Nat.and_two_pow_sub_one_eq_mod]
    omega
  rw [Machine.vmmngrVirt2physPdir_eq, if_pos hpresent, Pmm.frameOf_eq, BitVec.toNat_add,
    show (ptEntryPfn (m.pageWord dir virt)).toNat = _ from hpfn, Machine.frameAt]
  omega

/-! ### Pages are allocated -/

theorem frameOf_allocatedWord (e p : BitVec 32) (hflags : flags.toNat < 4096) :
    Pmm.frameOf (Machine.allocatedWord e p flags) = Pmm.frameOf p := by
  rw [Machine.allocatedWord, Entry.frameOf_addAttrib _ hflags, Entry.frameOf_addAttrib _ (by decide),
    Entry.frameOf_setFrame]

/-- The pages get frames that were not in use, and the words of other pages stay. -/
structure Provides (s : Directories) (dir : BitVec 32) (virts : List (BitVec 32)) (m : Machine) : Prop
    extends Enlarges s m where
  backs : Backs { s with machine := m } dir virts
  fresh : ∀ v ∈ virts, m.frameAt dir v ≠ 0 ∧ ¬ s.Used (m.frameAt dir v)
  others : ∀ dir' ∈ s.live, ∀ virt, (dir' = dir → ∀ v ∈ virts, ¬ SamePage virt v) →
    m.pageWord dir' virt = s.machine.pageWord dir' virt

namespace Provides

theorem nil (h : s.Separate) : Provides s dir [] s.machine where
  toEnlarges := .refl h
  backs := .nil
  fresh _ hv := absurd hv List.not_mem_nil
  others _ _ _ _ := rfl

/-- The words do not change, and then the pages are provided. -/
theorem of_enlarges (hm : Enlarges s m)
    (hwords : ∀ dir' ∈ s.live, ∀ virt, m.pageWord dir' virt = s.machine.pageWord dir' virt)
    (hm' : Provides { s with machine := m } dir virts m') : Provides s dir virts m' where
  toEnlarges := hm.trans hm'.toEnlarges
  backs := hm'.backs
  fresh v hv := (hm'.fresh v hv).imp_right fun hunused hused => hunused (hm.grows _ hused)
  others dir' hdir' virt hother := (hm'.others dir' hdir' virt hother).trans (hwords dir' hdir' virt)

/-- One page, and then others. -/
theorem cons (hdir : dir ∈ s.live) (hm : Provides s dir [virt] m)
    (hm' : Provides { s with machine := m } dir virts m') (hne : ∀ v ∈ virts, ¬ SamePage virt v) :
    Provides s dir (virt :: virts) m' where
  toEnlarges := hm.toEnlarges.trans hm'.toEnlarges
  backs := by
    have hword : m'.pageWord dir virt = m.pageWord dir virt := hm'.others dir hdir virt fun _ => hne
    have hfirst : Backs { s with machine := m' } dir [virt] := hm.backs.congr hm'.toEnlarges fun v hv => by
      rw [List.mem_singleton.mp hv]
      exact hword
    refine hfirst.append hm'.backs fun v hv v' hv' heq => ?_
    rw [List.mem_singleton.mp hv] at heq
    refine (hm'.fresh v' hv').2 (show m.pmm.mmapTest (m'.frameAt dir v') = true from ?_)
    rw [← show m'.frameAt dir virt = m'.frameAt dir v' from heq, Machine.frameAt, hword]
    exact hm.backs.used virt (List.mem_singleton_self virt)
  fresh v hv := by
    rcases List.mem_cons.mp hv with rfl | hmem
    · have hword : m'.pageWord dir v = m.pageWord dir v := hm'.others dir hdir v fun _ => hne
      rw [Machine.frameAt, hword]
      exact hm.fresh v (List.mem_singleton_self v)
    · exact (hm'.fresh v hmem).imp_right fun hunused hused => hunused (hm.grows _ hused)
  others dir' hdir' virt' hother := by
    refine (hm'.others dir' hdir' virt' fun heq v hv => hother heq v (List.mem_cons_of_mem _ hv)).trans ?_
    refine hm.others dir' hdir' virt' fun heq v hv => ?_
    rw [List.mem_singleton.mp hv]
    exact hother heq virt List.mem_cons_self

end Provides

namespace Separate

theorem allocPage_provides (h : s.Separate) (hdir : dir ∈ s.live)
    (hentry : pdEntryIsPresent (s.machine.entry dir (pageDirectoryIndex virt)) = true)
    (hslot : ¬ SharedSlot (pageDirectoryIndex virt)) (hframe : s.machine.pmm.pmmngrAllocBlock.1 ≠ 0#32)
    (hflags : flags.toNat < 4096) :
    Provides s dir [virt] (s.machine.vmmngrAllocPage (s.machine.tableWord dir virt) flags) := by
  obtain ⟨p, pmm, heq, hmax, hgrow, hnew⟩ := Apart.allocBlock_cases h.search
  rw [Machine.vmmngrAllocPage_eq, if_neg hframe]
  rw [heq] at hframe ⊢
  dsimp only at hframe ⊢
  obtain ⟨hzero, hunused, hused⟩ := hnew hframe
  have hpmm : Enlarges s { s.machine with pmm } := .setPmm h hmax hgrow
  generalize hvalue : Machine.allocatedWord (s.machine.memory (s.machine.tableWord dir virt)) p flags = value
  have hstore : Enlarges { s with machine := { s.machine with pmm } }
      (Machine.store { s.machine with pmm } (s.machine.tableWord dir virt) value) :=
    .store hpmm.separate hdir hentry value
  have hremaps : Remaps { s with machine := { s.machine with pmm } } dir virt value
      (Machine.store { s.machine with pmm } (s.machine.tableWord dir virt) value) :=
    hpmm.separate.remaps_store hdir hentry value
  have hkept := hpmm.trans hstore
  generalize Machine.store { s.machine with pmm } (s.machine.tableWord dir virt) value = m at hstore hremaps hkept ⊢
  have hword : m.pageWord dir virt = value := hremaps.self virt ⟨rfl, rfl⟩
  have hframeAt : m.frameAt dir virt = Pmm.frameOf p := by
    rw [Machine.frameAt, hword, ← hvalue, frameOf_allocatedWord _ _ hflags]
  have hholds : ¬ Holds (· < 1024) { s with machine := m } (Pmm.frameOf p) := by
    intro hholds
    exact hunused (h.used _ (hstore.holds _ hused hholds))
  refine ⟨hkept, ⟨fun v hv => ?_, fun v hv => ?_, fun v hv => ?_, List.nodup_singleton _⟩, fun v hv => ?_,
    fun dir' hdir' virt' hother => ?_⟩
  · rw [List.mem_singleton.mp hv, show Machine.pageWord _ dir virt = _ from hword, ← hvalue]
    exact Apart.isPresent_allocatedWord _ _ _
  · rw [List.mem_singleton.mp hv, show Machine.frameAt _ dir virt = _ from hframeAt]
    exact hstore.grows _ hused
  · rw [List.mem_singleton.mp hv, show Machine.frameAt _ dir virt = _ from hframeAt]
    exact hholds
  · rw [List.mem_singleton.mp hv, hframeAt]
    exact ⟨hzero, hunused⟩
  · refine hremaps.others dir' hdir' virt' fun hsame => ?_
    rcases hsame.2 with heq' | hshared
    · exact hother heq' virt (List.mem_singleton_self virt) hsame.1
    · exact hslot hshared

/-- `vmmngr_alloc_virt` provides a page that is not there. -/
theorem allocVirt_provides (h : s.Separate) (hdir : dir ∈ s.live) (hpde : pdeFlags.toNat < 4096)
    (hflags : flags.toNat < 4096) (hslot : ¬ SharedSlot (pageDirectoryIndex virt))
    (habsent : ptEntryIsPresent (s.machine.pageWord dir virt) = false) (hsupplied : s.machine.Supplied dir virt) :
    Provides s dir [virt] (s.machine.vmmngrAllocVirt dir virt pdeFlags flags) := by
  obtain ⟨-, hfails⟩ | ⟨m, henter, heq, hframe⟩ := h.allocVirt_cases hdir hpde virt flags
  · exact absurd hsupplied hfails
  have hword := henter.words dir hdir virt
  have hkept : Enlarges s m := .entered h hdir henter
  rw [heq, if_neg (by rw [hword, habsent]; exact Bool.false_ne_true)]
  exact .of_enlarges hkept henter.words
    (hkept.separate.allocPage_provides hdir henter.present hslot (hframe.mp hsupplied (hword ▸ habsent)) hflags)

/-- A loop of allocations provides different pages that are not there. -/
theorem allocPages_provides (h : s.Separate) (hdir : dir ∈ s.live) (hpde : pdeFlags.toNat < 4096)
    (hflags : flags.toNat < 4096) (hslots : ∀ v ∈ virts, ¬ SharedSlot (pageDirectoryIndex v))
    (habsent : ∀ v ∈ virts, ptEntryIsPresent (s.machine.pageWord dir v) = false)
    (hpages : virts.Pairwise fun v v' => ¬ SamePage v v')
    (hsupplied : s.machine.SuppliedAll dir pdeFlags flags virts) :
    Provides s dir virts (s.machine.allocPages dir pdeFlags flags virts) := by
  induction virts generalizing s with
  | nil => exact .nil h
  | cons v virts ih =>
    obtain ⟨hne, hpages⟩ := List.pairwise_cons.mp hpages
    have hfirst := h.allocVirt_provides hdir hpde hflags (hslots v List.mem_cons_self)
      (habsent v List.mem_cons_self) hsupplied.1
    have hwords : ∀ v' ∈ virts, Machine.pageWord _ dir v' = s.machine.pageWord dir v' := fun v' hv' =>
      hfirst.others dir hdir v' fun _ u hu => by
        rw [List.mem_singleton.mp hu]
        exact fun hsame => hne v' hv' (SamePage.symm hsame)
    refine hfirst.cons hdir (ih hfirst.separate hdir (fun v' hv' => hslots v' (List.mem_cons_of_mem _ hv')) ?_ hpages
      hsupplied.2) hne
    intro v' hv'
    rw [show Machine.pageWord _ dir v' = _ from hwords v' hv']
    exact habsent v' (List.mem_cons_of_mem _ hv')

end Separate

/-! ### Pages are given back -/

/-- What giving a page back leaves as it is. -/
structure GivesBack (s : Directories) (dir virt : BitVec 32) (m : Machine) : Prop where
  separate : Separate { s with machine := m }
  current : m.curDirectory = s.machine.curDirectory
  entries : ∀ dir' ∈ s.live, ∀ i, m.entry dir' i = s.machine.entry dir' i
  used : ∀ frame, s.machine.KeepsFrame dir virt frame → s.Used frame → m.pmm.mmapTest frame = true
  words : ∀ dir' ∈ s.live, ∀ virt', s.machine.KeepsFrame dir virt (s.machine.frameAt dir' virt') →
    m.pageWord dir' virt' = s.machine.pageWord dir' virt'

namespace Separate

/-- `vmmngr_free_virt` on a page whose frame is not a directory or a table. -/
theorem freeVirt_givesBack (h : s.Separate) (hdir : dir ∈ s.live)
    (hkept : ∀ frame, s.machine.Releases dir virt frame → ¬ s.Holds (· < 1024) frame) :
    GivesBack s dir virt (s.machine.vmmngrFreeVirt dir virt) := by
  have hfollows := h.freeVirt hdir (pageDirectoryIndex_lt virt) hkept
  have hnothing : GivesBack s dir virt s.machine :=
    ⟨h, rfl, fun _ _ _ => rfl, fun _ _ hused => hused, fun _ _ _ _ => rfl⟩
  have hlookup := h.lookup_directory hdir virt
  rw [Machine.vmmngrFreeVirt] at hfollows ⊢
  dsimp only at hfollows ⊢
  by_cases hpresent : pdEntryIsPresent (s.machine.memory (Machine.vmmngrPdirectoryLookupEntry dir virt)) = true
  swap
  · rw [if_pos (by simpa using hpresent)]
    exact hnothing
  rw [if_neg (by simp [hpresent])] at hfollows ⊢
  by_cases hpage : ptEntryIsPresent (s.machine.memory (Machine.vmmngrPtableLookupEntry
      (pdEntryPfn (s.machine.memory (Machine.vmmngrPdirectoryLookupEntry dir virt))) virt)) = true
  swap
  · rw [if_neg hpage]
    exact hnothing
  rw [if_pos hpage] at hfollows ⊢
  have hreleases : s.machine.Releases dir virt _ := ⟨hpresent, hpage, rfl⟩
  rw [hlookup] at hpresent hfollows hreleases ⊢
  have hentry : pdEntryIsPresent (s.machine.entry dir (pageDirectoryIndex virt)) = true := hpresent
  have hout := (h.tableWord_fst hdir hentry).1
  obtain ⟨pmm, heq, hused⟩ := s.machine.vmmngrFreePage_eq (s.machine.tableWord dir virt)
  have hword : Machine.vmmngrPtableLookupEntry
      (pdEntryPfn (s.machine.memory (Pmm.frameOf dir, pageDirectoryIndex virt))) virt =
      s.machine.tableWord dir virt := rfl
  rw [hword, heq] at hfollows
  rw [hword, heq]
  have hentries : ∀ dir' ∈ s.live, ∀ i, (Machine.store { s.machine with pmm } (s.machine.tableWord dir virt)
      (ptEntryDelAttrib (s.machine.memory (s.machine.tableWord dir virt)) Entry.present)).entry dir' i
        = s.machine.entry dir' i := fun dir' hdir' i =>
    Machine.entry_store_of_ne { s.machine with pmm } (fun heq => hout dir' hdir' (congrArg Prod.fst heq).symm) _
  refine ⟨h.of_entries hfollows hentries, rfl, hentries, fun frame hspared => hused frame (hspared _ hreleases),
    fun dir' hdir' virt' hspared => ?_⟩
  refine (h.pageWord_store hdir hentry _ hdir' virt').trans (if_neg ?_)
  intro hsame
  refine hspared _ hreleases ?_
  rw [Machine.frameAt, h.pageWord_eq hdir', if_pos hsame.1, hsame.2]
  rfl

/-- `vmmngr_unmap_virt` keeps the words of other pages. -/
theorem unmapVirt_enlarges (h : s.Separate) (hdir : dir ∈ s.live) (virt : BitVec 32) :
    Enlarges s (s.machine.vmmngrUnmapVirt dir virt) ∧
      ∀ dir' ∈ s.live, ∀ virt', ¬ (SamePage virt' virt ∧ (dir' = dir ∨ SharedSlot (pageDirectoryIndex virt))) →
        (s.machine.vmmngrUnmapVirt dir virt).pageWord dir' virt' = s.machine.pageWord dir' virt' := by
  have hlookup := h.lookup_directory hdir virt
  by_cases hpresent : pdEntryIsPresent (s.machine.entry dir (pageDirectoryIndex virt)) = true
  · have heq : s.machine.vmmngrUnmapVirt dir virt = s.machine.store (s.machine.tableWord dir virt)
        (ptEntryDelAttrib (ptEntrySetFrame (s.machine.memory (s.machine.tableWord dir virt)) 0#32) Entry.present) := by
      rw [Machine.vmmngrUnmapVirt, hlookup]
      dsimp only
      rw [show pdEntryIsPresent (s.machine.memory (Pmm.frameOf dir, pageDirectoryIndex virt)) = true from hpresent,
        if_neg (by decide)]
      simp [Machine.store, Machine.tableWord, Machine.entry]
    rw [heq]
    exact ⟨.store h hdir hpresent _, (h.remaps_store hdir hpresent _).others⟩
  · have heq : s.machine.vmmngrUnmapVirt dir virt = s.machine := by
      rw [Bool.not_eq_true] at hpresent
      rw [Machine.vmmngrUnmapVirt, hlookup]
      dsimp only
      rw [show pdEntryIsPresent (s.machine.memory (Pmm.frameOf dir, pageDirectoryIndex virt)) = false from hpresent,
        if_pos (by decide)]
    rw [heq]
    exact ⟨.refl h, fun _ _ _ _ => rfl⟩

end Separate

end Directories

end Akos
