import Akos.Loader.Executable

/-!
# The pages of an executable

Which pages of an image are present after its sections were loaded, and with which attributes. The loop over a
section's pages starts a page too low when the section starts in the lower half of a page, goes by the size of
the raw data where the section is longer in memory, and a page that two sections share has the attributes of the
one that came first.
-/

namespace Akos.Loader

open Directories

variable {s : Directories} {dir imageBase a : BitVec 32} {sec : ImageSectionHeader} {secs : List ImageSectionHeader}
  {m : Machine}

namespace ImageSectionHeader

theorem toNat_pageTop_mod (imageBase : BitVec 32) (sec : ImageSectionHeader) :
    (sec.pageTop imageBase).toNat % 4096 = 0 := by
  have hmod : ∀ top : BitVec 32, (if top % 4096#32 ≠ 0#32 then top + (4096#32 - top % 4096#32) else top).toNat
      % 4096 = 0 := by
    intro top
    have htop : (top % 4096#32).toNat = top.toNat % 4096 := BitVec.toNat_umod
    have hlt := top.isLt
    split
    · have hle : top % 4096#32 ≤ 4096#32 := by
        rw [BitVec.le_def, htop]
        exact Nat.le_of_lt (Nat.mod_lt _ (by decide))
      rw [BitVec.toNat_add, BitVec.toNat_sub_of_le hle, htop, show (4096#32).toNat = 4096 from rfl]
      omega
    · next hzero =>
      rw [not_ne_iff] at hzero
      rw [← htop, hzero]
      rfl
  exact hmod _

/-- The loop ends, since its bound is a page. -/
theorem exists_pages (imageBase : BitVec 32) (sec : ImageSectionHeader) : ∃ virts, sec.pages imageBase = some virts ∧
    ∀ v, v ∈ virts ↔ ∃ k, v.toNat = (sec.pageBase imageBase).toNat + 4096 * k ∧
      v.toNat < (sec.pageTop imageBase).toNat := by
  have hlt := (sec.pageTop imageBase).isLt
  have hmod := sec.toNat_pageTop_mod imageBase
  exact Machine.exists_pagesFrom (by omega)

theorem touches_iff : sec.touches imageBase a = true ↔
    (sec.pageBase imageBase).toNat / 4096 ≤ a.toNat / 4096 ∧
      a.toNat / 4096 < (sec.pageTop imageBase).toNat / 4096 := by
  obtain ⟨virts, hpages, hmem⟩ := sec.exists_pages imageBase
  have hmod := sec.toNat_pageTop_mod imageBase
  have htop := (sec.pageTop imageBase).isLt
  rw [touches, hpages, List.any_eq_true]
  constructor
  · rintro ⟨v, hv, hsame⟩
    obtain ⟨k, hk, hlt⟩ := (hmem v).mp hv
    have hpage := samePage_iff.mp (of_decide_eq_true hsame)
    omega
  · rintro ⟨hlo, hhi⟩
    refine ⟨BitVec.ofNat 32 ((sec.pageBase imageBase).toNat + 4096 *
      (a.toNat / 4096 - (sec.pageBase imageBase).toNat / 4096)), ?_, decide_eq_true ?_⟩
    · rw [hmem, BitVec.toNat_ofNat, Nat.mod_eq_of_lt (by omega)]
      exact ⟨_, rfl, by omega⟩
    · rw [samePage_iff, BitVec.toNat_ofNat, Nat.mod_eq_of_lt (by omega)]
      omega

/-- The page of the address meets the range of the section. -/
def Meets (imageBase : BitVec 32) (sec : ImageSectionHeader) (a : BitVec 32) : Prop :=
  ∃ a', SamePage a a' ∧ imageBase.toNat + sec.virtualAddress.toNat ≤ a'.toNat ∧
    a'.toNat < imageBase.toNat + sec.virtualAddress.toNat + max sec.virtualSize.toNat sec.sizeOfRawData.toNat

theorem meets_iff : sec.Meets imageBase a ↔
    0 < max sec.virtualSize.toNat sec.sizeOfRawData.toNat ∧
    (imageBase.toNat + sec.virtualAddress.toNat) / 4096 ≤ a.toNat / 4096 ∧
      a.toNat / 4096 ≤ (imageBase.toNat + sec.virtualAddress.toNat
        + max sec.virtualSize.toNat sec.sizeOfRawData.toNat - 1) / 4096 := by
  generalize hlo : imageBase.toNat + sec.virtualAddress.toNat = lo
  generalize hlen : max sec.virtualSize.toNat sec.sizeOfRawData.toNat = len
  have ha := a.isLt
  rw [Meets, hlo, hlen]
  constructor
  · rintro ⟨a', hsame, hge, hlt⟩
    have hpage := samePage_iff.mp hsame
    omega
  · rintro ⟨hpos, hge, hle⟩
    refine ⟨BitVec.ofNat 32 (max lo (a.toNat - a.toNat % 4096)), ?_, ?_, ?_⟩
    · rw [samePage_iff, BitVec.toNat_ofNat, Nat.mod_eq_of_lt (by omega)]
      omega
    · rw [BitVec.toNat_ofNat, Nat.mod_eq_of_lt (by omega)]
      omega
    · rw [BitVec.toNat_ofNat, Nat.mod_eq_of_lt (by omega)]
      omega

end ImageSectionHeader

/-- The pages of the sections, one section after the other. -/
def allocSections (dir imageBase : BitVec 32) : List ImageSectionHeader → Machine → Machine
  | [], m => m
  | sec :: secs, m =>
    allocSections dir imageBase secs (m.allocPages dir sec.flags sec.flags ((sec.pages imageBase).getD []))

/-- No allocation for a section fails. -/
def SuppliedSections (dir imageBase : BitVec 32) : List ImageSectionHeader → Machine → Prop
  | [], _ => True
  | sec :: secs, m => m.SuppliedAll dir sec.flags sec.flags ((sec.pages imageBase).getD []) ∧
      SuppliedSections dir imageBase secs (m.allocPages dir sec.flags sec.flags ((sec.pages imageBase).getD []))

/-- Reading and clearing sections changes no page. -/
theorem machine_loadSections {exec : Bytes} {t t' : Loading} (h : t.loadSections dir imageBase exec secs = some t') :
    t'.machine = allocSections dir imageBase secs t.machine := by
  induction secs generalizing t with
  | nil =>
    obtain rfl := Option.some.inj h
    rfl
  | cons sec secs ih =>
    obtain ⟨u, hu, hrest⟩ := Option.bind_eq_some_iff.mp h
    obtain ⟨virts, hvirts, hmachine⟩ := Loading.machine_of_loadSection hu
    rw [ih hrest, hmachine, allocSections, hvirts, Option.getD_some]

theorem flags_lt (sec : ImageSectionHeader) : sec.flags.toNat < 4096 := by
  unfold ImageSectionHeader.flags
  split <;> decide

theorem touches_iff_exists : sec.touches imageBase a = true ↔ ∃ v ∈ (sec.pages imageBase).getD [], SamePage a v := by
  obtain ⟨virts, hpages, -⟩ := sec.exists_pages imageBase
  rw [ImageSectionHeader.touches, hpages, List.any_eq_true, Option.getD_some]
  simp only [decide_eq_true_eq]

/-- The first section that touches a page decides what it is given. -/
structure AllocatesSections (s : Directories) (dir imageBase : BitVec 32) (secs : List ImageSectionHeader)
    (m : Machine) : Prop extends Keeps s m where
  kept : ∀ a, ptEntryIsPresent (s.machine.pageWord dir a) = true ∨ (∀ sec ∈ secs, sec.touches imageBase a = false) →
    m.pageWord dir a = s.machine.pageWord dir a
  new : ∀ a sec, ptEntryIsPresent (s.machine.pageWord dir a) = false →
    secs.find? (fun sec => sec.touches imageBase a) = some sec →
    (∃ p, m.pageWord dir a = Machine.allocatedWord (s.machine.pageWord dir a) p sec.flags) ∧
      ∀ b, 0 < b → b < 12 → sec.flags.getLsbD b = true → (m.entry dir (pageDirectoryIndex a)).getLsbD b = true

theorem allocatesSections (h : s.Separate) (hdir : dir ∈ s.live)
    (hsupplied : SuppliedSections dir imageBase secs s.machine) :
    AllocatesSections s dir imageBase secs (allocSections dir imageBase secs s.machine) := by
  induction secs generalizing s with
  | nil =>
    refine ⟨.refl h, fun _ _ => rfl, fun _ _ _ hfind => ?_⟩
    cases hfind
  | cons sec secs ih =>
    have hfirst := h.allocPages hdir (flags_lt sec) sec.flags _ hsupplied.1
    have hrest := ih hfirst.separate hdir hsupplied.2
    have hout : ∀ a, sec.touches imageBase a = false →
        Machine.pageWord _ dir a = s.machine.pageWord dir a := fun a htouch =>
      hfirst.kept a (.inr fun v hv hsame => by
        rw [touches_iff_exists.mpr ⟨v, hv, hsame⟩] at htouch
        cases htouch)
    refine ⟨hfirst.toKeeps.trans hrest.toKeeps, fun a hkept => ?_, fun a sec' habsent hfind => ?_⟩
    · have hword : Machine.pageWord _ dir a = s.machine.pageWord dir a := hfirst.kept a (hkept.imp_right
        fun hout v hv hsame => by
          have htouch := hout sec List.mem_cons_self
          rw [touches_iff_exists.mpr ⟨v, hv, hsame⟩] at htouch
          cases htouch)
      refine (hrest.kept a ?_).trans hword
      rw [show Machine.pageWord _ dir a = _ from hword]
      exact hkept.imp_right fun hout sec' hsec' => hout sec' (List.mem_cons_of_mem _ hsec')
    · cases htouch : sec.touches imageBase a with
      | true =>
        rw [List.find?_cons, htouch] at hfind
        obtain rfl := Option.some.inj hfind
        obtain ⟨⟨p, hword⟩, hbits⟩ := hfirst.new a habsent (touches_iff_exists.mp htouch)
        have hfinal := hrest.kept a (.inl (by
          rw [show Machine.pageWord _ dir a = _ from hword]
          exact Apart.isPresent_allocatedWord _ _ _))
        exact ⟨⟨p, hfinal.trans hword⟩, fun b hpos hb hbit => hrest.bits dir hdir _ b hpos hb (hbits b hpos hb hbit)⟩
      | false =>
        rw [List.find?_cons, htouch] at hfind
        have hword := hout a htouch
        have hnew := hrest.new a sec' (by rw [show Machine.pageWord _ dir a = _ from hword]; exact habsent) hfind
        rw [show Machine.pageWord _ dir a = _ from hword] at hnew
        exact hnew

/-! ### Attributes -/

theorem getLsbD_allocatedWord {e p flags : BitVec 32} {b : Nat} (hpos : 0 < b) (hb : b < 12) :
    (Machine.allocatedWord e p flags).getLsbD b = (e.getLsbD b || flags.getLsbD b) := by
  rw [Machine.allocatedWord, ptEntryAddAttrib, Entry.addAttrib, BitVec.getLsbD_or, Entry.getLsbD_addAttrib_present hpos,
    Entry.getLsbD_setFrame hb]

/-- The entries of table and page both have an attribute. -/
def grants (m : Machine) (dir a : BitVec 32) (b : Nat) : Prop :=
  (m.entry dir (pageDirectoryIndex a)).getLsbD b = true ∧ (m.pageWord dir a).getLsbD b = true

/-- The user can access the page, `I86_PDE_USER` and `I86_PTE_USER`. -/
def UserAccessible (m : Machine) (dir a : BitVec 32) : Prop := grants m dir a 2

/-- The user can write to the page, `I86_PDE_WRITABLE` and `I86_PTE_WRITABLE`. -/
def UserWritable (m : Machine) (dir a : BitVec 32) : Prop := grants m dir a 1

/-- An address space before an image is loaded: no page is the user's, and the words of other pages are clear. -/
def Unloaded (m : Machine) (dir : BitVec 32) : Prop :=
  ∀ a, if ptEntryIsPresent (m.pageWord dir a) then (m.pageWord dir a).getLsbD 2 = false
    else m.pageWord dir a = 0#32

namespace ExecFile

variable (exec : ExecFile)

/-- The address lies in the image. -/
def InImage (a : BitVec 32) : Prop :=
  exec.ntHeaders.imageBase.toNat ≤ a.toNat ∧
    a.toNat < exec.ntHeaders.imageBase.toNat + exec.ntHeaders.sizeOfImage.toNat

/-- A section meets the page. -/
def Needs (a : BitVec 32) : Prop := ∃ sec ∈ exec.sectionHeaders, sec.Meets exec.ntHeaders.imageBase a

/-- A section with the write characteristic meets the page. -/
def NeedsWritable (a : BitVec 32) : Prop :=
  ∃ sec ∈ exec.sectionHeaders, sec.isWritable = true ∧ sec.Meets exec.ntHeaders.imageBase a

/-- The pages of the image are those that a section meets, for the user, and writable for those sections. -/
def PagesAsNeeded (dir : BitVec 32) (m : Machine) : Prop :=
  ∀ a, exec.InImage a →
    (ptEntryIsPresent (m.pageWord dir a) = true ↔ exec.Needs a) ∧
    (ptEntryIsPresent (m.pageWord dir a) = true →
      UserAccessible m dir a ∧ (UserWritable m dir a ↔ exec.NeedsWritable a))

/-- No page of the image was there before, the loops visit the pages that a section meets, and the first section
to visit a page is writable where one that meets it is. -/
def PagesMatch (dir : BitVec 32) (m : Machine) : Prop :=
  ∀ a, exec.InImage a →
    ptEntryIsPresent (m.pageWord dir a) = false ∧
    ((∃ sec ∈ exec.sectionHeaders, sec.touches exec.ntHeaders.imageBase a = true) ↔ exec.Needs a) ∧
    ∀ sec, exec.sectionHeaders.find? (fun sec => sec.touches exec.ntHeaders.imageBase a) = some sec →
      (sec.isWritable = true ↔ exec.NeedsWritable a)

end ExecFile

theorem flags_getLsbD_user (sec : ImageSectionHeader) : sec.flags.getLsbD 2 = true := by
  unfold ImageSectionHeader.flags
  split <;> rfl

theorem flags_getLsbD_writable (sec : ImageSectionHeader) : sec.flags.getLsbD 1 = sec.isWritable := by
  unfold ImageSectionHeader.flags
  cases sec.isWritable <;> rfl

/-- After loading, the pages of an image are as its sections need them exactly if its section headers match. -/
theorem pagesAsNeeded_iff {live : Set (BitVec 32)} {exec : ExecFile} {image : ImageInfo} {k k' : Kernel}
    (h : Separate ⟨k.machine, live⟩) (hdir : dir ∈ live) (hunloaded : Unloaded k.machine dir)
    (hsupplied : SuppliedSections dir exec.ntHeaders.imageBase exec.sectionHeaders k.machine)
    (hload : loadExecutable dir exec k = some (some image, k')) :
    exec.PagesAsNeeded dir k'.machine ↔ exec.PagesMatch dir k.machine := by
  obtain ⟨-, -, t, ht, hmachine, -⟩ := loadImage_of_loadExecutable hload
  rw [hmachine, machine_loadSections ht]
  have hall := allocatesSections h hdir hsupplied
  generalize allocSections dir exec.ntHeaders.imageBase exec.sectionHeaders _ = m at hall ⊢
  refine forall_congr' fun a => imp_congr_right fun _ => ?_
  have hbefore := hunloaded a
  by_cases hpresent : ptEntryIsPresent (k.machine.pageWord dir a) = true
  · -- a page that was there is not the user's
    have hword := hall.kept a (.inl hpresent)
    dsimp only at hword
    rw [if_pos hpresent] at hbefore
    rw [hword]
    constructor
    · intro hneeded
      have huser := (hneeded.2 hpresent).1.2
      rw [hword, hbefore] at huser
      cases huser
    · intro hmatch
      rw [hpresent] at hmatch
      cases hmatch.1
  rw [if_neg hpresent] at hbefore
  rw [Bool.not_eq_true] at hpresent
  cases hfind : exec.sectionHeaders.find? (fun sec => sec.touches exec.ntHeaders.imageBase a) with
  | none =>
    have hnone : ∀ sec ∈ exec.sectionHeaders, sec.touches exec.ntHeaders.imageBase a = false := by
      simpa using List.find?_eq_none.mp hfind
    have hword := hall.kept a (.inr hnone)
    dsimp only at hword
    have htouch : ¬ ∃ sec ∈ exec.sectionHeaders, sec.touches exec.ntHeaders.imageBase a = true := by
      rintro ⟨sec, hsec, htouch⟩
      rw [hnone sec hsec] at htouch
      cases htouch
    rw [hword, hpresent, iff_false_left Bool.false_ne_true, iff_false_left htouch]
    exact ⟨fun hneeded => ⟨rfl, hneeded.1, fun _ heq => by cases heq⟩,
      fun hmatch => ⟨hmatch.2.1, fun hfalse => by cases hfalse⟩⟩
  | some sec =>
    obtain ⟨⟨p, hword⟩, hbits⟩ := hall.new a sec hpresent hfind
    dsimp only at hword
    rw [hbefore] at hword
    have hpresent' : ptEntryIsPresent (m.pageWord dir a) = true := by
      rw [hword]
      exact Apart.isPresent_allocatedWord _ _ _
    have htouch : ∃ sec ∈ exec.sectionHeaders, sec.touches exec.ntHeaders.imageBase a = true :=
      ⟨sec, List.mem_of_find?_eq_some hfind, by simpa using List.find?_some hfind⟩
    have huser : UserAccessible m dir a := by
      refine ⟨hbits 2 (by decide) (by decide) (flags_getLsbD_user sec), ?_⟩
      rw [hword, getLsbD_allocatedWord (by decide) (by decide), flags_getLsbD_user, Bool.or_true]
    have hwritable : UserWritable m dir a ↔ sec.isWritable = true := by
      have hpage : (m.pageWord dir a).getLsbD 1 = sec.isWritable := by
        rw [hword, getLsbD_allocatedWord (by decide) (by decide), flags_getLsbD_writable, BitVec.getLsbD_zero,
          Bool.false_or]
      refine ⟨fun hgrants => hpage ▸ hgrants.2, fun hsec => ⟨?_, hpage.trans hsec⟩⟩
      exact hbits 1 (by decide) (by decide) ((flags_getLsbD_writable sec).trans hsec)
    rw [iff_true_left htouch, iff_true_left hpresent']
    constructor
    · intro hneeded
      refine ⟨hpresent, hneeded.1, fun sec' heq => ?_⟩
      obtain rfl := Option.some.inj heq
      exact hwritable.symm.trans (hneeded.2 hpresent').2
    · intro hmatch
      exact ⟨hmatch.2.1, fun _ => ⟨huser, hwritable.trans (hmatch.2.2 sec rfl)⟩⟩

/-! ### An executable with one section -/

/-- The bytes that are not 0 in a file with one writable section of 16 bytes, which is loaded at 0x401000 or a
few bytes above. -/
def oneSectionBytes (above : BitVec 8) : List (Nat × BitVec 8) :=
  -- DOS header
  [(0, 0x4D), (1, 0x5A), (60, 64),
  -- NT headers
    (64, 0x50), (65, 0x45), (68, 0x4C), (69, 0x01), (70, 1), (86, 0x02), (88, 0x0B), (89, 0x01), (118, 0x40),
    (125, 0x02), (145, 0x20),
  -- section header
    (320, 16), (324, above), (325, 0x10), (328, 16), (351, 0x80)]

def oneSection (above : BitVec 8) : ExecFile where
  flags := .file
  bytes := fun i => ((oneSectionBytes above).lookup i).getD 0

/-- A directory in frame 1 without any entry. -/
def emptyDirectory : Machine where
  pmm := { memorySize := 256#32, usedBlocks := 2#32, maxBlocks := 64#32,
           memoryMap := fun w => if w = 0 then 0x3#32 else 0#32 }
  memory _ := 0#32
  curDirectory := 0x1000#32

def loadingKernel : Kernel := ⟨.start fun _ => 0#8, emptyDirectory, fun _ => 0#8⟩

theorem separate_emptyDirectory : Separate ⟨emptyDirectory, {0x1000#32}⟩ := by
  have hentry : ∀ dir i, pdEntryIsPresent (emptyDirectory.entry dir i) = false := fun _ _ => Machine.isPresent_zero
  refine ⟨⟨by decide, rfl, ?_, ?_, ?_⟩, ?_, ?_, ?_⟩
  · rintro dir rfl
    decide
  · rintro frame (⟨dir, rfl, rfl⟩ | ⟨dir, -, i, -, hpresent, -⟩)
    · show emptyDirectory.pmm.mmapTest _ = true
      decide
    · rw [hentry] at hpresent
      cases hpresent
  · intro dir _ i _ hpresent
    rw [hentry] at hpresent
    cases hpresent
  · rintro dir rfl dir' rfl -
    rfl
  · intro dir _ i _ hpresent
    rw [hentry] at hpresent
    cases hpresent
  · intro dir _ dir' _ i _ j _ hpresent
    rw [hentry] at hpresent
    cases hpresent

theorem pageWord_emptyDirectory (a : BitVec 32) : emptyDirectory.pageWord 0x1000#32 a = 0#32 :=
  if_neg (Bool.eq_false_iff.mp Machine.isPresent_zero)

theorem unloaded_emptyDirectory : Unloaded emptyDirectory 0x1000#32 := by
  intro a
  rw [pageWord_emptyDirectory, if_neg (Bool.eq_false_iff.mp Machine.isPresent_zero)]

/-- The section of the file, with its header's fields. -/
def onlySection (above : BitVec 32) : ImageSectionHeader := ⟨16#32, 0x1000#32 + above, 16#32, 0#32, 0x80000000#32⟩

theorem headers_oneSection : (oneSection 0).ntHeaders.imageBase = 0x400000#32 ∧
    (oneSection 0).sectionHeaders = [onlySection 0#32] ∧ (oneSection 16).ntHeaders.imageBase = 0x400000#32 ∧
    (oneSection 16).ntHeaders.sizeOfImage = 0x2000#32 ∧ (oneSection 16).sectionHeaders = [onlySection 16#32] := by
  refine ⟨?_, ?_, ?_, ?_, ?_⟩ <;> decide +kernel

theorem pages_onlySection : (onlySection 0#32).pages 0x400000#32 = some [0x401000#32] ∧
    (onlySection 16#32).pages 0x400000#32 = some [0x400020#32, 0x401020#32] := by
  refine ⟨?_, ?_⟩ <;> decide +kernel

/-- The file loads. -/
theorem exists_loadExecutable_oneSection {above : BitVec 8} (habove : above = 0 ∨ above = 16) :
    ∃ image k, loadExecutable 0x1000#32 (oneSection above) loadingKernel = some (some image, k) := by
  have hload : ((loadExecutable 0x1000#32 (oneSection above) loadingKernel).map fun r => r.1.isSome)
      = some true := by
    rcases habove with rfl | rfl <;> decide +kernel
  obtain ⟨⟨image, k⟩, hload, himage⟩ := Option.map_eq_some_iff.mp hload
  obtain ⟨image, rfl⟩ := Option.isSome_iff_exists.mp himage
  exact ⟨image, k, hload⟩

/-- A section that starts with a page gets that page and no other. -/
theorem pagesAsNeeded_oneSection : ∃ image k,
    loadExecutable 0x1000#32 (oneSection 0) loadingKernel = some (some image, k) ∧
      (oneSection 0).PagesAsNeeded 0x1000#32 k.machine := by
  obtain ⟨image, k, hload⟩ := exists_loadExecutable_oneSection (.inl rfl)
  obtain ⟨hbase, hsection, -⟩ := headers_oneSection
  have hpages := pages_onlySection.1
  have hsupplied : SuppliedSections 0x1000#32 (oneSection 0).ntHeaders.imageBase (oneSection 0).sectionHeaders
      loadingKernel.machine := by
    rw [hsection, hbase, SuppliedSections, hpages]
    exact ⟨⟨⟨rfl, fun _ => by decide⟩, trivial⟩, trivial⟩
  have hseparate : Separate ⟨loadingKernel.machine, {0x1000#32}⟩ := separate_emptyDirectory
  have hiff := pagesAsNeeded_iff hseparate (Set.mem_singleton _) unloaded_emptyDirectory hsupplied hload
  refine ⟨image, k, hload, hiff.mpr fun a _ => ?_⟩
  have htouches : (onlySection 0#32).touches 0x400000#32 a = true ↔ a.toNat / 4096 = 0x401 := by
    rw [touches_iff_exists, hpages, Option.getD_some]
    simp only [List.mem_singleton, exists_eq_left, samePage_iff]
    exact Iff.rfl
  have hmeets : (onlySection 0#32).Meets 0x400000#32 a ↔ a.toNat / 4096 = 0x401 := by
    rw [ImageSectionHeader.meets_iff, show (onlySection 0#32).virtualAddress.toNat = 0x1000 by decide]
    simp only [onlySection, BitVec.toNat_ofNat]
    omega
  have hwritable : (onlySection 0#32).isWritable = true := by decide
  rw [ExecFile.Needs, ExecFile.NeedsWritable, hsection, hbase]
  simp only [List.mem_singleton, exists_eq_left, htouches, hmeets, hwritable, true_and]
  refine ⟨?_, fun sec hfind => ?_⟩
  · rw [show loadingKernel.machine.pageWord 0x1000#32 a = 0#32 from pageWord_emptyDirectory a]
    exact Machine.isPresent_zero
  · have htouch := List.find?_some hfind
    obtain rfl := List.mem_singleton.mp (List.mem_of_find?_eq_some hfind)
    simp only [hwritable, true_iff]
    exact htouches.mp htouch

/-- A section that starts 16 bytes above a page gets the page below, too. -/
theorem not_pagesAsNeeded : ∃ image k,
    loadExecutable 0x1000#32 (oneSection 16) loadingKernel = some (some image, k) ∧
      Separate ⟨loadingKernel.machine, {0x1000#32}⟩ ∧ Unloaded loadingKernel.machine 0x1000#32 ∧
      SuppliedSections 0x1000#32 (oneSection 16).ntHeaders.imageBase (oneSection 16).sectionHeaders
        loadingKernel.machine ∧
      ¬ (oneSection 16).PagesAsNeeded 0x1000#32 k.machine := by
  obtain ⟨image, k, hload⟩ := exists_loadExecutable_oneSection (.inr rfl)
  obtain ⟨-, -, hbase, hsize, hsection⟩ := headers_oneSection
  have hpages := pages_onlySection.2
  refine ⟨image, k, hload, separate_emptyDirectory, unloaded_emptyDirectory, ?_, fun hneeded => ?_⟩
  · rw [hsection, hbase, SuppliedSections, hpages]
    exact ⟨⟨⟨rfl, fun _ => by decide⟩, ⟨rfl, fun _ => by decide⟩, trivial⟩, trivial⟩
  obtain ⟨-, -, t, ht, hmachine, -⟩ := loadImage_of_loadExecutable hload
  have hmachine' : k.machine = emptyDirectory.allocPages 0x1000#32 (onlySection 16#32).flags (onlySection 16#32).flags
      [0x400020#32, 0x401020#32] := by
    rw [hmachine, machine_loadSections ht, hsection, hbase, allocSections, hpages]
    rfl
  have hin : (oneSection 16).InImage 0x400000#32 := by
    rw [ExecFile.InImage, hbase, hsize]
    decide
  have hpresent : ptEntryIsPresent (k.machine.pageWord 0x1000#32 0x400000#32) = true := by
    rw [hmachine']
    decide
  obtain ⟨sec, hsec, hmeets⟩ := (hneeded 0x400000#32 hin).1.mp hpresent
  rw [hsection] at hsec
  obtain rfl := List.mem_singleton.mp hsec
  rw [hbase] at hmeets
  exact absurd (ImageSectionHeader.meets_iff.mp hmeets) (by decide)

end Akos.Loader
