import Akos.Lib.Traced
import Akos.Loader.SectionPages
import Akos.Memory.Temporaries

/-!
# Where the loader reads to

`load_executable` with its reads listed: a call of `volReadFile` into a buffer of the kernel heap, the division by
the file alignment, and a call into the pages of a section. No length that comes from the file is checked before it
is used.
-/

namespace Akos.Loader

open Directories

/-- What the loader does with a number from the file. -/
inductive Access
  /-- A read of `length` bytes into the buffer at `p`, for which `requested` bytes were asked and `blocks` blocks
  recorded. -/
  | buffer (requested length p blocks : BitVec 32)
  | divide (divisor : BitVec 32)
  /-- A read into the new address space, after the loop over `mapped` left the pages of `m`. -/
  | pages (p : BitVec 32) (length : Nat) (mapped : List (BitVec 32)) (m : Machine)

namespace Access

/-- The read stays in its buffer, which is there and has its bytes behind it, the divisor is not 0, and the pages of
the range are the user's, below the kernel, and of those that were mapped for it. -/
def Owned (dir : BitVec 32) : Access → Prop
  | .buffer requested length p blocks =>
    length.toNat ≤ requested.toNat ∧ p ≠ 0#32 ∧ requested.toNat + 4 ≤ 8 * blocks.toNat
  | .divide divisor => divisor ≠ 0#32
  | .pages p length mapped m => ∀ k < length, (p + BitVec.ofNat 32 k).toNat < 0xC0000000 ∧
    (∃ v ∈ mapped, SamePage (p + BitVec.ofNat 32 k) v) ∧ m.userPage dir (p + BitVec.ofNat 32 k) = true

end Access

/-! ### The loader with its reads -/

namespace Reads

open Traced

/-- A buffer is allocated and filled. -/
def buffer (size : BitVec 32) (c : Heap.Clients) : Traced Access (BitVec 32 × Heap.Clients) := do
  let p := (c.heap.kmalloc size).1
  emit [.buffer size size p ((c.apply (.kmalloc size)).header p)]
  lift (Loader.buffer size c)

def loadSection (dir imageBase : BitVec 32) (exec : Bytes) (s : Loading) (sec : ImageSectionHeader) :
    Traced Access Loading := do
  let virts ← lift (sec.pages imageBase)
  let s := { s with machine := s.machine.allocPages dir sec.flags sec.flags virts }
  if sec.isUninitialized then lift (s.write dir (imageBase + sec.virtualAddress) sec.virtualSize.toNat fun _ => 0#8)
  else do
    emit [.pages (imageBase + sec.virtualAddress) sec.sizeOfRawData.toNat virts s.machine]
    lift (s.volReadFile dir (imageBase + sec.virtualAddress) sec.sizeOfRawData.toNat exec)

def loadSections (dir imageBase : BitVec 32) (exec : Bytes) :
    List ImageSectionHeader → Loading → Traced Access Loading
  | [], s => pure s
  | sec :: secs, s => do
    let s ← loadSection dir imageBase exec s sec
    loadSections dir imageBase exec secs s

def loadImage (dir : BitVec 32) (exec : ExecFile) (k : Kernel) : Traced Access (ImageInfo × Kernel) := do
  let table ← buffer exec.tableBytes k.clients
  emit [.divide exec.ntHeaders.fileAlignment]
  if exec.ntHeaders.fileAlignment = 0#32 then lift none
  else do
    let padding ← buffer exec.alignmentBytes table.2
    let t ← loadSections dir exec.ntHeaders.imageBase exec.bytes exec.sectionHeaders
      ⟨k.machine, k.user, exec.sectionsStart⟩
    let info ← lift (Loader.buffer sizeofImageInfo ((padding.2.apply (.kfree padding.1)).apply (.kfree table.1)))
    pure (exec.ntHeaders.imageInfo, ⟨info.2, t.machine, t.user⟩)

def loadExecutable (dir : BitVec 32) (exec : ExecFile) (k : Kernel) : Traced Access (Option ImageInfo × Kernel) :=
  if exec.flags ≠ .file then pure (none, k)
  else do
    let dos ← buffer (BitVec.ofNat 32 sizeofDosHeader) k.clients
    if exec.dosHeader.eMagic ≠ imageDosSignature then
      pure (none, { k with clients := dos.2.apply (.kfree dos.1) })
    else do
      let stub ← buffer exec.stubBytes dos.2
      let nt ← buffer (BitVec.ofNat 32 sizeofNtHeaders) ((stub.2.apply (.kfree dos.1)).apply (.kfree stub.1))
      if exec.ntHeaders.Rejected then pure (none, { k with clients := nt.2 })
      else do
        let r ← loadImage dir exec { k with clients := nt.2.apply (.kfree nt.1) }
        pure (some r.1, r.2)

end Reads

section Erasure

variable {dir imageBase : BitVec 32} {bytes : Bytes}

theorem result_buffer (size : BitVec 32) (c : Heap.Clients) : (Reads.buffer size c).result = buffer size c :=
  Traced.result_bind _ _

theorem result_loadSection (s : Loading) (sec : ImageSectionHeader) :
    (Reads.loadSection dir imageBase bytes s sec).result = s.loadSection dir imageBase bytes sec := by
  rw [Reads.loadSection, Traced.result_bind, Loading.loadSection]
  refine congrArg _ (funext fun virts => ?_)
  dsimp only
  rw [Traced.result_ite, Traced.result_bind]
  rfl

theorem result_loadSections (secs : List ImageSectionHeader) (s : Loading) :
    (Reads.loadSections dir imageBase bytes secs s).result = Loading.loadSections dir imageBase bytes secs s := by
  induction secs generalizing s with
  | nil => rfl
  | cons sec secs ih =>
    rw [Reads.loadSections, Traced.result_bind, result_loadSection, Loading.loadSections]
    exact congrArg _ (funext ih)

/-! The two functions for any parts: what these do is of no account for the order of the steps. -/

section Parts

variable {readBuffer : BitVec 32 → Heap.Clients → Traced Access (BitVec 32 × Heap.Clients)}
  {allocate : BitVec 32 → Heap.Clients → Option (BitVec 32 × Heap.Clients)}

theorem result_image_of_parts (hbuffer : ∀ size c, (readBuffer size c).result = allocate size c)
    {reads : Loading → Traced Access Loading} {loads : Loading → Option Loading}
    (hsections : ∀ s, (reads s).result = loads s) (k : Kernel) (start : Nat) (image : ImageInfo)
    (tableBytes alignment alignmentBytes infoBytes : BitVec 32) :
    (do
      let table ← readBuffer tableBytes k.clients
      Traced.emit [Access.divide alignment]
      if alignment = 0#32 then Traced.lift none
      else do
        let padding ← readBuffer alignmentBytes table.2
        let t ← reads ⟨k.machine, k.user, start⟩
        let info ← Traced.lift (allocate infoBytes ((padding.2.apply (.kfree padding.1)).apply (.kfree table.1)))
        pure (image, (⟨info.2, t.machine, t.user⟩ : Kernel))).result =
    (do
      let (sectionHeader, c) ← allocate tableBytes k.clients
      if alignment = 0#32 then none
      else
        let (tmpBuff, c) ← allocate alignmentBytes c
        let c := c.apply (.kfree tmpBuff)
        let t ← loads ⟨k.machine, k.user, start⟩
        let c := c.apply (.kfree sectionHeader)
        let (_, c) ← allocate infoBytes c
        some (image, (⟨c, t.machine, t.user⟩ : Kernel))) := by
  refine Traced.result_bind_of (hbuffer _ _) fun table => ?_
  obtain ⟨sectionHeader, c⟩ := table
  refine (Traced.result_bind _ _).trans (Traced.result_ite_of rfl ?_)
  refine Traced.result_bind_of (hbuffer _ _) fun padding => ?_
  obtain ⟨tmpBuff, c⟩ := padding
  refine Traced.result_bind_of (hsections _) fun t => ?_
  exact Traced.result_bind_of (Traced.result_lift _) fun info => rfl

theorem result_executable_of_parts (hbuffer : ∀ size c, (readBuffer size c).result = allocate size c)
    {reads : Kernel → Traced Access (ImageInfo × Kernel)} {loads : Kernel → Option (ImageInfo × Kernel)}
    (himage : ∀ k, (reads k).result = loads k) (k : Kernel) (dosBytes stubBytes ntBytes : BitVec 32)
    (badMagic rejected : Prop) [Decidable badMagic] [Decidable rejected] :
    (do
      let dos ← readBuffer dosBytes k.clients
      if badMagic then pure (none, { k with clients := dos.2.apply (.kfree dos.1) })
      else do
        let stub ← readBuffer stubBytes dos.2
        let nt ← readBuffer ntBytes ((stub.2.apply (.kfree dos.1)).apply (.kfree stub.1))
        if rejected then pure (none, { k with clients := nt.2 })
        else do
          let r ← reads { k with clients := nt.2.apply (.kfree nt.1) }
          pure (some r.1, r.2)).result =
    (do
      let (dosHeader, c) ← allocate dosBytes k.clients
      if badMagic then some (none, { k with clients := c.apply (.kfree dosHeader) })
      else
        let (dosStub, c) ← allocate stubBytes c
        let c := (c.apply (.kfree dosHeader)).apply (.kfree dosStub)
        let (peHeader, c) ← allocate ntBytes c
        if rejected then some (none, { k with clients := c })
        else
          let (image, k) ← loads { k with clients := c.apply (.kfree peHeader) }
          some (some image, k)) := by
  refine Traced.result_bind_of (hbuffer _ _) fun dos => ?_
  obtain ⟨dosHeader, c⟩ := dos
  refine Traced.result_ite_of rfl ?_
  refine Traced.result_bind_of (hbuffer _ _) fun stub => ?_
  obtain ⟨dosStub, c⟩ := stub
  refine Traced.result_bind_of (hbuffer _ _) fun nt => ?_
  obtain ⟨peHeader, c⟩ := nt
  refine Traced.result_ite_of rfl ?_
  exact Traced.result_bind_of (himage _) fun r => rfl

end Parts

theorem result_loadImage (exec : ExecFile) (k : Kernel) :
    (Reads.loadImage dir exec k).result = loadImage dir exec k := by
  rw [Reads.loadImage, loadImage]
  exact result_image_of_parts result_buffer (result_loadSections exec.sectionHeaders) k exec.sectionsStart
    exec.ntHeaders.imageInfo exec.tableBytes exec.ntHeaders.fileAlignment exec.alignmentBytes sizeofImageInfo

/-- The listed reads are those of `load_executable`. -/
theorem result_loadExecutable (dir : BitVec 32) (exec : ExecFile) (k : Kernel) :
    (Reads.loadExecutable dir exec k).result = loadExecutable dir exec k := by
  rw [Reads.loadExecutable, loadExecutable]
  by_cases hfile : exec.flags ≠ .file
  · rw [if_pos hfile, if_pos hfile]
    rfl
  · rw [if_neg hfile, if_neg hfile]
    exact result_executable_of_parts result_buffer (result_loadImage exec) k _ exec.stubBytes _
      (exec.dosHeader.eMagic ≠ imageDosSignature) exec.ntHeaders.Rejected

end Erasure

/-! ### Pages that the loops map -/

section Pages

variable {s : Directories} {dir flags a v : BitVec 32} {virts : List (BitVec 32)}

/-- When the loop comes to the page of the address, there are frames for its table and for it where they lack one. -/
def SuppliedAt (dir flags a : BitVec 32) : List (BitVec 32) → Machine → Prop
  | [], _ => False
  | v :: virts, m =>
    SamePage a v ∧ m.Supplied dir v ∨ SuppliedAt dir flags a virts (m.vmmngrAllocVirt dir v flags flags)

/-- A call for `v` maps the page of the address. -/
def Maps (m : Machine) (dir v a : BitVec 32) : Prop :=
  ptEntryIsPresent (m.pageWord dir a) = false ∧ SamePage a v ∧ m.Supplied dir v

/-- One call maps the page it was given to the user if it was not there and frames suffice, and leaves the others. -/
theorem pageWord_allocVirt_cases (h : s.Separate) (hdir : dir ∈ s.live) (hflags : flags.toNat < 4096)
    (huser : flags.getLsbD 2 = true) (v a : BitVec 32) :
    Keeps s (s.machine.vmmngrAllocVirt dir v flags flags) ∧
      (Maps s.machine dir v a → (s.machine.vmmngrAllocVirt dir v flags flags).userPage dir a = true) ∧
      (¬ Maps s.machine dir v a →
        (s.machine.vmmngrAllocVirt dir v flags flags).pageWord dir a = s.machine.pageWord dir a) := by
  by_cases hpage : ptEntryIsPresent (s.machine.pageWord dir v) = true
  · obtain ⟨hkeeps, hwords⟩ := h.allocVirt_present hdir hflags flags hpage
    refine ⟨hkeeps, fun hmaps => ?_, fun _ => hwords dir hdir a⟩
    have habsent := hmaps.1
    rw [hmaps.2.1.pageWord_eq, hpage] at habsent
    cases habsent
  rw [Bool.not_eq_true] at hpage
  by_cases hsupplied : s.machine.Supplied dir v
  · obtain ⟨p, -, -, -, hremaps, -⟩ := h.allocVirt_absent hdir hflags flags hpage hsupplied
    refine ⟨hremaps.toKeeps, fun hmaps => ?_, fun hout => ?_⟩
    · rw [Machine.userPage, hremaps.self a hmaps.2.1, Apart.isPresent_allocatedWord,
        getLsbD_allocatedWord (by decide) (by decide), huser, Bool.or_true]
      rfl
    · refine hremaps.others dir hdir a fun hboth => hout ⟨?_, hboth.1, hsupplied⟩
      rw [hboth.1.pageWord_eq, hpage]
  · obtain ⟨hkeeps, hwords⟩ := h.allocVirt_fails hdir hflags flags hsupplied
    exact ⟨hkeeps, fun hmaps => absurd hmaps.2.2 hsupplied, fun _ => hwords dir hdir a⟩

/-- After the loop the user has the pages it had, and those that were not there and for which frames sufficed. -/
theorem userPage_allocPages_iff (h : s.Separate) (hdir : dir ∈ s.live) (hflags : flags.toNat < 4096)
    (huser : flags.getLsbD 2 = true) (virts : List (BitVec 32)) :
    Keeps s (s.machine.allocPages dir flags flags virts) ∧
      ∀ a, (s.machine.allocPages dir flags flags virts).userPage dir a = true ↔
        s.machine.userPage dir a = true ∨
          ptEntryIsPresent (s.machine.pageWord dir a) = false ∧ SuppliedAt dir flags a virts s.machine := by
  induction virts generalizing s with
  | nil => exact ⟨.refl h, fun a => (or_iff_left fun hnew => hnew.2).symm⟩
  | cons v virts ih =>
    obtain ⟨hfirst, -⟩ := pageWord_allocVirt_cases h hdir hflags huser v v
    obtain ⟨hrest, hiff⟩ := ih hfirst.separate hdir
    refine ⟨hfirst.trans hrest, fun a => (hiff a).trans ?_⟩
    obtain ⟨-, hnew, hold⟩ := pageWord_allocVirt_cases h hdir hflags huser v a
    rw [SuppliedAt]
    by_cases hmaps : Maps s.machine dir v a
    · exact iff_of_true (.inl (hnew hmaps)) (.inr ⟨hmaps.1, .inl hmaps.2⟩)
    · dsimp only
      rw [Machine.userPage, Machine.userPage, hold hmaps]
      refine or_congr_right (and_congr_right fun habsent => (or_iff_right fun hnow => ?_).symm)
      exact hmaps ⟨habsent, hnow⟩

end Pages

namespace ImageSectionHeader

variable {imageBase : BitVec 32} {sec : ImageSectionHeader}

/-- The page of the address is the user's, or it is not there and the loop over the section's pages maps it. -/
def Grants (dir imageBase : BitVec 32) (m : Machine) (sec : ImageSectionHeader) (a : BitVec 32) : Prop :=
  m.userPage dir a = true ∨
    ptEntryIsPresent (m.pageWord dir a) = false ∧ SuppliedAt dir sec.flags a ((sec.pages imageBase).getD []) m

/-- The raw data end below the kernel, and do not begin where the rounding down goes below 0. -/
def InUserSpace (imageBase : BitVec 32) (sec : ImageSectionHeader) : Prop :=
  sec.sizeOfRawData.toNat = 0 ∨
    (imageBase + sec.virtualAddress).toNat + sec.sizeOfRawData.toNat ≤ 0xC0000000 ∧
      ((imageBase + sec.virtualAddress).toNat % 4096 = 0 ∨ 2048 ≤ (imageBase + sec.virtualAddress).toNat)

/-- The loop begins at the first page of the section or below it. -/
theorem pageBase_le_iff : (sec.pageBase imageBase).toNat / 4096 ≤ (imageBase + sec.virtualAddress).toNat / 4096 ↔
    (imageBase + sec.virtualAddress).toNat % 4096 = 0 ∨ 2048 ≤ (imageBase + sec.virtualAddress).toNat := by
  rw [pageBase]
  generalize imageBase + sec.virtualAddress = p
  have hlt := p.isLt
  have hmod : (p % 4096#32).toNat = p.toNat % 4096 := BitVec.toNat_umod
  by_cases hzero : p % 4096#32 = 0#32
  · rw [hzero] at hmod
    rw [if_neg (not_not_intro hzero)]
    exact iff_of_true (Nat.le_refl _) (.inl hmod.symm)
  · have hne : p.toNat % 4096 ≠ 0 := fun h => hzero (BitVec.eq_of_toNat_eq (hmod.trans h))
    have hpad : (4096#32 - p % 4096#32).toNat = 4096 - p.toNat % 4096 := by
      rw [BitVec.toNat_sub_of_le (by rw [BitVec.le_def, hmod, show (4096#32).toNat = 4096 from rfl]; omega), hmod]
      rfl
    rw [if_pos hzero, BitVec.toNat_sub, hpad]
    omega

/-- Raw data that do not reach the end of the address space end in the last page of the loop. -/
theorem toNat_pageTop (hinit : sec.isUninitialized = false)
    (hfits : (imageBase + sec.virtualAddress).toNat + sec.sizeOfRawData.toNat ≤ 0xC0000000) :
    (sec.pageTop imageBase).toNat
      = ((imageBase + sec.virtualAddress).toNat + sec.sizeOfRawData.toNat + 4095) / 4096 * 4096 := by
  rw [pageTop, hinit, if_neg Bool.false_ne_true]
  generalize imageBase + sec.virtualAddress = p at hfits ⊢
  have htop : (p + sec.sizeOfRawData).toNat = p.toNat + sec.sizeOfRawData.toNat := by
    rw [BitVec.toNat_add]
    omega
  generalize p + sec.sizeOfRawData = top at htop ⊢
  rw [← htop] at hfits ⊢
  have hmod : (top % 4096#32).toNat = top.toNat % 4096 := BitVec.toNat_umod
  by_cases hzero : top % 4096#32 = 0#32
  · rw [hzero, show (0#32).toNat = 0 from rfl] at hmod
    rw [if_neg (not_not_intro hzero)]
    omega
  · have hne : top.toNat % 4096 ≠ 0 := fun h => hzero (BitVec.eq_of_toNat_eq (hmod.trans h))
    have hpad : (4096#32 - top % 4096#32).toNat = 4096 - top.toNat % 4096 := by
      rw [BitVec.toNat_sub_of_le (by rw [BitVec.le_def, hmod, show (4096#32).toNat = 4096 from rfl]; omega), hmod]
      rfl
    rw [if_pos hzero, BitVec.toNat_add, hpad]
    omega

/-- The loop visits all pages of the raw data, and these lie below the kernel. -/
theorem inUserSpace_iff (hinit : sec.isUninitialized = false) :
    sec.InUserSpace imageBase ↔ ∀ k < sec.sizeOfRawData.toNat,
      (imageBase + sec.virtualAddress + BitVec.ofNat 32 k).toNat < 0xC0000000 ∧
        sec.touches imageBase (imageBase + sec.virtualAddress + BitVec.ofNat 32 k) = true := by
  have hsize := sec.sizeOfRawData.isLt
  have hlt := (imageBase + sec.virtualAddress).isLt
  simp only [touches_iff]
  have hbase := @pageBase_le_iff imageBase sec
  constructor
  · intro hin k hk
    obtain hzero | ⟨hfits, hlow⟩ := hin
    · omega
    have htop := toNat_pageTop hinit hfits
    have hbyte : (imageBase + sec.virtualAddress + BitVec.ofNat 32 k).toNat
        = (imageBase + sec.virtualAddress).toNat + k := by
      rw [BitVec.toNat_add, BitVec.toNat_ofNat]
      omega
    have hfirst := hbase.mpr hlow
    rw [hbyte, htop]
    refine ⟨by omega, ?_, by omega⟩
    exact Nat.le_trans hfirst (Nat.div_le_div_right (Nat.le_add_right _ _))
  · intro hall
    rcases Nat.eq_zero_or_pos sec.sizeOfRawData.toNat with hzero | hpos
    · exact .inl hzero
    obtain ⟨hfirst, hpage, -⟩ := hall 0 hpos
    rw [BitVec.add_zero] at hfirst hpage
    refine .inr ⟨?_, hbase.mp hpage⟩
    -- the first byte above the limit would be one of the range
    by_contra hover
    obtain ⟨hbelow, -⟩ := hall (0xC0000000 - (imageBase + sec.virtualAddress).toNat) (by omega)
    rw [BitVec.toNat_add, BitVec.toNat_ofNat] at hbelow
    omega

end ImageSectionHeader

/-! ### Reads into sections -/

/-- The raw data of each section that the loader comes to lie below the kernel, in pages that the loop maps for the
user. It comes to no section behind an uninitialized one that is not in pages of the user. -/
def SectionsFit (dir imageBase : BitVec 32) : List ImageSectionHeader → Machine → Prop
  | [], _ => True
  | sec :: secs, m =>
    let p := imageBase + sec.virtualAddress
    let m' := m.allocPages dir sec.flags sec.flags ((sec.pages imageBase).getD [])
    if sec.isUninitialized then
      (∀ k < sec.virtualSize.toNat, sec.Grants dir imageBase m (p + BitVec.ofNat 32 k)) →
        SectionsFit dir imageBase secs m'
    else
      (sec.InUserSpace imageBase ∧ ∀ k < sec.sizeOfRawData.toNat, sec.Grants dir imageBase m (p + BitVec.ofNat 32 k)) ∧
        SectionsFit dir imageBase secs m'

section Sections

variable {live : Set (BitVec 32)} {dir imageBase : BitVec 32} {bytes : Bytes} {s t : Loading}
  {sec : ImageSectionHeader}

/-- The state after the loop over the pages of a section. -/
def Loading.mapped (dir imageBase : BitVec 32) (sec : ImageSectionHeader) (s : Loading) : Loading :=
  { s with machine := s.machine.allocPages dir sec.flags sec.flags ((sec.pages imageBase).getD []) }

theorem userPage_mapped_iff (h : Separate ⟨s.machine, live⟩) (hdir : dir ∈ live) (a : BitVec 32) :
    (s.mapped dir imageBase sec).machine.userPage dir a = true ↔ sec.Grants dir imageBase s.machine a :=
  (userPage_allocPages_iff h hdir (flags_lt sec) (flags_getLsbD_user sec) _).2 a

theorem separate_mapped (h : Separate ⟨s.machine, live⟩) (hdir : dir ∈ live) :
    Separate ⟨(s.mapped dir imageBase sec).machine, live⟩ :=
  (userPage_allocPages_iff h hdir (flags_lt sec) (flags_getLsbD_user sec) _).1.separate

theorem loading_write_eq_some_iff {p : BitVec 32} {n : Nat} {data : Nat → BitVec 8} :
    (∃ t, s.write dir p n data = some t) ↔ ∀ k < n, s.machine.userPage dir (p + BitVec.ofNat 32 k) = true := by
  rw [Loading.write]
  split
  · next hpages => exact iff_of_true ⟨_, rfl⟩ hpages
  · next hpages =>
    refine iff_of_false (fun hsome => ?_) hpages
    obtain ⟨t, ht⟩ := hsome
    cases ht

/-- What an uninitialized section needs to be cleared. -/
theorem reads_loadSection_uninitialized (h : Separate ⟨s.machine, live⟩) (hdir : dir ∈ live)
    (hinit : sec.isUninitialized = true) {β : Type} (f : Loading → Traced Access β) (P : Machine → Prop)
    (hf : ∀ t : Loading, t.machine = (s.mapped dir imageBase sec).machine →
      (Traced.Within (Access.Owned dir) (f t) ↔ P t.machine)) :
    Traced.Within (Access.Owned dir) (Reads.loadSection dir imageBase bytes s sec >>= f) ↔
      ((∀ k < sec.virtualSize.toNat, sec.Grants dir imageBase s.machine
        (imageBase + sec.virtualAddress + BitVec.ofNat 32 k)) → P (s.mapped dir imageBase sec).machine) := by
  obtain ⟨virts, hvirts, -⟩ := sec.exists_pages imageBase
  have hload : Reads.loadSection dir imageBase bytes s sec = Traced.lift ((s.mapped dir imageBase sec).write dir
      (imageBase + sec.virtualAddress) sec.virtualSize.toNat fun _ => 0#8) := by
    rw [Reads.loadSection, Loading.mapped, hvirts, Traced.lift_some_bind, if_pos hinit]
    rfl
  simp only [← userPage_mapped_iff h hdir]
  rw [hload, Traced.within_bind_iff, and_iff_right (Traced.within_lift _), ← loading_write_eq_some_iff]
  constructor
  · intro hrest hcleared
    obtain ⟨t, ht⟩ := hcleared
    have hmachine : t.machine = (s.mapped dir imageBase sec).machine := by rw [Loading.eq_of_write ht]
    exact hmachine ▸ (hf t hmachine).mp (hrest t ht)
  · intro hrest t ht
    have hmachine : t.machine = (s.mapped dir imageBase sec).machine := by rw [Loading.eq_of_write ht]
    exact (hf t hmachine).mpr (hmachine ▸ hrest ⟨t, ht⟩)

/-- What a section with raw data needs to be read. -/
theorem reads_loadSection_initialized (h : Separate ⟨s.machine, live⟩) (hdir : dir ∈ live)
    (hinit : sec.isUninitialized = false) {β : Type} (f : Loading → Traced Access β) (P : Machine → Prop)
    (hf : ∀ t : Loading, t.machine = (s.mapped dir imageBase sec).machine →
      (Traced.Within (Access.Owned dir) (f t) ↔ P t.machine)) :
    Traced.Within (Access.Owned dir) (Reads.loadSection dir imageBase bytes s sec >>= f) ↔
      (sec.InUserSpace imageBase ∧ ∀ k < sec.sizeOfRawData.toNat, sec.Grants dir imageBase s.machine
        (imageBase + sec.virtualAddress + BitVec.ofNat 32 k)) ∧ P (s.mapped dir imageBase sec).machine := by
  obtain ⟨virts, hvirts, -⟩ := sec.exists_pages imageBase
  have hload : Reads.loadSection dir imageBase bytes s sec = (do
      Traced.emit [.pages (imageBase + sec.virtualAddress) sec.sizeOfRawData.toNat virts
        (s.mapped dir imageBase sec).machine]
      Traced.lift ((s.mapped dir imageBase sec).volReadFile dir (imageBase + sec.virtualAddress)
        sec.sizeOfRawData.toNat bytes)) := by
    rw [Reads.loadSection, Loading.mapped, hvirts, Traced.lift_some_bind,
      if_neg (by rw [hinit]; exact Bool.false_ne_true)]
    rfl
  have howned : Access.Owned dir (.pages (imageBase + sec.virtualAddress) sec.sizeOfRawData.toNat virts
      (s.mapped dir imageBase sec).machine) ↔ sec.InUserSpace imageBase ∧ ∀ k < sec.sizeOfRawData.toNat,
        sec.Grants dir imageBase s.machine (imageBase + sec.virtualAddress + BitVec.ofNat 32 k) := by
    rw [ImageSectionHeader.inUserSpace_iff hinit, ← forall₂_and]
    refine forall₂_congr fun k _ => ?_
    rw [userPage_mapped_iff h hdir, touches_iff_exists, hvirts, Option.getD_some, and_assoc]
  rw [Traced.within_bind_iff, hload, Traced.within_bind_iff, Traced.within_emit_iff, List.forall_mem_singleton,
    howned, and_iff_left fun _ _ => Traced.within_lift _]
  refine and_congr_right fun hfits => ?_
  have hpages : ∀ k < sec.sizeOfRawData.toNat, (s.mapped dir imageBase sec).machine.userPage dir
      (imageBase + sec.virtualAddress + BitVec.ofNat 32 k) = true := fun k hk =>
    (userPage_mapped_iff h hdir _).mpr (hfits.2 k hk)
  obtain ⟨u, hu⟩ := loading_write_eq_some_iff.mpr hpages
  obtain ⟨t, hread⟩ : ∃ t, (s.mapped dir imageBase sec).volReadFile dir (imageBase + sec.virtualAddress)
      sec.sizeOfRawData.toNat bytes = some t := ⟨_, Option.map_eq_some_iff.mpr ⟨u, hu, rfl⟩⟩
  have hmachine : t.machine = (s.mapped dir imageBase sec).machine := by rw [Loading.eq_of_volReadFile hread]
  rw [Traced.result_bind, Traced.result_emit, Option.bind_some, Traced.result_lift, hread, ← hmachine, ← hf t hmachine]
  constructor
  · intro hrest
    exact hrest t rfl
  · intro hrest t' ht
    exact Option.some.inj ht ▸ hrest

theorem within_loadSections_iff {secs : List ImageSectionHeader} (h : Separate ⟨s.machine, live⟩)
    (hdir : dir ∈ live) : Traced.Within (Access.Owned dir) (Reads.loadSections dir imageBase bytes secs s) ↔
      SectionsFit dir imageBase secs s.machine := by
  induction secs generalizing s with
  | nil => exact iff_of_true (Traced.within_pure _) trivial
  | cons sec secs ih =>
    have hrest : ∀ t : Loading, t.machine = (s.mapped dir imageBase sec).machine →
        (Traced.Within (Access.Owned dir) (Reads.loadSections dir imageBase bytes secs t) ↔
          SectionsFit dir imageBase secs t.machine) := fun t ht =>
      ih (by rw [ht]; exact separate_mapped h hdir)
    rw [Reads.loadSections, SectionsFit]
    cases hinit : sec.isUninitialized with
    | true =>
      rw [if_pos rfl]
      exact reads_loadSection_uninitialized h hdir hinit _ (SectionsFit dir imageBase secs) hrest
    | false =>
      rw [if_neg Bool.false_ne_true]
      exact reads_loadSection_initialized h hdir hinit _ (SectionsFit dir imageBase secs) hrest

end Sections

/-! ### Reads into buffers -/

section Buffers

variable {dir : BitVec 32} {β : Type}

theorem within_buffer_iff (size : BitVec 32) (c : Heap.Clients) :
    Traced.Within (Access.Owned dir) (Reads.buffer size c) ↔ c.heap.Finds size := by
  have howned : Access.Owned dir (.buffer size size (c.heap.kmalloc size).1
      ((c.apply (.kmalloc size)).header (c.heap.kmalloc size).1)) ↔ c.heap.Finds size := by
    rw [Heap.finds_iff, Access.Owned, and_iff_right (Nat.le_refl _)]
    refine and_congr_right fun hne => ?_
    rw [Heap.Clients.header, Heap.heap_kmalloc, Heap.kmalloc_recorded hne, Heap.toNat_blockAmt_eq]
    omega
  rw [Reads.buffer, Traced.within_bind_iff, Traced.within_emit_iff, List.forall_mem_singleton, howned]
  exact and_iff_left fun _ _ => Traced.within_lift _

theorem buffer_of_finds {size : BitVec 32} {c : Heap.Clients} (hfinds : c.heap.Finds size) :
    buffer size c = some ((c.heap.kmalloc size).1, c.apply (.kmalloc size)) := by
  obtain ⟨hne, hsize⟩ := Heap.finds_iff.mp hfinds
  refine if_neg fun hfails => ?_
  exact hfails.2.elim hne (Nat.not_lt_of_le hsize)

/-- A buffer is read as it should be when the heap has room for it, and then the loader goes on. -/
theorem within_buffer_bind_iff {size : BitVec 32} {c : Heap.Clients}
    {f : BitVec 32 × Heap.Clients → Traced Access β} {P : Prop}
    (hf : c.heap.Finds size → ∀ p c', p = (c.heap.kmalloc size).1 → c'.heap = (c.heap.kmalloc size).2 →
      (Traced.Within (Access.Owned dir) (f (p, c')) ↔ P)) :
    Traced.Within (Access.Owned dir) (Reads.buffer size c >>= f) ↔ c.heap.Finds size ∧ P := by
  rw [Traced.within_bind_iff, within_buffer_iff]
  refine and_congr_right fun hfinds => ?_
  rw [result_buffer, buffer_of_finds hfinds]
  have hrest := hf hfinds _ _ rfl (Heap.heap_kmalloc c size)
  generalize ((c.heap.kmalloc size).1, c.apply (.kmalloc size)) = r at hrest ⊢
  rw [← hrest]
  exact ⟨fun hall => hall r rfl, fun hr r' hr' => Option.some.inj hr' ▸ hr⟩

end Buffers

/-! ### The loader reads into memory it owns -/

/-- Every read of `load_executable` stays in its buffer or in pages it mapped, and the alignment it divides by is
not 0. -/
def OwnsReads (dir : BitVec 32) (exec : ExecFile) (k : Kernel) : Prop :=
  Traced.Within (Access.Owned dir) (Reads.loadExecutable dir exec k)

namespace ExecFile

/-- What the second half needs: room for section table and padding, an alignment, and sections that fit. -/
def ImageFits (exec : ExecFile) (dir : BitVec 32) (heap : Heap) (m : Machine) : Prop :=
  heap.Finds exec.tableBytes ∧ exec.ntHeaders.fileAlignment ≠ 0#32 ∧
    (heap.kmalloc exec.tableBytes).2.Finds exec.alignmentBytes ∧
    SectionsFit dir exec.ntHeaders.imageBase exec.sectionHeaders m

/-- What a file needs that is loaded as far as its headers let it. -/
def Fits (exec : ExecFile) (dir : BitVec 32) (heap : Heap) (m : Machine) : Prop :=
  exec.flags = .file → heap.Finds (BitVec.ofNat 32 sizeofDosHeader) ∧
    (exec.dosHeader.eMagic = imageDosSignature →
      (heap.kmalloc (BitVec.ofNat 32 sizeofDosHeader)).2.Finds exec.stubBytes ∧
      heap.Finds (BitVec.ofNat 32 sizeofNtHeaders) ∧
      (¬ exec.ntHeaders.Rejected → exec.ImageFits dir heap m))

end ExecFile

section Theorem

variable {live : Set (BitVec 32)} {dir : BitVec 32} {exec : ExecFile} {k : Kernel} {heap : Heap}

theorem within_loadImage_iff (h : Separate ⟨k.machine, live⟩) (hdir : dir ∈ live)
    (hsame : Heap.SameBlocks heap k.clients.heap) :
    Traced.Within (Access.Owned dir) (Reads.loadImage dir exec k) ↔ exec.ImageFits dir heap k.machine := by
  rw [Reads.loadImage, ExecFile.ImageFits, ← @Heap.SameBlocks.finds _ _ exec.tableBytes hsame]
  refine within_buffer_bind_iff fun htable _ table _ hheap => ?_
  rw [Traced.within_emit_bind_iff, List.forall_mem_singleton]
  refine and_congr_right fun halignment => ?_
  have hafter := (hsame.kmalloc (hsame.finds.mp htable)).1
  rw [← hheap] at hafter
  rw [if_neg halignment, ← hafter.finds]
  refine within_buffer_bind_iff fun _ _ padding _ _ => ?_
  rw [Traced.within_bind_iff, and_iff_left fun t _ => ?_]
  · exact within_loadSections_iff h hdir
  · exact Traced.Within.bind (Traced.within_lift _) fun _ _ => Traced.within_pure _

/-- The loader reads into memory it owns exactly if the file fits: the heap has room for the buffers that the headers
ask for, the file alignment is not 0, and the raw data of the sections end below the kernel, in pages that are free
for them. -/
theorem ownsReads_iff (h : Separate ⟨k.machine, live⟩) (hdir : dir ∈ live) :
    OwnsReads dir exec k ↔ exec.Fits dir k.clients.heap k.machine := by
  rw [OwnsReads, Reads.loadExecutable, ExecFile.Fits]
  by_cases hfile : exec.flags = .file
  swap
  · rw [if_pos hfile]
    exact iff_of_true (Traced.within_pure _) fun heq => absurd heq hfile
  rw [if_neg (not_not_intro hfile), forall_prop_of_true hfile]
  refine within_buffer_bind_iff fun hdos dosHeader c hdosHeader hc => ?_
  by_cases hmagic : exec.dosHeader.eMagic = imageDosSignature
  swap
  · rw [if_pos hmagic]
    exact iff_of_true (Traced.within_pure _) fun heq => absurd heq hmagic
  rw [if_neg (not_not_intro hmagic), forall_prop_of_true hmagic, ← hc]
  refine within_buffer_bind_iff fun hstub dosStub c' hdosStub hc' => ?_
  -- header and stub are freed, and the heap is as it was
  have hsame : Heap.SameBlocks k.clients.heap ((c'.apply (.kfree dosHeader)).apply (.kfree dosStub)).heap := by
    rw [hc] at hstub hdosStub hc'
    rw [Heap.heap_kfree, Heap.heap_kfree, hc', hdosHeader, hdosStub]
    exact hdos.sameBlocks_kfree_two hstub
  rw [← hsame.finds]
  refine within_buffer_bind_iff fun hnt peHeader c'' hpeHeader hc'' => ?_
  by_cases hrejected : exec.ntHeaders.Rejected
  · rw [if_pos hrejected]
    exact iff_of_true (Traced.within_pure _) fun haccepted => absurd hrejected haccepted
  · rw [if_neg hrejected, forall_prop_of_true hrejected, Traced.within_bind_iff,
      and_iff_left fun _ _ => Traced.within_pure _]
    refine within_loadImage_iff h hdir ?_
    dsimp only
    rw [Heap.heap_kfree, hc'', hpeHeader]
    exact hsame.trans hnt.sameBlocks_kfree

end Theorem

/-- The file with one section fits. -/
theorem ownsReads_oneSection : OwnsReads 0x1000#32 (oneSection 0) loadingKernel := by
  obtain ⟨hbase, hsection, -⟩ := headers_oneSection
  have hpages := pages_onlySection.1
  have hseparate : Separate ⟨loadingKernel.machine, {0x1000#32}⟩ := separate_emptyDirectory
  refine (ownsReads_iff hseparate (Set.mem_singleton _)).mpr fun _ => ⟨?_, fun _ => ⟨?_, ?_, fun _ => ⟨?_, ?_, ?_, ?_⟩⟩⟩
  · exact Heap.finds_iff.mpr (by decide +kernel)
  · exact Heap.finds_iff.mpr (by decide +kernel)
  · exact Heap.finds_iff.mpr (by decide +kernel)
  · exact Heap.finds_iff.mpr (by decide +kernel)
  · decide +kernel
  · exact Heap.finds_iff.mpr (by decide +kernel)
  rw [hsection, hbase, SectionsFit]
  refine ⟨⟨.inr ⟨by decide, by decide⟩, fun k hk => .inr ⟨?_, ?_⟩⟩, trivial⟩
  · rw [show loadingKernel.machine.pageWord 0x1000#32 _ = 0#32 from pageWord_emptyDirectory _]
    exact Machine.isPresent_zero
  · rw [hpages, Option.getD_some]
    refine .inl ⟨?_, rfl, fun _ => by decide⟩
    have hlt : k < 16 := hk
    rw [samePage_iff, onlySection, BitVec.toNat_add, BitVec.toNat_ofNat]
    norm_num
    omega

/-- A file of a signature and zeros. -/
def signatureOnly : ExecFile where
  flags := .file
  bytes := fun i => ([(0, 0x4D), (1, 0x5A)].lookup i).getD 0

/-- It puts the NT headers at 0, and a stub of -64 bytes is read to the null pointer. -/
theorem not_ownsReads : Separate ⟨loadingKernel.machine, {0x1000#32}⟩ ∧
    ¬ OwnsReads 0x1000#32 signatureOnly loadingKernel := by
  refine ⟨separate_emptyDirectory, fun howns => ?_⟩
  have hdos : loadingKernel.clients.heap.Finds (BitVec.ofNat 32 sizeofDosHeader) :=
    Heap.finds_iff.mpr (by decide +kernel)
  have hstub : signatureOnly.stubBytes = 0xFFFFFFC0#32 := by decide +kernel
  rw [OwnsReads, Reads.loadExecutable, if_neg (by decide)] at howns
  have hrest := (Traced.within_bind_iff.mp howns).2 _ ((result_buffer _ _).trans (buffer_of_finds hdos))
  rw [if_neg (by decide +kernel)] at hrest
  have hfinds := (within_buffer_iff _ _).mp (Traced.within_bind_iff.mp hrest).1
  obtain ⟨-, first, hfits, -⟩ := hfinds
  rw [hstub, Heap.blocksFor] at hfits
  norm_num at hfits
  omega

end Akos.Loader
