import Akos.Sched.Break

/-!
# The layout of an address space

Image and heap of a process grow up from the image base, the user stacks down from 0x80000000, and kernel
stacks, window buffers and the kernel lie above. The loader checks where an image starts and nothing checks
where image and heap end, so that it depends on the image whether they keep clear of the first stack page.
-/

namespace Akos.Sched

open Transition

namespace ProcBrk

/-- The size of the image in whole pages. -/
def fileSize (b : ProcBrk) : BitVec 32 :=
  if b.imageSize % pageSize ≠ 0#32 then b.imageSize + (pageSize - b.imageSize % pageSize) else b.imageSize

/-- The end of the image in whole pages. -/
def fileEnd (b : ProcBrk) : BitVec 32 := b.imageBase + b.fileSize

theorem imagePages_eq {proc : Process} {b : ProcBrk} (h : proc.imageSize = b.imageSize) :
    imagePages proc = b.fileSize := by
  rw [imagePages, fileSize, h]
  rfl

/-- The pages of the image that `terminateProcessById` unmaps, and after them those of the heap. -/
def unmappedPages (b : ProcBrk) : Option (List (BitVec 32)) := do
  let image ← Machine.pagesFrom b.imageBase b.fileEnd
  let heap ← Machine.pagesFrom b.fileEnd (b.fileEnd + sbrkLim)
  some (image ++ heap)

end ProcBrk

/-- `USER_KERNEL_STACK_ALLOC_BASE-PAGE_SIZE`: from here on lie the first user stack, the kernel stacks, the
window buffers and the kernel. -/
abbrev firstUserStack : BitVec 32 := 0x7FFFF000#32

/-- A call of `inc_proc_brk` that moves the break. -/
def MovesBrk (s : ProcBrk × Machine) (inc : BitVec 32) (t : ProcBrk × Machine) : Prop :=
  ∃ r, r ≠ 0#32 ∧ incProcBrk inc s.1 s.2 = some (r, t)

/-- Neither the memory up to the break, after any successful calls, nor a page that is unmapped at the end
reaches the first user stack or what lies above it. -/
def KeepsClear (image : ImageInfo) : Prop :=
  (∀ m₀ incs b m, Run MovesBrk (ProcBrk.ofImage image, m₀) incs (b, m) →
    ∀ a : BitVec 32, image.imageBase ≤ a → a < b.brk → a < firstUserStack) ∧
  ∃ pages, (ProcBrk.ofImage image).unmappedPages = some pages ∧ ∀ virt ∈ pages, virt < firstUserStack

/-- The heap has room below the first user stack, or its limit wrapped around to below the image. -/
def HasRoom (image : ImageInfo) : Prop :=
  (ProcBrk.ofImage image).fileEnd.toNat < 0x40000000 ∧
    ((ProcBrk.ofImage image).imageEnd.toNat ≤ 0x3FFFF000 ∨
      (ProcBrk.ofImage image).imageEnd.toNat + 0x40000000 ≤ image.imageBase.toNat)

instance (image : ImageInfo) : Decidable (HasRoom image) := inferInstanceAs (Decidable (_ ∧ _))

variable {b : ProcBrk} {m : Machine} {image : ImageInfo} {inc : BitVec 32}

theorem toNat_fileSize (b : ProcBrk) : b.fileSize.toNat % 4096 = 0 ∧
    ∃ pad < 4096, (b.imageSize.toNat + pad) % 2 ^ 32 = b.fileSize.toNat := by
  have hlt := b.imageSize.isLt
  have hmod : (b.imageSize % pageSize).toNat = b.imageSize.toNat % 4096 := BitVec.toNat_umod
  unfold ProcBrk.fileSize
  split
  · next hne =>
    have hpos : b.imageSize.toNat % 4096 ≠ 0 := fun hzero => hne (BitVec.eq_of_toNat_eq (hmod.trans hzero))
    have hle : b.imageSize % pageSize ≤ pageSize := by
      rw [BitVec.le_def, hmod]
      exact Nat.le_of_lt (Nat.mod_lt _ (by decide))
    rw [BitVec.toNat_add, BitVec.toNat_sub_of_le hle, hmod, show pageSize.toNat = 4096 from rfl]
    exact ⟨by omega, 4096 - b.imageSize.toNat % 4096, by omega, rfl⟩
  · next heq =>
    rw [not_ne_iff] at heq
    rw [heq] at hmod
    refine ⟨hmod.symm, 0, by decide, ?_⟩
    rw [Nat.add_zero, Nat.mod_eq_of_lt hlt]

/-- The end in whole pages is less than a page above the end, and as far from a page as the base. -/
theorem toNat_fileEnd (b : ProcBrk) : b.fileEnd.toNat % 4096 = b.imageBase.toNat % 4096 ∧
    ∃ pad < 4096, (b.imageEnd.toNat + pad) % 2 ^ 32 = b.fileEnd.toNat := by
  obtain ⟨hmod, pad, hpad, heq⟩ := toNat_fileSize b
  rw [ProcBrk.fileEnd, ProcBrk.imageEnd, BitVec.toNat_add, BitVec.toNat_add]
  exact ⟨by omega, pad, hpad, by omega⟩

/-- Both loops of the teardown end. -/
theorem exists_unmappedPages (b : ProcBrk) : ∃ pages, b.unmappedPages = some pages ∧ ∀ virt, virt ∈ pages ↔
    (∃ k, virt.toNat = b.imageBase.toNat + 4096 * k ∧ virt.toNat < b.fileEnd.toNat) ∨
      ∃ k, virt.toNat = b.fileEnd.toNat + 4096 * k ∧ virt.toNat < (b.fileEnd + sbrkLim).toNat := by
  have hend := b.fileEnd.isLt
  obtain ⟨hmod, -⟩ := toNat_fileEnd b
  have hlimit : (b.fileEnd + sbrkLim).toNat % 4096 = b.fileEnd.toNat % 4096 := by
    rw [BitVec.toNat_add, show sbrkLim.toNat = 0x40000000 from rfl]
    omega
  have hlt := (b.fileEnd + sbrkLim).isLt
  obtain ⟨image, himage, hmem⟩ := Machine.exists_pagesFrom (show b.fileEnd.toNat ≤ 0xFFFFF000 +
    b.imageBase.toNat % 4096 by omega)
  obtain ⟨heap, hheap, hmem'⟩ := Machine.exists_pagesFrom (show (b.fileEnd + sbrkLim).toNat ≤ 0xFFFFF000 +
    b.fileEnd.toNat % 4096 by omega)
  refine ⟨image ++ heap, ?_, fun virt => ?_⟩
  · rw [ProcBrk.unmappedPages, himage, hheap]
    rfl
  · rw [List.mem_append, hmem, hmem']

/-! ### The teardown -/

/-- What is unmapped keeps clear exactly if the image ends below 0x40000000, in whole pages. -/
theorem unmapped_lt_iff (hlo : b.imageBase.toNat ≤ 0x80000000) :
    (∃ pages, b.unmappedPages = some pages ∧ ∀ virt ∈ pages, virt < firstUserStack) ↔
      b.fileEnd.toNat < 0x40000000 := by
  obtain ⟨pages, hpages, hmem⟩ := exists_unmappedPages b
  obtain ⟨hmod, -⟩ := toNat_fileEnd b
  have hend := b.fileEnd.isLt
  have hlimit : (b.fileEnd + sbrkLim).toNat = (b.fileEnd.toNat + 0x40000000) % 2 ^ 32 := BitVec.toNat_add _ _
  constructor
  · rintro ⟨pages', hpages', hbelow⟩
    obtain rfl := Option.some.inj (hpages.symm.trans hpages')
    -- the last page that a loop unmaps is the one below its bound
    have hlast : ∀ n : Nat, n < 2 ^ 32 → ((∃ k, n = b.imageBase.toNat + 4096 * k ∧ n < b.fileEnd.toNat) ∨
        ∃ k, n = b.fileEnd.toNat + 4096 * k ∧ n < (b.fileEnd + sbrkLim).toNat) → n < 0x7FFFF000 := by
      intro n hn hvisit
      have hmem' : BitVec.ofNat 32 n ∈ pages := by
        rw [hmem, BitVec.toNat_ofNat, Nat.mod_eq_of_lt hn]
        exact hvisit
      have hlt := hbelow _ hmem'
      rw [BitVec.lt_def, BitVec.toNat_ofNat, Nat.mod_eq_of_lt hn] at hlt
      exact hlt
    by_contra hge
    by_cases hwrap : b.fileEnd.toNat < 0xC0000000
    · have h := hlast (b.fileEnd.toNat + 4096 * (0x40000000 / 4096 - 1)) (by omega)
        (.inr ⟨_, rfl, by omega⟩)
      omega
    · have h := hlast (b.imageBase.toNat + 4096 * ((b.fileEnd.toNat - b.imageBase.toNat) / 4096 - 1)) (by omega)
        (.inl ⟨_, rfl, by omega⟩)
      omega
  · intro hlt
    refine ⟨pages, hpages, fun virt hvirt => ?_⟩
    rw [BitVec.lt_def, show firstUserStack.toNat = 0x7FFFF000 from rfl]
    rcases (hmem virt).mp hvirt with ⟨k, hk, hvirt⟩ | ⟨k, hk, hvirt⟩ <;> omega

/-! ### The break -/

/-- After calls the break is where it was or below the limit. -/
theorem brk_of_run {m₀ : Machine} {incs : List (BitVec 32)}
    (hrun : Run MovesBrk (ProcBrk.ofImage image, m₀) incs (b, m)) :
    b.brk = (ProcBrk.ofImage image).imageEnd ∨ ((ProcBrk.ofImage image).imageEnd ≠ 0#32 ∧
      b.brk ≤ (ProcBrk.ofImage image).imageEnd + sbrkLim) := by
  refine (hrun.invariant (fun s => s.1.imageEnd = (ProcBrk.ofImage image).imageEnd ∧
    (s.1.brk = (ProcBrk.ofImage image).imageEnd ∨ ((ProcBrk.ofImage image).imageEnd ≠ 0#32 ∧
      s.1.brk ≤ (ProcBrk.ofImage image).imageEnd + sbrkLim))) ?_ ⟨rfl, .inl rfl⟩).2
  rintro ⟨b, m⟩ inc ⟨b', m'⟩ ⟨himage, hbrk⟩ ⟨r, hr, heq⟩
  by_cases haccepts : b.Accepts inc
  · have hnew : b' = { b with brk := b.brk + inc } := by
      rw [incProcBrk_of_accepts haccepts] at heq
      split at heq
      · obtain ⟨virts, -, heq⟩ := Option.map_eq_some_iff.mp heq
        exact (Prod.mk.inj (Prod.mk.inj heq).2).1.symm
      · exact (Prod.mk.inj (Prod.mk.inj (Option.some.inj heq)).2).1.symm
    subst hnew
    refine ⟨himage, .inr ⟨fun hzero => ?_, ?_⟩⟩
    · rcases hbrk with hbrk | ⟨hne, -⟩
      · exact haccepts.1 (hbrk.trans hzero)
      · exact hne hzero
    · rw [← himage]
      exact BitVec.not_lt.mp haccepts.2
  · rw [incProcBrk_of_not_accepts haccepts] at heq
    exact absurd (Prod.mk.inj (Option.some.inj heq)).1.symm hr

/-- A call takes the break of a fresh process to its limit, if that is not in the last page. -/
theorem exists_run_to_limit (m₀ : Machine) (hne : (ProcBrk.ofImage image).imageEnd ≠ 0#32)
    (hle : (ProcBrk.ofImage image).imageEnd + sbrkLim ≤ 0xFFFFF000#32) :
    ∃ b m, Run MovesBrk (ProcBrk.ofImage image, m₀) [sbrkLim] (b, m) ∧
      b.brk = (ProcBrk.ofImage image).imageEnd + sbrkLim := by
  have hbrk : (ProcBrk.ofImage image).brk = (ProcBrk.ofImage image).imageEnd := rfl
  have haccepts : (ProcBrk.ofImage image).Accepts sbrkLim := by
    rw [ProcBrk.Accepts, hbrk]
    exact ⟨hne, BitVec.lt_irrefl _⟩
  rw [← hbrk] at hle
  obtain ⟨virts, hpages, -⟩ := exists_pages hle
  have heq := incProcBrk_of_accepts (m := m₀) haccepts
  rw [hpages] at heq
  split at heq
  · exact ⟨_, _, .single ⟨_, hne, heq⟩, rfl⟩
  · exact ⟨_, _, .single ⟨_, hne, heq⟩, rfl⟩

/-- Where nothing up to the break is above the first stack, the break is not, or it is not above the base. -/
theorem brk_le_of_clear {base brk : BitVec 32}
    (hclear : ∀ a : BitVec 32, base ≤ a → a < brk → a < firstUserStack) :
    brk.toNat ≤ 0x7FFFF000 ∨ brk.toNat ≤ base.toNat := by
  by_contra hout
  have hlt := brk.isLt
  have hlast := hclear (BitVec.ofNat 32 (brk.toNat - 1))
  rw [BitVec.le_def, BitVec.lt_def, BitVec.lt_def, BitVec.toNat_ofNat, Nat.mod_eq_of_lt (by omega),
    show firstUserStack.toNat = 0x7FFFF000 from rfl] at hlast
  omega

/-- An image of an accepted executable keeps clear of stacks, windows and kernel exactly if it leaves the heap
room. -/
theorem keepsClear_iff (h : Loader.ImageNtHeaders) (haccepted : ¬ h.Rejected) :
    KeepsClear h.imageInfo ↔ HasRoom h.imageInfo := by
  obtain ⟨-, hbase⟩ := Loader.ImageNtHeaders.imageBase_of_not_rejected haccepted
  have hteardown : (∃ pages, (ProcBrk.ofImage h.imageInfo).unmappedPages = some pages ∧
      ∀ virt ∈ pages, virt < firstUserStack) ↔ (ProcBrk.ofImage h.imageInfo).fileEnd.toNat < 0x40000000 :=
    unmapped_lt_iff hbase
  rw [KeepsClear, HasRoom, hteardown, and_comm]
  refine and_congr_right fun hend => ?_
  obtain ⟨-, pad, hpad, hpadded⟩ := toNat_fileEnd (ProcBrk.ofImage h.imageInfo)
  have hlt := (ProcBrk.ofImage h.imageInfo).imageEnd.isLt
  have hlimit : ((ProcBrk.ofImage h.imageInfo).imageEnd + sbrkLim).toNat
      = ((ProcBrk.ofImage h.imageInfo).imageEnd.toNat + 0x40000000) % 2 ^ 32 := BitVec.toNat_add _ _
  have hlow : h.imageInfo.imageBase = h.imageBase := rfl
  constructor
  · intro hclear
    by_contra hroom
    rw [not_or, hlow] at hroom
    -- an image that ends above its end in whole pages wraps around in its last page
    have hbelow : (ProcBrk.ofImage h.imageInfo).imageEnd.toNat < 0x40000000 := by
      by_contra hge
      have hlast := brk_le_of_clear (hclear firstPageMapped [] _ _ (.nil _))
      rw [hlow, show (ProcBrk.ofImage h.imageInfo).brk = (ProcBrk.ofImage h.imageInfo).imageEnd from rfl] at hlast
      omega
    have hne : (ProcBrk.ofImage h.imageInfo).imageEnd ≠ 0#32 := by
      intro hzero
      rw [hzero] at hroom
      exact hroom.1 (by decide)
    have hle : (ProcBrk.ofImage h.imageInfo).imageEnd + sbrkLim ≤ 0xFFFFF000#32 := by
      rw [BitVec.le_def, hlimit, show (0xFFFFF000#32).toNat = 0xFFFFF000 from rfl]
      omega
    obtain ⟨b, m, hrun, hbrk⟩ := exists_run_to_limit firstPageMapped hne hle
    have hlast := brk_le_of_clear (hclear _ _ _ _ hrun)
    rw [hlow, hbrk, hlimit] at hlast
    omega
  · intro hroom m₀ incs b m hrun a hge ha
    rw [hlow] at hroom hge
    rw [BitVec.le_def] at hge
    rw [BitVec.lt_def] at ha ⊢
    rw [show firstUserStack.toNat = 0x7FFFF000 from rfl]
    rcases brk_of_run hrun with hbrk | ⟨-, hbrk⟩
    · rw [hbrk] at ha
      omega
    · rw [BitVec.le_def] at hbrk
      omega

/-- An image of six kilobytes at 4 MB keeps clear. -/
theorem keepsClear_pageAndHalf : KeepsClear pageAndHalf.imageInfo :=
  (keepsClear_iff pageAndHalf (by decide)).mpr (by decide)

/-- The loader takes an image that starts where the kernel stacks do, and its pages are unmapped with it. -/
theorem not_keepsClear : ¬ { pageAndHalf with imageBase := 0x80000000#32 }.Rejected ∧
    ¬ KeepsClear { pageAndHalf with imageBase := 0x80000000#32 }.imageInfo := by
  refine ⟨by decide, fun hclear => ?_⟩
  exact absurd ((unmapped_lt_iff (by decide)).mp hclear.2) (by decide)

end Akos.Sched
