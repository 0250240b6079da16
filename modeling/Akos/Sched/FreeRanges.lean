import Akos.Loader.SectionPages
import Akos.Sched.UserPages

/-!
# Free ranges of pages

What the search for pages of user space returns: the least range of absent pages, or 0. The allocation makes the pages
of that range present and no others.
-/

namespace Akos.Machine

variable {m : Machine} {pdir base a undefined : BitVec 32} {n : Nat}

/-- The `n` pages from `a` on are absent, and they end at or below the end of user space. -/
structure FreeRange (m : Machine) (pdir a : BitVec 32) (n : Nat) : Prop where
  aligned : a.toNat % 4096 = 0
  below : a.toNat + 4096 * n ≤ 0xC0000000
  absent : ∀ i < n, m.vmmngrCheckVirtPresent pdir (pageAt a i) = false

/-- The least free range from the base on, or 0 when there is none. -/
structure FindsRange (m : Machine) (pdir base : BitVec 32) (n : Nat) (r : BitVec 32) : Prop where
  free : r ≠ 0#32 → base ≤ r ∧ m.FreeRange pdir r n
  least : r ≠ 0#32 → ∀ a, base ≤ a → m.FreeRange pdir a n → r ≤ a
  zero_iff : r = 0#32 ↔ ∀ a, base ≤ a → ¬ m.FreeRange pdir a n

theorem room_lt {first : Nat} (hn : 0 < n) (h : m.Room pdir base n first) : base.toNat + 4096 * first < 2 ^ 32 := by
  have hroom := h.1
  unfold pagesBelow at hroom
  omega

/-- Room in front of the end is a free range. -/
theorem freeRange_iff_room {first : Nat} (hn : 0 < n) (hbase : base.toNat % 4096 = 0)
    (hfirst : base.toNat + 4096 * first < 2 ^ 32) :
    m.FreeRange pdir (pageAt base first) n ↔ m.Room pdir base n first := by
  have hstart := toNat_pageAt hfirst
  constructor
  · intro h
    have hbelow := h.below
    rw [hstart] at hbelow
    refine ⟨by unfold pagesBelow; omega, fun j hle hlt => ?_⟩
    have habsent := h.absent (j - first) (by omega)
    rw [pageAt_add, show first + (j - first) = j by omega] at habsent
    rw [absentPage, habsent]
    rfl
  · intro h
    have hroom := h.1
    unfold pagesBelow at hroom
    refine ⟨by omega, by omega, fun i hi => ?_⟩
    have habsent := h.2 (first + i) (by omega) (by omega)
    rw [pageAt_add]
    simpa [absentPage] using habsent

/-- A free range from the base on begins a number of pages behind it. -/
theorem FreeRange.exists_room (h : m.FreeRange pdir a n) (hn : 0 < n) (hbase : base.toNat % 4096 = 0) (hle : base ≤ a) :
    ∃ first, a = pageAt base first ∧ m.Room pdir base n first := by
  have haligned := h.aligned
  have hle' := BitVec.le_def.mp hle
  have hlt := a.isLt
  have hfirst : base.toNat + 4096 * ((a.toNat - base.toNat) / 4096) < 2 ^ 32 := by omega
  have ha : a = pageAt base ((a.toNat - base.toNat) / 4096) := by
    refine BitVec.eq_of_toNat_eq ?_
    rw [toNat_pageAt hfirst]
    omega
  exact ⟨_, ha, (freeRange_iff_room hn hbase hfirst).mp (ha ▸ h)⟩

theorem findUserSpacePagesByPdir_findsRange (hn : 0 < n) (hbase : base.toNat % 4096 = 0) (hlow : 0 < base.toNat) :
    m.FindsRange pdir base n (m.findUserSpacePagesByPdir pdir base n undefined) := by
  rw [findUserSpacePagesByPdir]
  cases hfind : m.findPages pdir base n (2 ^ 20) 0 0 undefined with
  | none =>
    refine ⟨fun hne => absurd rfl hne, fun hne => absurd rfl hne, iff_of_true rfl fun a hle hfree => ?_⟩
    obtain ⟨first, -, hroom⟩ := hfree.exists_room hn hbase hle
    obtain ⟨r, hr⟩ := @exists_findPages m pdir base undefined n hn first hroom
    rw [hfind] at hr
    cases hr
  | some r =>
    obtain ⟨first, rfl, hroom, hleast⟩ := findPages_eq_some hn hfind
    have hfirst := room_lt hn hroom
    have hstart := toNat_pageAt hfirst
    have hfree := (freeRange_iff_room hn hbase hfirst).mpr hroom
    have hle : base ≤ pageAt base first := BitVec.le_def.mpr (by omega)
    have hne : pageAt base first ≠ 0#32 := fun hzero => by
      rw [hzero, show (0#32).toNat = 0 from rfl] at hstart
      omega
    refine ⟨fun _ => ⟨hle, hfree⟩, fun _ a ha hfree' => ?_, iff_of_false hne fun hnone => hnone _ hle hfree⟩
    obtain ⟨other, rfl, hroom'⟩ := hfree'.exists_room hn hbase ha
    have hother := toNat_pageAt (room_lt hn hroom')
    by_contra hlt
    rw [BitVec.le_def, Option.getD_some, hstart, hother] at hlt
    exact hleast other (by omega) hroom'

/-! ### The allocation -/

/-- Pages that a loop of allocations goes over become present, and no others. -/
theorem present_of_allocatesPages {s : Directories} {dir pdeFlags pteFlags : BitVec 32} {virts : List (BitVec 32)}
    {m' : Machine} (h : Directories.AllocatesPages s dir pdeFlags pteFlags virts m') (virt : BitVec 32) :
    m'.vmmngrCheckVirtPresent dir virt = true ↔
      s.machine.vmmngrCheckVirtPresent dir virt = true ∨ ∃ v ∈ virts, SamePage virt v := by
  rw [vmmngrCheckVirtPresent_eq, vmmngrCheckVirtPresent_eq]
  by_cases hpresent : ptEntryIsPresent (s.machine.pageWord dir virt) = true
  · rw [h.kept virt (.inl hpresent)]
    exact iff_of_true hpresent (.inl hpresent)
  · rw [or_iff_right hpresent]
    by_cases hvisit : ∃ v ∈ virts, SamePage virt v
    · obtain ⟨⟨p, hword⟩, -⟩ := h.new virt (Bool.eq_false_iff.mpr hpresent) hvisit
      rw [hword]
      exact iff_of_true (Directories.Apart.isPresent_allocatedWord _ _ _) hvisit
    · rw [h.kept virt (.inr fun v hv hsame => hvisit ⟨v, hv, hsame⟩)]
      exact iff_of_false hpresent hvisit

theorem allocateUserSpacePages_fst (m : Machine) (pageAmt : Int) (undefined : BitVec 32) :
    (m.allocateUserSpacePages pageAmt undefined).1 =
      m.findUserSpacePagesByPdir m.curDirectory userSpace pageAmt undefined := by
  rw [allocateUserSpacePages, findUserSpacePagesByPdir]
  cases m.findPages m.curDirectory userSpace pageAmt (2 ^ 20) 0 0 undefined <;> rfl

theorem allocateUserSpacePages_snd {pageAmt : Int}
    (hne : m.findUserSpacePagesByPdir m.curDirectory userSpace pageAmt undefined ≠ 0#32) :
    (m.allocateUserSpacePages pageAmt undefined).2 = m.allocPages m.curDirectory userPageFlags userPageFlags
      (pagesAt (m.findUserSpacePagesByPdir m.curDirectory userSpace pageAmt undefined) pageAmt.toNat) := by
  rw [findUserSpacePagesByPdir] at hne
  rw [allocateUserSpacePages, findUserSpacePagesByPdir]
  cases hfind : m.findPages m.curDirectory userSpace pageAmt (2 ^ 20) 0 0 undefined with
  | none =>
    rw [hfind] at hne
    exact absurd rfl hne
  | some r => rfl

/-- The search returns the least free range, and the allocation fills the one it finds. -/
theorem userSpacePages_findsRange (m : Machine) {pageAmt : Int} (hamt : 1 ≤ pageAmt) (undefined : BitVec 32) :
    (∀ pdir base : BitVec 32, base.toNat % 4096 = 0 → 0x400000 ≤ base.toNat →
      m.FindsRange pdir base pageAmt.toNat (m.findUserSpacePagesByPdir pdir base pageAmt undefined)) ∧
    (m.allocateUserSpacePages pageAmt undefined).1 =
      m.findUserSpacePagesByPdir m.curDirectory userSpace pageAmt undefined ∧
    ∀ live r, Directories.Separate ⟨m, live⟩ → (m.allocateUserSpacePages pageAmt undefined).1 = r → r ≠ 0#32 →
      m.SuppliedAll m.curDirectory userPageFlags userPageFlags (pagesAt r pageAmt.toNat) →
      ∀ virt, (m.allocateUserSpacePages pageAmt undefined).2.vmmngrCheckVirtPresent m.curDirectory virt = true ↔
        m.vmmngrCheckVirtPresent m.curDirectory virt = true ∨ ∃ i < pageAmt.toNat, SamePage virt (pageAt r i) := by
  have hcast : (pageAmt.toNat : Int) = pageAmt := Int.toNat_of_nonneg (by omega)
  refine ⟨fun pdir base hbase hlow => ?_, allocateUserSpacePages_fst m pageAmt undefined,
    fun live r h hr hne hsupplied virt => ?_⟩
  · have hfinds := @findUserSpacePagesByPdir_findsRange m pdir base undefined pageAmt.toNat (by omega) hbase (by omega)
    rwa [hcast] at hfinds
  · rw [allocateUserSpacePages_fst] at hr
    subst hr
    rw [allocateUserSpacePages_snd hne,
      present_of_allocatesPages (h.allocPages h.current (by decide) userPageFlags _ hsupplied)]
    refine or_congr_right ⟨fun hv => ?_, fun hi => ?_⟩
    · obtain ⟨v, hv, hsame⟩ := hv
      obtain ⟨i, hi, rfl⟩ := mem_pagesAt.mp hv
      exact ⟨i, hi, hsame⟩
    · obtain ⟨i, hi, hsame⟩ := hi
      exact ⟨_, mem_pagesAt.mpr ⟨i, hi, rfl⟩, hsame⟩

theorem userSpacePages_findsRange_two :
    Loader.emptyDirectory.FindsRange 0x1000#32 0x400000#32 2
      (Loader.emptyDirectory.findUserSpacePagesByPdir 0x1000#32 0x400000#32 2 0#32) ∧
    ∀ virt, (Loader.emptyDirectory.allocateUserSpacePages 2 0#32).2.vmmngrCheckVirtPresent 0x1000#32 virt = true ↔
      Loader.emptyDirectory.vmmngrCheckVirtPresent 0x1000#32 virt = true ∨
        ∃ i < 2, SamePage virt (pageAt userSpace i) := by
  obtain ⟨hfinds, -, hpresent⟩ := @userSpacePages_findsRange Loader.emptyDirectory 2 (by decide) 0#32
  have hsupplied : Loader.emptyDirectory.SuppliedAll 0x1000#32 userPageFlags userPageFlags (pagesAt userSpace 2) :=
    ⟨⟨by decide +kernel, fun _ => by decide +kernel⟩, ⟨by decide +kernel, fun _ => by decide +kernel⟩, trivial⟩
  exact ⟨hfinds 0x1000#32 0x400000#32 (by decide) (by decide), hpresent {0x1000#32} userSpace
    Loader.separate_emptyDirectory (by decide +kernel) (by decide) hsupplied⟩

end Akos.Machine
