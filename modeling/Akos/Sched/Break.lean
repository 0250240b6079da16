import Akos.Loader.Image
import Akos.Memory.Translation

/-!
# The break of a process

`inc_proc_brk` moves the end of a process's memory and maps the pages below it, `terminateProcessById` unmaps
image and heap again. Between a move inside one page, which maps nothing, and an image that does not end on a
page the last page of the image can stay unmapped.
-/

namespace Akos

/-- `PAGE_SIZE` -/
abbrev pageSize : BitVec 32 := 4096#32

namespace Sched

/-- The fields of a process that its memory depends on. -/
structure ProcBrk where
  imageBase : BitVec 32
  imageSize : BitVec 32
  brk : BitVec 32

namespace ProcBrk

/-- As `createProcess` fills them in. -/
def ofImage (image : ImageInfo) : ProcBrk := ⟨image.imageBase, image.imageSize, image.imageBase + image.imageSize⟩

/-- The break the process started with. -/
def imageEnd (b : ProcBrk) : BitVec 32 := b.imageBase + b.imageSize

/-- The call gets past its checks. -/
def Accepts (b : ProcBrk) (inc : BitVec 32) : Prop := b.brk ≠ 0#32 ∧ ¬ b.brk + inc > b.imageEnd + sbrkLim

/-- The call goes through the loop that maps pages. -/
def Maps (b : ProcBrk) (inc : BitVec 32) : Prop :=
  b.brk % pageSize + inc ≥ pageSize ∨ b.brk % pageSize = 0#32

instance (b : ProcBrk) (inc : BitVec 32) : Decidable (b.Accepts inc) := inferInstanceAs (Decidable (_ ∧ _))

instance (b : ProcBrk) (inc : BitVec 32) : Decidable (b.Maps inc) := inferInstanceAs (Decidable (_ ∨ _))

/-- The pages the loop visits. -/
def pages (b : ProcBrk) (inc : BitVec 32) : Option (List (BitVec 32)) :=
  Machine.pagesFrom (b.brk - b.brk % pageSize) (b.brk + inc)

/-- The flags of those pages. -/
abbrev heapFlags : BitVec 32 := Entry.writable ||| Entry.user

end ProcBrk

/-- `inc_proc_brk`, called by a running process: what it returns, or `none` when the loop does not end. -/
def incProcBrk (inc : BitVec 32) (b : ProcBrk) (m : Machine) : Option (BitVec 32 × ProcBrk × Machine) :=
  if b.brk = 0#32 then some (0#32, b, m)
  else
    let oldBrk := b.brk
    if oldBrk + inc > b.imageBase + b.imageSize + sbrkLim then some (0#32, b, m)
    else
      let b' := { b with brk := oldBrk + inc }
      if oldBrk % pageSize + inc ≥ pageSize ∨ oldBrk % pageSize = 0#32 then
        (Machine.pagesFrom (oldBrk - oldBrk % pageSize) b'.brk).map fun virts =>
          (oldBrk, b', m.allocPages m.curDirectory ProcBrk.heapFlags ProcBrk.heapFlags virts)
      else some (oldBrk, b', m)

/-! ### One call -/

section Call

variable {b b' : ProcBrk} {m m' : Machine} {inc : BitVec 32} {live : Set (BitVec 32)}

theorem incProcBrk_of_not_accepts (h : ¬ b.Accepts inc) : incProcBrk inc b m = some (0#32, b, m) := by
  rw [ProcBrk.Accepts, not_and_or, not_ne_iff, not_not] at h
  unfold incProcBrk
  rcases h with hzero | habove
  · rw [if_pos hzero]
  · split
    · rfl
    · exact if_pos habove

theorem incProcBrk_of_accepts (h : b.Accepts inc) : incProcBrk inc b m =
    if b.Maps inc then (b.pages inc).map fun virts => (b.brk, { b with brk := b.brk + inc },
      m.allocPages m.curDirectory ProcBrk.heapFlags ProcBrk.heapFlags virts)
    else some (b.brk, { b with brk := b.brk + inc }, m) := by
  rw [incProcBrk, if_neg h.1]
  exact if_neg h.2

/-- Only a refused call returns 0. -/
theorem incProcBrk_eq_zero (h : incProcBrk inc b m = some (0#32, b', m')) : b' = b := by
  by_cases haccepts : b.Accepts inc
  · rw [incProcBrk_of_accepts haccepts] at h
    have hbrk : b.brk = 0#32 := by
      split at h
      · obtain ⟨virts, -, heq⟩ := Option.map_eq_some_iff.mp h
        exact (Prod.mk.inj heq).1
      · exact (Prod.mk.inj (Option.some.inj h)).1
    exact absurd hbrk haccepts.1
  · rw [incProcBrk_of_not_accepts haccepts] at h
    exact (Prod.mk.inj (Prod.mk.inj (Option.some.inj h)).2).1.symm

/-- Every page that meets the memory from the end of the image to the break is present. -/
def HeapMapped (b : ProcBrk) (m : Machine) : Prop :=
  ∀ a : BitVec 32, b.imageEnd ≤ a → a < b.brk → m.vmmngrCheckVirtPresent m.curDirectory a = true

/-- An accepted call that maps pages does not move the break into the last page of the address space, and one
that maps none stays inside the image or starts from a page that is present. -/
def KeepsHeap (b : ProcBrk) (m : Machine) (inc : BitVec 32) : Prop :=
  b.Accepts inc → if b.Maps inc then b.brk + inc ≤ 0xFFFFF000#32
    else b.brk + inc ≤ b.imageEnd ∨ m.vmmngrCheckVirtPresent m.curDirectory b.brk = true

/-- No allocation of the call fails. -/
def HasFrames (b : ProcBrk) (m : Machine) (inc : BitVec 32) : Prop :=
  b.Accepts inc → b.Maps inc → ∀ virts, b.pages inc = some virts →
    m.SuppliedAll m.curDirectory ProcBrk.heapFlags ProcBrk.heapFlags virts

theorem toNat_pageStart (b : ProcBrk) : (b.brk - b.brk % pageSize).toNat = b.brk.toNat - b.brk.toNat % 4096 := by
  have hle : b.brk % pageSize ≤ b.brk := by
    rw [BitVec.le_def, BitVec.toNat_umod]
    exact Nat.mod_le _ _
  rw [BitVec.toNat_sub_of_le hle, BitVec.toNat_umod]
  rfl

/-- The pages of a call, when its loop ends. -/
theorem exists_pages (hle : b.brk + inc ≤ 0xFFFFF000#32) : ∃ virts, b.pages inc = some virts ∧
    ∀ v, v ∈ virts ↔ ∃ k, v.toNat = b.brk.toNat - b.brk.toNat % 4096 + 4096 * k ∧ v.toNat < (b.brk + inc).toNat := by
  rw [BitVec.le_def, show (0xFFFFF000#32).toNat = 0xFFFFF000 from rfl] at hle
  have h := Machine.exists_pagesFrom (show (b.brk + inc).toNat ≤ 0xFFFFF000 +
    (b.brk - b.brk % pageSize).toNat % 4096 by omega)
  rw [toNat_pageStart] at h
  exact h

/-- A call that maps no page leaves the break in its page. -/
theorem brk_of_not_maps (h : ¬ b.Maps inc) :
    b.brk.toNat % 4096 ≠ 0 ∧ (b.brk + inc).toNat / 4096 = b.brk.toNat / 4096 := by
  rw [ProcBrk.Maps, not_or, ge_iff_le, BitVec.le_def, BitVec.toNat_add, BitVec.toNat_umod,
    show pageSize.toNat = 4096 from rfl] at h
  obtain ⟨hlt, hmod⟩ := h
  have hne : b.brk.toNat % 4096 ≠ 0 := by
    intro hzero
    refine hmod (BitVec.eq_of_toNat_eq ?_)
    rw [BitVec.toNat_umod]
    exact hzero
  have hbrk := b.brk.isLt
  have hinc := inc.isLt
  refine ⟨hne, ?_⟩
  rw [BitVec.toNat_add]
  omega

/-- What a call keeps: the pages of the heap are present, and the loop ends. -/
theorem HeapMapped.call (h : HeapMapped b m) (hm : Directories.Apart (· < 1024) ⟨m, live⟩)
    (hkeeps : KeepsHeap b m inc) :
    ∃ r b' m', incProcBrk inc b m = some (r, b', m') ∧ Directories.Apart (· < 1024) ⟨m', live⟩ ∧
      (HasFrames b m inc → HeapMapped b' m') := by
  by_cases haccepts : b.Accepts inc
  · have hkeeps := hkeeps haccepts
    rw [incProcBrk_of_accepts haccepts]
    by_cases hmaps : b.Maps inc
    · rw [if_pos hmaps] at hkeeps ⊢
      obtain ⟨virts, hpages, hmem⟩ := exists_pages hkeeps
      obtain ⟨hfollows, hkept, hadded⟩ := hm.present_allocPages hm.current (show ProcBrk.heapFlags.toNat < 4096 by decide)
        ProcBrk.heapFlags virts
      rw [hpages]
      refine ⟨_, _, _, rfl, hfollows.apart, fun hframes a hlo hhi => ?_⟩
      have hcur : (m.allocPages m.curDirectory ProcBrk.heapFlags ProcBrk.heapFlags virts).curDirectory
          = m.curDirectory := hfollows.current
      rw [Machine.vmmngrCheckVirtPresent_eq, hcur]
      by_cases hold : a < b.brk
      · refine hkept _ hm.current a ?_
        rw [← Machine.vmmngrCheckVirtPresent_eq]
        exact h a hlo hold
      · -- the page of the address is one that the loop visits
        rw [BitVec.lt_def] at hold hhi
        dsimp only at hhi
        have hvisit : BitVec.ofNat 32 (a.toNat - a.toNat % 4096) ∈ virts := by
          have hlt := a.isLt
          rw [hmem, BitVec.toNat_ofNat, Nat.mod_eq_of_lt (by omega)]
          exact ⟨a.toNat / 4096 - b.brk.toNat / 4096, by omega, by omega⟩
        have hsame : SamePage a (BitVec.ofNat 32 (a.toNat - a.toNat % 4096)) := by
          have hlt := a.isLt
          rw [samePage_iff, BitVec.toNat_ofNat, Nat.mod_eq_of_lt (by omega)]
          omega
        rw [hsame.pageWord_eq]
        exact hadded (hframes haccepts hmaps virts hpages) _ hvisit
    · rw [if_neg hmaps] at hkeeps ⊢
      refine ⟨_, _, _, rfl, hm, fun _ a hlo hhi => ?_⟩
      by_cases hold : a < b.brk
      · exact h a hlo hold
      · obtain ⟨-, hpage⟩ := brk_of_not_maps hmaps
        have hpresent : m.vmmngrCheckVirtPresent m.curDirectory b.brk = true := by
          refine hkeeps.resolve_left fun hle => ?_
          rw [BitVec.le_def] at hle hlo
          rw [BitVec.lt_def] at hhi
          exact absurd (Nat.lt_of_le_of_lt hlo hhi) (Nat.not_lt.mpr hle)
        have hsame : SamePage a b.brk := by
          rw [BitVec.lt_def] at hold hhi
          rw [samePage_iff]
          dsimp only at hhi
          omega
        rw [Machine.vmmngrCheckVirtPresent_eq] at hpresent ⊢
        rw [hsame.pageWord_eq]
        exact hpresent
  · rw [incProcBrk_of_not_accepts haccepts]
    exact ⟨_, _, _, rfl, hm, fun _ => h⟩

/-! ### Runs of calls -/

/-- A call for which there are frames and that keeps the heap mapped. -/
def BrkStep (s : ProcBrk × Machine) (inc : BitVec 32) (t : ProcBrk × Machine) : Prop :=
  KeepsHeap s.1 s.2 inc ∧ HasFrames s.1 s.2 inc ∧ ∃ r, incProcBrk inc s.1 s.2 = some (r, t)

/-- In every run of calls that keep the heap mapped, the pages up to the break are present after each call,
such a call returns, and a call that returns 0 leaves the break as it is. -/
theorem heapMapped_of_run {image : ImageInfo} {m₀ : Machine} {incs : List (BitVec 32)}
    (hm₀ : Directories.Apart (· < 1024) ⟨m₀, live⟩)
    (hrun : Transition.Run BrkStep (ProcBrk.ofImage image, m₀) incs (b, m)) :
    HeapMapped b m ∧
      ∀ inc, (KeepsHeap b m inc → incProcBrk inc b m ≠ none) ∧
        ∀ b' m', incProcBrk inc b m = some (0#32, b', m') → b'.brk = b.brk := by
  have hinv : HeapMapped b m ∧ Directories.Apart (· < 1024) ⟨m, live⟩ := by
    refine hrun.invariant (fun s => HeapMapped s.1 s.2 ∧ Directories.Apart (· < 1024) ⟨s.2, live⟩) ?_ ⟨?_, hm₀⟩
    · rintro ⟨b, m⟩ inc ⟨b', m'⟩ ⟨h, hm⟩ ⟨hkeeps, hframes, r, heq⟩
      obtain ⟨r', b'', m'', heq', hm'', h''⟩ := h.call hm hkeeps
      obtain ⟨-, hpair⟩ := Prod.mk.inj (Option.some.inj (heq'.symm.trans heq))
      obtain ⟨rfl, rfl⟩ := Prod.mk.inj hpair
      exact ⟨h'' hframes, hm''⟩
    · intro a hlo hhi
      rw [BitVec.le_def] at hlo
      rw [BitVec.lt_def] at hhi
      exact absurd (Nat.lt_of_le_of_lt hlo hhi) (Nat.lt_irrefl _)
  refine ⟨hinv.1, fun inc => ⟨fun hkeeps => ?_, fun b' m' heq => ?_⟩⟩
  · obtain ⟨r, b', m', heq, -⟩ := hinv.1.call hinv.2 hkeeps
    rw [heq]
    exact Option.some_ne_none _
  · rw [incProcBrk_eq_zero heq]

/-! ### An image of one page and a half -/

/-- The headers of an image of 0x1800 bytes. -/
def pageAndHalf : Loader.ImageNtHeaders where
  signature := Loader.imageNtSignature
  machine := Loader.imageFileMachineI386
  numberOfSections := 1#16
  characteristics := 2#16
  magic := Loader.imageNtOptionalHdr32Magic
  addressOfEntryPoint := 0#32
  imageBase := 0x400000#32
  fileAlignment := 0x200#32
  sizeOfImage := 0x1800#32

/-- A directory in frame 1, whose table in frame 2 maps the first page of the image to frame 3. -/
def firstPageMapped : Machine where
  pmm := { memorySize := 256#32, usedBlocks := 4#32, maxBlocks := 64#32,
           memoryMap := fun w => if w = 0 then 0xF#32 else 0#32 }
  memory w := if w = (1, 1) then 0x2007#32 else if w = (2, 0) then 0x3005#32 else 0#32
  curDirectory := 0x1000#32

theorem apart_firstPageMapped : Directories.Apart (· < 1024) ⟨firstPageMapped, {0x1000#32}⟩ := by
  have hentry : ∀ i, pdEntryIsPresent (firstPageMapped.entry 0x1000#32 i) = true → i = 1 := by
    intro i hpresent
    by_contra hi
    have hframe : Pmm.frameOf 0x1000#32 = 1 := by decide
    have hzero : firstPageMapped.entry 0x1000#32 i = 0#32 := by
      rw [Machine.entry, hframe, firstPageMapped]
      simp [hi]
    rw [hzero] at hpresent
    cases hpresent
  refine ⟨by decide, rfl, ?_, ?_, ?_⟩
  · rintro dir rfl
    decide
  · rintro frame (⟨dir, rfl, rfl⟩ | ⟨dir, rfl, i, -, hpresent, rfl⟩)
    · show firstPageMapped.pmm.mmapTest _ = true
      decide
    · obtain rfl := hentry i hpresent
      show firstPageMapped.pmm.mmapTest _ = true
      decide
  · rintro dir rfl i - hpresent dir' rfl
    obtain rfl := hentry i hpresent
    decide

/-- A move by a page from there maps the rest of the image's last page, too. -/
theorem heapMapped_of_run_pageAndHalf : ∃ b m,
    Transition.Run BrkStep (ProcBrk.ofImage pageAndHalf.imageInfo, firstPageMapped) [0x1000#32] (b, m) ∧
    b.brk = 0x402800#32 ∧ HeapMapped b m ∧
      ∀ inc, (KeepsHeap b m inc → incProcBrk inc b m ≠ none) ∧
        ∀ b' m', incProcBrk inc b m = some (0#32, b', m') → b'.brk = b.brk := by
  have hpages : (ProcBrk.ofImage pageAndHalf.imageInfo).pages 0x1000#32 = some [0x401000#32, 0x402000#32] := rfl
  have hrun : Transition.Run BrkStep (ProcBrk.ofImage pageAndHalf.imageInfo, firstPageMapped) [0x1000#32]
      (⟨0x400000#32, 0x1800#32, 0x402800#32⟩, firstPageMapped.allocPages 0x1000#32 ProcBrk.heapFlags
        ProcBrk.heapFlags [0x401000#32, 0x402000#32]) := by
    refine .cons ⟨fun _ => by decide, fun _ _ virts heq => ?_, 0x401800#32, rfl⟩ (.nil _)
    obtain rfl := Option.some.inj (hpages.symm.trans heq)
    exact ⟨⟨rfl, fun _ => by decide⟩, ⟨rfl, fun _ => by decide⟩, trivial⟩
  exact ⟨_, _, hrun, rfl, heapMapped_of_run apart_firstPageMapped hrun⟩

/-- A move by 16 bytes stays in the page that the image ends in, which has no frame. -/
theorem not_heapMapped_of_run : ¬ pageAndHalf.Rejected ∧
    Directories.Apart (· < 1024) ⟨firstPageMapped, {0x1000#32}⟩ ∧
    HasFrames (ProcBrk.ofImage pageAndHalf.imageInfo) firstPageMapped 0x10#32 ∧
    ∃ b m, incProcBrk 0x10#32 (ProcBrk.ofImage pageAndHalf.imageInfo) firstPageMapped
      = some (0x401800#32, b, m) ∧ b.brk = 0x401810#32 ∧ ¬ HeapMapped b m := by
  refine ⟨by decide, apart_firstPageMapped, fun _ hmaps => absurd hmaps (by decide), _, _, rfl, rfl, fun h => ?_⟩
  exact absurd (h 0x401800#32 (by decide) (by decide)) (by decide)

end Call

end Sched

end Akos
