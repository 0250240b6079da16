import Mathlib.Data.Option.Basic
import Akos.Lib.Transition
import Akos.Memory.OwnTables
import Akos.Sched.UserPages

/-!
# The buffers of user windows

`winsys_create_win_user` and `winsys_remove_window_user` as far as memory goes: pages are allocated in the directory of
the caller, cleared, and mapped a second time in the directory of the window system, which gives them back when it
removes the window.
-/

namespace Akos

namespace Machine

/-- Byte `i` of a word is replaced. -/
def withByte (word : BitVec 32) (i : Nat) (val : BitVec 8) : BitVec 32 :=
  word &&& ~~~(0xff#32 <<< (8 * i)) ||| val.setWidth 32 <<< (8 * i)

/-- A byte is written at an address of the current directory. A page that is not present is a fault. -/
def storeByte (m : Machine) (dest : BitVec 32) (val : BitVec 8) : Option Machine :=
  let page := m.pageWord m.curDirectory dest
  if ptEntryIsPresent page then
    let w := (Pmm.frameOf page, (dest &&& 0xfff#32).toNat / 4)
    some (m.store w (withByte (m.memory w) (dest.toNat % 4) val))
  else none

/-- `memset` at addresses of the current directory. -/
def memset (m : Machine) (dest : BitVec 32) (val : BitVec 8) : Nat → Option Machine
  | 0 => some m
  | count + 1 => do
    let m ← m.storeByte dest val
    m.memset (dest + 1#32) val count

/-- The loop of `winsys_create_win_user` that maps the pages of the current directory in another one. -/
def mapBuffer (m : Machine) (winsysPdir wBuffer wsysBuffer : BitVec 32) (n : Nat) : Machine :=
  (List.range n).foldl (fun m i => m.vmmngrMmapVirt2virt m.curDirectory winsysPdir (pageAt wBuffer i)
    (pageAt wsysBuffer i) Entry.writable (Entry.writable ||| Entry.pat)) m

/-- The loop of `winsys_remove_window_user` that gives pages of the current directory back. -/
def freePages (m : Machine) (virts : List (BitVec 32)) : Machine :=
  virts.foldl (fun m virt => m.vmmngrFreeVirt m.curDirectory virt) m

end Machine

namespace Directories

variable {s : Directories} {m : Machine} {dir virt wBuffer wsysBuffer : BitVec 32} {n i : Nat}

/-! ### The loops -/

/-- The page is present in a frame in use that is not a directory or a table. -/
def Plain (s : Directories) (dir virt : BitVec 32) : Prop :=
  ptEntryIsPresent (s.machine.pageWord dir virt) = true ∧ s.Used (s.machine.frameAt dir virt) ∧
    ¬ s.Holds (· < 1024) (s.machine.frameAt dir virt)

theorem Plain.enlarges (h : s.Plain dir virt) (hm : Enlarges s m)
    (hword : m.pageWord dir virt = s.machine.pageWord dir virt) : Plain { s with machine := m } dir virt := by
  obtain ⟨hpresent, hused, hplain⟩ := h
  rw [Plain, Machine.frameAt, hword]
  exact ⟨hpresent, hm.grows _ hused, fun hholds => hplain (hm.holds _ hused hholds)⟩

theorem storeByte_plain (h : s.Separate) (hplain : s.Plain s.machine.curDirectory virt) (val : BitVec 8) :
    ∃ m, s.machine.storeByte virt val = some m ∧ Enlarges s m ∧
      ∀ dir ∈ s.live, ∀ virt', m.pageWord dir virt' = s.machine.pageWord dir virt' := by
  rw [Machine.storeByte, if_pos hplain.1]
  exact ⟨_, rfl, h.store_plain hplain.2.2 _⟩

/-- Bytes are written in pages whose frames are not directories or tables. -/
theorem memset_plain {count : Nat} (h : s.Separate)
    (hpages : ∀ k < count, s.Plain s.machine.curDirectory (virt + BitVec.ofNat 32 k)) (val : BitVec 8) :
    ∃ m, s.machine.memset virt val count = some m ∧ Enlarges s m ∧
      ∀ dir ∈ s.live, ∀ virt', m.pageWord dir virt' = s.machine.pageWord dir virt' := by
  induction count generalizing s virt with
  | zero => exact ⟨s.machine, rfl, .refl h, fun _ _ _ => rfl⟩
  | succ count ih =>
    have hfirst := hpages 0 (Nat.succ_pos count)
    rw [show virt + BitVec.ofNat 32 0 = virt from BitVec.add_zero virt] at hfirst
    obtain ⟨m, hstore, henlarges, hwords⟩ := storeByte_plain h hfirst val
    have hcur : m.curDirectory = s.machine.curDirectory := henlarges.current
    have hpages' : ∀ k < count,
        Plain { s with machine := m } m.curDirectory (virt + 1#32 + BitVec.ofNat 32 k) := by
      intro k hk
      have hnext := hpages (k + 1) (by omega)
      rw [Nat.add_comm k 1, BitVec.ofNat_add, ← BitVec.add_assoc, ← hcur] at hnext
      exact hnext.enlarges henlarges (hwords _ (hcur ▸ h.current) _)
    obtain ⟨m', hrest, henlarges', hwords'⟩ := ih henlarges.separate hpages'
    refine ⟨m', ?_, henlarges.trans henlarges', fun dir hdir virt' =>
      (hwords' dir hdir virt').trans (hwords dir hdir virt')⟩
    rw [Machine.memset, hstore]
    exact hrest

/-- What the loop of `winsys_create_win_user` does, as far as it got. -/
structure Shares (s : Directories) (winsysPdir wBuffer wsysBuffer : BitVec 32) (n : Nat) (m : Machine) : Prop
    extends Enlarges s m where
  shared : ∀ i < n, ptEntryIsPresent (m.pageWord winsysPdir (pageAt wsysBuffer i)) = true ∧
    m.frameAt winsysPdir (pageAt wsysBuffer i) = s.machine.frameAt s.machine.curDirectory (pageAt wBuffer i)
  others : ∀ dir ∈ s.live, ∀ virt, (dir = winsysPdir → ∀ i < n, ¬ SamePage virt (pageAt wsysBuffer i)) →
    m.pageWord dir virt = s.machine.pageWord dir virt

/-- Pages of the current directory are mapped at pages that are others than these. -/
theorem mapBuffer_shares {winsysPdir : BitVec 32} (h : s.Separate) (hwinsys : winsysPdir ∈ s.live)
    (hpresent : ∀ i < n, ptEntryIsPresent (s.machine.pageWord s.machine.curDirectory (pageAt wBuffer i)) = true)
    (hapart : s.machine.curDirectory = winsysPdir →
      ∀ i < n, ∀ j < n, ¬ SamePage (pageAt wBuffer i) (pageAt wsysBuffer j))
    (hslots : ∀ i < n, ¬ SharedSlot (pageDirectoryIndex (pageAt wsysBuffer i)))
    (hpages : wsysBuffer.toNat + 4096 * n ≤ 2 ^ 32)
    (hfound : ∀ i < n, ((s.machine.mapBuffer winsysPdir wBuffer wsysBuffer i).tableForEntry
      (Machine.vmmngrPdirectoryLookupEntry winsysPdir (pageAt wsysBuffer i))).1 = true) :
    Shares s winsysPdir wBuffer wsysBuffer n (s.machine.mapBuffer winsysPdir wBuffer wsysBuffer n) := by
  induction n with
  | zero => exact ⟨.refl h, fun i hi => by omega, fun _ _ _ _ => rfl⟩
  | succ n ih =>
    have hbefore := ih (fun i hi => hpresent i (by omega)) (fun heq i hi j hj => hapart heq i (by omega) j (by omega))
      (fun i hi => hslots i (by omega)) (by omega) fun i hi => hfound i (by omega)
    have hfound := hfound n (Nat.lt_succ_self n)
    rw [Machine.mapBuffer, List.range_succ, List.foldl_append, List.foldl_cons, List.foldl_nil]
    rw [Machine.mapBuffer] at hbefore hfound
    generalize (List.range n).foldl _ s.machine = m at hbefore hfound ⊢
    have hcur : m.curDirectory = s.machine.curDirectory := hbefore.current
    -- the page of the caller is what it was
    have hword : m.pageWord m.curDirectory (pageAt wBuffer n) =
        s.machine.pageWord s.machine.curDirectory (pageAt wBuffer n) := by
      rw [hcur]
      exact hbefore.others _ h.current _ fun heq i hi => hapart heq n (Nat.lt_succ_self n) i (by omega)
    have hphys : Pmm.frameOf (m.vmmngrVirt2physPdir m.curDirectory (pageAt wBuffer n)) =
        s.machine.frameAt s.machine.curDirectory (pageAt wBuffer n) := by
      rw [frameOf_virt2phys (by rw [hword]; exact hpresent n (Nat.lt_succ_self n)), Machine.frameAt, hword,
        Machine.frameAt]
    have hremaps := hbefore.separate.mapPage hwinsys (show Entry.writable.toNat < 4096 by decide)
      (m.vmmngrVirt2physPdir m.curDirectory (pageAt wBuffer n)) (Entry.writable ||| Entry.pat) hfound
    obtain ⟨henlarges, -⟩ := hbefore.separate.mapPage_enlarges hwinsys (show Entry.writable.toNat < 4096 by decide)
      (m.vmmngrVirt2physPdir m.curDirectory (pageAt wBuffer n)) (pageAt wsysBuffer n) (Entry.writable ||| Entry.pat)
    refine ⟨hbefore.toEnlarges.trans henlarges, fun i hi => ?_, fun dir hdir virt hother => ?_⟩
    · by_cases hlast : i = n
      · subst hlast
        have hself := hremaps.self (pageAt wsysBuffer i) ⟨rfl, rfl⟩
        rw [Machine.vmmngrMmapVirt2virt, Machine.frameAt, show Machine.pageWord _ winsysPdir _ = _ from hself,
          frameOf_mappedWord _ _ (by decide), hphys]
        exact ⟨isPresent_mappedWord _ _ _, rfl⟩
      · obtain ⟨hpresent', hframe⟩ := hbefore.shared i (by omega)
        have hkept := hremaps.others winsysPdir hwinsys (pageAt wsysBuffer i) fun hsame =>
          hlast ((samePage_pageAt (by omega) (by omega)).mp hsame.1)
        rw [Machine.vmmngrMmapVirt2virt, Machine.frameAt,
          show Machine.pageWord _ winsysPdir (pageAt wsysBuffer i) = _ from hkept]
        exact ⟨hpresent', hframe⟩
    · refine (hremaps.others dir hdir virt fun hsame => ?_).trans
        (hbefore.others dir hdir virt fun heq i hi => hother heq i (by omega))
      rcases hsame.2 with heq | hslot
      · exact hother heq n (Nat.lt_succ_self n) hsame.1
      · exact hslots n (Nat.lt_succ_self n) hslot

/-! ### Pages are given back -/

theorem frameAt_of_releases {frame : Nat} (h : m.Releases dir virt frame) : frame = m.frameAt dir virt := by
  obtain ⟨hentry, -, rfl⟩ := h
  rw [Machine.frameAt, Machine.pageWord, if_pos hentry]

theorem holds_givesBack (hm : GivesBack s dir virt m) (frame : Nat) :
    Holds (· < 1024) { s with machine := m } frame ↔ s.Holds (· < 1024) frame := Enlarges.holds_congr hm.entries frame

/-- Backed pages stay so when a frame is given back that none of them has. -/
theorem Backs.givesBack {virts : List (BitVec 32)} {dir' : BitVec 32} (h : s.Backs dir' virts) (hdir' : dir' ∈ s.live)
    (hm : GivesBack s dir virt m) (hkept : ∀ v ∈ virts, s.machine.KeepsFrame dir virt (s.machine.frameAt dir' v)) :
    Backs { s with machine := m } dir' virts :=
  h.of_kept (fun v hv => hm.words dir' hdir' v (hkept v hv)) (fun v hv => hm.used _ (hkept v hv) (h.used v hv))
    fun v hv hholds => h.plain v hv ((holds_givesBack hm _).mp hholds)

/-- The loop of `winsys_remove_window_user` leaves the other backed pages alone. -/
theorem freePages_backs {virts rest : List (BitVec 32)} (h : s.Separate)
    (hbacks : s.Backs s.machine.curDirectory (virts ++ rest)) :
    Separate { s with machine := s.machine.freePages virts } ∧
      Backs { s with machine := s.machine.freePages virts } s.machine.curDirectory rest := by
  induction virts generalizing s with
  | nil => exact ⟨h, hbacks⟩
  | cons v virts ih =>
    have hmem : v ∈ v :: virts ++ rest := List.mem_cons_self
    have hgives := h.freeVirt_givesBack h.current fun frame hreleases =>
      frameAt_of_releases hreleases ▸ hbacks.plain v hmem
    obtain ⟨hne, hnodup⟩ := List.nodup_cons.mp hbacks.nodup
    have hrest : s.Backs s.machine.curDirectory (virts ++ rest) :=
      ⟨fun u hu => hbacks.present u (List.mem_cons_of_mem _ hu), fun u hu => hbacks.used u (List.mem_cons_of_mem _ hu),
        fun u hu => hbacks.plain u (List.mem_cons_of_mem _ hu), hnodup⟩
    have hkept := hrest.givesBack h.current hgives fun u hu freed hreleases heq =>
      hne (List.mem_map.mpr ⟨u, hu, heq.trans (frameAt_of_releases hreleases)⟩)
    have hcur : (s.machine.vmmngrFreeVirt s.machine.curDirectory v).curDirectory = s.machine.curDirectory :=
      hgives.current
    obtain ⟨hseparate, hbacks'⟩ := ih hgives.separate (by dsimp only; rw [hcur]; exact hkept)
    dsimp only at hbacks'
    rw [hcur] at hbacks'
    exact ⟨hseparate, hbacks'⟩

end Directories

namespace Winsys

/-- `width * height * 3` in 32 bits. -/
def framebufferSizeInBytes (width height : Int) : BitVec 32 := BitVec.ofInt 32 (width * height * 3)

def getWinPageAmt (width height : Int) : BitVec 32 :=
  let framebufferPageAmt := framebufferSizeInBytes width height / 4096#32
  if framebufferSizeInBytes width height % 4096#32 ≠ 0#32 then framebufferPageAmt + 1#32 else framebufferPageAmt

/-- What the functions read of a window of a user process. -/
structure UserWindow where
  width : Int
  height : Int
  wBuffer : BitVec 32
  wsysBuffer : BitVec 32
  deriving DecidableEq

/-- The pages of the window in the window system's directory. -/
def UserWindow.pages (w : UserWindow) : List (BitVec 32) :=
  pagesAt w.wsysBuffer (getWinPageAmt w.width w.height).toNat

/-- The directories, that of the process `winsys_pid`, and the user windows of the list. -/
structure SharedBuffers extends Directories where
  winsysPdir : BitVec 32
  windows : List UserWindow

namespace SharedBuffers

/-- `winsys_create_win_user`, without the blocks of the kernel's heap. What `loc` holds before the first assignment in
the searches is `undefined`. -/
def winsysCreateWinUser (s : SharedBuffers) (width height : Int) (undefined : BitVec 32) : Option SharedBuffers := do
  let pages := getWinPageAmt width height
  let (wBuffer, m) := s.machine.allocateUserSpacePages pages.toInt undefined
  let m ← m.memset wBuffer 0#8 (framebufferSizeInBytes width height).toInt.toNat
  let wsysBuffer := m.findUserSpacePagesByPdir s.winsysPdir userSpace pages.toInt undefined
  some { s with
    machine := m.mapBuffer s.winsysPdir wBuffer wsysBuffer pages.toNat
    windows := s.windows ++ [⟨width, height, wBuffer, wsysBuffer⟩] }

/-- `winsys_remove_window_user` on the window at a place of the list. -/
def winsysRemoveWindowUser (s : SharedBuffers) (k : Nat) : Option SharedBuffers := do
  let win ← s.windows[k]?
  some { s with machine := s.machine.freePages win.pages, windows := s.windows.eraseIdx k }

/-! ### The size of a buffer -/

theorem toNat_getWinPageAmt (width height : Int) :
    (getWinPageAmt width height).toNat = ((framebufferSizeInBytes width height).toNat + 4095) / 4096 := by
  have hlt := (framebufferSizeInBytes width height).isLt
  rw [getWinPageAmt]
  generalize framebufferSizeInBytes width height = size at hlt ⊢
  have hmod : (size % 4096#32).toNat = size.toNat % 4096 := BitVec.toNat_umod
  have hdiv : (size / 4096#32).toNat = size.toNat / 4096 := BitVec.toNat_udiv
  split
  · next hne =>
    have hpos : size.toNat % 4096 ≠ 0 := fun hzero => hne (BitVec.eq_of_toNat_eq (by rw [hmod, hzero]; rfl))
    rw [BitVec.toNat_add, hdiv, show (1#32).toNat = 1 from rfl]
    omega
  · next heq =>
    have hzero : size.toNat % 4096 = 0 := by rw [← hmod, Decidable.not_not.mp heq]; rfl
    rw [hdiv]
    omega

theorem toInt_getWinPageAmt (width height : Int) :
    (getWinPageAmt width height).toInt = ((getWinPageAmt width height).toNat : Int) := by
  have hlt := (framebufferSizeInBytes width height).isLt
  have hpages := toNat_getWinPageAmt width height
  rw [BitVec.toInt_eq_toNat_of_lt (by omega)]

/-- `memset` gets no more bytes than the pages have. -/
theorem count_le (width height : Int) :
    (framebufferSizeInBytes width height).toInt.toNat ≤ 4096 * (getWinPageAmt width height).toNat := by
  have hle : (framebufferSizeInBytes width height).toInt.toNat ≤ (framebufferSizeInBytes width height).toNat := by
    rw [BitVec.toInt_eq_toNat_cond]
    split <;> omega
  have hpages := toNat_getWinPageAmt width height
  omega

theorem getWinPageAmt_pos {width height : Int} (hpos : 0 < width * height * 3) (hfits : width * height * 3 < 2 ^ 32) :
    0 < (getWinPageAmt width height).toNat := by
  have hsize : ((framebufferSizeInBytes width height).toNat : Int) = width * height * 3 := by
    rw [framebufferSizeInBytes, BitVec.toNat_ofInt]
    generalize width * height * 3 = size at hpos hfits ⊢
    rw [Int.toNat_of_nonneg (Int.emod_nonneg size (by decide))]
    exact Int.emod_eq_of_lt (by omega) hfits
  rw [toNat_getWinPageAmt]
  omega

/-! ### A window is made -/

/-- The buffer in the caller's directory, and the machine after its allocation. -/
def allocated (s : SharedBuffers) (width height : Int) (undefined : BitVec 32) : BitVec 32 × Machine :=
  s.machine.allocateUserSpacePages (getWinPageAmt width height).toInt undefined

/-- Both directories have room for the window, and no allocation of a frame fails. -/
structure Suffices (s : SharedBuffers) (width height : Int) (undefined : BitVec 32) : Prop where
  room : ∃ first, s.machine.Room s.machine.curDirectory userSpace (getWinPageAmt width height).toNat first
  frames : s.machine.SuppliedAll s.machine.curDirectory Machine.userPageFlags Machine.userPageFlags
    (pagesAt (s.allocated width height undefined).1 (getWinPageAmt width height).toNat)
  wsysRoom : ∃ first, (s.allocated width height undefined).2.Room s.winsysPdir userSpace
    (getWinPageAmt width height).toNat first
  tables : ∀ m, (s.allocated width height undefined).2.memset (s.allocated width height undefined).1 0#8
      (framebufferSizeInBytes width height).toInt.toNat = some m →
    ∀ i < (getWinPageAmt width height).toNat,
      let wsysBuffer := m.findUserSpacePagesByPdir s.winsysPdir userSpace (getWinPageAmt width height).toInt undefined
      ((m.mapBuffer s.winsysPdir (s.allocated width height undefined).1 wsysBuffer i).tableForEntry
        (Machine.vmmngrPdirectoryLookupEntry s.winsysPdir (pageAt wsysBuffer i))).1 = true

/-- Where a range of pages lies. -/
structure InUserSpace (base : BitVec 32) (n : Nat) : Prop where
  lower : 0xA0000000 ≤ base.toNat
  upper : base.toNat + 4096 * n ≤ 0xC0000000
  aligned : base.toNat % 4096 = 0

/-- What making a window does to the directories. -/
structure Created (s : SharedBuffers) (n : Nat) (wBuffer wsysBuffer : BitVec 32) (m : Machine) : Prop
    extends Directories.Enlarges s.toDirectories m where
  inSpace : InUserSpace wBuffer n
  wsysInSpace : InUserSpace wsysBuffer n
  absent : ∀ i < n, ptEntryIsPresent (s.machine.pageWord s.machine.curDirectory (pageAt wBuffer i)) = false
  wsysAbsent : ∀ i < n, ptEntryIsPresent (s.machine.pageWord s.winsysPdir (pageAt wsysBuffer i)) = false
  backs : Directories.Backs { s.toDirectories with machine := m } s.machine.curDirectory (pagesAt wBuffer n)
  fresh : ∀ i < n, m.frameAt s.machine.curDirectory (pageAt wBuffer i) ≠ 0 ∧
    ¬ s.Used (m.frameAt s.machine.curDirectory (pageAt wBuffer i))
  shared : ∀ i < n, ptEntryIsPresent (m.pageWord s.winsysPdir (pageAt wsysBuffer i)) = true ∧
    m.frameAt s.winsysPdir (pageAt wsysBuffer i) = m.frameAt s.machine.curDirectory (pageAt wBuffer i)
  others : ∀ dir ∈ s.live, ∀ virt,
    (dir = s.machine.curDirectory → ∀ i < n, ¬ SamePage virt (pageAt wBuffer i)) →
    (dir = s.winsysPdir → ∀ i < n, ¬ SamePage virt (pageAt wsysBuffer i)) →
    m.pageWord dir virt = s.machine.pageWord dir virt

theorem inUserSpace_of_room {m : Machine} {pdir : BitVec 32} {n first : Nat} (h : m.Room pdir userSpace n first) :
    InUserSpace (pageAt userSpace first) n := by
  have hle := h.1
  have hbelow : Machine.pagesBelow userSpace = 0x20000 := by decide
  have htoNat : (pageAt userSpace first).toNat = 0xA0000000 + 4096 * first :=
    toNat_pageAt (by rw [show userSpace.toNat = 0xA0000000 from rfl]; omega)
  exact ⟨by omega, by omega, by omega⟩

theorem absent_of_room {m : Machine} {pdir : BitVec 32} {n first : Nat} (h : m.Room pdir userSpace n first) :
    ∀ i < n, ptEntryIsPresent (m.pageWord pdir (pageAt (pageAt userSpace first) i)) = false := by
  intro i hi
  have habsent := h.2 (first + i) (by omega) (by omega)
  rw [Machine.absentPage, Machine.vmmngrCheckVirtPresent_eq, Bool.not_eq_true'] at habsent
  rw [pageAt_add]
  exact habsent

theorem InUserSpace.not_sharedSlot {base : BitVec 32} {n : Nat} (h : InUserSpace base n) {i : Nat} (hi : i < n) :
    ¬ SharedSlot (pageDirectoryIndex (pageAt base i)) := by
  have hlower := h.lower
  have hupper := h.upper
  have htoNat : (pageAt base i).toNat = base.toNat + 4096 * i := toNat_pageAt (by omega)
  have huser : UserAddress (pageAt base i) := ⟨by omega, by omega⟩
  exact huser.slot.not_shared

/-- The bytes that are cleared lie in the pages of the buffer. -/
theorem samePage_of_lt {base : BitVec 32} {n k : Nat} (h : InUserSpace base n) (hk : k < 4096 * n) :
    ∃ i < n, SamePage (base + BitVec.ofNat 32 k) (pageAt base i) := by
  have hupper := h.upper
  have haligned := h.aligned
  refine ⟨k / 4096, by omega, ?_⟩
  rw [samePage_iff, toNat_pageAt (by omega), BitVec.toNat_add, BitVec.toNat_ofNat]
  omega

variable {s t : SharedBuffers} {width height : Int} {undefined : BitVec 32} {n : Nat}

/-- The allocation in the caller's directory. -/
theorem allocated_provides (h : s.toDirectories.Separate) (hn : 0 < (getWinPageAmt width height).toNat)
    (hsuffices : s.Suffices width height undefined) :
    InUserSpace (s.allocated width height undefined).1 (getWinPageAmt width height).toNat ∧
      (∀ i < (getWinPageAmt width height).toNat, ptEntryIsPresent (s.machine.pageWord s.machine.curDirectory
        (pageAt (s.allocated width height undefined).1 i)) = false) ∧
      Directories.Provides s.toDirectories s.machine.curDirectory
        (pagesAt (s.allocated width height undefined).1 (getWinPageAmt width height).toNat)
        (s.allocated width height undefined).2 := by
  obtain ⟨first, hroom⟩ := hsuffices.room
  have hfind : ∃ a, s.machine.findPages s.machine.curDirectory userSpace (getWinPageAmt width height).toNat
      (2 ^ 20) 0 0 undefined = some a := Machine.exists_findPages hn hroom
  obtain ⟨a, hfind⟩ := hfind
  obtain ⟨first, rfl, hroom, -⟩ := Machine.findPages_eq_some hn hfind
  have hallocated : s.allocated width height undefined = (pageAt userSpace first, s.machine.allocPages
      s.machine.curDirectory Machine.userPageFlags Machine.userPageFlags
      (pagesAt (pageAt userSpace first) (getWinPageAmt width height).toNat)) := by
    rw [allocated, Machine.allocateUserSpacePages, toInt_getWinPageAmt, hfind]
    rfl
  have hframes := hsuffices.frames
  rw [hallocated] at hframes ⊢
  have hspace := inUserSpace_of_room hroom
  have habsent := absent_of_room hroom
  refine ⟨hspace, habsent, h.allocPages_provides h.current (by decide) (by decide) (fun v hv => ?_) (fun v hv => ?_)
    (pairwise_pagesAt (by have := hspace.upper; dsimp only; omega)) hframes⟩
  · obtain ⟨i, hi, rfl⟩ := mem_pagesAt.mp hv
    exact hspace.not_sharedSlot hi
  · obtain ⟨i, hi, rfl⟩ := mem_pagesAt.mp hv
    exact habsent i hi

/-- The function returns, and maps the new pages in both directories. -/
theorem exists_created (h : s.toDirectories.Separate) (hwinsys : s.winsysPdir ∈ s.live)
    (hn : 0 < (getWinPageAmt width height).toNat) (hsuffices : s.Suffices width height undefined) :
    ∃ wBuffer wsysBuffer m, Created s (getWinPageAmt width height).toNat wBuffer wsysBuffer m ∧
      s.winsysCreateWinUser width height undefined =
        some { s with machine := m, windows := s.windows ++ [⟨width, height, wBuffer, wsysBuffer⟩] } := by
  obtain ⟨hspace, habsent, hprovides⟩ := allocated_provides h hn hsuffices
  have hcount := count_le width height
  have hroom := hsuffices.wsysRoom
  have htables := hsuffices.tables
  rw [winsysCreateWinUser, show s.machine.allocateUserSpacePages (getWinPageAmt width height).toInt undefined =
    s.allocated width height undefined from rfl]
  generalize s.allocated width height undefined = r at *
  obtain ⟨a, m₁⟩ := r
  dsimp only at *
  generalize hamt : (getWinPageAmt width height).toNat = n at *
  have hcur : m₁.curDirectory = s.machine.curDirectory := hprovides.current
  -- the buffer is cleared
  have hmemset : ∃ m₂, m₁.memset a 0#8 (framebufferSizeInBytes width height).toInt.toNat = some m₂ ∧
      Directories.Enlarges { s.toDirectories with machine := m₁ } m₂ ∧
      ∀ dir ∈ s.live, ∀ virt, m₂.pageWord dir virt = m₁.pageWord dir virt := by
    refine Directories.memset_plain (s := { s.toDirectories with machine := m₁ }) hprovides.separate
      (fun k hk => ?_) 0#8
    obtain ⟨i, hi, hsame⟩ := samePage_of_lt hspace (show k < 4096 * n by omega)
    have hmem : pageAt a i ∈ pagesAt a n := mem_pagesAt.mpr ⟨i, hi, rfl⟩
    dsimp only
    rw [Directories.Plain, Machine.frameAt, hsame.pageWord_eq, hcur]
    exact ⟨hprovides.backs.present _ hmem, hprovides.backs.used _ hmem, hprovides.backs.plain _ hmem⟩
  obtain ⟨m₂, hmemset, hcleared, hwords⟩ := hmemset
  have hkept : Directories.Enlarges s.toDirectories m₂ := hprovides.toEnlarges.trans hcleared
  have hcur₂ : m₂.curDirectory = s.machine.curDirectory := hkept.current
  -- the search in the window system's directory
  obtain ⟨first, hroom⟩ := hroom
  have hfind : ∃ b, m₂.findPages s.winsysPdir userSpace n (2 ^ 20) 0 0 undefined = some b :=
    Machine.exists_findPages hn (hroom.congr (hwords _ hwinsys))
  obtain ⟨b, hfind⟩ := hfind
  obtain ⟨first, rfl, hroom, -⟩ := Machine.findPages_eq_some hn hfind
  have hsearch : m₂.findUserSpacePagesByPdir s.winsysPdir userSpace (getWinPageAmt width height).toInt undefined
      = pageAt userSpace first := by
    rw [Machine.findUserSpacePagesByPdir, toInt_getWinPageAmt, hamt, hfind]
    rfl
  have htables := htables m₂ hmemset
  rw [hsearch] at htables
  have hspace' := inUserSpace_of_room hroom
  have habsent' := absent_of_room hroom
  generalize pageAt userSpace first = b at hsearch htables hspace' habsent'
  have hpresent : ∀ i < n, ptEntryIsPresent (m₂.pageWord m₂.curDirectory (pageAt a i)) = true := by
    intro i hi
    rw [hcur₂, hwords _ h.current]
    exact hprovides.backs.present _ (mem_pagesAt.mpr ⟨i, hi, rfl⟩)
  have hapart : m₂.curDirectory = s.winsysPdir → ∀ i < n, ∀ j < n, ¬ SamePage (pageAt a i) (pageAt b j) := by
    intro hsame i hi j hj hpage
    have hpresent := hpresent i hi
    rw [hpage.pageWord_eq, hsame, habsent' j hj] at hpresent
    cases hpresent
  have hshares := Directories.mapBuffer_shares (s := { s.toDirectories with machine := m₂ }) hcleared.separate hwinsys
    hpresent hapart (fun i hi => hspace'.not_sharedSlot hi) (by have := hspace'.upper; omega) htables
  have hcaller : ∀ i < n, (m₂.mapBuffer s.winsysPdir a b n).pageWord s.machine.curDirectory (pageAt a i)
      = m₁.pageWord s.machine.curDirectory (pageAt a i) := fun i hi =>
    (hshares.others _ h.current _ fun hsame => hapart (hcur₂.trans hsame) i hi).trans (hwords _ h.current _)
  have hmapped : Directories.Enlarges { s.toDirectories with machine := m₁ } (m₂.mapBuffer s.winsysPdir a b n) :=
    hcleared.trans hshares.toEnlarges
  refine ⟨a, b, m₂.mapBuffer s.winsysPdir a b n, ⟨hkept.trans hshares.toEnlarges, hspace, hspace', habsent,
    fun i hi => ?_, hprovides.backs.congr hmapped fun v hv => ?_, fun i hi => ?_, fun i hi => ?_,
    fun dir hdir virt hother hother' => ?_⟩, ?_⟩
  · rw [← habsent' i hi, hwords _ hwinsys]
    refine congrArg _ (hprovides.others _ hwinsys _ fun hsame v hv => ?_).symm
    obtain ⟨j, hj, rfl⟩ := mem_pagesAt.mp hv
    exact fun hpage => hapart (hcur₂.trans hsame.symm) j hj i hi (Directories.SamePage.symm hpage)
  · obtain ⟨i, hi, rfl⟩ := mem_pagesAt.mp hv
    exact hcaller i hi
  · rw [Machine.frameAt, hcaller i hi]
    exact hprovides.fresh _ (mem_pagesAt.mpr ⟨i, hi, rfl⟩)
  · obtain ⟨hpresent', hframe⟩ := hshares.shared i hi
    refine ⟨hpresent', hframe.trans ?_⟩
    dsimp only
    rw [Machine.frameAt, Machine.frameAt, hcaller i hi, hcur₂, hwords _ h.current]
  · refine (hshares.others dir hdir virt hother').trans ((hwords dir hdir virt).trans ?_)
    refine hprovides.others dir hdir virt fun hsame v hv => ?_
    obtain ⟨i, hi, rfl⟩ := mem_pagesAt.mp hv
    exact hother hsame i hi
  · rw [hmemset]
    dsimp only [Option.bind_eq_bind, Option.bind_some]
    rw [hsearch]

/-! ### What a new window is -/

/-- The buffer of a new window, in the caller's directory and in the window system's. -/
structure Coherent (s t : SharedBuffers) (w : UserWindow) (n : Nat) : Prop where
  same : ∀ i < n, ∀ o < 4096,
    t.machine.vmmngrCheckVirtPresent s.machine.curDirectory (pageAt w.wBuffer i + BitVec.ofNat 32 o) = true ∧
      t.machine.vmmngrVirt2physPdir s.machine.curDirectory (pageAt w.wBuffer i + BitVec.ofNat 32 o) =
        t.machine.vmmngrVirt2physPdir s.winsysPdir (pageAt w.wsysBuffer i + BitVec.ofNat 32 o)
  distinct : ((pagesAt w.wBuffer n).map (t.machine.frameAt s.machine.curDirectory)).Nodup
  unused : ∀ i < n, ¬ s.Used (t.machine.frameAt s.machine.curDirectory (pageAt w.wBuffer i))
  backsNoOther : ∀ win ∈ s.windows, ∀ v ∈ win.pages, ∀ i < n,
    t.machine.frameAt s.winsysPdir v ≠ t.machine.frameAt s.machine.curDirectory (pageAt w.wBuffer i)
  unmapped : ∀ i < n, s.machine.vmmngrCheckVirtPresent s.machine.curDirectory (pageAt w.wBuffer i) = false ∧
    s.machine.vmmngrCheckVirtPresent s.winsysPdir (pageAt w.wsysBuffer i) = false
  inSpace : InUserSpace w.wBuffer n
  wsysInSpace : InUserSpace w.wsysBuffer n
  others : ∀ dir ∈ s.live, ∀ virt,
    (dir = s.machine.curDirectory → ∀ i < n, ¬ SamePage virt (pageAt w.wBuffer i)) →
    (dir = s.winsysPdir → ∀ i < n, ¬ SamePage virt (pageAt w.wsysBuffer i)) →
    t.machine.vmmngrVirt2physPdir dir virt = s.machine.vmmngrVirt2physPdir dir virt

/-- The user windows have frames of their own behind their pages in the window system's directory. -/
structure Sound (s : SharedBuffers) : Prop where
  separate : s.toDirectories.Separate
  winsys : s.winsysPdir ∈ s.live
  backs : s.toDirectories.Backs s.winsysPdir (s.windows.flatMap UserWindow.pages)
  slots : ∀ v ∈ s.windows.flatMap UserWindow.pages, ¬ SharedSlot (pageDirectoryIndex v)

/-- A byte of a page is translated with the page. -/
theorem virt2phys_pageAt {m : Machine} {dir base : BitVec 32} {i o : Nat} (h : InUserSpace base n) (hi : i < n)
    (ho : o < 4096) (hpresent : ptEntryIsPresent (m.pageWord dir (pageAt base i)) = true) :
    m.vmmngrCheckVirtPresent dir (pageAt base i + BitVec.ofNat 32 o) = true ∧
      m.vmmngrVirt2physPdir dir (pageAt base i + BitVec.ofNat 32 o) =
        ptEntryPfn (m.pageWord dir (pageAt base i)) + BitVec.ofNat 32 o := by
  have hupper := h.upper
  have haligned := h.aligned
  have hbase : (pageAt base i).toNat = base.toNat + 4096 * i := toNat_pageAt (by omega)
  have hsum : (pageAt base i + BitVec.ofNat 32 o).toNat = base.toNat + 4096 * i + o := by
    rw [BitVec.toNat_add, hbase, BitVec.toNat_ofNat]
    omega
  have hsame : SamePage (pageAt base i + BitVec.ofNat 32 o) (pageAt base i) := by
    rw [samePage_iff, hsum, hbase]
    omega
  have hoffset : (pageAt base i + BitVec.ofNat 32 o) &&& 0xfff#32 = BitVec.ofNat 32 o := by
    refine BitVec.eq_of_toNat_eq ?_
    rw [BitVec.toNat_and, hsum, show (0xfff#32).toNat = 2 ^ 12 - 1 from rfl, Nat.and_two_pow_sub_one_eq_mod,
      BitVec.toNat_ofNat]
    omega
  rw [Machine.vmmngrCheckVirtPresent_eq, Machine.vmmngrVirt2physPdir_eq, hsame.pageWord_eq, if_pos hpresent, hoffset]
  exact ⟨hpresent, rfl⟩

/-- The pages of the other windows are not among the new ones, which were absent. -/
theorem Created.word_kept {wBuffer wsysBuffer virt : BitVec 32} {m : Machine} (h : s.Sound)
    (hm : Created s n wBuffer wsysBuffer m) (hmem : virt ∈ s.windows.flatMap UserWindow.pages) :
    m.pageWord s.winsysPdir virt = s.machine.pageWord s.winsysPdir virt := by
  have hpresent := h.backs.present virt hmem
  refine hm.others _ h.winsys virt (fun hsame j hj hpage => ?_) fun _ j hj hpage => ?_
  · rw [hpage.pageWord_eq, hsame, hm.absent j hj] at hpresent
    cases hpresent
  · rw [hpage.pageWord_eq, hm.wsysAbsent j hj] at hpresent
    cases hpresent

theorem Created.coherent {wBuffer wsysBuffer : BitVec 32} {m : Machine} (h : s.Sound)
    (hm : Created s n wBuffer wsysBuffer m) :
    Coherent s { s with machine := m, windows := s.windows ++ [⟨width, height, wBuffer, wsysBuffer⟩] }
      ⟨width, height, wBuffer, wsysBuffer⟩ n where
  same i hi o ho := by
    have hpresent := hm.backs.present _ (mem_pagesAt.mpr ⟨i, hi, rfl⟩)
    obtain ⟨hpresent', hframe⟩ := hm.shared i hi
    obtain ⟨hcheck, hphys⟩ := virt2phys_pageAt hm.inSpace hi ho hpresent
    obtain ⟨-, hphys'⟩ := virt2phys_pageAt hm.wsysInSpace hi ho hpresent'
    refine ⟨hcheck, hphys.trans ?_⟩
    rw [show ptEntryPfn _ = _ from Entry.pfn_eq_of_frameOf_eq hframe.symm]
    exact hphys'.symm
  distinct := hm.backs.nodup
  unused i hi := (hm.fresh i hi).2
  backsNoOther win hwin v hv i hi := by
    have hmem : v ∈ s.windows.flatMap UserWindow.pages := List.mem_flatMap.mpr ⟨win, hwin, hv⟩
    show m.frameAt s.winsysPdir v ≠ m.frameAt s.machine.curDirectory (pageAt wBuffer i)
    rw [Machine.frameAt, hm.word_kept h hmem]
    exact fun heq => (hm.fresh i hi).2 (heq ▸ h.backs.used v hmem)
  unmapped i hi := by
    rw [Machine.vmmngrCheckVirtPresent_eq, Machine.vmmngrCheckVirtPresent_eq]
    exact ⟨hm.absent i hi, hm.wsysAbsent i hi⟩
  inSpace := hm.inSpace
  wsysInSpace := hm.wsysInSpace
  others dir hdir virt hother hother' := by
    have hword : m.pageWord dir virt = s.machine.pageWord dir virt := hm.others dir hdir virt hother hother'
    rw [Machine.vmmngrVirt2physPdir_eq, Machine.vmmngrVirt2physPdir_eq, hword]

/-- The pages of the new window are backed beside those of the others. -/
theorem Created.sound {wBuffer wsysBuffer : BitVec 32} {m : Machine} (h : s.Sound)
    (hm : Created s (getWinPageAmt width height).toNat wBuffer wsysBuffer m) :
    Sound { s with machine := m, windows := s.windows ++ [⟨width, height, wBuffer, wsysBuffer⟩] } := by
  have hpages : (s.windows ++ [UserWindow.mk width height wBuffer wsysBuffer]).flatMap UserWindow.pages =
      s.windows.flatMap UserWindow.pages ++ pagesAt wsysBuffer (getWinPageAmt width height).toNat := by
    rw [List.flatMap_append, List.flatMap_singleton]
    rfl
  have hold : Directories.Backs { s.toDirectories with machine := m } s.winsysPdir
      (s.windows.flatMap UserWindow.pages) :=
    h.backs.congr hm.toEnlarges fun v hv => hm.word_kept h hv
  have hframes : (pagesAt wsysBuffer (getWinPageAmt width height).toNat).map (m.frameAt s.winsysPdir) =
      (pagesAt wBuffer (getWinPageAmt width height).toNat).map (m.frameAt s.machine.curDirectory) := by
    rw [pagesAt, pagesAt, List.map_map, List.map_map]
    exact List.map_congr_left fun i hi => (hm.shared i (List.mem_range.mp hi)).2
  have hnew : Directories.Backs { s.toDirectories with machine := m } s.winsysPdir
      (pagesAt wsysBuffer (getWinPageAmt width height).toNat) := by
    refine ⟨fun v hv => ?_, fun v hv => ?_, fun v hv => ?_, hframes ▸ hm.backs.nodup⟩ <;>
      obtain ⟨i, hi, rfl⟩ := mem_pagesAt.mp hv
    · exact (hm.shared i hi).1
    · exact (hm.shared i hi).2 ▸ hm.backs.used _ (mem_pagesAt.mpr ⟨i, hi, rfl⟩)
    · exact (hm.shared i hi).2 ▸ hm.backs.plain _ (mem_pagesAt.mpr ⟨i, hi, rfl⟩)
  refine ⟨hm.separate, h.winsys, ?_, ?_⟩
  · dsimp only
    rw [hpages]
    refine hold.append hnew fun v hv v' hv' heq => ?_
    obtain ⟨i, hi, rfl⟩ := mem_pagesAt.mp hv'
    refine (hm.fresh i hi).2 ?_
    rw [← (hm.shared i hi).2, ← show m.frameAt s.winsysPdir v = m.frameAt s.winsysPdir _ from heq, Machine.frameAt,
      hm.word_kept h hv]
    exact h.backs.used v hv
  · dsimp only
    rw [hpages]
    intro v hv
    rcases List.mem_append.mp hv with hmem | hmem
    · exact h.slots v hmem
    · obtain ⟨i, hi, rfl⟩ := mem_pagesAt.mp hmem
      exact hm.wsysInSpace.not_sharedSlot hi

/-! ### Runs -/

/-- The calls that change mappings, and the functions of the window system. -/
inductive BufferOp
  | create
  | destroy (dir : BitVec 32)
  | switchTo (dir : BitVec 32)
  | allocVirt (dir virt pdeFlags pteFlags : BitVec 32)
  | mapPage (dir phys virt pdeFlags pteFlags : BitVec 32)
  | unmapVirt (dir virt : BitVec 32)
  | freeVirt (dir virt : BitVec 32)
  | createWinUser (width height : Int) (undefined : BitVec 32)
  | removeWindowUser (k : Nat)

def setDirectories (s : SharedBuffers) (d : Directories) : SharedBuffers := { s with toDirectories := d }

def setMachine (s : SharedBuffers) (m : Machine) : SharedBuffers := { s with machine := m }

def apply (s : SharedBuffers) : BufferOp → Option SharedBuffers
  | .create => some (s.setDirectories s.toDirectories.create)
  | .destroy dir => some (s.setDirectories (s.toDirectories.destroy dir))
  | .switchTo dir => some (s.setMachine (s.machine.vmmngrSwitchPdirectory dir))
  | .allocVirt dir virt pdeFlags pteFlags => some (s.setMachine (s.machine.vmmngrAllocVirt dir virt pdeFlags pteFlags))
  | .mapPage dir phys virt pdeFlags pteFlags =>
    some (s.setMachine (s.machine.vmmngrMapPage dir phys virt pdeFlags pteFlags))
  | .unmapVirt dir virt => some (s.setMachine (s.machine.vmmngrUnmapVirt dir virt))
  | .freeVirt dir virt => some (s.setMachine (s.machine.vmmngrFreeVirt dir virt))
  | .createWinUser width height undefined => s.winsysCreateWinUser width height undefined
  | .removeWindowUser k => s.winsysRemoveWindowUser k

/-- How the kernel calls them: on existing directories and with attributes as flags. The process of the window system
is not destroyed, pages are mapped and unmapped by hand in the directories of new processes only, the listener removes
windows, and for new windows address space and frames suffice. -/
def Called (s : SharedBuffers) : BufferOp → Prop
  | .create => True
  | .destroy dir => dir ∈ s.live ∧ dir ≠ s.machine.curDirectory ∧ dir ≠ s.winsysPdir
  | .switchTo dir => dir ∈ s.live
  | .allocVirt dir _ pdeFlags _ => dir ∈ s.live ∧ pdeFlags.toNat < 4096
  | .mapPage dir _ _ pdeFlags _ => dir ∈ s.live ∧ dir ≠ s.winsysPdir ∧ pdeFlags.toNat < 4096
  | .unmapVirt dir _ => dir ∈ s.live ∧ dir ≠ s.winsysPdir
  | .freeVirt dir _ => dir ∈ s.live
  | .createWinUser width height undefined => s.Suffices width height undefined
  | .removeWindowUser _ => s.machine.curDirectory = s.winsysPdir

/-- A page that is given back otherwise than by the window system is not in a frame of a directory, a table or a
window in the list. -/
def SparesWindows (s : SharedBuffers) : BufferOp → Prop
  | .freeVirt dir virt => ∀ frame, s.machine.Releases dir virt frame →
      ¬ s.Holds (· < 1024) frame ∧ ∀ win ∈ s.windows, ∀ v ∈ win.pages, s.machine.frameAt s.winsysPdir v ≠ frame
  | _ => True

def CalledStep (s : SharedBuffers) (op : BufferOp) (t : SharedBuffers) : Prop := s.Called op ∧ s.apply op = some t

def Step (s : SharedBuffers) (op : BufferOp) (t : SharedBuffers) : Prop := s.SparesWindows op ∧ s.CalledStep op t

/-- No window was made yet. -/
def start (d : Directories) (winsysPdir : BitVec 32) : SharedBuffers := ⟨d, winsysPdir, []⟩

namespace Sound

/-- The pages of the windows keep their words, and their frames stay in use. -/
theorem of_enlarges {m : Machine} (h : s.Sound) (hm : Directories.Enlarges s.toDirectories m)
    (hwords : ∀ v ∈ s.windows.flatMap UserWindow.pages, m.pageWord s.winsysPdir v = s.machine.pageWord s.winsysPdir v) :
    (s.setMachine m).Sound :=
  ⟨hm.separate, h.winsys, h.backs.congr hm hwords, h.slots⟩

theorem of_leaves {d : Directories} (h : s.Sound) (hd : Directories.Leaves s.toDirectories d)
    (hwinsys : s.winsysPdir ∈ d.live) : (s.setDirectories d).Sound :=
  ⟨hd.separate, hwinsys, h.backs.leaves hd h.winsys hwinsys, h.slots⟩

/-- A window without a page changes the list only. -/
theorem create_empty (h : s.Sound) (hn : (getWinPageAmt width height).toNat = 0)
    (hcreate : s.winsysCreateWinUser width height undefined = some t) : t.Sound := by
  have hsize := toNat_getWinPageAmt width height
  have hzero : framebufferSizeInBytes width height = 0#32 := BitVec.eq_of_toNat_eq (by rw [BitVec.toNat_ofNat]; omega)
  have halloc : (s.machine.allocateUserSpacePages (getWinPageAmt width height).toInt undefined).2 = s.machine := by
    rw [toInt_getWinPageAmt, hn, Machine.allocateUserSpacePages]
    split <;> rfl
  rw [winsysCreateWinUser] at hcreate
  generalize s.machine.allocateUserSpacePages _ undefined = r at hcreate halloc
  obtain ⟨a, m⟩ := r
  obtain rfl := halloc
  rw [hzero, hn] at hcreate
  obtain rfl := Option.some.inj hcreate
  refine ⟨h.separate, h.winsys, ?_, ?_⟩ <;> dsimp only <;> rw [List.flatMap_append, List.flatMap_singleton] <;>
    rw [show UserWindow.pages _ = [] by rw [UserWindow.pages, hn]; rfl, List.append_nil]
  · exact h.backs
  · exact h.slots

theorem create (h : s.Sound) (hsuffices : s.Suffices width height undefined)
    (hcreate : s.winsysCreateWinUser width height undefined = some t) : t.Sound := by
  rcases Nat.eq_zero_or_pos (getWinPageAmt width height).toNat with hn | hn
  · exact h.create_empty hn hcreate
  · obtain ⟨wBuffer, wsysBuffer, m, hcreated, heq⟩ := exists_created h.separate h.winsys hn hsuffices
    obtain rfl := Option.some.inj (heq.symm.trans hcreate)
    exact hcreated.sound h

/-- The window system gives back the frames of the window that it removes. -/
theorem remove {k : Nat} (h : s.Sound) (hcur : s.machine.curDirectory = s.winsysPdir)
    (hremove : s.winsysRemoveWindowUser k = some t) : t.Sound := by
  obtain ⟨win, hwin, hsome⟩ := Option.bind_eq_some_iff.mp hremove
  obtain rfl := Option.some.inj hsome
  have hperm : (s.windows.flatMap UserWindow.pages).Perm
      (win.pages ++ (s.windows.eraseIdx k).flatMap UserWindow.pages) := by
    obtain ⟨hk, rfl⟩ := List.getElem?_eq_some_iff.mp hwin
    exact ((List.getElem_cons_eraseIdx_perm hk).flatMap_right UserWindow.pages).symm
  have hbacks := h.backs.perm hperm
  rw [← hcur] at hbacks
  obtain ⟨hseparate, hbacks'⟩ := Directories.freePages_backs h.separate hbacks
  refine ⟨hseparate, h.winsys, hcur ▸ hbacks', fun v hv => h.slots v ?_⟩
  exact hperm.mem_iff.mpr (List.mem_append.mpr (.inr hv))

theorem step {op : BufferOp} (h : s.Sound) (hstep : s.Step op t) : t.Sound := by
  obtain ⟨hspares, hcalled, happly⟩ := hstep
  cases op with
  | create =>
    obtain rfl := Option.some.inj happly
    obtain ⟨hleaves, -, hlive⟩ := h.separate.create
    exact h.of_leaves hleaves (hlive _ h.winsys)
  | destroy dir =>
    obtain rfl := Option.some.inj happly
    obtain ⟨hdir, hcur, hne⟩ := hcalled
    exact h.of_leaves (h.separate.destroy hdir hcur) ⟨h.winsys, fun heq => hne heq.symm⟩
  | switchTo dir =>
    obtain rfl := Option.some.inj happly
    rw [Machine.vmmngrSwitchPdirectory, if_neg (h.separate.dir_ne_zero hcalled)]
    refine ⟨h.separate.setCurrent hcalled, h.winsys, ?_, h.slots⟩
    exact h.backs.of_kept (fun _ _ => rfl) h.backs.used h.backs.plain
  | allocVirt dir virt pdeFlags pteFlags =>
    obtain rfl := Option.some.inj happly
    obtain ⟨henlarges, hwords⟩ := h.separate.allocVirt_enlarges hcalled.1 hcalled.2 virt pteFlags
    exact h.of_enlarges henlarges fun v hv => hwords _ h.winsys v (.inl (h.backs.present v hv))
  | mapPage dir phys virt pdeFlags pteFlags =>
    obtain rfl := Option.some.inj happly
    obtain ⟨hdir, hne, hflags⟩ := hcalled
    obtain ⟨henlarges, hwords⟩ := h.separate.mapPage_enlarges hdir hflags phys virt pteFlags
    refine h.of_enlarges henlarges fun v hv => hwords _ h.winsys v fun hsame => ?_
    rcases hsame.2 with heq | hslot
    · exact hne heq.symm
    · exact h.slots v hv (hsame.1.1 ▸ hslot)
  | unmapVirt dir virt =>
    obtain rfl := Option.some.inj happly
    obtain ⟨henlarges, hwords⟩ := h.separate.unmapVirt_enlarges hcalled.1 virt
    refine h.of_enlarges henlarges fun v hv => hwords _ h.winsys v fun hsame => ?_
    rcases hsame.2 with heq | hslot
    · exact hcalled.2 heq.symm
    · exact h.slots v hv (hsame.1.1 ▸ hslot)
  | freeVirt dir virt =>
    obtain rfl := Option.some.inj happly
    have hgives := h.separate.freeVirt_givesBack hcalled fun frame hreleases => (hspares frame hreleases).1
    refine ⟨hgives.separate, h.winsys, h.backs.givesBack h.winsys hgives fun v hv freed hreleases => ?_, h.slots⟩
    obtain ⟨win, hwin, hpage⟩ := List.mem_flatMap.mp hv
    exact (hspares freed hreleases).2 win hwin v hpage
  | createWinUser width height undefined => exact h.create hcalled happly
  | removeWindowUser k => exact h.remove hcalled happly

end Sound

/-- In every run in which no page is given back whose frame is a directory, a table or behind a window of the list, a
new window whose size is positive and fits in 32 bits has one buffer in two address spaces, in frames of its own. -/
theorem coherent_of_run {d : Directories} {winsysPdir : BitVec 32} {ops : List BufferOp} (hd : d.Separate)
    (hwinsys : winsysPdir ∈ d.live) (hrun : Transition.Run Step (start d winsysPdir) ops s)
    (hpos : 0 < width * height * 3) (hfits : width * height * 3 < 2 ^ 32)
    (hsuffices : s.Suffices width height undefined) :
    ∃ t w, s.winsysCreateWinUser width height undefined = some t ∧ t.windows = s.windows ++ [w] ∧
      Coherent s t w (getWinPageAmt width height).toNat := by
  have hstart : (start d winsysPdir).Sound := ⟨hd, hwinsys, .nil, fun _ hv => absurd hv List.not_mem_nil⟩
  have h : s.Sound := hrun.invariant Sound (fun _ _ _ hs hstep => hs.step hstep) hstart
  obtain ⟨wBuffer, wsysBuffer, m, hcreated, heq⟩ :=
    exists_created h.separate h.winsys (getWinPageAmt_pos hpos hfits) hsuffices
  exact ⟨_, _, heq, rfl, hcreated.coherent h⟩

/-! ### Three processes -/

instance (m : Machine) (dir virt : BitVec 32) : Decidable (m.Supplied dir virt) := inferInstanceAs (Decidable (_ ∧ _))

instance decidableSuppliedAll (dir pdeFlags pteFlags : BitVec 32) :
    (virts : List (BitVec 32)) → (m : Machine) → Decidable (m.SuppliedAll dir pdeFlags pteFlags virts)
  | [], _ => isTrue trivial
  | virt :: virts, m =>
    have := decidableSuppliedAll dir pdeFlags pteFlags virts (m.vmmngrAllocVirt dir virt pdeFlags pteFlags)
    inferInstanceAs (Decidable (m.Supplied dir virt ∧ _))

/-- The machine after a window is made at two given addresses, if space and frames suffice. -/
def createdAt (s : SharedBuffers) (width height : Int) (undefined wBuffer wsysBuffer : BitVec 32) : Option Machine := do
  let n := (getWinPageAmt width height).toNat
  let r := s.allocated width height undefined
  guard ((s.machine.findPages s.machine.curDirectory userSpace n (2 ^ 20) 0 0 undefined).isSome ∧ r.1 = wBuffer ∧
    s.machine.SuppliedAll s.machine.curDirectory Machine.userPageFlags Machine.userPageFlags (pagesAt wBuffer n) ∧
    (r.2.findPages s.winsysPdir userSpace n (2 ^ 20) 0 0 undefined).isSome)
  let m ← r.2.memset wBuffer 0#8 (framebufferSizeInBytes width height).toInt.toNat
  guard (m.findUserSpacePagesByPdir s.winsysPdir userSpace (getWinPageAmt width height).toInt undefined = wsysBuffer ∧
    (List.range n).all fun i => ((m.mapBuffer s.winsysPdir wBuffer wsysBuffer i).tableForEntry
      (Machine.vmmngrPdirectoryLookupEntry s.winsysPdir (pageAt wsysBuffer i))).1)
  some (m.mapBuffer s.winsysPdir wBuffer wsysBuffer n)

theorem room_of_isSome {m : Machine} {pdir : BitVec 32} (hn : 0 < n)
    (h : (m.findPages pdir userSpace n (2 ^ 20) 0 0 undefined).isSome = true) :
    ∃ first, m.Room pdir userSpace n first := by
  obtain ⟨a, ha⟩ := Option.isSome_iff_exists.mp h
  obtain ⟨first, -, hroom, -⟩ := Machine.findPages_eq_some hn ha
  exact ⟨first, hroom⟩

theorem suffices_of_createdAt {wBuffer wsysBuffer : BitVec 32} {m : Machine}
    (hn : 0 < (getWinPageAmt width height).toNat)
    (h : s.createdAt width height undefined wBuffer wsysBuffer = some m) :
    s.Suffices width height undefined ∧ s.winsysCreateWinUser width height undefined =
      some { s with machine := m, windows := s.windows ++ [⟨width, height, wBuffer, wsysBuffer⟩] } := by
  obtain ⟨_, hguard, h⟩ := Option.bind_eq_some_iff.mp h
  obtain ⟨hroom, rfl, hframes, hwsysRoom⟩ := (Option.guard_eq_some' _).mp hguard
  obtain ⟨m₁, hmemset, h⟩ := Option.bind_eq_some_iff.mp h
  obtain ⟨_, hguard, h⟩ := Option.bind_eq_some_iff.mp h
  obtain ⟨rfl, htables⟩ := (Option.guard_eq_some' _).mp hguard
  obtain rfl := Option.some.inj h
  refine ⟨⟨room_of_isSome hn hroom, hframes, room_of_isSome hn hwsysRoom, fun m hm i hi => ?_⟩, ?_⟩
  · obtain rfl := Option.some.inj (hmemset.symm.trans hm)
    exact List.all_eq_true.mp htables i (List.mem_range.mpr hi)
  · rw [winsysCreateWinUser, show s.machine.allocateUserSpacePages (getWinPageAmt width height).toInt undefined =
      s.allocated width height undefined from rfl]
    dsimp only
    rw [hmemset]
    rfl

/-- The directory of the window system in frame 1, and those of two processes in frames 2 and 3, each with one table
for the pages from `userSpace`. -/
def threeDirectories : Directories where
  machine :=
    { pmm := { memorySize := 256#32, usedBlocks := 7#32, maxBlocks := 64#32,
               memoryMap := fun w => if w = 0 then 0x7F#32 else 0#32 }
      memory := fun w => if w.2 = 640 then
          if w.1 = 1 then 0x4003#32 else if w.1 = 2 then 0x5007#32 else if w.1 = 3 then 0x6007#32 else 0#32
        else 0#32
      curDirectory := 0x1000#32 }
  live := {dir | dir ∈ [0x1000#32, 0x2000#32, 0x3000#32]}

theorem mem_threeDirectories {dir : BitVec 32} (h : dir ∈ threeDirectories.live) :
    dir = 0x1000#32 ∨ dir = 0x2000#32 ∨ dir = 0x3000#32 := by
  simpa [threeDirectories] using h

theorem slot_of_isPresent {dir : BitVec 32} {i : Nat}
    (h : pdEntryIsPresent (threeDirectories.machine.entry dir i) = true) : i = 640 := by
  refine Decidable.by_contra fun hne => ?_
  rw [show threeDirectories.machine.entry dir i = 0#32 from if_neg hne] at h
  exact absurd h (by decide)

theorem separate_threeDirectories : threeDirectories.Separate := by
  have hframes : ∀ dir ∈ threeDirectories.live, Pmm.frameOf dir ≠ 0 ∧
      threeDirectories.machine.pmm.mmapTest (Pmm.frameOf dir) = true ∧
      Pmm.frameOf (threeDirectories.machine.entry dir 640) ≠ 0 ∧
      threeDirectories.machine.pmm.mmapTest (Pmm.frameOf (threeDirectories.machine.entry dir 640)) = true := by
    intro dir hdir
    rcases mem_threeDirectories hdir with rfl | rfl | rfl <;> decide +kernel
  have hpairs : ∀ dir ∈ threeDirectories.live, ∀ dir' ∈ threeDirectories.live,
      Pmm.frameOf (threeDirectories.machine.entry dir 640) ≠ Pmm.frameOf dir' ∧
      (Pmm.frameOf dir = Pmm.frameOf dir' → dir = dir') ∧
      (Pmm.frameOf (threeDirectories.machine.entry dir 640) =
        Pmm.frameOf (threeDirectories.machine.entry dir' 640) → dir = dir') := by
    intro dir hdir dir' hdir'
    rcases mem_threeDirectories hdir with rfl | rfl | rfl <;>
      rcases mem_threeDirectories hdir' with rfl | rfl | rfl <;> decide +kernel
  refine ⟨⟨by decide, List.mem_cons_self, fun dir hdir => (hframes dir hdir).1, fun frame hframe => ?_, ?_⟩,
    fun dir hdir dir' hdir' => (hpairs dir hdir dir' hdir').2.1, ?_, ?_⟩
  · obtain ⟨dir, hdir, rfl⟩ | ⟨dir, hdir, i, -, hpresent, rfl⟩ := hframe
    · exact (hframes dir hdir).2.1
    · obtain rfl := slot_of_isPresent hpresent
      exact (hframes dir hdir).2.2.2
  · intro dir hdir i _ hpresent dir' hdir'
    obtain rfl := slot_of_isPresent hpresent
    exact (hpairs dir hdir dir' hdir').1
  · intro dir hdir i _ hpresent
    obtain rfl := slot_of_isPresent hpresent
    exact (hframes dir hdir).2.2.1
  · intro dir hdir dir' hdir' i _ j _ hpresent hpresent' heq
    obtain rfl := slot_of_isPresent hpresent
    obtain rfl := slot_of_isPresent hpresent'
    exact ⟨rfl, .inl ((hpairs dir hdir dir' hdir').2.2 heq)⟩

/-- A call by one of the three. A new window lies at the first page in its process, and at the first or the second in
the window system's; pages are given back if `frees` is set. -/
def possible (frees : Bool) (s : SharedBuffers) : BufferOp → Bool
  | .switchTo dir => [0x1000#32, 0x2000#32, 0x3000#32].contains dir
  | .createWinUser width height undefined => getWinPageAmt width height != 0#32 &&
    [0xA0000000#32, 0xA0001000#32].any fun wsysBuffer =>
      (s.createdAt width height undefined 0xA0000000#32 wsysBuffer).isSome
  | .freeVirt dir _ => frees && [0x1000#32, 0x2000#32, 0x3000#32].contains dir
  | _ => false

/-- The calls keep the three directories. -/
theorem called_of_possible {frees : Bool} {op : BufferOp} (hlive : s.live = threeDirectories.live)
    (hpossible : possible frees s op = true) (happly : s.apply op = some t) :
    s.CalledStep op t ∧ t.live = threeDirectories.live := by
  cases op with
  | switchTo dir =>
    obtain rfl := Option.some.inj happly
    have hdir : dir ∈ s.live := by
      rw [hlive]
      exact List.contains_iff_mem.mp hpossible
    exact ⟨⟨hdir, rfl⟩, hlive⟩
  | createWinUser width height undefined =>
    obtain ⟨hne, hspace⟩ := Bool.and_eq_true_iff.mp hpossible
    obtain ⟨wsysBuffer, -, hspace⟩ := List.any_eq_true.mp hspace
    obtain ⟨m, hm⟩ := Option.isSome_iff_exists.mp hspace
    have hpos : 0 < (getWinPageAmt width height).toNat :=
      Nat.pos_of_ne_zero fun hzero => bne_iff_ne.mp hne (BitVec.eq_of_toNat_eq hzero)
    obtain ⟨hsuffices, heq⟩ := suffices_of_createdAt hpos hm
    obtain rfl := Option.some.inj (heq.symm.trans happly)
    exact ⟨⟨hsuffices, happly⟩, hlive⟩
  | freeVirt dir virt =>
    obtain rfl := Option.some.inj happly
    have hdir : dir ∈ s.live := by
      rw [hlive]
      exact List.contains_iff_mem.mp (Bool.and_eq_true_iff.mp hpossible).2
    exact ⟨⟨hdir, rfl⟩, hlive⟩
  | create => cases hpossible
  | destroy dir => cases hpossible
  | allocVirt dir virt pdeFlags pteFlags => cases hpossible
  | mapPage dir phys virt pdeFlags pteFlags => cases hpossible
  | unmapVirt dir virt => cases hpossible
  | removeWindowUser k => cases hpossible

theorem spares_of_possible {op : BufferOp} (h : possible false s op = true) : s.SparesWindows op := by
  cases op with
  | freeVirt dir virt => cases h
  | _ => trivial

theorem run_of_possible {frees : Bool} {ops : List BufferOp} {step : SharedBuffers → BufferOp → SharedBuffers → Prop}
    (hstep : ∀ s op t, possible frees s op = true → s.CalledStep op t → step s op t)
    (h : Transition.exec apply (possible frees) (start threeDirectories 0x1000#32) ops = some s) :
    Transition.Run step (start threeDirectories 0x1000#32) ops s := by
  have hrun : Transition.Run (fun s op t => possible frees s op = true ∧ s.apply op = some t)
      (start threeDirectories 0x1000#32) ops s :=
    Transition.run_of_exec (fun _ _ _ hpossible happly => ⟨hpossible, happly⟩) h
  obtain ⟨b, hb, rfl, -⟩ := hrun.refine step (fun s b => s = b ∧ b.live = threeDirectories.live) _
    (fun s b op t heq hpossible => by
      obtain ⟨rfl, hlive⟩ := heq
      obtain ⟨hcalled, hlive'⟩ := called_of_possible hlive hpossible.1 hpossible.2
      exact ⟨t, hstep _ _ _ hpossible.1 hcalled, rfl, hlive'⟩) ⟨rfl, rfl⟩
  exact hb

/-- Two processes make a window of one pixel each. -/
theorem coherent_of_run_onePixel : ∃ s t w,
    Transition.Run Step (start threeDirectories 0x1000#32)
      [.switchTo 0x2000#32, .createWinUser 1 1 0#32, .switchTo 0x3000#32] s ∧
    s.winsysCreateWinUser 1 1 0#32 = some t ∧ t.windows = s.windows ++ [w] ∧ Coherent s t w 1 := by
  have hexec : (Transition.exec apply (possible false) (start threeDirectories 0x1000#32)
      [.switchTo 0x2000#32, .createWinUser 1 1 0#32, .switchTo 0x3000#32]).any
      (fun s => (s.createdAt 1 1 0#32 0xA0000000#32 0xA0001000#32).isSome) = true := by
    decide +kernel
  obtain ⟨s, hs, hspace⟩ := (Option.any_eq_true _ _).mp hexec
  obtain ⟨m, hm⟩ := Option.isSome_iff_exists.mp hspace
  have hrun := run_of_possible (fun _ _ _ hpossible hcalled => show Step _ _ _ from
    ⟨spares_of_possible hpossible, hcalled⟩) hs
  obtain ⟨t, w, hcreate, hwindows, hcoherent⟩ := coherent_of_run separate_threeDirectories List.mem_cons_self hrun
    (by decide) (by decide) (suffices_of_createdAt (by decide) hm).1
  exact ⟨s, t, w, hrun, hcreate, hwindows, hcoherent⟩

/-- The first process gives the page of its window back while the window is in the list, and the second one makes
another window. -/
theorem not_coherent_of_run : ∃ s t w,
    Transition.Run CalledStep (start threeDirectories 0x1000#32)
      [.switchTo 0x2000#32, .createWinUser 1 1 0#32, .freeVirt 0x2000#32 0xA0000000#32, .switchTo 0x3000#32] s ∧
    s.Suffices 1 1 0#32 ∧ s.winsysCreateWinUser 1 1 0#32 = some t ∧ t.windows = s.windows ++ [w] ∧
    ¬ Coherent s t w 1 := by
  have hexec : (Transition.exec apply (possible true) (start threeDirectories 0x1000#32)
      [.switchTo 0x2000#32, .createWinUser 1 1 0#32, .freeVirt 0x2000#32 0xA0000000#32, .switchTo 0x3000#32]).any
      (fun s => (s.createdAt 1 1 0#32 0xA0000000#32 0xA0001000#32).any fun m =>
        s.windows = [⟨1, 1, 0xA0000000#32, 0xA0000000#32⟩] ∧ s.winsysPdir = 0x1000#32 ∧
          s.machine.curDirectory = 0x3000#32 ∧
          m.frameAt 0x1000#32 0xA0000000#32 = m.frameAt 0x3000#32 0xA0000000#32) = true := by
    decide +kernel
  obtain ⟨s, hs, hcreated⟩ := (Option.any_eq_true _ _).mp hexec
  obtain ⟨m, hm, hdecide⟩ := (Option.any_eq_true _ _).mp hcreated
  obtain ⟨hwindows, hwinsys, hcur, hframe⟩ := of_decide_eq_true hdecide
  obtain ⟨hsuffices, hcreate⟩ := suffices_of_createdAt (by decide) hm
  refine ⟨s, _, _, run_of_possible (fun _ _ _ _ hcalled => hcalled) hs, hsuffices, hcreate, rfl, fun hcoherent => ?_⟩
  have hother := hcoherent.backsNoOther ⟨1, 1, 0xA0000000#32, 0xA0000000#32⟩ (hwindows ▸ List.mem_singleton_self _)
    0xA0000000#32 (by decide) 0 one_pos
  rw [hwinsys, hcur] at hother
  exact hother hframe

end SharedBuffers

end Winsys

end Akos
