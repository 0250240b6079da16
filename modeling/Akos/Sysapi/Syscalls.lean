import Akos.Fat12.Reads
import Akos.Memory.Translation
import Akos.Sched.FileDescs
import Akos.Tmpfs.Arena
import Akos.Winsys.EventQueue
import Akos.Winsys.WindowList

/-!
# System calls

`_syscall_stub` jumps through the table of `sysapi.c`. Four of the functions behind it write through addresses that
the program gives them, and none looks at what is mapped there.
-/

namespace Akos

/-! ### What a read touches -/

namespace Fat12

/-- A read through the handle ends where it should: a file that is shorter than a sector has no cluster behind the
current one. -/
structure Bounded (d : Floppy) (f : FILE) : Prop where
  position : f.position.toNat < 512
  type : f.flags ≠ .directory
  last : 512 ≤ f.fileLength.toNat ∨ (fatEntry d f.currentCluster).toNat = 0 ∨
    0xFF8 ≤ (fatEntry d f.currentCluster).toNat

variable {d : Floppy} {f : FILE} {memory : Nat → Byte} {buffer a : Nat} {length : BitVec 32}

/-- A read in the last cluster goes no further. -/
theorem nextSector_last (h : (fatEntry d f.currentCluster).toNat = 0 ∨ 0xFF8 ≤ (fatEntry d f.currentCluster).toNat)
    (length : BitVec 32) : (nextSector .read d f length).1 = false := by
  unfold nextSector
  dsimp only
  split
  · rfl
  · next hgoes =>
    rw [if_pos]
    by_contra hne
    exact hgoes ⟨h.resolve_left hne, fun hwrite => by cases hwrite.2⟩

theorem nextSector_read (d : Floppy) (f : FILE) (length : BitVec 32) :
    let next := nextSector .read d f length
    next.2.1 = d ∧ (next.1 = false → next.2.2 = { f with eof := true }) ∧
      (next.1 = true → ∃ c, next.2.2 = { f with currentCluster := c, position := 0#32 }) := by
  unfold nextSector
  dsimp only
  split
  · exact ⟨rfl, fun _ => rfl, fun h => by cases h⟩
  · split
    · exact ⟨rfl, fun _ => rfl, fun h => by cases h⟩
    · rw [if_neg fun hwrite => by cases hwrite.2.1]
      exact ⟨rfl, (fun h => by cases h), fun _ => ⟨_, rfl⟩⟩

theorem copySector_outside (h : f.position.toNat < 512) (ha : a < buffer ∨ buffer + length.toNat ≤ a) :
    (copySector .read d f memory buffer length).2 a = memory a := by
  unfold copySector
  dsimp only
  rw [copyCount_eq h, memcpy, if_neg (by omega)]

/-- A read that does not end in its sector, although it could, has passed the end of the file. -/
theorem endsInSector_cases (h : Bounded d f) (hgoes : (endsInSector f length).1 = false) :
    (endsInSector f length).2.currentCluster = f.currentCluster ∧
      (512 ≤ f.fileLength.toNat → (endsInSector f length).2 = f ∧ 512 - f.position.toNat ≤ length.toNat) := by
  refine ⟨endsInSector_cluster, fun hlong => ?_⟩
  have hposition := h.position
  unfold endsInSector at hgoes ⊢
  by_cases hlt : length < 512#32 - f.position
  · rw [if_pos hlt] at hgoes
    rw [BitVec.lt_def, toNat_left h.position] at hlt
    have hsum : (f.position + length).toNat = f.position.toNat + length.toNat := by
      rw [BitVec.toNat_add, Nat.mod_eq_of_lt (by omega)]
    have hends : f.position + length < 512#32 ∧ f.position + length ≤ f.fileLength ∧ f.flags ≠ .directory := by
      rw [BitVec.lt_def, BitVec.le_def, hsum]
      exact ⟨by rw [show (512#32).toNat = 512 from rfl]; omega, by omega, h.type⟩
    rw [decide_eq_false_iff_not] at hgoes
    exact absurd hends hgoes
  · rw [if_neg hlt]
    rw [BitVec.lt_def, toNat_left h.position] at hlt
    exact ⟨rfl, by omega⟩

theorem Bounded.atEnd (h : Bounded d f) : Bounded d { f with eof := true } := ⟨h.position, h.type, h.last⟩

theorem Bounded.endsInSector (h : Bounded d f) (length : BitVec 32) : Bounded d (endsInSector f length).2 := by
  have hposition := h.position
  unfold Fat12.endsInSector
  split
  · next hlt =>
    rw [BitVec.lt_def, toNat_left h.position] at hlt
    refine ⟨?_, h.type, h.last⟩
    rw [BitVec.toNat_add, Nat.mod_eq_of_lt (by omega)]
    omega
  · exact h

/-- What one step of a read touches, and what it passes on. -/
theorem rwSector_read (h : Bounded d f) (memory : Nat → Byte) (buffer : Nat) (length : BitVec 32) :
    let step := rwSector .read d f memory buffer length
    (∀ a, a < buffer ∨ buffer + length.toNat ≤ a → step.2.1.memory a = memory a) ∧ step.2.1.disk = d ∧
      Bounded d step.2.1.file ∧
      (step.1 = true → buffer ≤ step.2.2.1 ∧ step.2.2.1 + step.2.2.2.toNat ≤ buffer + length.toNat) := by
  have hdisk : (copySector .read d f memory buffer length).1 = d := rfl
  have houtside : ∀ a, a < buffer ∨ buffer + length.toNat ≤ a →
      (copySector .read d f memory buffer length).2 a = memory a := fun a ha => copySector_outside h.position ha
  have hended := h.endsInSector length
  unfold rwSector
  dsimp only
  rw [hdisk]
  generalize (copySector .read d f memory buffer length).2 = memory' at houtside ⊢
  split
  · dsimp only
    exact ⟨houtside, rfl, hended, fun hmore => by cases hmore⟩
  next hgoes =>
  obtain ⟨hcluster, hsector⟩ := endsInSector_cases h (Bool.eq_false_iff.mpr hgoes)
  obtain ⟨hsame, hnext⟩ := nextSector_read d (endsInSector f length).2 (length - (512#32 - f.position))
  dsimp only
  refine ⟨houtside, hsame, ?_⟩
  cases hmore : (nextSector .read d (endsInSector f length).2 (length - (512#32 - f.position))).1 with
  | false =>
    rw [hnext.1 hmore]
    exact ⟨hended.atEnd, fun hnot => by cases hnot⟩
  | true =>
    have hlong : 512 ≤ f.fileLength.toNat := by
      refine h.last.resolve_right fun hlast => ?_
      rw [← hcluster] at hlast
      rw [nextSector_last hlast] at hmore
      cases hmore
    obtain ⟨hfile, hlength⟩ := hsector hlong
    obtain ⟨c, hc⟩ := hnext.2 hmore
    have hleft := toNat_left h.position
    have hposition := h.position
    rw [hc, hfile, hleft, BitVec.toNat_sub_of_le (by rw [BitVec.le_def, hleft]; exact hlength), hleft]
    exact ⟨⟨by rw [BitVec.toNat_ofNat]; decide, h.type, .inl hlong⟩, fun _ => ⟨by omega, by omega⟩⟩

/-- A read leaves the memory around its buffer as it was, and the handle is as good for the next one. -/
theorem Bounded.read (h : Bounded d f) (fuel : Nat) (memory : Nat → Byte) (buffer : Nat) (length : BitVec 32) :
    (∀ a, a < buffer ∨ buffer + length.toNat ≤ a → (fat12fsysRead fuel d f memory buffer length).memory a = memory a) ∧
      Bounded d (fat12fsysRead fuel d f memory buffer length).file := by
  unfold fat12fsysRead
  induction fuel generalizing f memory buffer length with
  | zero => exact ⟨fun _ _ => rfl, h⟩
  | succ fuel ih =>
    by_cases hzero : length = 0#32
    · rw [fat12fsysRw, if_pos hzero]
      exact ⟨fun _ _ => rfl, h⟩
    rw [rw_eq hzero]
    obtain ⟨houtside, hdisk, hbounded, hrest⟩ := rwSector_read h memory buffer length
    split
    · next hmore =>
      obtain ⟨hbuffer, hlength⟩ := hrest hmore
      rw [hdisk]
      obtain ⟨hafter, hfile⟩ := ih hbounded (rwSector .read d f memory buffer length).2.1.memory
        (rwSector .read d f memory buffer length).2.2.1 (rwSector .read d f memory buffer length).2.2.2
      exact ⟨fun a ha => (hafter a (by omega)).trans (houtside a ha), hfile⟩
    · exact ⟨houtside, hbounded⟩

/-- A file that was stored as it should be has no cluster too many. -/
theorem Reading.bounded {s i p : Nat} {cs : List Nat} {b : List Byte} (h : Reading f cs b p)
    (hstored : Stored d s i cs b) : Bounded d f where
  position := by
    rw [h.place.position]
    exact Nat.mod_lt p (by decide)
  type := by
    rw [h.type]
    decide
  last := by
    have hclusters := hstored.clusters
    have hlast := hstored.chain.last
    have hinside := h.inside
    rw [h.length, h.place.cluster]
    by_cases hlong : 512 ≤ b.length
    · exact .inl hlong
    · have hlength : cs.length = 1 := by omega
      have hplace : p / 512 = 0 := Nat.div_eq_of_lt (by omega)
      rw [hlength] at hlast
      rw [hplace]
      exact .inr (.inr hlast)

end Fat12

/-- A read of the RAM file system delivers no more than it was asked for. -/
theorem Tmpfs.Arena.length_readLoop {s : Arena} {fuel read length position : Nat} {b : Option Nat}
    {r : List UInt8 × Option Nat × Nat} (h : s.readLoop fuel b read length position = some r) :
    r.1.length ≤ length := by
  induction fuel generalizing b read length position r with
  | zero => cases h
  | succ fuel ih =>
    cases b with
    | none =>
      rw [readLoop] at h
      obtain rfl := Option.some.inj h
      exact Nat.zero_le _
    | some b =>
      rw [readLoop] at h
      split at h
      · next hgoes =>
        dsimp only at h
        split at h
        · obtain ⟨r', hr', rfl⟩ := Option.map_eq_some_iff.mp h
          have hrest := ih hr'
          rw [List.length_cons]
          omega
        · exact ih h
      · obtain rfl := Option.some.inj h
        exact Nat.zero_le _

theorem Tmpfs.Arena.length_tfsysRead {s : Arena} {file : FILE} {length : Nat} {r : List UInt8 × FILE}
    (h : s.tfsysRead file length = some r) : r.1.length ≤ length := by
  rw [tfsysRead] at h
  obtain ⟨b, -, h⟩ := Option.bind_eq_some_iff.mp h
  extract_lets file' at h
  split at h
  · obtain rfl := Option.some.inj h
    exact Nat.zero_le _
  · obtain ⟨loop, hloop, h⟩ := Option.bind_eq_some_iff.mp h
    obtain rfl := Option.some.inj h
    exact length_readLoop hloop

namespace Sysapi

/-! ### The table -/

/-- The functions of `_syscalls`. -/
inductive Syscall
  | print
  | terminateProcess
  | fork
  | winsysCreateWinUser
  | winsysRemoveWindow
  | winsysDisplayWindowSection
  | loadFontToBuffer
  | threadSleep
  | winsysDequeueFromEventHandlerUser
  | incProcBrk
  | fopen
  | fclose
  | fread
  | threadSuspend
  | createProcess
  | vprintf
  | fwrite
  deriving DecidableEq

/-- `_syscalls` -/
def syscalls : List Syscall :=
  [.print, .terminateProcess, .fork, .winsysCreateWinUser, .winsysRemoveWindow, .winsysDisplayWindowSection,
    .loadFontToBuffer, .threadSleep, .winsysDequeueFromEventHandlerUser, .incProcBrk, .fopen, .fclose, .fread,
    .threadSuspend, .createProcess, .vprintf, .fwrite]

/-- `MAX_SYSCALL` -/
abbrev maxSyscall : BitVec 32 := 20#32

/-- What a program has in its registers. All but the first are the arguments, in this order. -/
structure Registers where
  eax : BitVec 32
  ebx : BitVec 32
  ecx : BitVec 32
  edx : BitVec 32
  esi : BitVec 32
  edi : BitVec 32

/-- Where the stub goes: straight back, into a function, or to whatever address a word behind the table holds. -/
inductive Target
  | back
  | function (f : Syscall)
  | word (offset : BitVec 32)
  deriving DecidableEq

/-- `_syscall_stub` -/
def syscallStub (r : Registers) : Target :=
  if maxSyscall ≤ r.eax then .back
  else
    let offset := r.eax * 4#32
    match syscalls[offset.toNat / 4]? with
    | some f => .function f
    | none => .word offset

/-! ### The functions that write -/

/-- `memcpy` to an address. -/
def write (memory : BitVec 32 → Byte) (p : BitVec 32) (bytes : List Byte) : BitVec 32 → Byte :=
  fun a => bytes.getD (a - p).toNat (memory a)

/-- The bytes of a word, the lowest first. -/
def wordBytes (w : BitVec 32) : List Byte :=
  [w.extractLsb' 0 8, w.extractLsb' 8 8, w.extractLsb' 16 8, w.extractLsb' 24 8]

/-- The word at an address. -/
def readWord (memory : BitVec 32 → Byte) (p : BitVec 32) : BitVec 32 :=
  memory (p + 3#32) ++ memory (p + 2#32) ++ memory (p + 1#32) ++ memory p

def boolByte (b : Bool) : Byte := if b then 1#8 else 0#8

/-- The bytes of an `EVENT`. -/
def eventBytes (e : Winsys.Event) : List Byte := wordBytes e.eventType ++ wordBytes e.eventData

/-- The slots of a window that is new. -/
def newEvents : List Winsys.Event := List.replicate 10 ⟨Winsys.eventInvalid, 0#32⟩

/-- The bytes of a `WINDOW` at the end of the list. -/
def windowBytes (w : Winsys.Window) (events : List Winsys.Event) (eventMask : BitVec 32) : List Byte :=
  [BitVec.ofInt 32 w.x, BitVec.ofInt 32 w.y, BitVec.ofInt 32 w.width, BitVec.ofInt 32 w.height, w.wBuffer,
    w.wsysBuffer, w.wName, w.id, w.parentPid].flatMap wordBytes ++
  [boolByte w.isUser, boolByte w.closable, boolByte w.hasFrame, 0#8] ++
  events.flatMap eventBytes ++ wordBytes eventMask ++ wordBytes 0#32

/-- What a system call finds: the memory as the program addresses it, physical memory with the program's page
directory, its descriptors, and of the kernel the font, the windows with their events, and the two file systems. -/
structure Caller where
  memory : BitVec 32 → Byte
  physical : Word → BitVec 32
  directory : BitVec 32
  fds : FdTable
  font : Nat → Byte
  windows : Winsys.Windows
  events : BitVec 32 → Winsys.Events
  floppy : Fat12.Floppy
  arena : Tmpfs.Arena

/-- What the allocators give a new window, and the process that asks for it. -/
structure Allocated where
  win : BitVec 32
  wBuffer : BitVec 32
  wsysBuffer : BitVec 32
  wName : BitVec 32
  parentPid : BitVec 32

namespace Caller

/-- What the RAM file system uses of a handle. -/
def tmpFile (f : Fat12.FILE) : Tmpfs.FILE where
  flags := match f.flags with
    | .file => .file
    | .directory => .directory
    | .invalid => .invalid
  fileLength := f.fileLength.toNat
  id := f.id.toNat
  eof := f.eof
  position := f.position.toNat

/-- `volReadFile`, with the two file systems that are registered. Addresses go round at the end of memory. -/
def volReadFile (s : Caller) (fuel : Nat) (file : Fat12.FILE) (buffer length : BitVec 32) :
    Option (BitVec 32 → Byte) :=
  if file.deviceID = 0#32 then
    let read := Fat12.fat12fsysRead fuel s.floppy file (fun n => s.memory (BitVec.ofNat 32 n)) buffer.toNat length
    some fun a => read.memory (buffer.toNat + (a - buffer).toNat)
  else if file.deviceID = 19#32 then
    (s.arena.tfsysRead (tmpFile file) length.toNat).map fun r =>
      write s.memory buffer (r.1.map fun b => b.toBitVec)
  else some s.memory

/-- `fread`: the memory behind it, as of the other functions here. -/
def fread (s : Caller) (fuel : Nat) (fd buffer length : BitVec 32) : Option (BitVec 32 → Byte) := do
  let f ← s.fds.getFileByFd fd
  if f = 0#32 then some s.memory
  else do
    let node ← Linked.load s.fds.nodes f
    s.volReadFile fuel node.value.file buffer length

def loadFontToBuffer (s : Caller) (buff : BitVec 32) : BitVec 32 → Byte :=
  write s.memory buff ((List.range (256 * 16)).map s.font)

/-- `winsys_dequeue_from_event_handler_user`. Without such a window the slots are what lies behind null. -/
def winsysDequeueFromEventHandlerUser (s : Caller) (win eventBuff : BitVec 32) : Option (BitVec 32 → Byte) := do
  let found ← s.windows.winsysGetWindowById (readWord s.memory (win + 28#32))
  let (e, _) ← (s.events found).dequeue
  some (write s.memory eventBuff (eventBytes e))

/-- `winsys_create_win_user`, without the pages that it clears, which are new. The name and the mask are those of
the program's window. -/
def winsysCreateWinUser (s : Caller) (got : Allocated) (localWin x y width height : BitVec 32) :
    Option (BitVec 32 → Byte) := do
  let id ← s.windows.winsysGetFreeId
  let _ ← s.windows.winsysCreateWinUser got.win got.wBuffer got.wsysBuffer got.wName localWin
    (readWord s.memory (localWin + 24#32)) x.toInt y.toInt width.toInt height.toInt got.parentPid
  let win := Winsys.Windows.userWindow got.wBuffer got.wsysBuffer got.wName x.toInt y.toInt width.toInt height.toInt
    got.parentPid id
  some (write s.memory localWin (windowBytes win newEvents (readWord s.memory (localWin + 120#32))))

end Caller

/-- The functions that write through a pointer from the registers. -/
inductive Writer
  | fread
  | winsysCreateWinUser
  | loadFontToBuffer
  | winsysDequeueFromEventHandlerUser

namespace Writer

def syscall : Writer → Syscall
  | fread => .fread
  | winsysCreateWinUser => .winsysCreateWinUser
  | loadFontToBuffer => .loadFontToBuffer
  | winsysDequeueFromEventHandlerUser => .winsysDequeueFromEventHandlerUser

/-- The pointer. -/
def pointer (r : Registers) : Writer → BitVec 32
  | fread => r.ecx
  | winsysCreateWinUser => r.ebx
  | loadFontToBuffer => r.ebx
  | winsysDequeueFromEventHandlerUser => r.ecx

/-- The number of bytes that the program has to expect there. -/
def size (r : Registers) : Writer → Nat
  | fread => r.edx.toNat
  | winsysCreateWinUser => 128
  | loadFontToBuffer => 4096
  | winsysDequeueFromEventHandlerUser => 8

/-- The memory behind the call. -/
def run (s : Caller) (got : Allocated) (fuel : Nat) (r : Registers) : Writer → Option (BitVec 32 → Byte)
  | fread => s.fread fuel r.ebx r.ecx r.edx
  | winsysCreateWinUser => s.winsysCreateWinUser got r.ebx r.ecx r.edx r.esi r.edi
  | loadFontToBuffer => some (s.loadFontToBuffer r.ebx)
  | winsysDequeueFromEventHandlerUser => s.winsysDequeueFromEventHandlerUser r.ebx r.ecx

end Writer

/-! ### What may be written -/

/-- An entry that lets a program write. -/
def userWritable (e : BitVec 32) : Bool :=
  Entry.isPresent e ∧ e &&& Entry.writable ≠ 0#32 ∧ e &&& Entry.user ≠ 0#32

/-- The address lies in a page of the program that it may write. -/
def Caller.UserWritable (s : Caller) (a : BitVec 32) : Prop :=
  let pde := s.physical (Machine.vmmngrPdirectoryLookupEntry s.directory a)
  userWritable pde ∧ userWritable (s.physical (Machine.vmmngrPtableLookupEntry (pdEntryPfn pde) a))

/-- No system call writes where the program may not, and each number leads to a function of the table or back. -/
def CannotWriteKernel (s : Caller) (got : Allocated) (fuel : Nat) : Prop :=
  ∀ r, (syscallStub r = .back ∨ ∃ f ∈ syscalls, syscallStub r = .function f) ∧
    ∀ (w : Writer) (memory' : BitVec 32 → Byte), syscallStub r = .function w.syscall → w.run s got fuel r = some memory' →
      ∀ a, memory' a ≠ s.memory a → s.UserWritable a

variable {s : Caller} {got : Allocated} {fuel : Nat} {r : Registers} {memory memory' : BitVec 32 → Byte}
  {p a : BitVec 32} {bytes : List Byte}

/-- A change by `memcpy` lies in what it copied. -/
theorem lt_length_of_write (h : write memory p bytes a ≠ memory a) : (a - p).toNat < bytes.length := by
  by_contra hout
  exact h (List.getD_eq_default _ _ (Nat.le_of_not_lt hout))

theorem length_wordBytes (w : BitVec 32) : (wordBytes w).length = 4 := rfl

theorem length_windowBytes (w : Winsys.Window) (mask : BitVec 32) : (windowBytes w newEvents mask).length = 128 := by
  simp [windowBytes, newEvents, eventBytes, length_wordBytes]

theorem ofNat_add_sub (p a : BitVec 32) : BitVec.ofNat 32 (p.toNat + (a - p).toNat) = a := by
  have hp := p.isLt
  apply BitVec.eq_of_toNat_eq
  rw [BitVec.toNat_ofNat, BitVec.toNat_sub]
  omega

theorem fread_within (hbounded : ∀ p node, s.fds.getFileByFd r.ebx = some p → Linked.load s.fds.nodes p = some node →
      node.value.file.deviceID = 0#32 → Fat12.Bounded s.floppy node.value.file)
    (hrun : s.fread fuel r.ebx r.ecx r.edx = some memory') (ha : memory' a ≠ s.memory a) :
    (a - r.ecx).toNat < r.edx.toNat := by
  obtain ⟨p, hp, hrun⟩ := Option.bind_eq_some_iff.mp hrun
  split at hrun
  · obtain rfl := Option.some.inj hrun
    exact absurd rfl ha
  obtain ⟨node, hload, hrun⟩ := Option.bind_eq_some_iff.mp hrun
  unfold Caller.volReadFile at hrun
  split at hrun
  · next hdevice =>
    obtain rfl := Option.some.inj hrun
    by_contra hout
    refine ha ?_
    dsimp only
    rw [((hbounded p node hp hload hdevice).read fuel _ _ _).1 _ (.inr (by omega)), ofNat_add_sub]
  · split at hrun
    · obtain ⟨read, hread, rfl⟩ := Option.map_eq_some_iff.mp hrun
      have hlt := lt_length_of_write ha
      rw [List.length_map] at hlt
      exact Nat.lt_of_lt_of_le hlt (Tmpfs.Arena.length_tfsysRead hread)
    · obtain rfl := Option.some.inj hrun
      exact absurd rfl ha

/-- Each of the functions writes in its place only. -/
theorem run_within (w : Writer)
    (hbounded : ∀ p node, s.fds.getFileByFd r.ebx = some p → Linked.load s.fds.nodes p = some node →
      node.value.file.deviceID = 0#32 → Fat12.Bounded s.floppy node.value.file)
    (hrun : w.run s got fuel r = some memory') (ha : memory' a ≠ s.memory a) :
    (a - w.pointer r).toNat < w.size r := by
  cases w with
  | fread => exact fread_within hbounded hrun ha
  | winsysCreateWinUser =>
    obtain ⟨id, -, hrun⟩ := Option.bind_eq_some_iff.mp hrun
    obtain ⟨windows, -, hrun⟩ := Option.bind_eq_some_iff.mp hrun
    obtain rfl := Option.some.inj hrun
    have hlt := lt_length_of_write ha
    rwa [length_windowBytes] at hlt
  | loadFontToBuffer =>
    obtain rfl := Option.some.inj hrun
    have hlt := lt_length_of_write ha
    rwa [List.length_map, List.length_range] at hlt
  | winsysDequeueFromEventHandlerUser =>
    obtain ⟨found, -, hrun⟩ := Option.bind_eq_some_iff.mp hrun
    obtain ⟨e, -, hrun⟩ := Option.bind_eq_some_iff.mp hrun
    obtain rfl := Option.some.inj hrun
    exact lt_length_of_write ha

/-- The stub takes the entry of the table that the number stands for. -/
theorem syscallStub_eq (h : r.eax < 17#32) :
    ∃ f, syscalls[r.eax.toNat]? = some f ∧ syscallStub r = .function f := by
  have hlt : r.eax.toNat < 17 := h
  have hoffset : (r.eax * 4#32).toNat / 4 = r.eax.toNat := by
    rw [BitVec.toNat_mul, show (4#32).toNat = 4 from rfl, Nat.mod_eq_of_lt (by omega)]
    exact Nat.mul_div_cancel _ (by decide)
  have hentry : syscalls[r.eax.toNat]? = some (syscalls.get ⟨r.eax.toNat, hlt⟩) := List.getElem?_eq_getElem hlt
  have hbelow : ¬ maxSyscall ≤ r.eax := by
    rw [BitVec.le_def, show maxSyscall.toNat = 20 from rfl]
    omega
  refine ⟨_, hentry, ?_⟩
  rw [syscallStub, if_neg hbelow]
  dsimp only
  rw [hoffset, hentry]

/-- A number of the table leads to its function, and one from the bound of the stub on leads back. The functions do
not look at the pointers, but each writes in the one place that the registers name, so that a program whose own pages
are there has nothing else written. -/
theorem syscall_writes_within (r : Registers)
    (hbounded : ∀ p node, s.fds.getFileByFd r.ebx = some p → Linked.load s.fds.nodes p = some node →
      node.value.file.deviceID = 0#32 → Fat12.Bounded s.floppy node.value.file) :
    (r.eax < 17#32 → ∃ f, syscalls[r.eax.toNat]? = some f ∧ syscallStub r = .function f) ∧
    (20#32 ≤ r.eax → syscallStub r = .back) ∧
    ∀ (w : Writer) (memory' : BitVec 32 → Byte), syscallStub r = .function w.syscall →
      w.run s got fuel r = some memory' →
      (∀ a, memory' a ≠ s.memory a → (a - w.pointer r).toNat < w.size r) ∧
      ((∀ k < w.size r, s.UserWritable (w.pointer r + BitVec.ofNat 32 k)) →
        ∀ a, memory' a ≠ s.memory a → s.UserWritable a) := by
  refine ⟨syscallStub_eq, fun h => if_pos h, fun w memory' _ hrun => ?_⟩
  have hwithin := fun a (ha : memory' a ≠ s.memory a) => run_within w hbounded hrun ha
  refine ⟨hwithin, fun hpages a ha => ?_⟩
  have hpage := hpages _ (hwithin a ha)
  rwa [BitVec.ofNat_toNat, BitVec.setWidth_eq, add_sub_cancel] at hpage

/-- A directory with the first page at 0x400000 for the program and the page at 0xC0000000 for the kernel alone. -/
def pages : Word → BitVec 32 := fun w =>
  if w = (1, 1) then 0x2007#32 else if w = (2, 0) then 0x4007#32
  else if w = (1, 768) then 0x3003#32 else if w = (3, 0) then 0x100003#32 else 0#32

/-- A program that has one file open. -/
def reader : Caller where
  memory _ := 0#8
  physical := pages
  directory := 0x1000#32
  fds := FdTable.oneOpen
  font _ := 1#8
  windows := { nodes := fun _ => none, winList := 0#32, workingWindow := 0#32 }
  events _ := []
  floppy := ⟨fun _ _ => 0#8, []⟩
  arena _ := .zero

/-- `fread` of five bytes to 0x400000. -/
def readCall : Registers := ⟨12#32, 1#32, 0x400000#32, 5#32, 0#32, 0#32⟩

/-- `load_font_to_buffer` to 0xC0000000. -/
def fontCall : Registers := ⟨6#32, 0xC0000000#32, 0#32, 0#32, 0#32, 0#32⟩

/-- The file is read to a page of the program. -/
theorem syscall_writes_within_reader : ∃ memory', syscallStub readCall = .function Writer.fread.syscall ∧
    Writer.fread.run reader ⟨0#32, 0#32, 0#32, 0#32, 0#32⟩ 10 readCall = some memory' ∧
    ∀ a, memory' a ≠ reader.memory a → reader.UserWritable a := by
  have hstub : syscallStub readCall = .function Writer.fread.syscall := by decide
  have hbounded : ∀ p node, reader.fds.getFileByFd readCall.ebx = some p → Linked.load reader.fds.nodes p = some node →
      node.value.file.deviceID = 0#32 → Fat12.Bounded reader.floppy node.value.file := by
    intro p node hp hload _
    have hfirst : reader.fds.getFileByFd readCall.ebx = some 0x1000#32 := by decide +kernel
    obtain rfl := Option.some.inj (hfirst.symm.trans hp)
    obtain rfl := Option.some.inj hload
    exact ⟨by decide, by decide, .inr (.inl (by decide +kernel))⟩
  have hrun : (Writer.fread.run reader ⟨0#32, 0#32, 0#32, 0#32, 0#32⟩ 10 readCall).isSome = true := by decide +kernel
  obtain ⟨memory', hrun⟩ := Option.isSome_iff_exists.mp hrun
  have hpages : ∀ k < Writer.fread.size readCall,
      reader.UserWritable (Writer.fread.pointer readCall + BitVec.ofNat 32 k) := by
    have hfive : ∀ k < 5, userWritable (reader.physical (Machine.vmmngrPdirectoryLookupEntry 0x1000#32
          (0x400000#32 + BitVec.ofNat 32 k))) = true ∧ userWritable (reader.physical
        (Machine.vmmngrPtableLookupEntry (pdEntryPfn (reader.physical (Machine.vmmngrPdirectoryLookupEntry 0x1000#32
          (0x400000#32 + BitVec.ofNat 32 k)))) (0x400000#32 + BitVec.ofNat 32 k))) = true := by decide +kernel
    exact hfive
  exact ⟨memory', hstub, hrun, ((syscall_writes_within readCall hbounded).2.2 _ _ hstub hrun).2 hpages⟩

/-- The font goes to a page of the kernel. -/
theorem not_cannotWriteKernel : ¬ CannotWriteKernel reader ⟨0#32, 0#32, 0#32, 0#32, 0#32⟩ 0 := by
  intro h
  have hstub : syscallStub fontCall = .function Writer.loadFontToBuffer.syscall := by decide
  have hchanged : reader.loadFontToBuffer 0xC0000000#32 0xC0000000#32 ≠ reader.memory 0xC0000000#32 := by
    decide +kernel
  have hwritable := (h fontCall).2 _ _ hstub rfl 0xC0000000#32 hchanged
  have hkernel : userWritable (reader.physical (Machine.vmmngrPdirectoryLookupEntry 0x1000#32 0xC0000000#32)) = false := by
    decide +kernel
  exact Bool.false_ne_true (hkernel.symm.trans hwritable.1)

end Sysapi

end Akos
