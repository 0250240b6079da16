import Akos.Loader.Image
import Akos.Memory.Heap
import Akos.Memory.Translation

/-!
# The sections of an executable

The second half of `load_executable`: for each section the pages between two rounded addresses are allocated,
and its bytes are read from the file, which is one stream, or cleared. The bytes go to pages of the user. Where
they would not, the processor faults or the kernel overwrites itself, and the model stops.
-/

namespace Akos

/-- Bytes are written from an address on. -/
def ByteMemory.write (memory : ByteMemory) (p : BitVec 32) (n : Nat) (data : Nat → BitVec 8) : ByteMemory :=
  fun a => if (a - p).toNat < n then data (a - p).toNat else memory a

/-- A page that the user may be given: it is there, with the user's attribute. -/
def Machine.userPage (m : Machine) (dir virt : BitVec 32) : Bool :=
  ptEntryIsPresent (m.pageWord dir virt) && (m.pageWord dir virt).getLsbD 2

namespace Loader

/-! ### One section -/

namespace ImageSectionHeader

variable (imageBase : BitVec 32) (sec : ImageSectionHeader)

/-- `sectionPageBase` -/
def pageBase : BitVec 32 :=
  let base := imageBase + sec.virtualAddress
  if base % 4096#32 ≠ 0#32 then base - (4096#32 - base % 4096#32) else base

/-- `sectionPageTop` -/
def pageTop : BitVec 32 :=
  let top := imageBase + sec.virtualAddress + sec.sizeOfRawData
  let top := if sec.isUninitialized then top + sec.virtualSize else top
  if top % 4096#32 ≠ 0#32 then top + (4096#32 - top % 4096#32) else top

/-- The pages that are allocated for the section. -/
def pages : Option (List (BitVec 32)) := Machine.pagesFrom (sec.pageBase imageBase) (sec.pageTop imageBase)

/-- `pdeFlags` and `pteFlags`, which are the same bits. -/
def flags : BitVec 32 := if sec.isWritable then Entry.user ||| Entry.writable else Entry.user

/-- The loop over the pages of the section visits the page of the address. -/
def touches (a : BitVec 32) : Bool :=
  match sec.pages imageBase with
  | none => false
  | some virts => virts.any fun v => SamePage a v

end ImageSectionHeader

/-- The state of the loader: the pages, what is in those of the user, and the place in the file. -/
structure Loading where
  machine : Machine
  user : ByteMemory
  position : Nat

namespace Loading

/-- Bytes are written to pages of the user. -/
def write (dir p : BitVec 32) (n : Nat) (data : Nat → BitVec 8) (s : Loading) : Option Loading :=
  if ∀ k < n, s.machine.userPage dir (p + BitVec.ofNat 32 k) = true then
    some { s with user := s.user.write p n data }
  else none

/-- `volReadFile` into pages of the user: the next bytes of the file. -/
def volReadFile (dir p : BitVec 32) (n : Nat) (exec : Bytes) (s : Loading) : Option Loading :=
  (s.write dir p n (exec.drop s.position)).map fun t => { t with position := s.position + n }

/-- The body of the loop over the sections. -/
def loadSection (dir imageBase : BitVec 32) (exec : Bytes) (s : Loading) (sec : ImageSectionHeader) :
    Option Loading := do
  let virts ← sec.pages imageBase
  let s := { s with machine := s.machine.allocPages dir sec.flags sec.flags virts }
  if sec.isUninitialized then s.write dir (imageBase + sec.virtualAddress) sec.virtualSize.toNat fun _ => 0#8
  else s.volReadFile dir (imageBase + sec.virtualAddress) sec.sizeOfRawData.toNat exec

def loadSections (dir imageBase : BitVec 32) (exec : Bytes) : List ImageSectionHeader → Loading → Option Loading
  | [], s => some s
  | sec :: secs, s => (s.loadSection dir imageBase exec sec).bind (loadSections dir imageBase exec secs)

/-! ### Contents change no page -/

section Machines

variable {dir p imageBase : BitVec 32} {n : Nat} {data : Nat → BitVec 8} {exec : Bytes} {s t : Loading}
  {sec : ImageSectionHeader}

theorem eq_of_write (h : s.write dir p n data = some t) : t = { s with user := s.user.write p n data } := by
  unfold write at h
  split at h
  · exact (Option.some.inj h).symm
  · cases h

theorem eq_of_volReadFile (h : s.volReadFile dir p n exec = some t) :
    t = { s with user := s.user.write p n (exec.drop s.position), position := s.position + n } := by
  obtain ⟨u, hu, rfl⟩ := Option.map_eq_some_iff.mp h
  rw [eq_of_write hu]

theorem machine_of_loadSection (h : s.loadSection dir imageBase exec sec = some t) :
    ∃ virts, sec.pages imageBase = some virts ∧ t.machine = s.machine.allocPages dir sec.flags sec.flags virts := by
  obtain ⟨virts, hvirts, h⟩ := Option.bind_eq_some_iff.mp h
  refine ⟨virts, hvirts, ?_⟩
  dsimp only at h
  split at h
  · rw [eq_of_write h]
  · rw [eq_of_volReadFile h]

end Machines

end Loading

end Loader

end Akos
