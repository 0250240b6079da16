import Akos.Fat12.Programs
import Mathlib.Data.List.Permutation

/-!
# Calls on the volume at the same time

`vfs.c` guards opening, reading and writing with a lock each, and listing and creation with none, but all of them
fill and empty the same two buffers. Calls under one lock give what they give one after the other. Between calls
under different locks, a sector can be read into the buffer before another call has copied its own out of it.
-/

namespace Akos.Fat12

/-- The spinlocks of `vfs.c`. -/
inductive Lock
  | vfsOpenSpinlock
  | vfsReadSpinlock
  | vfsWriteSpinlock
  deriving DecidableEq

/-- A call with its arguments, the memory it reads or writes, and what the stack holds where its handles will be. -/
inductive Call
  | volOpenFile (fname : List Byte) (junk : Nat → FILE)
  | volOpenDir (fname : List Byte) (junk : Nat → FILE) (junkEntry : Nat → Nat → FILE)
  | volReadFile (file : FILE) (memory : Nat → Byte) (buffer : Nat) (length : BitVec 32)
  | volWriteFile (file : FILE) (memory : Nat → Byte) (buffer : Nat) (length : BitVec 32)
  | volCreateFile (file : FILE) (fname : List Byte) (flags : Flags) (junk : FILE)

/-- What a call leaves with its caller. -/
inductive Result
  | opened (file : FILE)
  | listed (files : List FILE)
  | transferred (file : FILE) (memory : Nat → Byte)
  | created

/-- `':'` -/
abbrev colon : Byte := 0x3A#8

/-- The device of a path, which is a letter in front of a colon, or 0. -/
def pathDevice (fname : List Byte) : Byte := if fname[1]? = some colon then fname.headD 0#8 - 0x61#8 else 0#8

/-- The path without its device. -/
def pathFilename (fname : List Byte) : List Byte := if fname[1]? = some colon then fname.drop 2 else fname

namespace Call

/-- The file system that is called. -/
def deviceID : Call → BitVec 32
  | volOpenFile fname _ => (pathDevice fname).setWidth 32
  | volOpenDir fname _ _ => (pathDevice fname).setWidth 32
  | volReadFile file _ _ _ => file.deviceID
  | volWriteFile file _ _ _ => file.deviceID
  | volCreateFile file _ _ _ => file.deviceID

/-- The lock that is taken before the file system is called, and given back behind it. -/
def lock : Call → Option Lock
  | volOpenFile _ _ => some .vfsOpenSpinlock
  | volOpenDir _ _ _ => none
  | volReadFile _ _ _ _ => some .vfsReadSpinlock
  | volWriteFile _ _ _ _ => some .vfsWriteSpinlock
  | volCreateFile _ _ _ _ => none

/-- What a call does on the FAT12 volume, between its lock and the lock's release. -/
def body (fuel : Nat) : Call → Task Result
  | volOpenFile fname junk => do
    let file ← Task.fat12fsysOpen fuel junk (pathFilename fname)
    pure (.opened { file with deviceID := (pathDevice fname).setWidth 32 })
  | volOpenDir fname junk junkEntry => do
    let head ← Task.fat12fsysOpenDir fuel junk junkEntry (pathFilename fname)
    pure (.listed (head.map fun file => { file with deviceID := (pathDevice fname).setWidth 32 }))
  | volReadFile file memory buffer length => do
    let read ← Task.fat12fsysRead fuel file memory buffer length
    pure (.transferred read.1 read.2)
  | volWriteFile file memory buffer length => do
    let written ← Task.fat12fsysWrite fuel file memory buffer length
    pure (.transferred written.1 written.2)
  | volCreateFile file fname flags junk => do
    Task.fat12fsysCreate fuel junk file fname flags
    pure .created

end Call

/-- A call on the device that the FAT12 file system is registered for. -/
abbrev VolumeCall := { call : Call // call.deviceID = 0#32 }

/-- Threads that call the volume. -/
abbrev Threads := Calls Nat VolumeCall Result Shared Lock

namespace Threads

/-- Threads take steps in any order. -/
abbrev Step (fuel : Nat) : Threads → Calls.Op Nat VolumeCall → Threads → Prop :=
  Calls.Step (fun call => call.1.body fuel) fun call => call.1.lock

/-- They do, but no step of a call is between the first and the last step of another one, unless both are under the
same lock. -/
abbrev CleanStep (fuel : Nat) : Threads → Calls.Op Nat VolumeCall → Threads → Prop :=
  Calls.CleanStep (fun call => call.1.body fuel) fun call => call.1.lock

/-- The calls have returned what they return in a sequential order of them, and when no call is in progress the
sectors of the disk are those behind that order. -/
def Unmixed (fuel : Nat) (shared : Shared) (s : Threads) : Prop :=
  s.Sequential (fun call => call.1.body fuel) (fun s => s.disk.sectors) shared

variable {fuel : Nat} {shared : Shared} {s : Threads} {ops : List (Calls.Op Nat VolumeCall)}

/-- Calls of one kind that has a lock may come in any order of steps. -/
theorem unmixed_of_run_under (l : Lock) (hrun : Transition.Run (Step fuel) (Calls.start shared) ops s)
    (hops : ∀ op ∈ ops, op.Under (fun call : VolumeCall => call.1.lock) l) : s.Unmixed fuel shared :=
  Calls.sequential_of_run_under _ l hrun hops

/-- Whatever the threads call, and in whatever order they take their steps, what they get is not mixed as long as no
step is in the middle of a call under another lock or none. -/
theorem unmixed_of_run (hrun : Transition.Run (CleanStep fuel) (Calls.start shared) ops s) : s.Unmixed fuel shared :=
  Calls.sequential_of_run _ hrun

/-- A handle of two bytes, in a cluster. -/
def twoBytes (cluster : Nat) : FILE where
  name := []
  flags := .file
  fileLength := 2#32
  id := 0#32
  eof := false
  position := 0#32
  absPosition := 0#32
  currentCluster := cluster
  deviceID := 0#32
  timeCreated := 0#16
  dateCreated := 0#16
  parentCluster := 0

/-- A disk whose files in the clusters 2 and 3 begin with the bytes 1 and 2. -/
def twoFiles : Shared where
  disk := { sectors := fun sector _ => if sector = 33 then 1#8 else if sector = 34 then 2#8 else 0#8, written := [] }
  dmabuf _ := 0#8
  fat _ := 0#8

/-- A byte of the file in cluster 2 is read. -/
def readsFirst : VolumeCall := ⟨.volReadFile (twoBytes 2) (fun _ => 0#8) 0 1#32, rfl⟩

/-- A byte of the file in cluster 3 is written. -/
def writesSecond : VolumeCall := ⟨.volWriteFile (twoBytes 3) (fun _ => 9#8) 0 1#32, rfl⟩

theorem unmixed_of_run_two_calls : ∃ ops s, Transition.Run (CleanStep 1) (Calls.start twoFiles) ops s ∧
    s.log.map (fun e => e.client) = [0, 1] ∧ s.Unmixed 1 twoFiles := by
  obtain ⟨order, t, hserial, hclients⟩ : ∃ order t,
      Calls.Serial (fun call : VolumeCall => call.1.body 1) twoFiles order t ∧
        order.map (fun e => e.client) = [0, 1] :=
    ⟨[⟨0, readsFirst, _⟩, ⟨1, writesSecond, _⟩], _, .cons rfl (.cons rfl (.nil _)), rfl⟩
  obtain ⟨ops, hrun⟩ : ∃ ops, Transition.Run (CleanStep 1) (Calls.start twoFiles) ops (Calls.resting t order) :=
    Calls.exists_run_of_serial hserial
  exact ⟨ops, _, hrun, hclients, unmixed_of_run hrun⟩

/-- The byte at an address of the caller's memory behind a transfer. -/
def byteAt (k : Nat) : Result → Option Byte
  | .transferred _ memory => some (memory k)
  | _ => none

/-- Alone, the read gets the first byte of its cluster. -/
theorem byteAt_readsFirst {shared t : Shared} {r : Result} (h : (readsFirst.1.body 1).run shared = some (r, t)) :
    byteAt 0 r = some (shared.disk.sectors 33 0) := by
  have hbyte := congrArg (Option.map fun r => byteAt 0 r.1) h
  exact (Option.some.inj hbyte).symm

/-- The write leaves that byte as it was. -/
theorem sectors_writesSecond {shared t : Shared} {r : Result}
    (h : (writesSecond.1.body 1).run shared = some (r, t)) :
    t.disk.sectors 33 0 = shared.disk.sectors 33 0 := by
  have hbyte := congrArg (Option.map fun r => r.2.disk.sectors 33 0) h
  exact (Option.some.inj hbyte).symm

/-- The read gets the byte that the write has read into the buffer in the meantime. -/
theorem not_unmixed : ∃ ops s, Transition.Run (Step 1) (Calls.start twoFiles) ops s ∧
    s.log.map (fun e => e.call) = [readsFirst, writesSecond] ∧ ¬ s.Unmixed 1 twoFiles := by
  obtain ⟨s, hrun, hlog⟩ : ∃ s, Transition.Run (Step 1) (Calls.start twoFiles)
      [.call 0 readsFirst, .acquire 0, .call 1 writesSecond, .acquire 1, .step 0, .step 1, .step 0, .step 1, .step 1,
        .step 1, .finish 0, .finish 1] s ∧
      ∃ r r', byteAt 0 r = some 2#8 ∧ s.log = [⟨0, readsFirst, r⟩, ⟨1, writesSecond, r'⟩] :=
    ⟨_, .cons rfl (.cons rfl (.cons rfl (.cons rfl (.cons rfl (.cons rfl (.cons rfl (.cons rfl (.cons rfl (.cons rfl
      (.cons rfl (.cons rfl (.nil _)))))))))))), _, _, rfl, rfl⟩
  obtain ⟨r, r', hbyte, hlog⟩ := hlog
  refine ⟨_, s, hrun, by rw [hlog]; rfl, ?_⟩
  rintro ⟨order, t, hperm, hserial, -⟩
  rw [hlog, List.perm_pair] at hperm
  have hread : ∀ {u v : Shared}, u.disk.sectors 33 0 = 1#8 →
      ¬ (readsFirst.1.body 1).run u = some (r, v) := by
    intro u v hu h
    rw [byteAt_readsFirst h, hu] at hbyte
    exact absurd hbyte (by decide)
  obtain rfl | rfl := hperm
  · cases hserial with
    | cons hfirst _ => exact hread rfl hfirst
  · cases hserial with
    | cons hfirst hrest =>
      cases hrest with
      | cons hsecond _ => exact hread (sectors_writesSecond hfirst) hsecond

end Threads

end Akos.Fat12
