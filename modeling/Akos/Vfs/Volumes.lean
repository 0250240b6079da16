import Akos.Fat12.Volume
import Akos.Lib.Traced

/-!
# Volumes

`vfs.c` looks a drive letter up in a table of file systems and calls the function that is registered there. The device
of an open file is kept in it, and the other functions look that one up. Neither number is compared with the size of
the table.
-/

namespace Akos.Vfs

open Fat12 (FILE Flags)
open Traced (emit lift)

/-- `DEVICE_MAX` -/
abbrev deviceMax : BitVec 32 := 26#32

/-- `':'` -/
abbrev colon : Byte := 0x3A#8

/-- The functions of a `FILESYSTEM`, over the state of the drives. There is no result when one does not return. -/
structure FileSystem (σ : Type) where
  read : FILE → (Nat → Byte) → BitVec 32 → σ → Option (FILE × (Nat → Byte) × σ)
  write : FILE → (Nat → Byte) → BitVec 32 → σ → Option (FILE × σ)
  close : FILE → σ → Option (FILE × σ)
  openFile : (Nat → Byte) → σ → Option (FILE × σ)
  openDir : (Nat → Byte) → σ → Option (List FILE × σ)
  create : FILE → (Nat → Byte) → BitVec 32 → σ → Option σ

inductive Operation
  | read
  | write
  | close
  | openFile
  | openDir
  | create
  deriving DecidableEq

/-- What is seen of a call: an entry of `_FileSystems` is looked up, and a function of a file system is called. -/
inductive Access
  | entry (index : BitVec 32)
  | call (op : Operation)
  deriving DecidableEq

/-- The pointers from the start of `_FileSystems` on, also behind its end. -/
abbrev FileSystems (σ : Type) := BitVec 32 → Option (FileSystem σ)

variable {σ α : Type}

/-- `if (_FileSystems [device]) _FileSystems[device]->op (..)` -/
def dispatch (fs : FileSystems σ) (device : BitVec 32) (op : Operation) (call : FileSystem σ → Option α)
    (otherwise : α) : Traced Access α := do
  emit [.entry device]
  match fs device with
  | none => pure otherwise
  | some fsys =>
    emit [.entry device, .call op]
    lift (call fsys)

/-- `device` in `volOpenFile` and `volOpenDir`, a byte. -/
def deviceOf (fname : Nat → Byte) : Byte := if fname 1 = colon then fname 0 - 0x61#8 else 0#8

/-- The name without its drive. -/
def filenameOf (fname : Nat → Byte) : Nat → Byte := if fname 1 = colon then fun k => fname (k + 2) else fname

/-- A null pointer is `none`, and `junk` is what is in the memory of the result before it is set. -/
def volOpenFile (fs : FileSystems σ) (fname : Option (Nat → Byte)) (junk : FILE) (s : σ) : Traced Access (FILE × σ) :=
  match fname with
  | none => pure ({ junk with flags := .invalid }, s)
  | some fname =>
    let device := (deviceOf fname).setWidth 32
    dispatch fs device .openFile
      (fun fsys => (fsys.openFile (filenameOf fname) s).map fun r => ({ r.1 with deviceID := device }, r.2))
      ({ junk with flags := .invalid }, s)

def volOpenDir (fs : FileSystems σ) (fname : Option (Nat → Byte)) (s : σ) : Traced Access (List FILE × σ) :=
  match fname with
  | none => pure ([], s)
  | some fname =>
    let device := (deviceOf fname).setWidth 32
    dispatch fs device .openDir
      (fun fsys => (fsys.openDir (filenameOf fname) s).map fun r =>
        (r.1.map fun file => { file with deviceID := device }, r.2))
      ([], s)

def volCloseFile (fs : FileSystems σ) (file : Option FILE) (s : σ) : Traced Access (Option FILE × σ) :=
  match file with
  | none => pure (none, s)
  | some file =>
    dispatch fs file.deviceID .close (fun fsys => (fsys.close file s).map fun r => (some r.1, r.2)) (some file, s)

def volReadFile (fs : FileSystems σ) (file : Option FILE) (buffer : Nat → Byte) (length : BitVec 32) (s : σ) :
    Traced Access (Option FILE × (Nat → Byte) × σ) :=
  match file with
  | none => pure (none, buffer, s)
  | some file =>
    dispatch fs file.deviceID .read (fun fsys => (fsys.read file buffer length s).map fun r => (some r.1, r.2))
      (some file, buffer, s)

def volWriteFile (fs : FileSystems σ) (file : Option FILE) (buffer : Nat → Byte) (length : BitVec 32) (s : σ) :
    Traced Access (Option FILE × σ) :=
  match file with
  | none => pure (none, s)
  | some file =>
    dispatch fs file.deviceID .write (fun fsys => (fsys.write file buffer length s).map fun r => (some r.1, r.2))
      (some file, s)

def volCreateFile (fs : FileSystems σ) (file : Option FILE) (fname : Nat → Byte) (flags : BitVec 32) (s : σ) :
    Traced Access σ :=
  match file with
  | none => pure s
  | some file => dispatch fs file.deviceID .create (fun fsys => fsys.create file fname flags s) s

/-! ### What is looked up and called -/

/-- Only entries of the table are looked up. -/
def InTable (accesses : List Access) : Prop := ∀ index, Access.entry index ∈ accesses → index < deviceMax

def CallsNothing (accesses : List Access) : Prop := ∀ op, Access.call op ∉ accesses

/-- The functions that get the file look up entries of the table, and call nothing when it is not valid. -/
structure HandleDispatches (fs : FileSystems σ) (file : FILE) : Prop where
  read : ∀ buffer length s, InTable (volReadFile fs (some file) buffer length s).effects ∧
    (file.flags = .invalid → CallsNothing (volReadFile fs (some file) buffer length s).effects)
  write : ∀ buffer length s, InTable (volWriteFile fs (some file) buffer length s).effects ∧
    (file.flags = .invalid → CallsNothing (volWriteFile fs (some file) buffer length s).effects)
  create : ∀ fname flags s, InTable (volCreateFile fs (some file) fname flags s).effects ∧
    (file.flags = .invalid → CallsNothing (volCreateFile fs (some file) fname flags s).effects)
  close : ∀ s, InTable (volCloseFile fs (some file) s).effects ∧
    (file.flags = .invalid → CallsNothing (volCloseFile fs (some file) s).effects)

/-- The name is looked up in the table, and so is every file that can be the result. -/
structure Dispatches (fs : FileSystems σ) (fname : Option (Nat → Byte)) (s : σ) : Prop where
  openFile : ∀ junk, InTable (volOpenFile fs fname junk s).effects
  openDir : InTable (volOpenDir fs fname s).effects
  handle : ∀ junk file s', (volOpenFile fs fname junk s).result = some (file, s') → HandleDispatches fs file

/-- The name begins with no drive or with the letter of one, and what is registered for it finds the file, if its
`Open` returns. -/
def Finds (fs : FileSystems σ) (fname : Option (Nat → Byte)) (s : σ) : Prop :=
  ∃ p, fname = some p ∧ (p 1 = colon → 0x61#8 ≤ p 0 ∧ p 0 ≤ 0x7A#8) ∧
    ∃ fsys, fs ((deviceOf p).setWidth 32) = some fsys ∧
      ∀ r, fsys.openFile (filenameOf p) s = some r → r.1.flags ≠ .invalid

variable {fs : FileSystems σ} {device : BitVec 32} {op : Operation} {call : FileSystem σ → Option α} {otherwise : α}
  {fname : Option (Nat → Byte)} {p : Nat → Byte} {file junk : FILE} {s : σ}

theorem effects_dispatch_of_none (h : fs device = none) :
    (dispatch fs device op call otherwise).effects = [.entry device] := by
  rw [dispatch, h]
  rfl

theorem effects_dispatch_of_some {fsys : FileSystem σ} (h : fs device = some fsys) :
    (dispatch fs device op call otherwise).effects = [.entry device, .entry device, .call op] := by
  rw [dispatch, h]
  rfl

theorem inTable_dispatch : InTable (dispatch fs device op call otherwise).effects ↔ device < deviceMax := by
  cases hfs : fs device with
  | none =>
    rw [effects_dispatch_of_none hfs]
    simp [InTable]
  | some fsys =>
    rw [effects_dispatch_of_some hfs]
    simp [InTable]

theorem callsNothing_dispatch : CallsNothing (dispatch fs device op call otherwise).effects ↔ fs device = none := by
  cases hfs : fs device with
  | none =>
    rw [effects_dispatch_of_none hfs]
    simp [CallsNothing]
  | some fsys =>
    rw [effects_dispatch_of_some hfs]
    simp [CallsNothing]

/-- All that counts is the device in the file. -/
theorem handleDispatches_iff (s : σ) : HandleDispatches fs file ↔
    file.deviceID < deviceMax ∧ (file.flags = .invalid → fs file.deviceID = none) := by
  have hdispatch {α : Type} (op : Operation) (call : FileSystem σ → Option α) (otherwise : α) :
      InTable (dispatch fs file.deviceID op call otherwise).effects ∧
          (file.flags = .invalid → CallsNothing (dispatch fs file.deviceID op call otherwise).effects) ↔
        file.deviceID < deviceMax ∧ (file.flags = .invalid → fs file.deviceID = none) := by
    rw [inTable_dispatch, callsNothing_dispatch]
  constructor
  · intro h
    exact (hdispatch _ _ _).mp (h.close s)
  · intro h
    exact ⟨fun _ _ _ => (hdispatch _ _ _).mpr h, fun _ _ _ => (hdispatch _ _ _).mpr h,
      fun _ _ _ => (hdispatch _ _ _).mpr h, fun _ => (hdispatch _ _ _).mpr h⟩

/-- The letters of the drives are those of the table. -/
theorem deviceOf_lt_iff :
    (deviceOf p).setWidth 32 < deviceMax ↔ (p 1 = colon → 0x61#8 ≤ p 0 ∧ p 0 ≤ 0x7A#8) := by
  rw [deviceOf]
  split
  · next h =>
    rw [forall_prop_of_true h]
    generalize p 0 = c
    bv_omega
  · next h => exact iff_of_true (by decide) fun h' => absurd h' h

/-- A result that was never set but for its flags. -/
def unset (device : BitVec 32) : FILE := ⟨[], .file, 0#32, 0#32, false, 0#32, 0#32, 0, device, 0#16, 0#16, 0⟩

/-- A result of a failed call can have any device. -/
theorem not_handleDispatches_unset (s : σ) : ¬ HandleDispatches fs { unset deviceMax with flags := .invalid } :=
  fun h => absurd ((handleDispatches_iff s).mp h).1 (by decide)

theorem result_volOpenFile_of_some {fsys : FileSystem σ} (h : fs ((deviceOf p).setWidth 32) = some fsys) :
    (volOpenFile fs (some p) junk s).result = (fsys.openFile (filenameOf p) s).map fun r =>
      ({ r.1 with deviceID := (deviceOf p).setWidth 32 }, r.2) := by
  rw [volOpenFile, dispatch, h]
  rfl

theorem result_volOpenFile_of_none (h : fs ((deviceOf p).setWidth 32) = none) :
    (volOpenFile fs (some p) junk s).result = some ({ junk with flags := .invalid }, s) := by
  rw [volOpenFile, dispatch, h]
  rfl

/-- A name is dispatched within the table, with whatever is opened by it, when it leads to a drive that is registered
and the file is found there. -/
theorem dispatches_iff (fs : FileSystems σ) (fname : Option (Nat → Byte)) (s : σ) :
    Dispatches fs fname s ↔ Finds fs fname s := by
  constructor
  · intro h
    cases fname with
    | none => exact absurd (h.handle (unset deviceMax) _ s rfl) (not_handleDispatches_unset s)
    | some p =>
      refine ⟨p, rfl, deviceOf_lt_iff.mp (inTable_dispatch.mp (h.openFile (unset 0#32))), ?_⟩
      cases hfs : fs ((deviceOf p).setWidth 32) with
      | none =>
        have hhandle := h.handle (unset deviceMax) _ s (result_volOpenFile_of_none hfs)
        exact absurd hhandle (not_handleDispatches_unset s)
      | some fsys =>
        refine ⟨fsys, rfl, fun r hr hinvalid => ?_⟩
        have hhandle := h.handle (unset 0#32) _ r.2 ((result_volOpenFile_of_some hfs).trans (by rw [hr]; rfl))
        have hnone := ((handleDispatches_iff s).mp hhandle).2 hinvalid
        exact Option.some_ne_none fsys (hfs.symm.trans hnone)
  · rintro ⟨p, rfl, hletter, fsys, hfs, hfound⟩
    have hlt := deviceOf_lt_iff.mpr hletter
    refine ⟨fun junk => inTable_dispatch.mpr hlt, inTable_dispatch.mpr hlt, fun junk file s' hfile => ?_⟩
    rw [result_volOpenFile_of_some hfs] at hfile
    obtain ⟨r, hr, heq⟩ := Option.map_eq_some_iff.mp hfile
    obtain rfl := (congrArg Prod.fst heq).symm
    exact (handleDispatches_iff s).mpr ⟨hlt, fun hinvalid => absurd hinvalid (hfound r hr)⟩

/-- `"1:"` looks up the entry 208 of 26. -/
theorem not_dispatches : ¬ ∀ (σ : Type) (fs : FileSystems σ) (fname : Option (Nat → Byte)) (s : σ),
    Dispatches fs fname s := fun h => by
  have hopen := (h Unit (fun _ => none) (some fun k => [0x31#8, colon].getD k 0#8) ()).openFile (unset 0#32)
  exact absurd (hopen 208#32 List.mem_cons_self) (by decide)

end Akos.Vfs
