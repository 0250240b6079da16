import Akos.Tmpfs.Bounds
import Akos.Utils.Strings

/-!
# Paths of the RAM file system

`tfsys_open` goes down from the base directory, one record for each component of the path. A record holds ten bytes
of a name; behind them stands what the heap held when the record was made.
-/

namespace Akos.Tmpfs

/-- `'\\'` -/
abbrev backslash : Byte := 0x5C#8

/-- What stands behind the ten bytes of a name, by block and record. In a run of creations each record is made once. -/
abbrev Tails := Nat → Nat → List UInt8

/-- The string a record holds, with what stands behind its ten bytes. A shorter name brings its terminator. -/
def DirRecord.cName (record : DirRecord) (tail : List UInt8) : List UInt8 :=
  if record.name.length < 10 then record.name else record.name ++ tail.takeWhile (· ≠ 0)

/-- A name as the characters of a path. -/
def pathBytes (name : List UInt8) : List Byte := name.map UInt8.toBitVec

/-- The loop over the records of a directory. -/
def findByName (tails : Nat → List UInt8) (records : Nat → DirRecord) (fname : List Byte) :
    Nat → Option Nat → Option (Option DirRecord)
  | 0, _ => none
  | _ + 1, none => some none
  | fuel + 1, some slot =>
    if strcmp (pathBytes ((records slot).cName (tails slot))) fname then some (some (records slot))
    else findByName tails records fname fuel (records slot).nextRecord

namespace Arena

/-- `tfsys_root_open` on directory 0, and `tfsys_subdir_open` behind its test. -/
def openIn (tails : Tails) (s : Arena) (junk : FILE) (fid : Nat) (fname : List Byte) : Option FILE := do
  let b ← s.getFaddrById fid
  let found ← findByName (tails b) (s b).records fname (recordCount + 1) (some 0)
  match found with
  | none => some { junk with flags := .invalid }
  | some record => s.openRecord record

def tfsysRootOpen (tails : Tails) (s : Arena) (junk : FILE) (fname : List Byte) : Option FILE :=
  s.openIn tails junk 0 fname

def tfsysSubdirOpen (tails : Tails) (s : Arena) (junk dir : FILE) (fname : List Byte) : Option FILE :=
  if dir.flags ≠ .directory then some { junk with flags := .invalid } else s.openIn tails junk dir.id fname

/-- The loop of `tfsys_open` over `n` components from number `i` on. -/
def openFrom (tails : Tails) (s : Arena) (junk : Nat → FILE) (path : List Byte) : Nat → Nat → FILE → Option FILE
  | 0, _, currFile => some currFile
  | n + 1, i, currFile =>
    let currFilename := seperateAndTake path backslash (i + 1)
    (if i = 0 then s.tfsysRootOpen tails (junk i) currFilename
      else s.tfsysSubdirOpen tails (junk i) currFile currFilename).bind fun currFile =>
        if currFile.flags = .invalid then some currFile else openFrom tails s junk path n (i + 1) currFile

/-- `tfsys_open`; `junk` is what the handles of its calls hold before they are filled in. -/
def tfsysOpen (tails : Tails) (s : Arena) (junk : Nat → FILE) (path : List Byte) : Option FILE :=
  if strcmp path [backslash] || strcmp path [] then some { junk 0 with flags := .directory, id := 0 }
  else s.openFrom tails junk path (countSubstrings path backslash) 0 (junk 0)

/-! ### What a path leads to -/

/-- From a handle down by one component after the other. -/
def descend (tails : Tails) (s : Arena) (junk : Nat → FILE) : Nat → List (List Byte) → FILE → Option FILE
  | _, [], file => some file
  | i, name :: names, file =>
    (s.tfsysSubdirOpen tails (junk i) file name).bind fun file =>
      if file.flags = .invalid then some file else descend tails s junk (i + 1) names file

/-- The handle of the base directory. -/
def baseDir (junk : FILE) : FILE := { junk with flags := .directory, id := 0 }

variable {s : Arena} {tails : Tails} {junk : Nat → FILE} {path : List Byte} {names names' : List (List Byte)}
  {name : List Byte} {f g : FILE} {i n : Nat}

theorem openFrom_eq (hi : i ≠ 0) : s.openFrom tails junk path n i f =
    s.descend tails junk i ((List.range' i n).map fun k => seperateAndTake path backslash (k + 1)) f := by
  induction n generalizing i f with
  | zero => rfl
  | succ n ih =>
    rw [openFrom, List.range'_succ, List.map_cons, descend, if_neg hi]
    refine congrArg (Option.bind _) (funext fun g => ?_)
    rw [ih (Nat.succ_ne_zero i)]

/-- The components of a path. -/
def components (path : List Byte) : List (List Byte) :=
  (List.range' 0 (countSubstrings path backslash)).map fun k => seperateAndTake path backslash (k + 1)

theorem tfsysOpen_eq (hslash : path ≠ [backslash]) (hempty : path ≠ []) :
    s.tfsysOpen tails junk path = s.descend tails junk 0 (components path) (baseDir (junk 0)) := by
  have hroot : ¬ (strcmp path [backslash] || strcmp path []) = true := by simp [strcmp, hslash, hempty]
  obtain ⟨n, hn⟩ : ∃ n, countSubstrings path backslash = n + 1 := ⟨path.tail.count backslash, Nat.add_comm _ _⟩
  rw [tfsysOpen, if_neg hroot, components, hn, openFrom, List.range'_succ, List.map_cons, descend, if_pos rfl,
    tfsysSubdirOpen, if_neg (not_not_intro (show (baseDir (junk 0)).flags = .directory from rfl)), tfsysRootOpen]
  refine congrArg (Option.bind _) (funext fun g => ?_)
  rw [openFrom_eq (Nat.succ_ne_zero 0)]

theorem components_joinPieces (hnames : ∀ name ∈ names, backslash ∉ name) (hne : names ≠ []) :
    components (joinPieces backslash names) = names := by
  rw [components, countSubstrings_joinPieces hnames hne]
  refine List.ext_getElem (by simp) fun i hi hi' => ?_
  rw [List.getElem_map, List.getElem_range', Nat.zero_add, Nat.one_mul]
  exact seperateAndTake_joinPieces hnames hi'

/-- The path of a directory with its components. -/
theorem tfsysOpen_joinPieces (hnames : ∀ name ∈ names, backslash ∉ name) (hroot : names ≠ [[]]) :
    s.tfsysOpen tails junk (joinPieces backslash names) = s.descend tails junk 0 names (baseDir (junk 0)) := by
  by_cases hne : names = []
  · rw [hne]
    rfl
  · have hslash : joinPieces backslash names ≠ [backslash] := fun h => by
      obtain ⟨name, rest, rfl⟩ := List.exists_cons_of_ne_nil hne
      rw [joinPieces, List.flatMap_cons, List.cons_append, List.cons.injEq, List.append_eq_nil_iff,
        List.flatMap_eq_nil_iff] at h
      obtain ⟨-, rfl, hrest⟩ := h
      cases rest with
      | nil => exact hroot rfl
      | cons p rest => exact absurd (hrest p List.mem_cons_self) (List.cons_ne_nil _ _)
    have hempty : joinPieces backslash names ≠ [] := fun h => by
      obtain ⟨name, rest, rfl⟩ := List.exists_cons_of_ne_nil hne
      exact absurd h (List.cons_ne_nil _ _)
    rw [tfsysOpen_eq hslash hempty, components_joinPieces hnames hne]

/-- A component is looked up in a directory. -/
theorem openIn_of_tfsysSubdirOpen {junk : FILE} (h : s.tfsysSubdirOpen tails junk f name = some g)
    (hg : g.flags ≠ .invalid) : f.flags = .directory ∧ s.openIn tails junk f.id name = some g := by
  rw [tfsysSubdirOpen] at h
  by_cases hdir : f.flags = .directory
  · exact ⟨hdir, by rwa [if_neg (not_not_intro hdir)] at h⟩
  · rw [if_pos hdir] at h
    exact absurd (Option.some.inj h ▸ rfl) hg

/-- The first component leads to where the others go on from. -/
theorem descend_cons_valid (h : s.descend tails junk i (name :: names) f = some g) (hg : g.flags ≠ .invalid) :
    ∃ e, e.flags ≠ .invalid ∧ f.flags = .directory ∧ s.openIn tails (junk i) f.id name = some e ∧
      s.descend tails junk (i + 1) names e = some g := by
  rw [descend] at h
  obtain ⟨e, he, hrest⟩ := Option.bind_eq_some_iff.mp h
  have hvalid : e.flags ≠ .invalid := fun hinvalid => by
    rw [if_pos hinvalid] at hrest
    exact hg (Option.some.inj hrest ▸ hinvalid)
  rw [if_neg hvalid] at hrest
  obtain ⟨hdir, hopen⟩ := openIn_of_tfsysSubdirOpen he hvalid
  exact ⟨e, hvalid, hdir, hopen, hrest⟩

theorem descend_cons (hdir : f.flags = .directory) {e : FILE} (hopen : s.openIn tails (junk i) f.id name = some e)
    (he : e.flags ≠ .invalid) : s.descend tails junk i (name :: names) f = s.descend tails junk (i + 1) names e := by
  rw [descend, tfsysSubdirOpen, if_neg (not_not_intro hdir), hopen, Option.bind_some, if_neg he]

/-- Two parts of a path, the first of which leads somewhere. -/
theorem descend_append (h : s.descend tails junk i names f = some g) (hg : g.flags ≠ .invalid) :
    s.descend tails junk i (names ++ names') f = s.descend tails junk (i + names.length) names' g := by
  induction names generalizing i f with
  | nil =>
    obtain rfl := Option.some.inj h
    rfl
  | cons name names ih =>
    obtain ⟨e, he, hdir, hopen, hrest⟩ := descend_cons_valid h hg
    rw [List.cons_append, descend_cons hdir hopen he, ih hrest, List.length_cons, Nat.add_assoc, Nat.add_comm 1]

end Arena

end Akos.Tmpfs
