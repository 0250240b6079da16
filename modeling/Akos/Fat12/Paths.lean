import Akos.Fat12.Names
import Akos.Fat12.Sectors

/-!
# Walking a path

A path leads from the root directory through one entry for each of its components. The code looks a component up
in the clusters of the entry before, and does not ask whether that is a directory: a path leads on through the
bytes of a file when these look like entries.
-/

namespace Akos.Fat12

variable {d : Floppy} {f junk : FILE} {c c' e i s s' i' fuel : Nat} {name dosFileName : List Byte}
  {names pre rest : List (List Byte)}

/-- The first entry with the name, in the clusters from one on: entry `i` of cluster `c'`. -/
inductive Finds (d : Floppy) (dosFileName : List Byte) : Nat → Nat → Nat → Prop
  | here {c i : Nat} : findEntry (flpydskReadSector d (physSector c)) dosFileName = some i → Finds d dosFileName c c i
  | next {c e c' i : Nat} : findEntry (flpydskReadSector d (physSector c)) dosFileName = none →
      nextCluster d c = some e → Finds d dosFileName e c' i → Finds d dosFileName c c' i

instance : Inhabited FILE := ⟨[], .invalid, 0#32, 0#32, false, 0#32, 0#32, 0, 0#32, 0#16, 0#16, 0⟩

/-- Where entries are looked up. -/
inductive Place
  | root
  | cluster (c : Nat)

/-- The first entry with the name: entry `i` of sector `s`. -/
inductive FindsIn (d : Floppy) (dosFileName : List Byte) : Place → Nat → Nat → Prop
  | root {sector i : Nat} : (List.range 14).findSome? (fun sector =>
      (findEntry (flpydskReadSector d (rootOffset + sector)) dosFileName).map fun i => (sector, i)) = some (sector, i) →
      FindsIn d dosFileName .root (rootOffset + sector) i
  | cluster {c c' i : Nat} : Finds d dosFileName c c' i → FindsIn d dosFileName (.cluster c) (physSector c') i

/-- The names lead from a place to an entry: each entry on the way passes one test, and the last one the other. -/
inductive Leads (d : Floppy) (way reached : Nat → Nat → Prop) : Place → List (List Byte) → Nat → Nat → Prop
  | last {place : Place} {name dosFileName : List Byte} {s i : Nat} : toDosFileName name = some dosFileName →
      FindsIn d dosFileName place s i → reached s i → Leads d way reached place [name] s i
  | step {place : Place} {name dosFileName : List Byte} {names : List (List Byte)} {s i s' i' : Nat} :
      toDosFileName name = some dosFileName → FindsIn d dosFileName place s i → way s i →
      Leads d way reached (.cluster (entryFirstCluster (d.sectors s) i).toNat) names s' i' →
      Leads d way reached place (name :: names) s' i'

/-- The attribute of a directory, as it is written and tested. -/
def IsDirectory (d : Floppy) (s i : Nat) : Prop := entryAttrib (d.sectors s) i = 0x10#8

instance (d : Floppy) (s i : Nat) : Decidable (IsDirectory d s i) := inferInstanceAs (Decidable (_ = _))

/-- The first byte of an entry that was deleted. -/
abbrev erased : Byte := 0xE5#8

/-- The entry is in use: it was neither deleted nor ever written. -/
def IsLive (d : Floppy) (s i : Nat) : Prop := d.sectors s (32 * i) ≠ erased ∧ d.sectors s (32 * i) ≠ 0#8

instance (d : Floppy) (s i : Nat) : Decidable (IsLive d s i) := inferInstanceAs (Decidable (_ ∧ _))

/-- The path through the tree: over entries in use, and every one in front of the last is a directory's. -/
def TreePath (d : Floppy) (names : List (List Byte)) (s i : Nat) : Prop :=
  Leads d (fun s i => IsLive d s i ∧ IsDirectory d s i) (IsLive d) .root names s i

/-- The path with no question asked. -/
def AnyPath (d : Floppy) (place : Place) (names : List (List Byte)) (s i : Nat) : Prop :=
  Leads d (fun _ _ => True) (fun _ _ => True) place names s i

/-- The handle has the cluster, the length and the type of an entry. -/
structure Matches (d : Floppy) (f : FILE) (s i : Nat) : Prop where
  cluster : f.currentCluster = (entryFirstCluster (d.sectors s) i).toNat
  length : f.fileLength = entryFileSize (d.sectors s) i
  type : f.flags = if IsDirectory d s i then .directory else .file

/-- What is claimed of a path: it is opened if and only if it leads to an entry of the tree, and then as that one. -/
structure WalksRight (d : Floppy) (names : List (List Byte)) : Prop where
  opens : ∀ junk s i, TreePath d names s i → ∃ f, f.flags ≠ .invalid ∧ Matches d f s i ∧
    ∃ fuel, ∀ fuel' ≥ fuel, fat12fsysOpen fuel' d junk (joinPieces backslash names) = some f
  opened : ∀ fuel junk f, fat12fsysOpen fuel d junk (joinPieces backslash names) = some f → f.flags ≠ .invalid →
    ∃ s i, TreePath d names s i ∧ Matches d f s i

/-- The path leads to an entry, but over one that is not a directory's, or by the name of a deleted one. -/
structure Astray (d : Floppy) (names : List (List Byte)) : Prop where
  leads : ∃ s i, AnyPath d .root names s i
  wrong : (∃ name ∈ names, name.head? = some erased) ∨ ∃ pre post s i, names = pre ++ post ∧ post ≠ [] ∧
    AnyPath d .root pre s i ∧ ¬ IsDirectory d s i

/-! ### One component -/

/-- A handle that was filled in from the entry, as both searches do it. -/
structure FilledIn (d : Floppy) (f : FILE) (s i : Nat) : Prop where
  agrees : Matches d f s i
  stands : Stands f f.currentCluster
  valid : f.flags ≠ .invalid

theorem filledIn_fileOfEntry (junk : FILE) (name : List Byte) (parent : Int) (absPosition : BitVec 32) :
    FilledIn d { fileOfEntry junk name (d.sectors s) i parent with absPosition } s i where
  agrees := ⟨rfl, rfl, rfl⟩
  stands := ⟨rfl, rfl, rfl⟩
  valid := by
    rw [fileOfEntry]
    dsimp only
    split <;> decide

/-- One round of the search in a directory's sectors. -/
theorem searchSubdir_succ (hf : Stands f c) (hread : (fat12fsysRead fuel d f (fun _ => 0#8) 0 512#32).returned = true) :
    searchSubdir d junk name dosFileName (fuel + 1) f =
      (findEntry (flpydskReadSector d (physSector c)) dosFileName).elim
        (searchSubdir d junk name dosFileName fuel (nextFile d f))
        (fun i => some (fileOfEntry junk name (flpydskReadSector d (physSector c)) i c)) := by
  have hsector : currentSector d f = flpydskReadSector d (physSector c) := by rw [currentSector, hf.cluster]
  have hsame : SameSector (memcpy (fun _ => 0#8) 0 (flpydskReadSector d (physSector c)) 0 512)
      (flpydskReadSector d (physSector c)) := sameSector_memcpy
  rw [searchSubdir, if_neg (by rw [hf.eof]; decide)]
  dsimp only
  rw [read_sector_of_returned hf.position hread, hsector, if_neg (by simp)]
  dsimp only
  rw [hsame.findEntry_eq]
  cases hfind : findEntry (flpydskReadSector d (physSector c)) dosFileName with
  | none => rfl
  | some i =>
    dsimp only
    rw [hsame.fileOfEntry_eq (findEntry_lt hfind), hf.cluster]
    rfl

theorem searchSubdir_of_finds (h : Finds d dosFileName c c' i) (hf : Stands f c) (junk : FILE) (name : List Byte) :
    ∃ fuel, ∀ fuel' ≥ fuel, searchSubdir d junk name dosFileName fuel' f =
      some (fileOfEntry junk name (flpydskReadSector d (physSector c')) i c') := by
  induction h generalizing f with
  | here hfind =>
    refine ⟨3, fun fuel' hle => ?_⟩
    obtain ⟨fuel, rfl⟩ := Nat.exists_eq_add_of_le' hle
    rw [searchSubdir_succ hf (by rw [read_sector hf.position]), hfind, Option.elim_some]
  | next hfind hnext _ ih =>
    obtain ⟨fuel, hfuel⟩ := ih (hf.next hnext)
    refine ⟨fuel + 3, fun fuel' hle => ?_⟩
    obtain ⟨more, rfl⟩ := Nat.exists_eq_add_of_le' hle
    rw [show more + (fuel + 3) = more + fuel + 2 + 1 by omega,
      searchSubdir_succ hf (by rw [read_sector hf.position]), hfind, Option.elim_none]
    exact hfuel _ (by omega)

/-- A handle that is not invalid is that of an entry found. -/
theorem finds_of_searchSubdir {g : FILE} (h : searchSubdir d junk name dosFileName fuel f = some g)
    (hg : g.flags ≠ .invalid) (hf : Stands f c) : ∃ c' i, Finds d dosFileName c c' i ∧
      g = fileOfEntry junk name (flpydskReadSector d (physSector c')) i c' := by
  induction fuel generalizing f c with
  | zero => cases h
  | succ fuel ih =>
    by_cases hread : (fat12fsysRead fuel d f (fun _ => 0#8) 0 512#32).returned = true
    · rw [searchSubdir_succ hf hread] at h
      cases hfind : findEntry (flpydskReadSector d (physSector c)) dosFileName with
      | some i =>
        rw [hfind, Option.elim_some] at h
        exact ⟨c, i, .here hfind, (Option.some.inj h).symm⟩
      | none =>
        rw [hfind, Option.elim_none] at h
        cases hnext : nextCluster d c with
        | some e =>
          obtain ⟨c', i, hfinds, rfl⟩ := ih h (hf.next hnext)
          exact ⟨c', i, .next hfind hnext hfinds, rfl⟩
        | none =>
          have heof : (nextFile d f).eof = true := by rw [hf.eof_nextFile, hnext, Option.isNone_none]
          cases fuel with
          | zero => cases h
          | succ fuel =>
            rw [searchSubdir, if_pos heof] at h
            obtain rfl := Option.some.inj h
            exact absurd rfl hg
    · rw [searchSubdir, if_neg (by rw [hf.eof]; decide)] at h
      dsimp only at h
      rw [if_pos (by simpa using hread)] at h
      cases h

/-- The opening of one component, in the root directory or behind a handle. -/
def openStep (fuel : Nat) (d : Floppy) (junk : Nat → FILE) (i : Nat) (currFile : FILE) (name : List Byte) : Option FILE :=
  if i = 0 then some (fat12fsysRootOpen d (junk 0) name) else fat12fsysSubdirOpen fuel d (junk i) currFile name

/-- Where the component with the number is looked up. -/
def placeOf (i : Nat) (currFile : FILE) : Place := if i = 0 then .root else .cluster currFile.currentCluster

variable {junks : Nat → FILE} {k : Nat}

/-- The entry found gives the handle. -/
theorem openStep_of_findsIn (hdos : toDosFileName name = some dosFileName)
    (h : FindsIn d dosFileName (placeOf k f) s i) (hf : k = 0 ∨ Stands f f.currentCluster) (junks : Nat → FILE) :
    ∃ g, FilledIn d g s i ∧ ∃ fuel, ∀ fuel' ≥ fuel, openStep fuel' d junks k f name = some g := by
  by_cases hk : k = 0
  · rw [placeOf, if_pos hk] at h
    cases h with
    | @root sector i hfind =>
      refine ⟨_, filledIn_fileOfEntry (junks 0) name (rootOffset + sector - 31) 0#32, 0, fun fuel' _ => ?_⟩
      rw [openStep, if_pos hk, fat12fsysRootOpen]
      simp only [hdos, hfind]
      rfl
  · rw [placeOf, if_neg hk] at h
    cases h with
    | @cluster _ c' i hfinds =>
      obtain ⟨fuel, hfuel⟩ := searchSubdir_of_finds hfinds (hf.resolve_left hk) (junks k) name
      refine ⟨_, filledIn_fileOfEntry (junks k) name c' (junks k).absPosition, fuel, fun fuel' hle => ?_⟩
      rw [openStep, if_neg hk, fat12fsysSubdirOpen]
      simp only [hdos]
      exact hfuel fuel' hle

/-- A handle that is not invalid is that of an entry found. -/
theorem findsIn_of_openStep {g : FILE} (h : openStep fuel d junks k f name = some g) (hg : g.flags ≠ .invalid)
    (hf : k = 0 ∨ Stands f f.currentCluster) : ∃ dosFileName s i, toDosFileName name = some dosFileName ∧
      FindsIn d dosFileName (placeOf k f) s i ∧ FilledIn d g s i := by
  have hinvalid : ∀ junk : FILE, some { junk with flags := .invalid } ≠ some g := by
    intro junk heq
    obtain rfl := Option.some.inj heq
    exact hg rfl
  rw [openStep] at h
  by_cases hk : k = 0
  · rw [if_pos hk, fat12fsysRootOpen] at h
    cases hdos : toDosFileName name with
    | none =>
      simp only [hdos] at h
      exact absurd h (hinvalid _)
    | some dosFileName =>
      simp only [hdos] at h
      cases hfind : (List.range 14).findSome? fun sector =>
        (findEntry (flpydskReadSector d (rootOffset + sector)) dosFileName).map fun i => (sector, i) with
      | none =>
        simp only [hfind] at h
        exact absurd h (hinvalid _)
      | some found =>
        simp only [hfind] at h
        obtain rfl := Option.some.inj h
        refine ⟨dosFileName, rootOffset + found.1, found.2, rfl, ?_, filledIn_fileOfEntry _ _ _ _⟩
        rw [placeOf, if_pos hk]
        exact .root hfind
  · rw [if_neg hk, fat12fsysSubdirOpen] at h
    cases hdos : toDosFileName name with
    | none =>
      simp only [hdos] at h
      exact absurd h (hinvalid _)
    | some dosFileName =>
      simp only [hdos] at h
      obtain ⟨c', i, hfinds, rfl⟩ := finds_of_searchSubdir h hg (hf.resolve_left hk)
      refine ⟨dosFileName, physSector c', i, rfl, ?_, filledIn_fileOfEntry _ _ _ _⟩
      rw [placeOf, if_neg hk]
      exact .cluster hfinds

/-! ### The name of an entry found -/

theorem cString_of_findEntry {buf : Nat → Byte} (h : findEntry buf dosFileName = some i) :
    cString (entryName buf i) = dosFileName := by
  rw [findEntry] at h
  have hsame := List.find?_some h
  rw [strcmp, decide_eq_true_iff] at hsame
  exact hsame.symm

theorem Finds.cString (h : Finds d dosFileName c c' i) :
    Akos.cString (entryName (d.sectors (physSector c')) i) = dosFileName := by
  induction h with
  | here hfind => exact cString_of_findEntry hfind
  | next _ _ _ ih => exact ih

theorem FindsIn.cString {place : Place} (h : FindsIn d dosFileName place s i) :
    Akos.cString (entryName (d.sectors s) i) = dosFileName := by
  cases h with
  | root hfind =>
    obtain ⟨sector, -, hsector⟩ := List.exists_of_findSome?_eq_some hfind
    obtain ⟨i, hi, heq⟩ := Option.map_eq_some_iff.mp hsector
    obtain ⟨rfl, rfl⟩ := Prod.mk.inj heq
    exact cString_of_findEntry hi
  | cluster hfinds => exact hfinds.cString

/-- The mark of a deleted entry is not made from another character. -/
theorem head?_toDosFileName (h : toDosFileName name = some dosFileName) :
    ∃ c, dosFileName.head? = some c ∧ (c = erased ↔ name.head? = some erased) := by
  obtain ⟨-, rfl⟩ := toDosFileName_eq_some h
  by_cases hdot : name.head? = some dot
  · have hbase : baseOf name = [] := if_pos hdot
    by_cases hname : name = [dot]
    · subst hname
      exact ⟨dot, rfl, by decide⟩
    · rw [if_neg hname, dosName, hbase]
      refine ⟨blank, rfl, ?_⟩
      rw [hdot]
      decide
  · cases name with
    | nil => exact ⟨blank, rfl, by decide⟩
    | cons c cs =>
      have hc : c ≠ dot := fun heq => hdot (congrArg some heq)
      have hbase : baseOf (c :: cs) = c :: cs.takeWhile (· ≠ dot) := by
        rw [baseOf, if_neg hdot, List.takeWhile_cons_of_pos (by simpa using hc)]
      rw [if_neg fun heq => hc (List.cons.inj heq).1, dosName, hbase, List.head?_cons]
      refine ⟨if 0x61#8 ≤ c ∧ c ≤ 0x7A#8 then c - 0x20#8 else c, rfl, ?_⟩
      rw [Option.some.injEq]
      split
      · next hletter =>
        obtain ⟨hge, hle⟩ := hletter
        constructor <;> intro heq <;> bv_omega
      · rfl

/-- All entries with one name are in use, or none is. -/
theorem FindsIn.isLive_iff {place : Place} (h : FindsIn d dosFileName place s i)
    (hdos : toDosFileName name = some dosFileName) : IsLive d s i ↔ name.head? ≠ some erased := by
  obtain ⟨c, hhead, hc⟩ := head?_toDosFileName hdos
  have hname := h.cString
  rw [entryName, List.range_succ_eq_map, List.map_cons, Akos.cString, List.takeWhile_cons] at hname
  rw [← hname] at hhead
  split at hhead
  · next hzero =>
    obtain rfl := Option.some.inj hhead
    exact (and_iff_left (of_decide_eq_true hzero)).trans (not_congr hc)
  · cases hhead

/-! ### The walk -/

/-- The components of the path from number `k` on. -/
def Components (path : List Byte) (k : Nat) (names : List (List Byte)) : Prop :=
  ∀ j (hj : j < names.length), seperateAndTake path backslash (k + j + 1) = names[j]

variable {path : List Byte} {place : Place} {way reached : Nat → Nat → Prop}

theorem Components.head (h : Components path k (name :: names)) : seperateAndTake path backslash (k + 1) = name :=
  h 0 (Nat.zero_lt_succ _)

theorem Components.tail (h : Components path k (name :: names)) : Components path (k + 1) names := by
  intro j hj
  rw [← List.getElem_cons_succ name names j (Nat.succ_lt_succ hj), Nat.add_assoc k, Nat.add_comm 1]
  exact h (j + 1) (Nat.succ_lt_succ hj)

theorem openFrom_succ {n : Nat} : openFrom fuel d junks path (n + 1) k f =
    (openStep fuel d junks k f (seperateAndTake path backslash (k + 1))).bind fun g =>
      if g.flags = .invalid then some g else openFrom fuel d junks path n (k + 1) g := rfl

theorem placeOf_succ (h : FilledIn d f s i) :
    placeOf (k + 1) f = .cluster (entryFirstCluster (d.sectors s) i).toNat := by
  rw [placeOf, if_neg (Nat.succ_ne_zero k), h.agrees.cluster]

theorem openFrom_of_anyPath (junks : Nat → FILE) (h : AnyPath d place names s i) (hplace : placeOf k f = place)
    (hf : k = 0 ∨ Stands f f.currentCluster) (hnames : Components path k names) :
    ∃ g, FilledIn d g s i ∧ ∃ fuel, ∀ fuel' ≥ fuel, openFrom fuel' d junks path names.length k f = some g := by
  induction h generalizing k f with
  | last hdos hfinds =>
    obtain ⟨g, hg, fuel, hfuel⟩ := openStep_of_findsIn hdos (hplace ▸ hfinds) hf junks
    refine ⟨g, hg, fuel, fun fuel' hle => ?_⟩
    rw [List.length_singleton, openFrom_succ, hnames.head, hfuel fuel' hle, Option.bind_some, if_neg hg.valid]
    rfl
  | step hdos hfinds _ _ ih =>
    obtain ⟨g, hg, fuel, hfuel⟩ := openStep_of_findsIn hdos (hplace ▸ hfinds) hf junks
    obtain ⟨g', hg', more, hmore⟩ := ih (placeOf_succ hg) (.inr hg.stands) hnames.tail
    refine ⟨g', hg', max fuel more, fun fuel' hle => ?_⟩
    rw [List.length_cons, openFrom_succ, hnames.head, hfuel fuel' ((le_max_left fuel more).trans hle), Option.bind_some,
      if_neg hg.valid]
    exact hmore fuel' ((le_max_right fuel more).trans hle)

theorem anyPath_of_openFrom {g : FILE} (h : openFrom fuel d junks path names.length k f = some g)
    (hg : g.flags ≠ .invalid) (hne : names ≠ []) (hf : k = 0 ∨ Stands f f.currentCluster)
    (hnames : Components path k names) : ∃ s i, AnyPath d (placeOf k f) names s i ∧ FilledIn d g s i := by
  induction names generalizing k f with
  | nil => exact absurd rfl hne
  | cons name names ih =>
    rw [List.length_cons, openFrom_succ, hnames.head] at h
    obtain ⟨f', hstep, hrest⟩ := Option.bind_eq_some_iff.mp h
    by_cases hinvalid : f'.flags = .invalid
    · rw [if_pos hinvalid] at hrest
      exact absurd (Option.some.inj hrest ▸ hinvalid) hg
    rw [if_neg hinvalid] at hrest
    obtain ⟨dosFileName, s, i, hdos, hfinds, hf'⟩ := findsIn_of_openStep hstep hinvalid hf
    cases names with
    | nil =>
      obtain rfl := Option.some.inj hrest
      exact ⟨s, i, .last hdos hfinds trivial, hf'⟩
    | cons name' names =>
      obtain ⟨s', i', hpath, hg'⟩ := ih hrest (List.cons_ne_nil _ _) (.inr hf'.stands) hnames.tail
      exact ⟨s', i', .step hdos hfinds trivial (placeOf_succ hf' ▸ hpath), hg'⟩

/-! ### The code's walk and the tree -/

theorem Finds.unique {e' j : Nat} (h : Finds d dosFileName c c' i) (h' : Finds d dosFileName c e' j) :
    c' = e' ∧ i = j := by
  induction h with
  | here hfind =>
    cases h' with
    | here hfind' => exact ⟨rfl, Option.some.inj (hfind.symm.trans hfind')⟩
    | next hnone => exact absurd (hfind.symm.trans hnone) (Option.some_ne_none _)
  | next hnone hnext _ ih =>
    cases h' with
    | here hfind' => exact absurd (hfind'.symm.trans hnone) (Option.some_ne_none _)
    | next _ hnext' hfinds' =>
      obtain rfl := Option.some.inj (hnext.symm.trans hnext')
      exact ih hfinds'

theorem FindsIn.unique (h : FindsIn d dosFileName place s i) (h' : FindsIn d dosFileName place s' i') :
    s = s' ∧ i = i' := by
  cases h with
  | root hfind =>
    cases h' with
    | root hfind' =>
      obtain ⟨rfl, rfl⟩ := Prod.mk.inj (Option.some.inj (hfind.symm.trans hfind'))
      exact ⟨rfl, rfl⟩
  | cluster hfinds =>
    cases h' with
    | cluster hfinds' =>
      obtain ⟨rfl, rfl⟩ := hfinds.unique hfinds'
      exact ⟨rfl, rfl⟩

/-- What is found does not depend on what is asked of it. -/
theorem Leads.anyPath (h : Leads d way reached place names s i) : AnyPath d place names s i := by
  induction h with
  | last hdos hfinds => exact .last hdos hfinds trivial
  | step hdos hfinds _ _ ih => exact .step hdos hfinds trivial ih

/-- The names of a path through the tree are those of entries in use, and all of it but the end leads over
directories. -/
theorem Leads.not_astray (h : Leads d (fun s i => IsLive d s i ∧ IsDirectory d s i) (IsLive d) place names s i) :
    (∀ name ∈ names, name.head? ≠ some erased) ∧ ∀ pre post s i, names = pre ++ post → post ≠ [] →
      AnyPath d place pre s i → IsDirectory d s i := by
  induction h with
  | last hdos hfinds hlive =>
    refine ⟨fun name hmem => ?_, fun pre post s i heq hpost hpre => ?_⟩
    · rw [List.mem_singleton.mp hmem]
      exact (hfinds.isLive_iff hdos).mp hlive
    · have hnil : pre = [] := by
        have hlength := congrArg List.length heq
        have hpos := List.length_pos_iff.mpr hpost
        rw [List.length_singleton, List.length_append] at hlength
        exact List.length_eq_zero_iff.mp (by omega)
      subst hnil
      cases hpre
  | step hdos hfinds hway _ ih =>
    refine ⟨fun name hmem => ?_, fun pre post s i heq hpost hpre => ?_⟩
    · rcases List.mem_cons.mp hmem with rfl | hmem
      · exact (hfinds.isLive_iff hdos).mp hway.1
      · exact ih.1 name hmem
    · cases hpre with
      | last hdos' hfinds' =>
        obtain ⟨rfl, -⟩ := List.cons.inj heq
        obtain rfl := Option.some.inj (hdos.symm.trans hdos')
        obtain ⟨rfl, rfl⟩ := hfinds.unique hfinds'
        exact hway.2
      | step hdos' hfinds' _ hrest =>
        obtain ⟨rfl, hnames⟩ := List.cons.inj heq
        obtain rfl := Option.some.inj (hdos.symm.trans hdos')
        obtain ⟨rfl, rfl⟩ := hfinds.unique hfinds'
        exact ih.2 _ post s i hnames hpost hrest

theorem AnyPath.leads (h : AnyPath d place names s i) (hnames : ∀ name ∈ names, name.head? ≠ some erased)
    (hdirs : ∀ pre post s i, names = pre ++ post → post ≠ [] → AnyPath d place pre s i → IsDirectory d s i) :
    Leads d (fun s i => IsLive d s i ∧ IsDirectory d s i) (IsLive d) place names s i := by
  rw [AnyPath] at h
  induction h with
  | last hdos hfinds => exact .last hdos hfinds ((hfinds.isLive_iff hdos).mpr (hnames _ List.mem_cons_self))
  | @step place name dosFileName names s i s' i' hdos hfinds _ hrest ih =>
    have hne : names ≠ [] := by
      intro hnil
      subst hnil
      cases hrest
    have hlive := (hfinds.isLive_iff hdos).mpr (hnames name List.mem_cons_self)
    have hdir := hdirs [name] names s i rfl hne (.last hdos hfinds trivial)
    refine .step hdos hfinds ⟨hlive, hdir⟩ (ih (fun name' hmem => hnames name' (List.mem_cons_of_mem name hmem)) ?_)
    intro pre post s'' i'' heq hpost hpre
    exact hdirs (name :: pre) post s'' i'' (congrArg (name :: ·) heq) hpost (.step hdos hfinds trivial hpre)

/-- The code's walk is the one through the tree exactly when it does not go astray. -/
theorem treePath_of_anyPath (h : AnyPath d .root names s i) (hastray : ¬ Astray d names) : TreePath d names s i := by
  refine AnyPath.leads h (fun name hmem hhead => hastray ⟨⟨s, i, h⟩, .inl ⟨name, hmem, hhead⟩⟩) ?_
  intro pre post s' i' heq hpost hpre
  by_contra hdir
  exact hastray ⟨⟨s, i, h⟩, .inr ⟨pre, post, s', i', heq, hpost, hpre, hdir⟩⟩

theorem TreePath.not_astray (h : TreePath d names s i) : ¬ Astray d names := by
  obtain ⟨hnames, hdirs⟩ := Leads.not_astray h
  intro hastray
  rcases hastray.wrong with ⟨name, hmem, hhead⟩ | ⟨pre, post, s', i', heq, hpost, hpre, hdir⟩
  · exact hnames name hmem hhead
  · exact hdir (hdirs pre post s' i' heq hpost hpre)

/-! ### Paths -/

theorem components_joinPieces (hnames : ∀ name ∈ names, backslash ∉ name) :
    Components (joinPieces backslash names) 0 names := by
  intro j hj
  rw [Nat.zero_add]
  exact seperateAndTake_joinPieces hnames hj

theorem open_joinPieces (hnames : ∀ name ∈ names, backslash ∉ name) (hne : names ≠ []) (hroot : names ≠ [[]]) :
    fat12fsysOpen fuel d junks (joinPieces backslash names) =
      openFrom fuel d junks (joinPieces backslash names) names.length 0 (junks 0) := by
  have hcount := countSubstrings_joinPieces hnames hne
  have hpath : (strcmp (joinPieces backslash names) [backslash] || strcmp (joinPieces backslash names) []) = false := by
    obtain ⟨name, rest, rfl⟩ := List.exists_cons_of_ne_nil hne
    rw [Bool.or_eq_false_iff, strcmp, strcmp, decide_eq_false_iff_not, decide_eq_false_iff_not, joinPieces,
      List.flatMap_cons]
    refine ⟨fun heq => hroot ?_, List.cons_ne_nil _ _⟩
    obtain ⟨rfl, hrest⟩ := List.append_eq_nil_iff.mp (List.cons.inj heq).2
    cases rest with
    | nil => rfl
    | cons name rest => cases hrest
  rw [fat12fsysOpen, hpath, if_neg Bool.false_ne_true, hcount]

/-- `F`, in cluster 2, is all there is in the root directory, and the file's data are an entry `X`. -/
private def entryAsData : Floppy where
  sectors s k :=
    if s = 19 ∧ k < 32 then
      setEntryFileSize (setEntry (fun _ => 0#8) 0 (dosName [0x46#8] []) 0#8 2) 0 32#32 k
    else if s = 33 ∧ k < 32 then setEntry (fun _ => 0#8) 0 (dosName [0x58#8] []) 0#8 3 k
    else if s = 1 ∧ k = 3 then 0xF8#8 else if s = 1 ∧ k = 4 then 0x0F#8 else 0#8
  written := []

end Akos.Fat12
