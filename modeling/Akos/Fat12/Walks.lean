import Akos.Fat12.Listing
import Akos.Fat12.ReadBounds
import Akos.Lib.StepBound

/-!
# Walks through directories

What walks through the clusters of a directory stops at what it looks for, or at the end of the chain. Nothing else
stops it: no cluster is marked as visited, and none is counted.
-/

namespace Akos.Fat12

open StepBound

variable {d : Floppy} {f g junk : FILE} {junks : Nat → FILE} {c e s i k n sector fuel bound : Nat}
  {name dosFileName path : List Byte} {names : List (List Byte)} {place : Place} {found : (Nat → Byte) → Prop}
  {flags : Flags}

/-- The chain from a cluster on comes to an end, or before that to a sector with what is looked for. -/
inductive WalkEnds (d : Floppy) (found : (Nat → Byte) → Prop) : Nat → Prop
  | found {c : Nat} : found (flpydskReadSector d (physSector c)) → WalkEnds d found c
  | last {c : Nat} : nextCluster d c = none → WalkEnds d found c
  | next {c e : Nat} : nextCluster d c = some e → WalkEnds d found e → WalkEnds d found c

/-- The chain comes to an end. -/
def ChainEnds (d : Floppy) (c : Nat) : Prop := WalkEnds d (fun _ => False) c

/-- One of the entries has the name. -/
def HasName (dosFileName : List Byte) (buf : Nat → Byte) : Prop := (findEntry buf dosFileName).isSome = true

/-- One of the entries has no cluster, or the name. -/
def HasStop (dosFileName : List Byte) (buf : Nat → Byte) : Prop := (List.range 16).any (stopsAt buf dosFileName) = true

/-- The walk for a component ends. In the root directory there is no chain. -/
def Place.Ends (d : Floppy) (name : List Byte) : Place → Prop
  | .root => True
  | .cluster c => ∀ dosFileName, toDosFileName name = some dosFileName → WalkEnds d (HasName dosFileName) c

/-- So do those for all components, each one in the directory of the entry that was found for the one before. -/
def PathEnds (d : Floppy) : Place → List (List Byte) → Prop
  | _, [] => True
  | place, name :: names => place.Ends d name ∧ ∀ dosFileName s i, toDosFileName name = some dosFileName →
      FindsIn d dosFileName place s i → PathEnds d (.cluster (entryFirstCluster (d.sectors s) i).toNat) names

/-- The components of a path, as the code takes them from it. -/
def componentsOf (path : List Byte) : List (List Byte) :=
  (List.range (countSubstrings path backslash)).map fun k => seperateAndTake path backslash (k + 1)

/-- The walks of `fat12fsys_open` end. -/
def OpenEnds (d : Floppy) (path : List Byte) : Prop := PathEnds d .root (componentsOf path)

/-- Those of `fat12fsys_open_dir` do: it goes through the whole directory that the path leads to. -/
def OpenDirEnds (d : Floppy) (path : List Byte) : Prop :=
  (strcmp path [backslash] || strcmp path []) = false → OpenEnds d path ∧
    ∀ s i, AnyPath d .root (componentsOf path) s i → IsDirectory d s i →
      ChainEnds d (entryFirstCluster (d.sectors s) i).toNat

/-- Those of `fat12fsys_create` do. -/
def CreateEnds (d : Floppy) (f : FILE) (name : List Byte) : Prop :=
  f.flags = .directory → (strcmp f.name [backslash] || strcmp f.name []) = false → f.eof = false →
    ∀ dosFileName, toDosFileName name = some dosFileName → WalkEnds d (HasStop dosFileName) f.currentCluster

/-! ### A steady bound -/

theorem read_steady (h : (fat12fsysRead fuel d f (fun _ => 0#8) 0 512#32).returned = true) :
    fat12fsysRead (fuel + 1) d f (fun _ => 0#8) 0 512#32 = fat12fsysRead fuel d f (fun _ => 0#8) 0 512#32 := rw_succ h

theorem searchSubdir_steady (d : Floppy) (junk : FILE) (name dosFileName : List Byte) (f : FILE) :
    Steady fun fuel => searchSubdir d junk name dosFileName fuel f := by
  intro fuel g h
  dsimp only at h ⊢
  induction fuel generalizing f with
  | zero => cases h
  | succ fuel ih =>
    rw [searchSubdir] at h ⊢
    split at h
    · next heof => rwa [if_pos heof]
    next heof =>
    rw [if_neg heof]
    dsimp only at h ⊢
    cases hread : (fat12fsysRead fuel d f (fun _ => 0#8) 0 512#32).returned with
    | false =>
      rw [hread] at h
      cases h
    | true =>
      rw [read_steady hread]
      rw [hread, Bool.not_true, if_neg Bool.false_ne_true] at h ⊢
      cases hfind : findEntry (fat12fsysRead fuel d f (fun _ => 0#8) 0 512#32).memory dosFileName with
      | none =>
        rw [hfind] at h
        exact ih _ h
      | some i =>
        rw [hfind] at h
        exact h

theorem openStep_steady (d : Floppy) (junks : Nat → FILE) (k : Nat) (f : FILE) (name : List Byte) :
    Steady fun fuel => openStep fuel d junks k f name := by
  unfold openStep fat12fsysSubdirOpen
  refine steady_ite (steady_some _) ?_
  cases toDosFileName name with
  | none => exact steady_some _
  | some dosFileName => exact searchSubdir_steady d (junks k) name dosFileName f

theorem openFrom_steady (d : Floppy) (junks : Nat → FILE) (path : List Byte) (n k : Nat) (f : FILE) :
    Steady fun fuel => openFrom fuel d junks path n k f := by
  induction n generalizing k f with
  | zero => exact steady_some f
  | succ n ih =>
    simp only [openFrom_succ]
    exact (openStep_steady d junks k f _).bind fun g => steady_ite (steady_some g) (ih (k + 1) g)

/-! ### Opening -/

theorem searchSubdir_ends (h : WalkEnds d (HasName dosFileName) c) (hf : Stands f c) (junk : FILE) (name : List Byte) :
    Ends fun fuel => searchSubdir d junk name dosFileName fuel f := by
  have hround : ∀ {c f} fuel, Stands f c → searchSubdir d junk name dosFileName (fuel + 3) f =
      (findEntry (flpydskReadSector d (physSector c)) dosFileName).elim
        (searchSubdir d junk name dosFileName (fuel + 2) (nextFile d f))
        (fun i => some (fileOfEntry junk name (flpydskReadSector d (physSector c)) i c)) := fun fuel hf =>
    searchSubdir_succ hf (by rw [read_sector hf.position])
  induction h generalizing f with
  | found hname =>
    obtain ⟨i, hi⟩ := Option.isSome_iff_exists.mp hname
    refine ⟨0 + 3, ?_⟩
    dsimp only
    rw [hround 0 hf, hi]
    rfl
  | @last c hnext =>
    have heof : (nextFile d f).eof = true := by rw [hf.eof_nextFile, hnext, Option.isNone_none]
    refine ⟨0 + 3, ?_⟩
    dsimp only
    rw [hround 0 hf, searchSubdir, if_pos heof]
    cases findEntry (flpydskReadSector d (physSector c)) dosFileName <;> rfl
  | @next c e hnext _ ih =>
    obtain ⟨fuel, hfuel⟩ := ih (hf.next hnext)
    obtain ⟨g, hg⟩ := Option.isSome_iff_exists.mp hfuel
    refine ⟨fuel + 3, ?_⟩
    dsimp only
    rw [hround fuel hf]
    cases findEntry (flpydskReadSector d (physSector c)) dosFileName with
    | some i => rfl
    | none => rw [Option.elim_none, (searchSubdir_steady d junk name dosFileName _).le hg (Nat.le_add_right fuel 2),
        Option.isSome_some]

theorem walkEnds_of_searchSubdir (hf : Stands f c) (h : searchSubdir d junk name dosFileName fuel f = some g) :
    WalkEnds d (HasName dosFileName) c := by
  induction fuel generalizing f c with
  | zero => cases h
  | succ fuel ih =>
    cases hread : (fat12fsysRead fuel d f (fun _ => 0#8) 0 512#32).returned with
    | false =>
      rw [searchSubdir, if_neg (by rw [hf.eof]; decide)] at h
      dsimp only at h
      rw [hread] at h
      cases h
    | true =>
      rw [searchSubdir_succ hf hread] at h
      cases hfind : findEntry (flpydskReadSector d (physSector c)) dosFileName with
      | some i => exact .found (by rw [HasName, hfind, Option.isSome_some])
      | none =>
        rw [hfind, Option.elim_none] at h
        cases hnext : nextCluster d c with
        | none => exact .last hnext
        | some e => exact .next hnext (ih (hf.next hnext) h)

variable (junks) in
/-- The opening of a component ends when its walk does. -/
theorem openStep_ends_iff (hf : k = 0 ∨ Stands f f.currentCluster) :
    Ends (fun fuel => openStep fuel d junks k f name) ↔ (placeOf k f).Ends d name := by
  unfold openStep placeOf
  by_cases hk : k = 0
  · simp only [if_pos hk]
    exact iff_of_true (steady_some _ |>.gives (n := 0) rfl).ends trivial
  · have hstands := hf.resolve_left hk
    simp only [if_neg hk]
    unfold fat12fsysSubdirOpen Place.Ends
    cases toDosFileName name with
    | none => exact iff_of_true ⟨0, rfl⟩ fun _ h => by cases h
    | some dosFileName =>
      constructor
      · intro h dosFileName' heq
        obtain rfl := Option.some.inj heq
        obtain ⟨fuel, hfuel⟩ := h
        obtain ⟨g, hg⟩ := Option.isSome_iff_exists.mp hfuel
        exact walkEnds_of_searchSubdir hstands hg
      · exact fun h => searchSubdir_ends (h dosFileName rfl) hstands _ name

/-- The loop over the components ends when all their walks do. -/
theorem openFrom_ends_iff (hf : k = 0 ∨ Stands f f.currentCluster) (hnames : Components path k names) :
    Ends (fun fuel => openFrom fuel d junks path names.length k f) ↔ PathEnds d (placeOf k f) names := by
  induction names generalizing k f with
  | nil => exact iff_of_true ⟨0, rfl⟩ trivial
  | cons name names ih =>
    simp only [List.length_cons, openFrom_succ]
    rw [(openStep_steady d junks k f _).ends_bind_iff
      fun g => steady_ite (steady_some g) (openFrom_steady d junks path _ (k + 1) g), hnames.head, PathEnds,
      ← openStep_ends_iff junks hf, (openStep_steady d junks k f name).ends_iff]
    constructor
    · intro h
      obtain ⟨g, hgives, hends⟩ := h
      refine ⟨⟨g, hgives⟩, fun dosFileName s i hdos hfinds => ?_⟩
      obtain ⟨g', hg', hgives'⟩ := openStep_of_findsIn hdos hfinds hf junks
      obtain rfl := hgives.unique hgives'
      simp only [if_neg hg'.valid] at hends
      rw [← placeOf_succ hg']
      exact (ih (.inr hg'.stands) hnames.tail).mp hends
    · intro h
      obtain ⟨⟨g, hgives⟩, hrest⟩ := h
      refine ⟨g, hgives, ?_⟩
      by_cases hinvalid : g.flags = .invalid
      · simp only [if_pos hinvalid]
        exact ⟨0, rfl⟩
      · simp only [if_neg hinvalid]
        obtain ⟨fuel, hfuel⟩ := hgives
        obtain ⟨dosFileName, s, i, hdos, hfinds, hg⟩ := findsIn_of_openStep (hfuel fuel (Nat.le_refl fuel)) hinvalid hf
        refine (ih (.inr hg.stands) hnames.tail).mpr ?_
        rw [placeOf_succ hg]
        exact hrest dosFileName s i hdos hfinds

theorem length_componentsOf (path : List Byte) : (componentsOf path).length = countSubstrings path backslash := by
  rw [componentsOf, List.length_map, List.length_range]

theorem componentsOf_ne_nil (path : List Byte) : componentsOf path ≠ [] := by
  intro hnil
  have hlength := length_componentsOf path
  rw [hnil, List.length_nil, countSubstrings] at hlength
  omega

theorem components_componentsOf (path : List Byte) : Components path 0 (componentsOf path) := by
  intro j hj
  simp only [componentsOf, List.getElem_map, List.getElem_range, Nat.zero_add]

theorem open_eq (hpath : (strcmp path [backslash] || strcmp path []) = false) : fat12fsysOpen fuel d junks path =
    openFrom fuel d junks path (componentsOf path).length 0 (junks 0) := by
  rw [fat12fsysOpen, hpath, if_neg Bool.false_ne_true, length_componentsOf]

theorem open_steady (d : Floppy) (junks : Nat → FILE) (path : List Byte) :
    Steady fun fuel => fat12fsysOpen fuel d junks path := by
  unfold fat12fsysOpen
  exact steady_ite (steady_some _) (openFrom_steady d junks path _ 0 _)

/-- No component is looked up in a chain for the path of the root directory. -/
theorem openEnds_of_root (hpath : (strcmp path [backslash] || strcmp path []) = true) : OpenEnds d path := by
  have hshort : path = [backslash] ∨ path = [] := by simpa [strcmp] using hpath
  rcases hshort with rfl | rfl
  · exact ⟨trivial, fun _ _ _ _ _ => trivial⟩
  · exact ⟨trivial, fun _ _ _ _ _ => trivial⟩

/-- `fat12fsys_open` ends when its walks do. -/
theorem open_ends_iff (d : Floppy) (junks : Nat → FILE) (path : List Byte) :
    Ends (fun fuel => fat12fsysOpen fuel d junks path) ↔ OpenEnds d path := by
  cases hpath : strcmp path [backslash] || strcmp path [] with
  | true =>
    refine iff_of_true ⟨0, ?_⟩ (openEnds_of_root hpath)
    dsimp only
    rw [fat12fsysOpen, hpath, if_pos rfl, Option.isSome_some]
  | false =>
    simp only [open_eq hpath]
    exact openFrom_ends_iff (.inl rfl) (components_componentsOf path)

/-! ### Listing -/

theorem listSubdir_steady (d : Floppy) (junk : Nat → Nat → FILE) (sector : Nat) (f : FILE) :
    Steady fun fuel => listSubdir d junk fuel sector f := by
  intro fuel l h
  dsimp only at h ⊢
  induction fuel generalizing sector f l with
  | zero => cases h
  | succ fuel ih =>
    rw [listSubdir] at h ⊢
    split at h
    · next heof => rwa [if_pos heof]
    next heof =>
    rw [if_neg heof]
    dsimp only at h ⊢
    cases hread : (fat12fsysRead fuel d f (fun _ => 0#8) 0 512#32).returned with
    | false =>
      rw [hread] at h
      cases h
    | true =>
      rw [read_steady hread, hread, Bool.not_true, if_neg Bool.false_ne_true]
      rw [hread, Bool.not_true, if_neg Bool.false_ne_true] at h
      obtain ⟨l', hl', rfl⟩ := Option.map_eq_some_iff.mp h
      exact Option.map_eq_some_iff.mpr ⟨l', ih _ _ _ hl', rfl⟩

/-- One round of the listing. -/
theorem listSubdir_isSome_succ {junk : Nat → Nat → FILE} (hf : Stands f c) (fuel : Nat) :
    (listSubdir d junk (fuel + 3) sector f).isSome = (listSubdir d junk (fuel + 2) (sector + 1) (nextFile d f)).isSome := by
  rw [listSubdir, if_neg (by rw [hf.eof]; decide)]
  dsimp only
  rw [read_sector hf.position, Bool.not_true, if_neg Bool.false_ne_true, Option.isSome_map]

theorem chainEnds_of_listSubdir {junk : Nat → Nat → FILE} {l : List FILE} (hf : Stands f c)
    (h : listSubdir d junk fuel sector f = some l) : ChainEnds d c := by
  induction fuel generalizing f c sector l with
  | zero => cases h
  | succ fuel ih =>
    rw [listSubdir, if_neg (by rw [hf.eof]; decide)] at h
    dsimp only at h
    cases hread : (fat12fsysRead fuel d f (fun _ => 0#8) 0 512#32).returned with
    | false =>
      rw [hread] at h
      cases h
    | true =>
      rw [read_sector_of_returned hf.position hread, Bool.not_true, if_neg Bool.false_ne_true] at h
      obtain ⟨l', hl', -⟩ := Option.map_eq_some_iff.mp h
      cases hnext : nextCluster d c with
      | none => exact .last hnext
      | some e => exact .next hnext (ih (hf.next hnext) hl')

/-- A listing goes through the whole chain. -/
theorem listSubdir_ends_iff {junk : Nat → Nat → FILE} (hf : Stands f c) :
    Ends (fun fuel => listSubdir d junk fuel sector f) ↔ ChainEnds d c := by
  constructor
  · intro h
    obtain ⟨fuel, hfuel⟩ := h
    obtain ⟨l, hl⟩ := Option.isSome_iff_exists.mp hfuel
    exact chainEnds_of_listSubdir hf hl
  · intro h
    induction h generalizing f sector with
    | found hfalse => exact hfalse.elim
    | last hnext =>
      have heof : (nextFile d f).eof = true := by rw [hf.eof_nextFile, hnext, Option.isNone_none]
      refine ⟨0 + 3, ?_⟩
      dsimp only
      rw [listSubdir_isSome_succ hf, listSubdir, if_pos heof, Option.isSome_some]
    | next hnext _ ih =>
      obtain ⟨fuel, hfuel⟩ := ih (hf.next hnext)
      obtain ⟨l, hl⟩ := Option.isSome_iff_exists.mp hfuel
      refine ⟨fuel + 3, ?_⟩
      dsimp only
      rw [listSubdir_isSome_succ hf, (listSubdir_steady d junk _ _).le hl (Nat.le_add_right fuel 2), Option.isSome_some]

/-- What is listed is the directory at the end of the path. -/
theorem list_ends_iff {junkEntry : Nat → Nat → FILE}
    (hgives : Gives (fun fuel => openFrom fuel d junks path (componentsOf path).length 0 (junks 0)) g) :
    Ends (fun n => if g.flags = .invalid ∨ g.flags = .file then some [] else listSubdir d junkEntry n 0 g) ↔
      ∀ s i, AnyPath d .root (componentsOf path) s i → IsDirectory d s i →
        ChainEnds d (entryFirstCluster (d.sectors s) i).toNat := by
  constructor
  · intro hends s i hpath hdir
    obtain ⟨g', hg', hgives'⟩ := openFrom_of_anyPath junks hpath (if_pos rfl) (.inl rfl) (components_componentsOf path)
    obtain rfl := hgives.unique hgives'
    have hflags : g.flags = .directory := hg'.agrees.type.trans (if_pos hdir)
    simp only [hflags] at hends
    rw [← hg'.agrees.cluster]
    exact (listSubdir_ends_iff hg'.stands).mp hends
  · intro hlisted
    by_cases hflags : g.flags = .invalid ∨ g.flags = .file
    · simp only [if_pos hflags]
      exact ⟨0, rfl⟩
    · simp only [if_neg hflags]
      obtain ⟨fuel, hfuel⟩ := hgives
      obtain ⟨s, i, hpath, hg⟩ := anyPath_of_openFrom (hfuel fuel (Nat.le_refl fuel)) (fun h => hflags (.inl h))
        (componentsOf_ne_nil path) (.inl rfl) (components_componentsOf path)
      have hdir : IsDirectory d s i := by
        by_contra hno
        exact hflags (.inr (hg.agrees.type.trans (if_neg hno)))
      rw [listSubdir_ends_iff hg.stands, hg.agrees.cluster]
      exact hlisted s i hpath hdir

/-- `fat12fsys_open_dir` ends when its walks do. -/
theorem openDir_ends_iff (d : Floppy) (junks : Nat → FILE) (junkEntry : Nat → Nat → FILE) (path : List Byte) :
    Ends (fun fuel => fat12fsysOpenDir fuel d junks junkEntry path) ↔ OpenDirEnds d path := by
  unfold fat12fsysOpenDir OpenDirEnds
  cases hpath : strcmp path [backslash] || strcmp path [] with
  | true =>
    simp only [if_pos]
    exact iff_of_true ⟨0, rfl⟩ fun h => by cases h
  | false =>
    simp only [if_neg Bool.false_ne_true, Option.bind_eq_bind]
    rw [(open_steady d junks path).ends_bind_iff
      fun g => steady_ite (steady_some []) (listSubdir_steady d junkEntry 0 g), ← open_ends_iff d junks path]
    simp only [open_eq hpath]
    have hlist : ∀ g, Gives (fun fuel => openFrom fuel d junks path (componentsOf path).length 0 (junks 0)) g →
        (Ends (fun n => if g.flags = .invalid ∨ g.flags = .file then some [] else listSubdir d junkEntry n 0 g) ↔
          ∀ s i, AnyPath d .root (componentsOf path) s i → IsDirectory d s i →
            ChainEnds d (entryFirstCluster (d.sectors s) i).toNat) :=
      fun g hgives => list_ends_iff hgives
    have hends := (openFrom_steady d junks path (componentsOf path).length 0 (junks 0)).ends_iff
    constructor
    · intro h _
      obtain ⟨g, hgives, hlisted⟩ := h
      exact ⟨hgives.ends, (hlist g hgives).mp hlisted⟩
    · intro h
      obtain ⟨hopens, hlisted⟩ := h trivial
      obtain ⟨g, hgives⟩ := hends.mp hopens
      exact ⟨g, hgives, (hlist g hgives).mpr hlisted⟩

/-! ### Creating -/

variable {memory buf buf' : Nat → Byte} {writeBack : Floppy → (Nat → Byte) → Option Floppy} {d' : Floppy}

theorem hasStop_congr (h : SameSector buf buf') : HasStop dosFileName buf ↔ HasStop dosFileName buf' := by
  unfold HasStop
  rw [List.any_eq, List.any_eq]
  simp only [decide_eq_true_iff]
  refine exists_congr fun i => and_congr_right fun hi => ?_
  rw [h.stopsAt_eq (List.mem_range.mp hi)]

/-- The loop over a sector without a stop. -/
theorem createIn_of_not_stop (h : ∀ j ∈ List.range' i n, stopsAt buf dosFileName j = false) :
    createIn bound d writeBack buf dosFileName flags junk n i = some (true, d) := by
  induction n generalizing i with
  | zero => rfl
  | succ n ih =>
    rw [List.range'_succ] at h
    have hstop := h i List.mem_cons_self
    rw [stopsAt, decide_eq_false_iff_not, not_or] at hstop
    rw [createIn, if_neg hstop.1, if_neg hstop.2]
    exact ih fun j hj => h j (List.mem_cons_of_mem i hj)

theorem stopsAt_of_not_hasStop (h : ¬ HasStop dosFileName buf) :
    ∀ j ∈ List.range' 0 16, stopsAt buf dosFileName j = false := by
  rw [HasStop, Bool.not_eq_true, List.any_eq_false] at h
  intro j hj
  exact Bool.eq_false_of_not_eq_true (h j (by rwa [List.range_eq_range']))

theorem walkEnds_of_createInSubdir (hf : Stands f c)
    (h : createInSubdir bound d dosFileName flags junk fuel f = some d') : WalkEnds d (HasStop dosFileName) c := by
  induction fuel generalizing f c with
  | zero => cases h
  | succ fuel ih =>
    by_cases hstop : HasStop dosFileName (flpydskReadSector d (physSector c))
    · exact .found hstop
    rw [createInSubdir, if_neg (by rw [hf.eof]; decide)] at h
    dsimp only at h
    cases hread : (fat12fsysRead bound d f (fun _ => 0#8) 0 512#32).returned with
    | false =>
      rw [hread] at h
      cases h
    | true =>
      have hsame : SameSector (memcpy (fun _ => 0#8) 0 (currentSector d f) 0 512) (flpydskReadSector d (physSector c)) := by
        rw [currentSector, hf.cluster]
        exact sameSector_memcpy
      rw [read_sector_of_returned hf.position hread, Bool.not_true, if_neg Bool.false_ne_true,
        createIn_of_not_stop (stopsAt_of_not_hasStop fun hfound => hstop ((hasStop_congr hsame).mp hfound))] at h
      cases hnext : nextCluster d c with
      | none => exact .last hnext
      | some e => exact .next hnext (ih (hf.next hnext) h)

/-- One round of the search for a place: the creation is over, or it goes on in the next cluster. -/
theorem createInSubdir_round (hf : Stands f c) (hflags : f.flags = .directory) (fuel : Nat) :
    (createInSubdir (bound + 2) d dosFileName flags junk (fuel + 1) f).isSome = true ∨
      createInSubdir (bound + 2) d dosFileName flags junk (fuel + 1) f =
        createInSubdir (bound + 2) d dosFileName flags junk fuel (nextFile d f) ∧
      ¬ HasStop dosFileName (flpydskReadSector d (physSector c)) := by
  have hwrite : ∀ d buf, (fat12fsysWrite (bound + 2) d f buf 0 512#32).disk? =
      some (flpydskWriteSector d (physSector c) buf) := fun d buf =>
    (write_sector hf.position hflags).trans (by rw [hf.cluster])
  have hsame : SameSector (memcpy (fun _ => 0#8) 0 (currentSector d f) 0 512) (d.sectors (physSector c)) := by
    rw [currentSector, hf.cluster]
    exact sameSector_memcpy
  rw [createInSubdir, if_neg (by rw [hf.eof]; decide)]
  dsimp only
  rw [read_sector hf.position, Bool.not_true, if_neg Bool.false_ne_true]
  by_cases hstop : HasStop dosFileName (memcpy (fun _ => 0#8) 0 (currentSector d f) 0 512)
  · refine .inl ?_
    rw [createIn_range' hwrite hsame, ← List.range_eq_range']
    obtain ⟨i, hi⟩ := Option.isSome_iff_exists.mp (List.find?_isSome.mpr (List.any_eq_true.mp hstop))
    rw [hi]
    rfl
  · refine .inr ⟨?_, fun hfound => hstop ((hasStop_congr hsame).mpr hfound)⟩
    rw [createIn_of_not_stop (stopsAt_of_not_hasStop hstop)]
    rfl

theorem createInSubdir_ends (h : WalkEnds d (HasStop dosFileName) c) (hf : Stands f c) (hflags : f.flags = .directory) :
    ∃ n, ∀ fuel ≥ n, ∀ bound, (createInSubdir (bound + 2) d dosFileName flags junk fuel f).isSome = true := by
  induction h generalizing f with
  | found hfound =>
    refine ⟨1, fun fuel hle bound => ?_⟩
    obtain ⟨more, rfl⟩ := Nat.exists_eq_add_of_le' hle
    exact (createInSubdir_round hf hflags more).resolve_right fun hno => hno.2 hfound
  | last hnext =>
    have heof : (nextFile d f).eof = true := by rw [hf.eof_nextFile, hnext, Option.isNone_none]
    refine ⟨2, fun fuel hle bound => ?_⟩
    obtain ⟨more, rfl⟩ := Nat.exists_eq_add_of_le' hle
    obtain hdone | ⟨hmore, -⟩ := createInSubdir_round hf hflags (more + 1)
    · exact hdone
    · rw [hmore, createInSubdir, if_pos heof, Option.isSome_some]
  | next hnext _ ih =>
    obtain ⟨n, hn⟩ := ih (hf.next hnext) (nextFile_flags.trans hflags)
    refine ⟨n + 1, fun fuel hle bound => ?_⟩
    obtain ⟨more, rfl⟩ := Nat.exists_eq_add_of_le' hle
    obtain hdone | ⟨hmore, -⟩ := createInSubdir_round hf hflags (more + n)
    · exact hdone
    · rw [← Nat.add_assoc, hmore]
      exact hn _ (Nat.le_add_left n more) bound

/-- The handle was opened, on this disk or on an earlier one. -/
def Opened (f : FILE) : Prop := ∃ fuel d junks path, fat12fsysOpen fuel d junks path = some f

theorem Opened.stands (h : Opened f) (hflags : f.flags = .directory)
    (hroot : (strcmp f.name [backslash] || strcmp f.name []) = false) (heof : f.eof = false) :
    Stands f f.currentCluster := by
  obtain ⟨fuel, d, junks, path, hopen⟩ := h
  have hpath : (strcmp path [backslash] || strcmp path []) = false := by
    cases hpath : strcmp path [backslash] || strcmp path [] with
    | false => rfl
    | true =>
      rw [fat12fsysOpen, hpath, if_pos rfl] at hopen
      have hname : f.name = [backslash] := by rw [← Option.some.inj hopen]
      rw [hname] at hroot
      exact absurd hroot (by decide)
  obtain ⟨hslash, hempty⟩ := Bool.or_eq_false_iff.mp hpath
  exact ⟨rfl, position_open hslash hempty hopen (by rw [hflags]; decide), heof⟩

/-- `fat12fsys_create` ends when its walk does. -/
theorem create_ends_iff (hf : Opened f) (d : Floppy) (junk : FILE) (name : List Byte) (flags : Flags) :
    Ends (fun fuel => fat12fsysCreate fuel d junk f name flags) ↔ CreateEnds d f name := by
  unfold fat12fsysCreate CreateEnds
  by_cases hflags : f.flags = .directory
  swap
  · simp only [if_pos hflags]
    exact iff_of_true ⟨0, rfl⟩ fun h => absurd h hflags
  simp only [hflags, ne_eq, not_true_eq_false, if_false]
  cases hdos : toDosFileName name with
  | none => exact iff_of_true ⟨0, rfl⟩ fun _ _ _ _ h => by cases h
  | some dosFileName =>
    dsimp only
    cases hroot : strcmp f.name [backslash] || strcmp f.name [] with
    | true =>
      simp only [if_true]
      refine iff_of_true ⟨0 + 2, ?_⟩ fun _ h => by cases h
      dsimp only
      rw [createInRoot_eq, Option.isSome_some]
    | false =>
      simp only [Bool.false_eq_true, if_false]
      cases heof : f.eof with
      | true =>
        refine iff_of_true ⟨1, ?_⟩ fun _ _ h => by cases h
        dsimp only
        rw [createInSubdir, if_pos heof, Option.isSome_some]
      | false =>
        have hstands := hf.stands hflags hroot heof
        constructor
        · intro h _ _ _ dosFileName' heq
          obtain rfl := Option.some.inj heq
          obtain ⟨fuel, hfuel⟩ := h
          obtain ⟨d', hd'⟩ := Option.isSome_iff_exists.mp hfuel
          exact walkEnds_of_createInSubdir hstands hd'
        · intro h
          obtain ⟨n, hn⟩ := createInSubdir_ends (h trivial trivial rfl dosFileName rfl) hstands hflags
          exact ⟨n + 2, hn (n + 2) (Nat.le_add_right n 2) n⟩

/-! ### All three -/

/-- `D` is a directory with one cluster, behind which the table has that cluster again. All its entries are in use. -/
private def endless : Floppy where
  sectors s k :=
    if s = 19 ∧ k < 32 then setEntry (fun _ => 0#8) 0 (dosName [0x44#8] []) 0x10#8 2 k
    else if s = 1 ∧ k = 3 then 0x02#8 else if 33 ≤ s then 1#8 else 0#8
  written := []

theorem not_walkEnds_of_loop (hnext : nextCluster d c = some c)
    (hno : ¬ found (flpydskReadSector d (physSector c))) : ¬ WalkEnds d found c := by
  intro h
  generalize hc : c = e at h
  induction h with
  | found hfound => exact hno (hc ▸ hfound)
  | last hlast =>
    rw [← hc, hnext] at hlast
    cases hlast
  | next hnext' _ ih =>
    rw [← hc, hnext] at hnext'
    exact ih (Option.some.inj hnext')

end Akos.Fat12
