import Akos.Fat12.Programs
import Akos.Fat12.Slots

/-!
# Opening and listing what was created

A creation in the root directory, and the searches that come after it: the new entry is the only one with its name,
so both the opening by the name and the one by the path find it, and a new directory has nothing in it.
-/

namespace Akos.Fat12

variable {d d' : Floppy} {f junk : FILE} {name dosFileName : List Byte} {flags : Flags} {e i s c fuel : Nat}
  {p q : Nat × Nat} {buf buf' : Nat → Byte}

/-! ### Listing a directory -/

/-- The sectors of the root directory. `junk sector i` is on the stack when entry `i` of a sector is listed. -/
def listRoot (d : Floppy) (junk : Nat → Nat → FILE) : List FILE :=
  (List.range 14).flatMap fun sector => Task.listBuffer (junk sector) (flpydskReadSector d (rootOffset + sector))

/-- The loop over the sectors of another directory. -/
def listSubdir (d : Floppy) (junk : Nat → Nat → FILE) : Nat → Nat → FILE → Option (List FILE)
  | 0, _, _ => none
  | fuel + 1, sector, kFile =>
    if kFile.eof then some []
    else
      let read := fat12fsysRead fuel d kFile (fun _ => 0#8) 0 512#32
      if !read.returned then none
      else (listSubdir d junk fuel (sector + 1) read.file).map (Task.listBuffer (junk sector) read.memory ++ ·)

/-- `fat12fsys_open_dir`. The list is empty too for what is not a directory. -/
def fat12fsysOpenDir (fuel : Nat) (d : Floppy) (junk : Nat → FILE) (junkEntry : Nat → Nat → FILE) (path : List Byte) :
    Option (List FILE) :=
  if strcmp path [backslash] || strcmp path [] then some (listRoot d junkEntry)
  else do
    let kFile ← fat12fsysOpen fuel d junk path
    if kFile.flags = .invalid ∨ kFile.flags = .file then some [] else listSubdir d junkEntry fuel 0 kFile

/-! ### What is claimed -/

/-- The handle of a new file or directory. -/
structure IsNew (f : FILE) (flags : Flags) (e : Nat) : Prop where
  type : f.flags = flags
  length : f.fileLength = 0#32
  position : f.position = 0#32
  cluster : f.currentCluster = e

/-- The name has an entry in slot `p`, with the cluster `e` that was free before. -/
structure CreatesNew (d d' : Floppy) (name : List Byte) (flags : Flags) (p : Nat × Nat) (e : Nat) : Prop where
  slot : p ∈ slotsOf rootSectors
  free : DataCluster e ∧ fatEntry d e = 0#16
  taken : (fatEntry d' e).toNat = 0xFF8
  opens : ∀ junk, IsNew (fat12fsysRootOpen d' junk name) flags e
  others : ∀ q : Nat × Nat, 14 ≤ q.1 → q.2 < 16 → q ≠ p → q.1 ≠ physSector e → ¬ Changed d d' q
  path : backslash ∉ name → ∀ junk, ∃ fuel, ∀ fuel' ≥ fuel,
    fat12fsysOpen fuel' d' junk (backslash :: name) = some (fat12fsysRootOpen d' (junk 0) name)
  empty : backslash ∉ name → flags = .directory → ∀ junk junkEntry, ∃ fuel, ∀ fuel' ≥ fuel,
    fat12fsysOpenDir fuel' d' junk junkEntry (backslash :: name) = some []

/-! ### The search for the name -/

theorem not_mem_toDosFileName (h : toDosFileName name = some dosFileName) (hnul : 0#8 ∉ name) : 0#8 ∉ dosFileName := by
  obtain ⟨-, rfl⟩ := toDosFileName_eq_some h
  have hfield : ∀ {l : List Byte} {n : Nat}, 0#8 ∉ l → 0#8 ∉ (toUpper l).rightpad n blank := by
    intro l n hl hmem
    rcases List.mem_append.mp hmem with hmem | hmem
    · exact hl ((mem_toUpper (by decide)).mp hmem)
    · exact absurd (List.eq_of_mem_replicate hmem) (by decide)
  have hname : 0#8 ∉ dosName (baseOf name) (extOf name) := by
    intro hmem
    rcases List.mem_append.mp hmem with hmem | hmem
    · exact hfield (fun h => hnul (baseOf_subset h)) hmem
    · exact hfield (fun h => hnul (extOf_subset h)) hmem
  split
  · intro hmem
    rcases List.mem_or_eq_of_mem_set hmem with hmem | heq
    · exact hname hmem
    · exact absurd heq (by decide)
  · exact hname

/-- A name of 11 characters is compared as it stands. -/
theorem cString_eq_iff {l : List Byte} (hlength : l.length = dosFileName.length) (hnul : 0#8 ∉ dosFileName) :
    cString l = dosFileName ↔ l = dosFileName := by
  constructor
  · intro h
    have hstart : dosFileName <+: l := h ▸ List.takeWhile_prefix _
    exact (hstart.eq_of_length hlength.symm).symm
  · rintro rfl
    rw [cString, List.takeWhile_eq_self_iff]
    intro c hc
    rw [decide_eq_true_iff]
    exact fun heq => hnul (heq ▸ hc)

theorem length_entryName : (entryName buf i).length = 11 := by rw [entryName, List.length_map, List.length_range]

/-- The only slot with the name is found. -/
theorem findsIn_root (hp : p ∈ slotsOf rootSectors) (hlength : dosFileName.length = 11) (hnul : 0#8 ∉ dosFileName)
    (hname : entryName (d.sectors p.1) p.2 = dosFileName)
    (honly : ∀ q ∈ slotsOf rootSectors, entryName (d.sectors q.1) q.2 = dosFileName → q = p) :
    ∃ sector, rootOffset + sector = p.1 ∧ (List.range 14).findSome? (fun sector =>
      (findEntry (flpydskReadSector d (rootOffset + sector)) dosFileName).map fun i => (sector, i)) =
        some (sector, p.2) := by
  obtain ⟨hs, hi⟩ := mem_slotsOf.mp hp
  obtain ⟨sector, hsector, heq⟩ := List.mem_map.mp hs
  cases hfind : (List.range 14).findSome? (fun sector =>
    (findEntry (flpydskReadSector d (rootOffset + sector)) dosFileName).map fun i => (sector, i)) with
  | none =>
    have hnone := List.findSome?_eq_none_iff.mp hfind sector hsector
    rw [Option.map_eq_none_iff, findEntry, List.find?_eq_none] at hnone
    refine absurd ?_ (hnone p.2 (List.mem_range.mpr hi))
    rw [strcmp, decide_eq_true_iff, flpydskReadSector, heq]
    exact ((cString_eq_iff (length_entryName.trans hlength.symm) hnul).mpr hname).symm
  | some found =>
    obtain ⟨sector', i⟩ := found
    have hfinds := FindsIn.root hfind
    have hmem : (rootOffset + sector', i) ∈ slotsOf rootSectors := by
      obtain ⟨k, hk, hmap⟩ := List.exists_of_findSome?_eq_some hfind
      obtain ⟨j, hj, hpair⟩ := Option.map_eq_some_iff.mp hmap
      obtain ⟨rfl, rfl⟩ := Prod.mk.inj hpair
      exact mem_slotsOf.mpr ⟨List.mem_map.mpr ⟨k, hk, rfl⟩, findEntry_lt hj⟩
    have hslot := honly _ hmem ((cString_eq_iff (length_entryName.trans hlength.symm) hnul).mp hfinds.cString)
    refine ⟨sector', congrArg Prod.fst hslot, ?_⟩
    rw [← congrArg Prod.snd hslot]

/-- Opening by the name gives what the slot holds. -/
theorem rootOpen_eq (hp : p ∈ slotsOf rootSectors) (hdos : toDosFileName name = some dosFileName) (hnul : 0#8 ∉ name)
    (hname : entryName (d.sectors p.1) p.2 = dosFileName)
    (honly : ∀ q ∈ slotsOf rootSectors, entryName (d.sectors q.1) q.2 = dosFileName → q = p) (junk : FILE) :
    fat12fsysRootOpen d junk name =
      { fileOfEntry junk name (d.sectors p.1) p.2 (p.1 - 31) with absPosition := 0#32 } := by
  obtain ⟨sector, hsector, hfind⟩ := findsIn_root hp (length_toDosFileName hdos) (not_mem_toDosFileName hdos hnul) hname
    honly
  rw [fat12fsysRootOpen]
  simp only [hdos, hfind]
  rw [← hsector]
  rfl

/-- A path of one component is opened in the root directory. -/
theorem open_of_one (hname : backslash ∉ name) (hne : name ≠ []) (junk : Nat → FILE) :
    fat12fsysOpen fuel d junk (backslash :: name) = some (fat12fsysRootOpen d (junk 0) name) := by
  have hpath : backslash :: name = joinPieces backslash [name] := (List.append_nil _).symm
  have hnames : ∀ name' ∈ [name], backslash ∉ name' := fun name' hmem => List.mem_singleton.mp hmem ▸ hname
  have hroot : [name] ≠ [[]] := fun heq => hne (List.cons.inj heq).1
  have hhead := (components_joinPieces hnames).head
  rw [hpath, open_joinPieces hnames (List.cons_ne_nil _ _) hroot, List.length_singleton, openFrom_succ, hhead, openStep,
    if_pos rfl, Option.bind_some]
  split <;> rfl

/-! ### A cleared cluster -/

/-- Nothing is listed in a sector of zeros. -/
theorem listBuffer_of_zero (h : SameSector buf fun _ => 0#8) (junk : Nat → FILE) : Task.listBuffer junk buf = [] := by
  rw [Task.listBuffer, List.map_eq_nil_iff, List.filter_eq_nil_iff]
  intro i hi
  have hzero : entryFirstCluster (fun _ => 0#8) i = 0#16 := by
    rw [entryFirstCluster, Packed.word]
    decide
  rw [h.entryFirstCluster_eq (List.mem_range.mp hi), decide_eq_true_iff]
  exact fun hne => hne hzero

/-- A chain of one cleared cluster lists as empty. -/
theorem listSubdir_of_zero (hf : Stands f e) (hlast : nextCluster d e = none)
    (hzero : SameSector (d.sectors (physSector e)) fun _ => 0#8) (junk : Nat → Nat → FILE) :
    listSubdir d junk (fuel + 3) 0 f = some [] := by
  have heof : (nextFile d f).eof = true := by rw [hf.eof_nextFile, hlast, Option.isNone_none]
  have hread : SameSector (memcpy (fun _ => 0#8) 0 (currentSector d f) 0 512) fun _ => 0#8 := by
    intro k hk
    rw [currentSector, hf.cluster, sameSector_memcpy k hk]
    exact hzero k hk
  rw [listSubdir, if_neg (by rw [hf.eof]; decide)]
  dsimp only
  rw [read_sector hf.position, if_neg (by simp), listSubdir, if_pos heof, Option.map_some, listBuffer_of_zero hread]
  rfl

/-! ### Creation -/

/-- The search stops at a slot without a cluster when no slot has the name. -/
theorem firstStop_of_none {sectors : List Nat}
    (hnone : ∀ q ∈ slotsOf sectors, entryName (d.sectors q.1) q.2 ≠ dosFileName)
    (hslot : ∃ q ∈ slotsOf sectors, entryFirstCluster (d.sectors q.1) q.2 = 0#16) :
    ∃ p ∈ slotsOf sectors, firstStop d sectors dosFileName = some p ∧ entryFirstCluster (d.sectors p.1) p.2 = 0#16 := by
  obtain ⟨q, hq, hzero⟩ := hslot
  cases hstop : firstStop d sectors dosFileName with
  | none =>
    refine absurd ?_ (List.find?_eq_none.mp hstop q hq)
    rw [stopsAt, decide_eq_true_iff]
    exact .inl hzero
  | some p =>
    have hp := mem_of_firstStop hstop
    have hstops := List.find?_some hstop
    rw [stopsAt, decide_eq_true_iff] at hstops
    exact ⟨p, hp, rfl, hstops.resolve_right fun heq => hnone p hp heq.symm⟩

/-- A new entry of the root directory is the one that the name opens. -/
theorem Puts.createsNew (h : Puts d d' dosFileName flags p) (hp : p ∈ slotsOf rootSectors)
    (hdos : toDosFileName name = some dosFileName) (hnul : 0#8 ∉ name) (hne : name ≠ []) (htype : flags ≠ .invalid)
    (he : DataCluster (firstFreeEntry d)) (hzero : fatEntry d (firstFreeEntry d) = 0#16)
    (hnone : ∀ q ∈ slotsOf rootSectors, entryName (d.sectors q.1) q.2 ≠ dosFileName) :
    CreatesNew d d' name flags p (firstFreeEntry d) := by
  have hroot : ∀ q ∈ slotsOf rootSectors, 14 ≤ q.1 ∧ q.1 ≠ physSector (firstFreeEntry d) := by
    intro q hq
    obtain ⟨hle, hlt⟩ := mem_rootSectors.mp (mem_slotsOf.mp hq).1
    have hge := he.1
    exact ⟨by omega, by unfold physSector; omega⟩
  have honly : ∀ q ∈ slotsOf rootSectors, entryName (d'.sectors q.1) q.2 = dosFileName → q = p := by
    intro q hq heq
    by_contra hqp
    obtain ⟨hs, hfree⟩ := hroot q hq
    rw [entryName_of_not_changed (h.not_changed hs hfree hqp)] at heq
    exact hnone q hq heq
  have hopen := rootOpen_eq hp hdos hnul h.name honly
  have hnew : ∀ junk, IsNew (fat12fsysRootOpen d' junk name) flags (firstFreeEntry d) := by
    intro junk
    rw [hopen]
    refine ⟨?_, h.size, rfl, h.cluster⟩
    rw [fileOfEntry]
    dsimp only
    rw [h.attrib]
    cases flags with
    | file => rfl
    | directory => rfl
    | invalid => exact absurd rfl htype
  refine ⟨hp, ⟨he, hzero⟩, h.taken, hnew, fun q hs _ hqp hfree => h.not_changed hs hfree hqp,
    fun hslash junk => ⟨0, fun fuel _ => open_of_one hslash hne junk⟩,
    fun hslash hdir junk junkEntry => ⟨3, fun fuel hle => ?_⟩⟩
  obtain ⟨more, rfl⟩ := Nat.exists_eq_add_of_le' hle
  have hpath : (strcmp (backslash :: name) [backslash] || strcmp (backslash :: name) []) = false := by
    simpa [strcmp] using hne
  have hflags := (hnew (junk 0)).type
  have hlast : nextCluster d' (firstFreeEntry d) = none := if_pos (.inl (by rw [h.taken]))
  have hstands : Stands (fat12fsysRootOpen d' (junk 0) name) (firstFreeEntry d) := by
    refine ⟨(hnew (junk 0)).cluster, (hnew (junk 0)).position, ?_⟩
    rw [hopen]
    rfl
  rw [fat12fsysOpenDir, hpath, if_neg Bool.false_ne_true, open_of_one hslash hne junk, Option.bind_eq_bind,
    Option.bind_some, hflags, hdir, if_neg (by decide)]
  exact listSubdir_of_zero hstands hlast (h.cleared hdir) junkEntry

/-- What is created under a new name is what the name opens, and nothing else has changed. -/
theorem create_createsNew (hform : Formed name) (hnul : 0#8 ∉ name) (hroot : Directory.root.IsOpen d f)
    (htype : flags ≠ .invalid)
    (hnone : ∀ q ∈ slotsOf rootSectors, some (entryName (d.sectors q.1) q.2) ≠ toDosFileName name)
    (hslot : ∃ q ∈ slotsOf rootSectors, entryFirstCluster (d.sectors q.1) q.2 = 0#16)
    (hfree : ∃ c, DataCluster c ∧ fatEntry d c = 0#16) (junk : FILE) :
    ∃ fuel d' p e, (∀ fuel' ≥ fuel, fat12fsysCreate fuel' d junk f name flags = some d') ∧
      CreatesNew d d' name flags p e := by
  obtain ⟨c, hc, hzero⟩ := hfree
  obtain ⟨e, rest, hcons⟩ := List.exists_cons_of_ne_nil (List.ne_nil_of_mem (mem_freeClusters.mpr ⟨hc, hzero⟩))
  have hmem := mem_freeClusters.mp (hcons ▸ List.mem_cons_self : e ∈ freeClusters d)
  obtain rfl := firstFreeEntry_of_cons hcons
  obtain ⟨hplain, hshort⟩ := formed_iff.mp hform
  have hne : name ≠ [] := by
    rcases hplain with rfl | rfl | ⟨hne, -⟩
    · exact List.cons_ne_nil _ _
    · exact List.cons_ne_nil _ _
    · exact hne
  obtain ⟨dosFileName, hdos⟩ : ∃ dosFileName, toDosFileName name = some dosFileName := by
    rw [toDosFileName_eq, if_neg hshort]
    exact ⟨_, rfl⟩
  have hnone' : ∀ q ∈ slotsOf rootSectors, entryName (d.sectors q.1) q.2 ≠ dosFileName := fun q hq heq =>
    hnone q hq (by rw [heq, hdos])
  obtain ⟨p, hp, hstop, hpzero⟩ := firstStop_of_none hnone' hslot
  obtain ⟨fuel, hcreate⟩ := create_eq hroot junk name flags
  obtain ⟨-, hall⟩ | ⟨-, -, -, hputs⟩ := putEntry_spec hroot hp hdos flags
  · exact absurd hzero (hall c hc.1 (Nat.lt_trans hc.2 (by decide)))
  · refine ⟨fuel, _, p, _, fun fuel' hle => ?_, hputs.createsNew hp hdos hnul hne htype hmem.1 hmem.2 hnone'⟩
    rw [hcreate fuel' hle, hdos, Option.elim_some, created]
    unfold Directory.sectors
    rw [hstop, Option.elim_some, if_pos hpzero]

/-- A new directory on a blank disk. -/
theorem create_createsNew_blank : ∃ fuel d' p e,
    (∀ fuel' ≥ fuel, fat12fsysCreate fuel' ⟨fun _ _ => 0#8, []⟩ default
      { (default : FILE) with flags := .directory, name := [backslash] } [0x46#8] .directory = some d') ∧
    CreatesNew ⟨fun _ _ => 0#8, []⟩ d' [0x46#8] .directory p e := by
  have hnone : ∀ q ∈ slotsOf rootSectors, some (entryName (fun _ => 0#8) q.2) ≠ toDosFileName [0x46#8] := by
    intro q _
    change some (List.replicate 11 0#8) ≠ _
    decide
  exact create_createsNew (.base (by decide) (by decide) (by decide)) (by decide) ⟨rfl, .inl rfl⟩ (by decide) hnone
    ⟨(19, 0), by decide +kernel, by decide +kernel⟩ ⟨2, by decide, by decide +kernel⟩ default

end Akos.Fat12
