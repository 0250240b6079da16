import Akos.Fat12.Programs

/-!
# The calls on the volume alone

A program whose steps no other call comes between has the outcome of the function that takes the buffers for loaded
before each use.
-/

namespace Akos.Fat12.Task

variable {s : Shared} {cluster entry : Nat}

@[simp] theorem run_store (act : Shared → Shared) : (store act).run s = some ((), act s) := rfl

@[simp] theorem run_load {α : Type} (read : Shared → α) : (load read).run s = some (read s, s) := rfl

/-- What a program does alone to the disk, and what it returns. -/
abbrev Does {α : Type} (p : Task α) (f : Floppy → Option (α × Floppy)) : Prop := Prog.Computes Shared.disk p f

theorem run_loadFat : (loadFat cluster).run s =
    some ((), ⟨s.disk, Fat12.flpydskReadSector s.disk (fatSector cluster + 1), Fat12.loadFat s.disk cluster⟩) := by
  have hfat : ∀ k, (if k < sectorSize then
      (if k < sectorSize then Fat12.flpydskReadSector s.disk (fatSector cluster) k else s.fat k)
      else Fat12.flpydskReadSector s.disk (fatSector cluster + 1) (k - sectorSize))
        = Fat12.loadFat s.disk cluster k := by
    intro k
    unfold Fat12.loadFat
    split <;> rfl
  simp only [loadFat, flpydskReadSector, Prog.run_bind, run_store, Option.bind_some, hfat]

/-- The word of an entry is read before anything that looks at `FAT` again. -/
theorem outcome_loadWord_bind {α : Type} (k : BitVec 16 → Task α) :
    (loadWord cluster >>= k).outcome Shared.disk s =
      (k (Packed.word (Fat12.loadFat s.disk cluster) (entryOffset cluster))).outcome Shared.disk
        ⟨s.disk, Fat12.flpydskReadSector s.disk (fatSector cluster + 1), Fat12.loadFat s.disk cluster⟩ := by
  simp only [Prog.outcome, loadWord, Prog.run_bind, run_loadFat, run_load, Option.bind_some]

theorem does_writeSector (sectorLBA : Nat) (data : Nat → Byte) :
    Does (flpydskWriteSector sectorLBA fun _ => data)
      fun d => some ((), Fat12.flpydskWriteSector d sectorLBA data) := fun _ => rfl

theorem outcome_setFatEntry_bind {α : Type} (disk : Floppy) (dmabuf : Nat → Byte) (a : α) :
    (setFatEntry cluster entry (Packed.word (Fat12.loadFat disk cluster) (entryOffset cluster)) >>=
        fun _ => pure a).outcome
        Shared.disk ⟨disk, dmabuf, Fat12.loadFat disk cluster⟩ =
      some (a, Fat12.setFatEntry disk cluster entry) := rfl

/-- The first free entry from one on, or the one behind the last. -/
theorem does_occupyFrom (n clusterEntry : Nat) :
    Does (occupyFrom n clusterEntry) fun d =>
      some (((List.range' clusterEntry n).find? fun cluster => fatEntry d cluster = 0#16).elim (clusterEntry + n, d)
        fun found => (found, Fat12.setFatEntry d found 0xFF8)) := by
  induction n generalizing clusterEntry with
  | zero => exact fun s => rfl
  | succ n ih =>
    intro s
    dsimp only
    rw [occupyFrom, outcome_loadWord_bind, List.range'_succ, List.find?_cons]
    by_cases hfree : fatEntry s.disk clusterEntry = 0#16
    · have hword : entryOfWord clusterEntry
          (Packed.word (Fat12.loadFat s.disk clusterEntry) (entryOffset clusterEntry)) = 0#16 := hfree
      rw [if_pos hword, decide_eq_true hfree, outcome_setFatEntry_bind]
      rfl
    · have hword : entryOfWord clusterEntry
          (Packed.word (Fat12.loadFat s.disk clusterEntry) (entryOffset clusterEntry)) ≠ 0#16 := hfree
      rw [if_neg hword, decide_eq_false hfree, ih]
      simp only [Nat.add_assoc, Nat.add_comm 1]

theorem find_eq_firstFreeEntry (d : Floppy) :
    (((List.range' 2 (0xFF0 - 2)).find? fun cluster => fatEntry d cluster = 0#16).elim (2 + (0xFF0 - 2), d)
        fun found => (found, Fat12.setFatEntry d found 0xFF8)) =
      (firstFreeEntry d, if firstFreeEntry d < 0xFF0 then Fat12.setFatEntry d (firstFreeEntry d) 0xFF8 else d) := by
  unfold firstFreeEntry
  cases hfound : (List.range' 2 (0xFF0 - 2)).find? fun cluster => fatEntry d cluster = 0#16 with
  | none => rfl
  | some found =>
    have hlt : found < 0xFF0 := by
      have hmem := List.mem_of_find?_eq_some hfound
      rw [List.mem_range'_1] at hmem
      omega
    simp only [Option.getD_some, Option.elim_some, if_pos hlt]

theorem does_occupyFreeCluster (chainCluster : Nat) :
    Does (fat12fsysOccupyFreeCluster chainCluster)
      fun d => some (Fat12.fat12fsysOccupyFreeCluster d chainCluster) := by
  intro s
  have hchain : ∀ clusterEntry, Does (if chainCluster ≠ 0 ∧ clusterEntry ≠ 0xFF0 then do
        let word ← loadWord chainCluster
        setFatEntry chainCluster clusterEntry word
        pure clusterEntry
      else pure clusterEntry) fun d => some (if chainCluster ≠ 0 ∧ clusterEntry ≠ 0xFF0 then
        (clusterEntry, Fat12.setFatEntry d chainCluster clusterEntry) else (clusterEntry, d)) := by
    intro clusterEntry s
    dsimp only
    split
    · rw [outcome_loadWord_bind, outcome_setFatEntry_bind]
    · rfl
  rw [fat12fsysOccupyFreeCluster, ((does_occupyFrom (0xFF0 - 2) 2).bind hchain) s]
  simp only [Option.bind_some, find_eq_firstFreeEntry]
  rfl

/-! ### Transfers that run alone -/

theorem does_copySector (dir : FloppyDir) (file : FILE) (memory : Nat → Byte) (buffer : Nat) (length : BitVec 32) :
    Does (copySector dir file memory buffer length) fun d =>
      some ((Fat12.copySector dir d file memory buffer length).2, (Fat12.copySector dir d file memory buffer length).1) := by
  cases dir with
  | read => exact fun s => rfl
  | write => exact fun s => rfl

theorem does_nextSector (dir : FloppyDir) (file : FILE) (length : BitVec 32) :
    Does (nextSector dir file length) fun d =>
      let next := Fat12.nextSector dir d file length
      some ((next.1, next.2.2), next.2.1) := by
  intro s
  rw [nextSector, outcome_loadWord_bind]
  have hword : entryOfWord file.currentCluster
      (Packed.word (Fat12.loadFat s.disk file.currentCluster) (entryOffset file.currentCluster)) =
        fatEntry s.disk file.currentCluster := rfl
  simp only [hword, Fat12.nextSector]
  split
  · rfl
  split
  · rfl
  split
  · exact ((does_occupyFreeCluster file.currentCluster).bind fun nextCluster => Prog.computes_pure _) _
  · rfl

/-- What a transfer returns, when it does. -/
def result (t : Transfer) : Option ((FILE × (Nat → Byte)) × Floppy) :=
  if t.returned then some ((t.file, t.memory), t.disk) else none

theorem does_rw (dir : FloppyDir) (fuel : Nat) (file : FILE) (memory : Nat → Byte) (buffer : Nat)
    (length : BitVec 32) :
    Does (fat12fsysRw dir fuel file memory buffer length)
      fun d => result (Fat12.fat12fsysRw dir fuel d file memory buffer length) := by
  induction fuel generalizing file memory buffer length with
  | zero => exact fun s => rfl
  | succ fuel ih =>
    intro s
    dsimp only
    rw [fat12fsysRw, Fat12.fat12fsysRw]
    by_cases hlength : length = 0#32
    · rw [if_pos hlength, if_pos hlength]
      rfl
    rw [if_neg hlength, if_neg hlength]
    obtain ⟨s₁, hdisk₁, hcopied⟩ := (does_copySector dir file memory buffer length).outcome_bind rfl fun memory => _
    rw [hcopied]
    dsimp only [rwSector]
    by_cases hended : (endsInSector file length).1
    · simp only [if_pos hended, Prog.outcome_pure, hdisk₁, Bool.false_eq_true, if_false, result, if_true]
    · simp only [if_neg hended]
      obtain ⟨s₂, hdisk₂, hnext⟩ := (does_nextSector dir (endsInSector file length).2
        (length - (512#32 - file.position))).outcome_bind rfl fun next => _
      rw [hnext, ← hdisk₁]
      split
      · rw [ih, hdisk₂]
      · rw [Prog.outcome_pure, hdisk₂, result, if_pos rfl]

/-- A sector is read and copied to private memory. -/
theorem outcome_copied {α : Type} (sectorLBA : Nat) (k : (Nat → Byte) → Task α) :
    (do flpydskReadSector sectorLBA; let buf ← load fun s => s.dmabuf; k buf : Task α).outcome Shared.disk s =
      (k (Fat12.flpydskReadSector s.disk sectorLBA)).outcome Shared.disk
        { s with dmabuf := Fat12.flpydskReadSector s.disk sectorLBA } := rfl

theorem does_updateFlen (f : FILE) (newLen : BitVec 32) :
    Does (fat12fsysUpdateFlen f newLen) fun d => some ((), Fat12.fat12fsysUpdateFlen d f newLen) := by
  intro s
  dsimp only [fat12fsysUpdateFlen, Fat12.fat12fsysUpdateFlen]
  cases toDosFileName f.name with
  | none => rfl
  | some dosFileName =>
    dsimp only
    rw [outcome_copied]
    cases findEntry (Fat12.flpydskReadSector s.disk (f.parentCluster + 31).toNat) dosFileName with
    | none => rfl
    | some i => rfl

theorem does_extendFile (file : FILE) (length : BitVec 32) :
    Does (extendFile file length) fun d =>
      some ((Fat12.extendFile d file length).2, (Fat12.extendFile d file length).1) := by
  intro s
  dsimp only [extendFile, Fat12.extendFile]
  split
  · split
    · obtain ⟨s', hdisk, hupdated⟩ := (does_updateFlen _ _).outcome_bind rfl fun _ => _
      rw [hupdated, Prog.outcome_pure, hdisk]
    · rfl
  · rfl

theorem does_write (fuel : Nat) (file : FILE) (memory : Nat → Byte) (buffer : Nat) (length : BitVec 32) :
    Does (fat12fsysWrite fuel file memory buffer length)
      fun d => result (Fat12.fat12fsysWrite fuel d file memory buffer length) := by
  intro s
  obtain ⟨s', hdisk, hextended⟩ := (does_extendFile file length).outcome_bind rfl fun file =>
    fat12fsysRw .write fuel file memory buffer length
  exact hextended.trans ((does_rw .write fuel _ memory buffer length s').trans (by rw [hdisk]; rfl))

/-! ### Opening alone -/

theorem run_findInSector (dosFileName : List Byte) (n i : Nat) :
    (findInSector dosFileName n i).run s =
      some ((List.range' i n).find? fun i => strcmp dosFileName (cString (entryName s.dmabuf i)), s) := by
  induction n generalizing i with
  | zero => rfl
  | succ n ih =>
    rw [findInSector, Prog.run_bind, run_load, List.range'_succ, List.find?_cons]
    cases hfound : strcmp dosFileName (cString (entryName s.dmabuf i)) with
    | true => simp only [Option.bind_some, hfound, if_true, Prog.run_pure]
    | false => simp only [Option.bind_some, hfound, Bool.false_eq_true, if_false, ih]

/-- What the search in the root directory from one sector on returns. -/
def searchedRoot (d : Floppy) (junk : FILE) (fileName dosFileName : List Byte) (n sector : Nat) : FILE :=
  match (List.range' sector n).findSome? fun sector =>
      (findEntry (Fat12.flpydskReadSector d (rootOffset + sector)) dosFileName).map fun i => (sector, i) with
  | none => { junk with flags := .invalid }
  | some (sector, i) =>
    { fileOfEntry junk fileName (Fat12.flpydskReadSector d (rootOffset + sector)) i (rootOffset + sector - 31) with
      absPosition := 0#32 }

theorem does_searchRoot (junk : FILE) (fileName dosFileName : List Byte) (n sector : Nat) :
    Does (searchRoot junk fileName dosFileName n sector) fun d =>
      some (searchedRoot d junk fileName dosFileName n sector, d) := by
  induction n generalizing sector with
  | zero => exact fun s => rfl
  | succ n ih =>
    intro s
    have hentry : (findInSector dosFileName 16 0).run
        { s with dmabuf := Fat12.flpydskReadSector s.disk (rootOffset + sector) } =
          some (findEntry (Fat12.flpydskReadSector s.disk (rootOffset + sector)) dosFileName,
            { s with dmabuf := Fat12.flpydskReadSector s.disk (rootOffset + sector) }) := by
      rw [run_findInSector, findEntry, List.range_eq_range']
    dsimp only [searchRoot, searchedRoot]
    rw [List.range'_succ, List.findSome?_cons, Prog.outcome, flpydskReadSector, Prog.run_bind, run_store,
      Option.bind_some, Prog.run_bind, hentry, Option.bind_some]
    cases findEntry (Fat12.flpydskReadSector s.disk (rootOffset + sector)) dosFileName with
    | none => exact ih (sector + 1) _
    | some i => rfl

theorem does_rootOpen (junk : FILE) (fileName : List Byte) :
    Does (fat12fsysRootOpen junk fileName) fun d => some (Fat12.fat12fsysRootOpen d junk fileName, d) := by
  intro s
  dsimp only [fat12fsysRootOpen, Fat12.fat12fsysRootOpen]
  cases toDosFileName fileName with
  | none => rfl
  | some dosFileName =>
    dsimp only
    rw [does_searchRoot, List.range_eq_range']
    rfl

theorem nextSector_read_disk (d : Floppy) (file : FILE) (length : BitVec 32) :
    (Fat12.nextSector .read d file length).2.1 = d := by
  unfold Fat12.nextSector
  dsimp only
  split
  · rfl
  split
  · rfl
  · rw [if_neg fun h => FloppyDir.noConfusion h.2.1]

/-- A transfer from the disk leaves it as it is. -/
theorem rw_read_disk (fuel : Nat) (d : Floppy) (file : FILE) (memory : Nat → Byte) (buffer : Nat)
    (length : BitVec 32) : (Fat12.fat12fsysRw .read fuel d file memory buffer length).disk = d := by
  induction fuel generalizing file memory buffer length with
  | zero => rfl
  | succ fuel ih =>
    have hcopied : (Fat12.copySector .read d file memory buffer length).1 = d := rfl
    have hsector : (rwSector .read d file memory buffer length).2.1.disk = d := by
      dsimp only [rwSector]
      rw [hcopied]
      split
      · rfl
      · dsimp only
        exact nextSector_read_disk d (endsInSector file length).2 (length - (512#32 - file.position))
    rw [Fat12.fat12fsysRw]
    dsimp only
    split
    · rfl
    split
    · rw [hsector, ih]
    · exact hsector

theorem does_read (fuel : Nat) (file : FILE) (memory : Nat → Byte) (buffer : Nat) (length : BitVec 32) :
    Does (fat12fsysRead fuel file memory buffer length) fun d =>
      let read := Fat12.fat12fsysRead fuel d file memory buffer length
      if read.returned then some ((read.file, read.memory), d) else none := by
  intro s
  refine (does_rw .read fuel file memory buffer length s).trans ?_
  dsimp only [result]
  rw [rw_read_disk]
  rfl

theorem does_searchSubdir (junk : FILE) (fileName dosFileName : List Byte) (fuel : Nat) (kFile : FILE) :
    Does (searchSubdir junk fileName dosFileName fuel kFile) fun d =>
      (Fat12.searchSubdir d junk fileName dosFileName fuel kFile).map fun file => (file, d) := by
  induction fuel generalizing kFile with
  | zero => exact fun s => rfl
  | succ fuel ih =>
    intro s
    dsimp only [searchSubdir, Fat12.searchSubdir]
    split
    · rfl
    have hread := does_read fuel kFile (fun _ => 0#8) 0 512#32
    by_cases hreturned : (Fat12.fat12fsysRead fuel s.disk kFile (fun _ => 0#8) 0 512#32).returned
    · obtain ⟨s', hdisk, hrest⟩ := hread.outcome_bind (if_pos hreturned) fun read => _
      rw [hrest, hreturned]
      dsimp only
      cases findEntry (Fat12.fat12fsysRead fuel s.disk kFile (fun _ => 0#8) 0 512#32).memory dosFileName with
      | none => exact (ih _ s').trans (by rw [hdisk]; rfl)
      | some i => exact congrArg (fun d => some (_, d)) hdisk
    · rw [hread.outcome_bind_none (if_neg hreturned), Bool.eq_false_iff.mpr hreturned]
      rfl

theorem does_subdirOpen (fuel : Nat) (junk kFile : FILE) (fileName : List Byte) :
    Does (fat12fsysSubdirOpen fuel junk kFile fileName) fun d =>
      (Fat12.fat12fsysSubdirOpen fuel d junk kFile fileName).map fun file => (file, d) := by
  intro s
  dsimp only [fat12fsysSubdirOpen, Fat12.fat12fsysSubdirOpen]
  cases toDosFileName fileName with
  | none => rfl
  | some dosFileName => exact does_searchSubdir junk fileName dosFileName fuel kFile s

theorem does_openFrom (fuel : Nat) (junk : Nat → FILE) (path : List Byte) (n i : Nat) (currFile : FILE) :
    Does (openFrom fuel junk path n i currFile) fun d =>
      (Fat12.openFrom fuel d junk path n i currFile).map fun file => (file, d) := by
  induction n generalizing i currFile with
  | zero => exact fun s => rfl
  | succ n ih =>
    have hcomponent : Does (if i = 0 then fat12fsysRootOpen (junk 0) (seperateAndTake path backslash (i + 1))
          else fat12fsysSubdirOpen fuel (junk i) currFile (seperateAndTake path backslash (i + 1))) fun d =>
        (if i = 0 then some (Fat12.fat12fsysRootOpen d (junk 0) (seperateAndTake path backslash (i + 1)))
          else Fat12.fat12fsysSubdirOpen fuel d (junk i) currFile (seperateAndTake path backslash (i + 1))).map
          fun file => (file, d) := by
      split
      · exact does_rootOpen (junk 0) _
      · exact does_subdirOpen fuel (junk i) currFile _
    have hrest : ∀ currFile, Does (if currFile.flags = .invalid then pure currFile
          else openFrom fuel junk path n (i + 1) currFile) fun d =>
        (if currFile.flags = .invalid then some currFile
          else Fat12.openFrom fuel d junk path n (i + 1) currFile).map fun file => (file, d) := by
      intro currFile
      split
      · exact Prog.computes_pure currFile
      · exact ih (i + 1) currFile
    intro s
    refine ((hcomponent.bind hrest) s).trans ?_
    simp only [Fat12.openFrom, Option.bind_map, Option.bind_eq_bind, Option.map_bind, Function.comp_def]

theorem does_open (fuel : Nat) (junk : Nat → FILE) (path : List Byte) :
    Does (fat12fsysOpen fuel junk path) fun d =>
      (Fat12.fat12fsysOpen fuel d junk path).map fun file => (file, d) := by
  unfold fat12fsysOpen Fat12.fat12fsysOpen
  split
  · exact Prog.computes_pure _
  · exact does_openFrom fuel junk path _ 0 (junk 0)

/-! ### Creating alone -/

/-- What is left of the disk by a program that has nothing to return. -/
def left (d : Option Floppy) : Option (Unit × Floppy) := d.map fun d => ((), d)

theorem does_written (fuel : Nat) (file : FILE) (memory : Nat → Byte) :
    Does (do let _ ← fat12fsysWrite fuel file memory 0 512#32)
      fun d => left (Fat12.fat12fsysWrite fuel d file memory 0 512#32).disk? := by
  intro s
  refine (((does_write fuel file memory 0 512#32).bind fun _ => Prog.computes_pure ()) s).trans ?_
  dsimp only [result, left, Transfer.disk?]
  split
  · rfl
  · rfl

theorem left_bind {d : Option Floppy} {f : Floppy → Option Floppy} :
    ((left d).bind fun r => left (f r.2)) = left (d.bind f) := by
  cases d with
  | none => rfl
  | some d => rfl

theorem does_clearCluster (fuel : Nat) (junk : FILE) (cluster : Nat) :
    Does (clearCluster fuel junk cluster) fun d => left (Fat12.clearCluster fuel d junk cluster) :=
  does_written fuel _ fun _ => 0#8

theorem does_createEntry {writeBack : (Nat → Byte) → Task Unit} {wrote : Floppy → (Nat → Byte) → Option Floppy}
    (hwrite : ∀ buf, Does (writeBack buf) fun d => left (wrote d buf)) (fuel : Nat) (buf : Nat → Byte)
    (dosFileName : List Byte) (flags : Flags) (junk : FILE) (i : Nat) :
    Does (createEntry fuel writeBack buf dosFileName flags junk i)
      fun d => left (Fat12.createEntry fuel d wrote buf dosFileName flags junk i) := by
  have hclear : ∀ cluster, Does (if flags = .directory then clearCluster fuel junk cluster else pure ()) fun d =>
      left (if flags = .directory then Fat12.clearCluster fuel d junk cluster else some d) := by
    intro cluster
    split
    · exact does_clearCluster fuel junk cluster
    · exact Prog.computes_pure ()
  have hrest : ∀ cluster, Does (if cluster = 0xFF0 then pure ()
      else do
        writeBack (setEntry buf i dosFileName (if flags = .directory then 0x10#8 else 0#8) cluster)
        if flags = .directory then clearCluster fuel junk cluster else pure ()) fun d =>
      left (if cluster = 0xFF0 then some d
        else do
          let d ← wrote d (setEntry buf i dosFileName (if flags = .directory then 0x10#8 else 0#8) cluster)
          if flags = .directory then Fat12.clearCluster fuel d junk cluster else some d) := by
    intro cluster s
    dsimp only
    split
    · rfl
    · refine (((hwrite _).bind fun _ => hclear cluster) s).trans ?_
      exact left_bind (f := fun d => if flags = .directory then Fat12.clearCluster fuel d junk cluster else some d)
  exact fun s => ((does_occupyFreeCluster 0).bind hrest) s

theorem does_createIn {writeBack : (Nat → Byte) → Task Unit} {wrote : Floppy → (Nat → Byte) → Option Floppy}
    (hwrite : ∀ buf, Does (writeBack buf) fun d => left (wrote d buf)) (fuel : Nat) (buf : Nat → Byte)
    (dosFileName : List Byte) (flags : Flags) (junk : FILE) (n i : Nat) :
    Does (createIn fuel writeBack buf dosFileName flags junk n i)
      fun d => Fat12.createIn fuel d wrote buf dosFileName flags junk n i := by
  induction n generalizing i with
  | zero => exact fun s => rfl
  | succ n ih =>
    intro s
    dsimp only [createIn, Fat12.createIn]
    split
    · refine (((does_createEntry hwrite fuel buf dosFileName flags junk i).bind
        fun _ => Prog.computes_pure false) s).trans ?_
      dsimp only
      cases Fat12.createEntry fuel s.disk wrote buf dosFileName flags junk i with
      | none => rfl
      | some d => rfl
    split
    · rfl
    · exact ih (i + 1) s

/-- A sector is looked through, and the search goes on behind it if it has to. -/
theorem does_createIn_bind {writeBack : (Nat → Byte) → Task Unit} {wrote : Floppy → (Nat → Byte) → Option Floppy}
    (hwrite : ∀ buf, Does (writeBack buf) fun d => left (wrote d buf)) (fuel : Nat) (buf : Nat → Byte)
    (dosFileName : List Byte) (flags : Flags) (junk : FILE) {p : Task Unit} {f : Floppy → Option Floppy}
    (hp : Does p fun d => left (f d)) :
    Does (do
        let more ← createIn fuel writeBack buf dosFileName flags junk 16 0
        if more then p else pure ()) fun d =>
      left ((Fat12.createIn fuel d wrote buf dosFileName flags junk 16 0).bind fun r =>
        if r.1 then f r.2 else some r.2) := by
  have hrest : ∀ more : Bool, Does (if more then p else pure ()) fun d => left (if more then f d else some d) := by
    intro more
    cases more with
    | true => exact hp
    | false => exact Prog.computes_pure ()
  intro s
  refine (((does_createIn hwrite fuel buf dosFileName flags junk 16 0).bind hrest) s).trans ?_
  dsimp only
  cases Fat12.createIn fuel s.disk wrote buf dosFileName flags junk 16 0 with
  | none => rfl
  | some r => rfl

theorem does_createInRoot (fuel : Nat) (dosFileName : List Byte) (flags : Flags) (junk : FILE) (n sector : Nat) :
    Does (createInRoot fuel dosFileName flags junk n sector)
      fun d => left (Fat12.createInRoot fuel d dosFileName flags junk n sector) := by
  induction n generalizing sector with
  | zero => exact fun s => rfl
  | succ n ih =>
    intro s
    rw [createInRoot, outcome_copied]
    exact does_createIn_bind (fun buf => does_writeSector (rootOffset + sector) buf) fuel _ dosFileName flags junk
      (ih (sector + 1)) _

theorem does_createInSubdir (bound : Nat) (dosFileName : List Byte) (flags : Flags) (junk : FILE) (fuel : Nat)
    (kFile : FILE) :
    Does (createInSubdir bound dosFileName flags junk fuel kFile)
      fun d => left (Fat12.createInSubdir bound d dosFileName flags junk fuel kFile) := by
  induction fuel generalizing kFile with
  | zero => exact fun s => rfl
  | succ fuel ih =>
    intro s
    dsimp only [createInSubdir, Fat12.createInSubdir]
    split
    · rfl
    refine (((does_read bound kFile (fun _ => 0#8) 0 512#32).bind fun read =>
      does_createIn_bind (fun buf => does_written bound kFile buf) bound read.2 dosFileName flags junk
        (ih read.1)) s).trans ?_
    dsimp only
    cases (Fat12.fat12fsysRead bound s.disk kFile (fun _ => 0#8) 0 512#32).returned with
    | false => rfl
    | true => rfl

theorem does_create (fuel : Nat) (junk kFile : FILE) (fileName : List Byte) (flags : Flags) :
    Does (fat12fsysCreate fuel junk kFile fileName flags)
      fun d => left (Fat12.fat12fsysCreate fuel d junk kFile fileName flags) := by
  intro s
  dsimp only [fat12fsysCreate, Fat12.fat12fsysCreate]
  split
  · rfl
  cases toDosFileName fileName with
  | none => rfl
  | some dosFileName =>
    dsimp only
    split
    · exact does_createInRoot fuel dosFileName flags junk 14 0 s
    · exact does_createInSubdir fuel dosFileName flags junk fuel kFile s

end Akos.Fat12.Task
