import Akos.Fat12.RootDirectory
import Akos.Lib.StepBound
import Akos.Lib.Transition

/-!
# Many handles on one volume

Files of the root directory are created, opened and written in any order, also several times at once. As long as each
cluster that is asked for is there, the chains stay whole and apart, every handle stays at a place of its file's chain,
and a write reaches no other file's data.
-/

namespace Akos.Fat12

variable {d d' : Floppy} {f f' junk : FILE} {file file' : RootFile} {files : List RootFile} {cs new : List Nat}
  {c e i k n p q s fuel : Nat} {src memory : Nat → Byte} {length : BitVec 32} {name dosFileName : List Byte}
  {flags : Flags} {slot : Nat × Nat}

/-! ### Opening -/

theorem rootOpen_of_findsIn (hdos : toDosFileName name = some dosFileName) (h : FindsIn d dosFileName .root s i)
    (junk : FILE) : fat12fsysRootOpen d junk name =
      { fileOfEntry junk name (d.sectors s) i ((s : Int) - 31) with absPosition := 0#32 } := by
  cases h with
  | @root sector i hfind =>
    rw [fat12fsysRootOpen]
    simp only [hdos, hfind]
    rfl

/-- A name that is found opens its entry, and another one gives a handle that is not valid. -/
theorem rootOpen_cases (d : Floppy) (junk : FILE) (name : List Byte) :
    (fat12fsysRootOpen d junk name).flags = .invalid ∨ ∃ dosFileName s i, toDosFileName name = some dosFileName ∧
      FindsIn d dosFileName .root s i ∧ fat12fsysRootOpen d junk name =
        { fileOfEntry junk name (d.sectors s) i ((s : Int) - 31) with absPosition := 0#32 } := by
  by_cases hvalid : (fat12fsysRootOpen d junk name).flags = .invalid
  · exact .inl hvalid
  · have hopen : openStep 0 d (fun _ => junk) 0 junk name = some (fat12fsysRootOpen d junk name) := by
      rw [openStep, if_pos rfl]
    obtain ⟨dosFileName, s, i, hdos, hfinds, -⟩ := findsIn_of_openStep hopen hvalid (.inl rfl)
    exact .inr ⟨dosFileName, s, i, hdos, hfinds, rootOpen_of_findsIn hdos hfinds junk⟩

theorem FindsIn.mem_slotsOf (h : FindsIn d dosFileName .root s i) : (s, i) ∈ slotsOf rootSectors := by
  cases h with
  | root hfind =>
    obtain ⟨sector, hsector, hfound⟩ := List.exists_of_findSome?_eq_some hfind
    obtain ⟨i, hi, heq⟩ := Option.map_eq_some_iff.mp hfound
    obtain ⟨rfl, rfl⟩ := Prod.mk.inj heq
    refine Fat12.mem_slotsOf.mpr ⟨?_, findEntry_lt hi⟩
    exact List.mem_map_of_mem hsector

/-- A file that is opened gives a handle at its first byte. -/
theorem Laid.writer_of_open (h : Laid d files) (hname : name.head? ≠ some erased)
    (hfile : (fat12fsysRootOpen d junk name).flags = .file) :
    ∃ file ∈ files, Writer (fat12fsysRootOpen d junk name) file 0 := by
  obtain hinvalid | ⟨dosFileName, s, i, hdos, hfinds, heq⟩ := rootOpen_cases d junk name
  · rw [hinvalid] at hfile
    cases hfile
  have hslot := hfinds.mem_slotsOf
  have hlive := (hfinds.isLive_iff hdos).mpr hname
  obtain ⟨file, hmem, hslot'⟩ := h.covers (s, i) hslot fun hzero => h.unused (s, i) hslot hzero hlive
  have hout := h.each file hmem
  have hfirst := hout.first
  rw [hslot'] at hfirst
  refine ⟨file, hmem, ⟨⟨?_, ?_⟩, ?_, hfile, ?_, ?_⟩⟩
  · rw [heq]
    exact hfirst
  · rw [heq]
    rfl
  · have := hout.chain.length_pos
    omega
  · rw [heq, hslot']
    rfl
  · rw [heq]
    exact .inr ⟨Nat.zero_le _, Nat.zero_le _⟩

/-! ### Creating -/

theorem entryFirstCluster_of_not_changed (h : ¬ Changed d d' slot) :
    entryFirstCluster (d'.sectors slot.1) slot.2 = entryFirstCluster (d.sectors slot.1) slot.2 := by
  rw [entryFirstCluster, entryFirstCluster, Packed.word, Packed.word, Nat.add_assoc, byte_of_not_changed h (by decide),
    byte_of_not_changed h (by decide)]

theorem Chain.singleton (he : DataCluster e) (hlast : 0xFF8 ≤ (fatEntry d e).toNat) : Chain d [e] where
  ne_nil := List.cons_ne_nil _ _
  data c hc := List.mem_singleton.mp hc ▸ he
  nodup := List.nodup_singleton e
  next i hi := by simp at hi
  last := hlast

/-- A slot without a cluster is none of the files'. -/
theorem Laid.slot_ne (h : Laid d files) (hfile : file ∈ files)
    (hzero : entryFirstCluster (d.sectors slot.1) slot.2 = 0#16) : file.slot ≠ slot := by
  intro heq
  have hout := h.each file hfile
  have hfirst := hout.first
  rw [heq, hzero] at hfirst
  have hdata := hout.chain.data _ (Chain.getD_mem hout.chain.length_pos)
  rw [← hfirst] at hdata
  exact absurd hdata.1 (by decide)

theorem Laid.ne_of_free (h : Laid d files) (hfile : file ∈ files) (hc : c ∈ file.clusters)
    (hfree : fatEntry d e = 0#16) : c ≠ e := fun heq => (h.each file hfile).chain.entry_ne_zero hc (heq ▸ hfree)

namespace Puts

variable (h : Puts d d' dosFileName flags slot)
include h

theorem not_changed_of_ne (he : DataCluster (firstFreeEntry d)) {slot' : Nat × Nat}
    (hslot' : slot' ∈ slotsOf rootSectors) (hne : slot' ≠ slot) : ¬ Changed d d' slot' :=
  h.not_changed (Nat.le_trans (by decide) (slot_bounds hslot').1) (slot_ne_physSector hslot' he.1) hne

variable (hlaid : Laid d files) (hfree : fatEntry d (firstFreeEntry d) = 0#16)
include hlaid hfree

/-- The new entry disturbs no chain. -/
theorem chain_of_mem (hfile : file ∈ files) : Chain d' file.clusters := by
  have hchain := (hlaid.each file hfile).chain
  exact hchain.congr fun c hc =>
    h.entries c (Nat.lt_trans (hchain.data c hc).2 (by decide)) (hlaid.ne_of_free hfile hc hfree)

/-- The new entry disturbs no data. -/
theorem fileByte_of_mem (hslot : slot ∈ slotsOf rootSectors) (hfile : file ∈ files)
    (hk : k < 512 * file.clusters.length) : fileByte d' file.clusters k = fileByte d file.clusters k := by
  have hmem := Chain.getD_mem (Nat.div_lt_of_lt_mul hk)
  have hdata := ((hlaid.each file hfile).chain.data _ hmem).1
  rw [fileByte, fileByte, flpydskReadSector, flpydskReadSector,
    h.sectors _ (by unfold physSector; omega) (slot_ne_physSector hslot hdata).symm]
  exact fun _ heq => hlaid.ne_of_free hfile hmem hfree (physSector_injective heq)

theorem laid (hslot : slot ∈ slotsOf rootSectors) (he : DataCluster (firstFreeEntry d))
    (hzero : entryFirstCluster (d.sectors slot.1) slot.2 = 0#16) :
    Laid d' (files ++ [⟨slot, [firstFreeEntry d]⟩]) where
  each file hfile := by
    obtain hfile | hfile := List.mem_append.mp hfile
    · have hout := hlaid.each file hfile
      have hsame := h.not_changed_of_ne he hout.slot (hlaid.slot_ne hfile hzero)
      refine ⟨hout.slot, ?_, h.chain_of_mem hlaid hfree hfile⟩
      rw [entryFirstCluster_of_not_changed hsame, hout.first]
    · rw [List.mem_singleton.mp hfile]
      exact ⟨hslot, h.cluster, .singleton he (by rw [h.taken])⟩
  apart := by
    refine List.pairwise_append.mpr ⟨hlaid.apart, List.pairwise_singleton _ _, fun file hfile new hnew => ?_⟩
    rw [List.mem_singleton.mp hnew]
    refine ⟨hlaid.slot_ne hfile hzero, fun c hc hc' => ?_⟩
    exact hlaid.ne_of_free hfile hc hfree (List.mem_singleton.mp hc')
  covers slot' hslot' hne := by
    by_cases heq : slot' = slot
    · exact ⟨_, List.mem_append_right _ List.mem_cons_self, heq.symm⟩
    · rw [entryFirstCluster_of_not_changed (h.not_changed_of_ne he hslot' heq)] at hne
      obtain ⟨file, hfile, hslot''⟩ := hlaid.covers slot' hslot' hne
      exact ⟨file, List.mem_append_left _ hfile, hslot''⟩
  unused slot' hslot' hzero' := by
    have hne : slot' ≠ slot := by
      rintro rfl
      have hcluster := h.cluster
      rw [hzero'] at hcluster
      rw [← hcluster] at he
      exact absurd he.1 (by decide)
    have hsame := h.not_changed_of_ne he hslot' hne
    rw [entryFirstCluster_of_not_changed hsame] at hzero'
    rw [isLive_of_not_changed hsame]
    exact hlaid.unused slot' hslot' hzero'

end Puts

/-- A creation that finds its cluster adds a file with one cluster, or does nothing. -/
theorem Laid.create (h : Laid d files) (hlength : dosFileName.length = 11)
    (hcan : ∀ slot, firstStop d rootSectors dosFileName = some slot →
      entryFirstCluster (d.sectors slot.1) slot.2 = 0#16 → freeClusters d ≠ []) (flags : Flags) :
    created d rootSectors dosFileName flags = d ∨ ∃ slot e rest, freeClusters d = e :: rest ∧
      slot ∈ slotsOf rootSectors ∧ Puts d (created d rootSectors dosFileName flags) dosFileName flags slot ∧
      Laid (created d rootSectors dosFileName flags) (files ++ [⟨slot, [e]⟩]) := by
  rw [created]
  cases hstop : firstStop d rootSectors dosFileName with
  | none => exact .inl rfl
  | some slot =>
    rw [Option.elim_some]
    by_cases hzero : entryFirstCluster (d.sectors slot.1) slot.2 = 0#16
    · rw [if_pos hzero]
      obtain ⟨e, rest, hfree⟩ := List.exists_cons_of_ne_nil (hcan slot hstop hzero)
      have hfirst := firstFreeEntry_of_cons hfree
      obtain ⟨hdata, hentry⟩ := mem_freeClusters.mp (hfree ▸ List.mem_cons_self)
      rw [← hfirst] at hdata hentry
      have hslot := mem_of_firstStop hstop
      obtain ⟨hge, -, hnumber⟩ := slot_bounds hslot
      have hputs : Puts d (putEntry d dosFileName flags slot) dosFileName flags slot :=
        puts_putEntry (Nat.lt_trans hdata.2 (by decide)) hlength (Nat.le_trans (by decide) hge) hnumber
          (slot_ne_physSector hslot hdata.1)
      exact .inr ⟨slot, e, rest, hfree, hslot, hputs, hfirst ▸ hputs.laid h hentry hslot hdata hzero⟩
    · rw [if_neg hzero]
      exact .inl rfl

/-! ### Room for a write -/

/-- The chain from the handle's cluster on, with the free clusters behind it, has room for the bytes. -/
def HasRoom (d : Floppy) (f : FILE) (length : BitVec 32) : Prop :=
  ∃ cs, Chain d cs ∧ f.currentCluster = cs.getD 0 0 ∧
    f.position.toNat + length.toNat ≤ 512 * (cs.length + (freeClusters d).length)

/-- A chain is known by its first cluster. -/
theorem Chain.eq_of_head {cs' : List Nat} (h : Chain d (c :: cs)) (h' : Chain d (c :: cs')) : cs = cs' := by
  induction cs generalizing c cs' with
  | nil =>
    cases cs' with
    | nil => rfl
    | cons e cs' =>
      have hnext := h'.nextCluster_cons
      rw [h.nextCluster_last] at hnext
      cases hnext
  | cons e cs ih =>
    have hnext := h.nextCluster_cons
    cases cs' with
    | nil =>
      rw [h'.nextCluster_last] at hnext
      cases hnext
    | cons e' cs' =>
      rw [h'.nextCluster_cons] at hnext
      obtain rfl := Option.some.inj hnext
      rw [ih h.tail h'.tail]

theorem Chain.drop (h : Chain d cs) (hi : i < cs.length) : Chain d (cs.drop i) := by
  induction i generalizing cs with
  | zero => exact h
  | succ i ih =>
    obtain ⟨c, cs, rfl⟩ := List.exists_cons_of_ne_nil h.ne_nil
    cases cs with
    | nil => simp at hi
    | cons e cs => exact ih h.tail (Nat.lt_of_succ_lt_succ hi)

/-- The room is what is left of the file's chain, and the free clusters. -/
theorem Writer.room (hw : Writer f file p) (hchain : Chain d file.clusters) (h : HasRoom d f length) :
    p + length.toNat ≤ 512 * (file.clusters.length + (freeClusters d).length) := by
  obtain ⟨cs, hcs, hhead, hroom⟩ := h
  have hi : p / 512 < file.clusters.length := Nat.div_lt_of_lt_mul hw.inside
  have hdrop : file.clusters.drop (p / 512) = file.clusters.getD (p / 512) 0 :: file.clusters.drop (p / 512 + 1) := by
    rw [List.getD_eq_getElem _ _ hi, List.getElem_cons_drop]
  obtain ⟨c, cs, rfl⟩ := List.exists_cons_of_ne_nil hcs.ne_nil
  have hsuffix := hdrop ▸ hchain.drop hi
  rw [← hw.place.cluster, hhead] at hsuffix
  have heq := hcs.eq_of_head hsuffix
  rw [hw.place.position, List.length_cons, heq, List.length_drop] at hroom
  omega

/-! ### Runs -/

/-- The disk, and the handles of the files that are open. -/
structure Desk where
  disk : Floppy
  handles : List FILE

inductive DeskOp
  | openFile (name : List Byte)
  | writeFile (handle : Nat) (memory : Nat → Byte) (buffer : Nat) (length : BitVec 32)
  | createFile (name : List Byte) (flags : Flags)

/-- Files are opened by their names, as `fopen` does it, and written through any of the handles. What the chain of a
write lacks is free, and so is a cluster for a new entry. -/
inductive DeskStep : Desk → DeskOp → Desk → Prop
  | openFile {t : Desk} {name : List Byte} {fuel : Nat} {junks : Nat → FILE} {f : FILE} :
      name ≠ [] → backslash ∉ name → name.head? ≠ some erased →
      fat12fsysOpen fuel t.disk junks (joinPieces backslash [name]) = some f →
      DeskStep t (.openFile name) { t with handles := if f.flags = .file then t.handles ++ [f] else t.handles }
  | writeFile {t : Desk} {handle fuel buffer : Nat} {memory memory' : Nat → Byte} {length : BitVec 32} {f f' : FILE}
      {d' : Floppy} : t.handles[handle]? = some f → HasRoom t.disk f length →
      fat12fsysWrite fuel t.disk f memory buffer length = ⟨d', f', memory', true⟩ →
      DeskStep t (.writeFile handle memory buffer length) ⟨d', t.handles.set handle f'⟩
  | createFile {t : Desk} {name : List Byte} {flags : Flags} {junk f : FILE} {d' : Floppy} :
      Directory.root.IsOpen t.disk f →
      (∀ dosFileName slot, toDosFileName name = some dosFileName →
        firstStop t.disk rootSectors dosFileName = some slot →
        entryFirstCluster (t.disk.sectors slot.1) slot.2 = 0#16 → freeClusters t.disk ≠ []) →
      StepBound.Gives (fun fuel => fat12fsysCreate fuel t.disk junk f name flags) d' →
      DeskStep t (.createFile name flags) { t with disk := d' }

/-- The files of the root directory, and a place of one of them for each handle. -/
structure Desk.Holds (t : Desk) (files : List RootFile) : Prop where
  laid : Laid t.disk files
  writers : ∀ f ∈ t.handles, ∃ file ∈ files, ∃ p, Writer f file p

/-- Every file is still there, with the clusters it had in front. -/
def Keeps (files files' : List RootFile) : Prop :=
  ∀ file ∈ files, ∃ file' ∈ files', file'.slot = file.slot ∧ file.clusters <+: file'.clusters

/-- A sector of the data changes only in a cluster that was free, or in the chain of the file that is written. -/
def Desk.Spares (t : Desk) (files : List RootFile) (op : DeskOp) (t' : Desk) : Prop :=
  ∀ c, DataCluster c → t'.disk.sectors (physSector c) ≠ t.disk.sectors (physSector c) → c ∈ freeClusters t.disk ∨
    ∃ handle memory buffer length f file p, op = .writeFile handle memory buffer length ∧
      t.handles[handle]? = some f ∧ file ∈ files ∧ Writer f file p ∧ c ∈ file.clusters

theorem Keeps.refl (files : List RootFile) : Keeps files files := fun file hfile => ⟨file, hfile, rfl, List.prefix_rfl⟩

theorem Keeps.trans {files' files'' : List RootFile} (h : Keeps files files') (h' : Keeps files' files'') :
    Keeps files files'' := by
  intro file hfile
  obtain ⟨file', hfile', hslot, hprefix⟩ := h file hfile
  obtain ⟨file'', hfile'', hslot', hprefix'⟩ := h' file' hfile'
  exact ⟨file'', hfile'', hslot'.trans hslot, hprefix.trans hprefix'⟩

theorem keeps_grow : Keeps files (files.map (RootFile.grow slot new)) := by
  intro file hfile
  refine ⟨_, List.mem_map_of_mem hfile, ?_⟩
  rw [RootFile.grow]
  split
  · exact ⟨rfl, List.prefix_append _ _⟩
  · exact ⟨rfl, List.prefix_rfl⟩

/-- A handle of any file stays where it is when a chain gets more clusters. -/
theorem Writer.grow (hw : Writer f file p) (slot : Nat × Nat) (new : List Nat) : Writer f (file.grow slot new) p := by
  rw [RootFile.grow]
  split
  · refine ⟨hw.place.append hw.inside new, ?_, hw.type, hw.parent, hw.covered⟩
    have hinside := hw.inside
    rw [List.length_append]
    omega
  · exact hw

variable {t t' u : Desk} {op : DeskOp} {ops : List DeskOp} {junks : Nat → FILE}

theorem open_single (hne : name ≠ []) (hback : backslash ∉ name) (fuel : Nat) (d : Floppy) (junks : Nat → FILE) :
    fat12fsysOpen fuel d junks (joinPieces backslash [name]) = some (fat12fsysRootOpen d (junks 0) name) := by
  have hnames : ∀ name' ∈ [name], backslash ∉ name' := fun name' hname => List.mem_singleton.mp hname ▸ hback
  rw [open_joinPieces hnames (List.cons_ne_nil _ _) (by simpa using hne), List.length_singleton, openFrom_succ,
    (components_joinPieces hnames).head, openStep, if_pos rfl, Option.bind_some]
  split <;> rfl

/-- Every bound under which a write returns leads to the same. -/
theorem write_unique {fuel fuel' buffer : Nat} {memory' memory'' : Nat → Byte} {d'' : Floppy} {f'' : FILE}
    (h : fat12fsysWrite fuel d f memory buffer length = ⟨d', f', memory', true⟩)
    (h' : fat12fsysWrite fuel' d f memory buffer length = ⟨d'', f'', memory'', true⟩) : d' = d'' ∧ f' = f'' := by
  rw [write_eq] at h h'
  have heq := rw_unique (by rw [h]) (by rw [h'])
  rw [h, h'] at heq
  exact ⟨congrArg Transfer.disk heq, congrArg Transfer.file heq⟩

namespace Desk.Holds

variable (h : t.Holds files)
include h

theorem openFile (hname : name.head? ≠ some erased) (junk : FILE) : Holds { t with
    handles := if (fat12fsysRootOpen t.disk junk name).flags = .file then
      t.handles ++ [fat12fsysRootOpen t.disk junk name] else t.handles } files where
  laid := h.laid
  writers f hf := by
    dsimp only at hf
    split at hf
    · next hfile =>
      obtain hf | hf := List.mem_append.mp hf
      · exact h.writers f hf
      · obtain ⟨file, hmem, hw⟩ := h.laid.writer_of_open hname hfile
        exact ⟨file, hmem, 0, List.mem_singleton.mp hf ▸ hw⟩
    · exact h.writers f hf

/-- A write with room returns, and keeps all that there is. -/
theorem writeFile {handle : Nat} (hf : t.handles[handle]? = some f) (hroom : HasRoom t.disk f length)
    (memory : Nat → Byte) (buffer : Nat) : ∃ d' f' files',
      (∃ fuel, ∀ fuel' ≥ fuel, fat12fsysWrite fuel' t.disk f memory buffer length = ⟨d', f', memory, true⟩) ∧
      Holds ⟨d', t.handles.set handle f'⟩ files' ∧ Keeps files files' ∧
      t.Spares files (.writeFile handle memory buffer length) ⟨d', t.handles.set handle f'⟩ := by
  obtain ⟨file, hfile, p, hw⟩ := h.writers f (List.mem_of_getElem? hf)
  have hout := h.laid.each file hfile
  have hplace := hw.room hout.chain hroom
  have hshort : length.toNat < 2 ^ 31 := by
    have hle := hout.chain.length_le
    have hle' := freeClusters_length_le t.disk
    omega
  obtain ⟨d', f', new, hreturns, hwritten⟩ := hw.write hout memory buffer hplace
  refine ⟨d', f', files.map (RootFile.grow file.slot new), hreturns,
    ⟨hwritten.laid hw h.laid hfile, fun g hg => ?_⟩, keeps_grow, fun c hc hne => ?_⟩
  · obtain hg | rfl := List.mem_or_eq_of_mem_set hg
    · obtain ⟨file', hfile', q, hw'⟩ := h.writers g hg
      exact ⟨_, List.mem_map_of_mem hfile', q, hw'.grow file.slot new⟩
    · exact ⟨_, List.mem_map_of_mem hfile, _, by
        rw [RootFile.grow, if_pos rfl]
        exact hwritten.writer hw hshort⟩
  · by_contra hspared
    rw [not_or] at hspared
    refine hne (hwritten.sectors_eq hw h.laid hfile (by unfold physSector; have := hc.1; omega) fun c' hc' heq => ?_)
    obtain rfl := physSector_injective heq
    obtain hc' | hc' := List.mem_append.mp hc'
    · exact hspared.2 ⟨handle, memory, buffer, length, f, file, p, rfl, hf, hfile, hw, hc'⟩
    · exact hspared.1 (hwritten.mem_freeClusters hw h.laid hfile hc')

theorem createFile (hopen : Directory.root.IsOpen t.disk f)
    (hcan : ∀ dosFileName slot, toDosFileName name = some dosFileName →
      firstStop t.disk rootSectors dosFileName = some slot →
      entryFirstCluster (t.disk.sectors slot.1) slot.2 = 0#16 → freeClusters t.disk ≠ [])
    (hgives : StepBound.Gives (fun fuel => fat12fsysCreate fuel t.disk junk f name flags) d') :
    ∃ files', Holds { t with disk := d' } files' ∧ Keeps files files' ∧
      t.Spares files (.createFile name flags) { t with disk := d' } := by
  obtain ⟨fuel, hcreate⟩ := create_eq hopen junk name flags
  obtain rfl := hgives.unique ⟨fuel, hcreate⟩
  have hsame : ∃ files', Holds { t with disk := t.disk } files' ∧ Keeps files files' ∧
      t.Spares files (.createFile name flags) { t with disk := t.disk } :=
    ⟨files, h, .refl files, fun _ _ hne => absurd rfl hne⟩
  cases hdos : toDosFileName name with
  | none => exact hsame
  | some dosFileName =>
    rw [Option.elim_some]
    obtain heq | ⟨slot, e, rest, hfree, hslot, hputs, hlaid⟩ :=
      h.laid.create (length_toDosFileName hdos) (fun slot => hcan dosFileName slot hdos) flags
    · change created t.disk rootSectors dosFileName flags = t.disk at heq
      rw [show Directory.root.sectors = rootSectors from rfl, heq]
      exact hsame
    · refine ⟨_, ⟨hlaid, fun g hg => ?_⟩, fun file hfile => ?_, fun c hc hne => ?_⟩
      · obtain ⟨file, hfile, p, hw⟩ := h.writers g hg
        exact ⟨file, List.mem_append_left _ hfile, p, hw⟩
      · exact ⟨file, List.mem_append_left _ hfile, rfl, List.prefix_rfl⟩
      · left
        by_contra hused
        have hdata := hc.1
        refine hne (hputs.sectors _ (by unfold physSector; omega) (slot_ne_physSector hslot hdata).symm fun _ heq => ?_)
        rw [firstFreeEntry_of_cons hfree] at heq
        exact hused (physSector_injective heq ▸ hfree ▸ List.mem_cons_self)

theorem step (hstep : DeskStep t op t') : ∃ files', t'.Holds files' ∧ Keeps files files' ∧ t.Spares files op t' := by
  cases hstep with
  | @openFile name fuel junks f hne hback hname hopen =>
    rw [open_single hne hback] at hopen
    obtain rfl := Option.some.inj hopen
    exact ⟨files, h.openFile hname (junks 0), .refl files, fun _ _ hne => absurd rfl hne⟩
  | @writeFile handle fuel buffer memory memory' length f f' d' hf hroom hwrite =>
    obtain ⟨d'', f'', files', ⟨fuel', hreturns⟩, hholds, hkeeps, hspares⟩ := h.writeFile hf hroom memory buffer
    obtain ⟨rfl, rfl⟩ := write_unique hwrite (hreturns fuel' (Nat.le_refl fuel'))
    exact ⟨files', hholds, hkeeps, hspares⟩
  | createFile hopen hcan hgives => exact h.createFile hopen hcan hgives

theorem run (hrun : Transition.Run DeskStep t ops t') : ∃ files', t'.Holds files' ∧ Keeps files files' := by
  induction hrun generalizing files with
  | nil t => exact ⟨files, h, .refl files⟩
  | cons hstep _ ih =>
    obtain ⟨files', hholds, hkeeps, -⟩ := h.step hstep
    obtain ⟨files'', hholds', hkeeps'⟩ := ih hholds
    exact ⟨files'', hholds', hkeeps.trans hkeeps'⟩

end Desk.Holds

private def deskDisk : Floppy := created blankDisk rootSectors (dosName [0x46#8] []) .file

end Akos.Fat12
