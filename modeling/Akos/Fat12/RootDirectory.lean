import Mathlib.Data.List.Pairwise
import Akos.Fat12.Reads
import Akos.Fat12.Slots

/-!
# The files of the root directory

Each entry of the root directory leads to a chain, and no two chains have a cluster in common. A write through a handle
changes the size in one entry and the data of one chain, which may grow by free clusters; a creation fills one slot.
Neither disturbs the entries and the chains of the other files.
-/

namespace Akos.Fat12

/-- A file or a directory of the root directory: the slot of its entry, and its clusters. -/
structure RootFile where
  slot : Nat × Nat
  clusters : List Nat

/-- The entry in a slot leads to the clusters. -/
structure RootFile.LaidOut (d : Floppy) (file : RootFile) : Prop where
  slot : file.slot ∈ slotsOf rootSectors
  first : (entryFirstCluster (d.sectors file.slot.1) file.slot.2).toNat = file.clusters.getD 0 0
  chain : Chain d file.clusters

/-- The files share neither slot nor cluster. -/
def RootFile.Apart (a b : RootFile) : Prop := a.slot ≠ b.slot ∧ a.clusters.Disjoint b.clusters

/-- The root directory holds these files, and a slot without a cluster is not in use. -/
structure Laid (d : Floppy) (files : List RootFile) : Prop where
  each : ∀ file ∈ files, file.LaidOut d
  apart : files.Pairwise RootFile.Apart
  covers : ∀ p ∈ slotsOf rootSectors, entryFirstCluster (d.sectors p.1) p.2 ≠ 0#16 → ∃ file ∈ files, file.slot = p
  unused : ∀ p ∈ slotsOf rootSectors, entryFirstCluster (d.sectors p.1) p.2 = 0#16 → ¬ IsLive d p.1 p.2

/-- A handle of a file at a place of its chain, whose length covers what was written through it. -/
structure Writer (f : FILE) (file : RootFile) (p : Nat) : Prop where
  place : At f file.clusters p
  inside : p < 512 * file.clusters.length
  type : f.flags = .file
  parent : f.parentCluster = (file.slot.1 : Int) - 31
  covered : 512 ≤ f.fileLength.toNat ∨ p ≤ f.absPosition.toNat ∧ f.absPosition.toNat ≤ f.fileLength.toNat

/-- The file with more clusters, if it is the one in the slot. -/
def RootFile.grow (slot : Nat × Nat) (new : List Nat) (file : RootFile) : RootFile :=
  if file.slot = slot then { file with clusters := file.clusters ++ new } else file

variable {d d' d₁ : Floppy} {f f' : FILE} {file file' : RootFile} {files : List RootFile} {cs new : List Nat}
  {c i j k n p q s t : Nat} {src memory buf : Nat → Byte} {buffer : Nat} {length v : BitVec 32}
  {name dosFileName : List Byte} {flags : Flags} {slot : Nat × Nat}

/-! ### Slots and clusters -/

theorem slot_bounds (h : slot ∈ slotsOf rootSectors) : 19 ≤ slot.1 ∧ slot.1 < 33 ∧ slot.2 < 16 := by
  obtain ⟨hsector, hnumber⟩ := mem_slotsOf.mp h
  obtain ⟨hle, hlt⟩ := mem_rootSectors.mp hsector
  exact ⟨hle, hlt, hnumber⟩

theorem slot_ne_physSector (h : slot ∈ slotsOf rootSectors) (hc : 2 ≤ c) : slot.1 ≠ physSector c := by
  obtain ⟨-, hlt, -⟩ := slot_bounds h
  unfold physSector
  omega

theorem RootFile.Apart.symm {a b : RootFile} (h : a.Apart b) : b.Apart a := ⟨h.1.symm, fun _ hb ha => h.2 ha hb⟩

instance : Std.Symm RootFile.Apart := ⟨fun _ _ => RootFile.Apart.symm⟩

namespace Laid

variable (h : Laid d files)
include h

/-- Two files of the directory are the same or apart. -/
theorem eq_or_apart (hfile : file ∈ files) (hfile' : file' ∈ files) : file = file' ∨ file.Apart file' := by
  by_cases heq : file = file'
  · exact .inl heq
  · exact .inr (h.apart.forall hfile hfile' heq)

theorem eq_of_slot (hfile : file ∈ files) (hfile' : file' ∈ files) (hslot : file.slot = file'.slot) : file = file' :=
  (h.eq_or_apart hfile hfile').resolve_right fun hne => hne.1 hslot

theorem grow_eq (hfile : file ∈ files) (hfile' : file' ∈ files) (new : List Nat) :
    file'.grow file.slot new = { file with clusters := file.clusters ++ new } ∧
    file' = file ∨ file'.grow file.slot new = file' ∧ file.Apart file' := by
  obtain rfl | hapart := h.eq_or_apart hfile hfile'
  · exact .inl ⟨if_pos rfl, rfl⟩
  · exact .inr ⟨if_neg hapart.1.symm, hapart⟩

theorem not_mem_freeClusters (hfile : file ∈ files) (hc : c ∈ file.clusters) : c ∉ freeClusters d :=
  (h.each file hfile).chain.not_mem_freeClusters hc

end Laid

/-! ### Sizes -/

/-- The bytes of the root directory's entries in front of their sizes are the same. -/
def SameSlots (d d' : Floppy) : Prop :=
  ∀ p ∈ slotsOf rootSectors, ∀ k < 28, d'.sectors p.1 (32 * p.2 + k) = d.sectors p.1 (32 * p.2 + k)

/-- Nothing is different but sizes of entries. -/
structure SameButSizes (d d' : Floppy) : Prop where
  slots : SameSlots d d'
  sectors : ∀ s, s ∉ rootSectors → d'.sectors s = d.sectors s

namespace SameSlots

variable (h : SameSlots d d') (hslot : slot ∈ slotsOf rootSectors)
include h hslot

theorem entryFirstCluster_eq :
    entryFirstCluster (d'.sectors slot.1) slot.2 = entryFirstCluster (d.sectors slot.1) slot.2 := by
  rw [entryFirstCluster, entryFirstCluster, Packed.word, Packed.word, Nat.add_assoc, h slot hslot _ (by decide),
    h slot hslot _ (by decide)]

theorem entryName_eq : entryName (d'.sectors slot.1) slot.2 = entryName (d.sectors slot.1) slot.2 :=
  List.map_congr_left fun k hk => h slot hslot k (Nat.lt_trans (List.mem_range.mp hk) (by decide))

theorem entryAttrib_eq : entryAttrib (d'.sectors slot.1) slot.2 = entryAttrib (d.sectors slot.1) slot.2 :=
  h slot hslot 11 (by decide)

theorem isLive_iff : IsLive d' slot.1 slot.2 ↔ IsLive d slot.1 slot.2 := by
  have hbyte := h slot hslot 0 (by decide)
  rw [Nat.add_zero] at hbyte
  rw [IsLive, IsLive, hbyte]

end SameSlots

namespace SameButSizes

theorem refl (d : Floppy) : SameButSizes d d := ⟨fun _ _ _ _ => rfl, fun _ _ => rfl⟩

variable (h : SameButSizes d d')
include h

theorem fatEntry_eq (hc : c < 0xFF0) : fatEntry d' c = fatEntry d c :=
  fatEntry_of_sectors hc fun s hs => h.sectors s fun hroot => by
    have := (mem_rootSectors.mp hroot).1
    omega

theorem freeClusters_eq : freeClusters d' = freeClusters d :=
  freeClusters_congr fun _ hc => h.fatEntry_eq (Nat.lt_trans hc.2 (by decide))

theorem chain (hcs : Chain d cs) : Chain d' cs :=
  hcs.congr fun c hc => h.fatEntry_eq (Nat.lt_trans (hcs.data c hc).2 (by decide))

theorem fileByte_eq (hcs : Chain d cs) (hk : k < 512 * cs.length) : fileByte d' cs k = fileByte d cs k := by
  have hdata := hcs.data _ (Chain.getD_mem (Nat.div_lt_of_lt_mul hk))
  rw [fileByte, fileByte, flpydskReadSector, flpydskReadSector, h.sectors]
  intro hroot
  have hlt := (mem_rootSectors.mp hroot).2
  have hge := hdata.1
  unfold physSector at hlt
  omega

theorem laid (hlaid : Laid d files) : Laid d' files where
  each file hfile := by
    have hout := hlaid.each file hfile
    refine ⟨hout.slot, ?_, h.chain hout.chain⟩
    rw [h.slots.entryFirstCluster_eq hout.slot]
    exact hout.first
  apart := hlaid.apart
  covers slot hslot hne := hlaid.covers slot hslot (h.slots.entryFirstCluster_eq hslot ▸ hne)
  unused slot hslot hzero hlive :=
    hlaid.unused slot hslot (h.slots.entryFirstCluster_eq hslot ▸ hzero) ((h.slots.isLive_iff hslot).mp hlive)

end SameButSizes

theorem setEntryFileSize_of_lt (hk : k < 28) : setEntryFileSize buf i v (32 * j + k) = buf (32 * j + k) := by
  rw [setEntryFileSize, Packed.setWord, if_neg (by omega), if_neg (by omega), Packed.setWord, if_neg (by omega),
    if_neg (by omega)]

theorem setEntryFileSize_of_ne (hj : j ≠ i) (hk : k < 32) :
    setEntryFileSize buf i v (32 * j + k) = buf (32 * j + k) := by
  rw [setEntryFileSize, Packed.setWord, if_neg (by omega), if_neg (by omega), Packed.setWord, if_neg (by omega),
    if_neg (by omega)]

theorem entryFileSize_setEntryFileSize : entryFileSize (setEntryFileSize buf i v) i = v := by
  have hlow : Packed.word (setEntryFileSize buf i v) (32 * i + 28) = v.setWidth 16 := by
    rw [setEntryFileSize, Packed.word_setWord_of_apart (by omega), Packed.word_setWord_self]
  have hhigh : Packed.word (setEntryFileSize buf i v) (32 * i + 30) = (v >>> 16).setWidth 16 :=
    Packed.word_setWord_self
  rw [entryFileSize, hlow, hhigh]
  refine BitVec.eq_of_getLsbD_eq fun k hk => ?_
  rw [BitVec.getLsbD_append, BitVec.getLsbD_setWidth, BitVec.getLsbD_setWidth, BitVec.getLsbD_ushiftRight]
  by_cases hlt : k < 16
  · rw [if_pos hlt, decide_eq_true hlt, Bool.true_and]
  · rw [if_neg hlt, decide_eq_true (by omega), Bool.true_and, Nat.add_sub_cancel' (by omega)]

/-! ### The part of a write in front of its transfer -/

theorem sameButSizes_updateFlen (hslot : slot ∈ slotsOf rootSectors) (hparent : f.parentCluster = (slot.1 : Int) - 31)
    (v : BitVec 32) : SameButSizes d (fat12fsysUpdateFlen d f v) := by
  have hsector : (f.parentCluster + 31).toNat = slot.1 := by omega
  rw [fat12fsysUpdateFlen]
  dsimp only
  rw [hsector]
  split
  · exact .refl d
  split
  · exact .refl d
  next i _ =>
  have hroot := (mem_slotsOf.mp hslot).1
  refine ⟨fun q hq k hk => ?_, fun s hs => ?_⟩
  · have hlt := (slot_bounds hq).2.2
    rw [flpydskWriteSector]
    dsimp only
    split
    · next hin => rw [setEntryFileSize_of_lt hk, flpydskReadSector, hin.1]
    · rfl
  · exact flpydskWriteSector_of_ne fun heq => hs (heq ▸ hroot)

/-- The length covers the write, whatever the position was before: the counter of the bytes can only run over when the
length is high already. -/
theorem extendFile_covered (hw : Writer f file p) (hn : length.toNat < 2 ^ 31) :
    512 ≤ (extendFile d f length).2.fileLength.toNat ∨ p + length.toNat ≤ (extendFile d f length).2.absPosition.toNat ∧
      (extendFile d f length).2.absPosition.toNat ≤ (extendFile d f length).2.fileLength.toNat := by
  have htype : f.flags ≠ .directory := by rw [hw.type]; decide
  have hcovered := hw.covered
  have hsum : (f.absPosition + length).toNat = (f.absPosition.toNat + length.toNat) % 2 ^ 32 := BitVec.toNat_add _ _
  unfold extendFile
  rw [if_pos htype]
  dsimp only
  split
  · next hgt =>
    rw [gt_iff_lt, BitVec.lt_def, hsum] at hgt
    dsimp only
    rw [hsum]
    omega
  · next hle =>
    rw [gt_iff_lt, BitVec.lt_def, hsum] at hle
    dsimp only
    rw [hsum]
    omega

/-- What else a handle has is as before. -/
theorem extendFile_same (d : Floppy) (f : FILE) (length : BitVec 32) : (extendFile d f length).2 =
    { f with
      absPosition := (extendFile d f length).2.absPosition, fileLength := (extendFile d f length).2.fileLength } := by
  unfold extendFile
  split
  · dsimp only
    split <;> rfl
  · rfl

theorem sameButSizes_extendFile (hslot : slot ∈ slotsOf rootSectors) (hparent : f.parentCluster = (slot.1 : Int) - 31)
    (length : BitVec 32) : SameButSizes d (extendFile d f length).1 := by
  unfold extendFile
  split
  · dsimp only
    split
    · exact sameButSizes_updateFlen (f := { f with absPosition := _, fileLength := _ }) hslot hparent _
    · exact .refl d
  · exact .refl d

/-! ### Writing -/

/-- A write through a handle of a file at place `p`: the size in the entry may have changed, `new` are the clusters the
chain got, and the handle is where the transfer has left it. -/
structure Written (d d' : Floppy) (f f' : FILE) (file : RootFile) (new : List Nat) (p : Nat) (length : BitVec 32)
    (src : Nat → Byte) : Prop where
  wrote : Wrote (extendFile d f length).1 d' file.clusters new p length.toNat src
  clusters : (file.clusters ++ new).length = max file.clusters.length ((p + length.toNat + 511) / 512)
  moved : Moved (extendFile d f length).2 f' (file.clusters ++ new) p length.toNat

theorem freeClusters_length_le (d : Floppy) : (freeClusters d).length ≤ 2847 := by
  have hle := List.length_filter_le (fun c => fatEntry d c = 0#16) (List.range' 2 2847)
  rwa [List.length_range'] at hle

theorem Chain.length_le (h : Chain d cs) : cs.length ≤ 2847 := by
  have hsub : cs ⊆ List.range' 2 2847 := fun c hc => by
    obtain ⟨hle, hlt⟩ := h.data c hc
    exact List.mem_range'_1.mpr ⟨hle, hlt⟩
  have hle := (List.subperm_of_subset h.nodup hsub).length_le
  rwa [List.length_range'] at hle

theorem write_eq (fuel : Nat) (d : Floppy) (f : FILE) (memory : Nat → Byte) (buffer : Nat) (length : BitVec 32) :
    fat12fsysWrite fuel d f memory buffer length =
      fat12fsysRw .write fuel (extendFile d f length).1 (extendFile d f length).2 memory buffer length := rfl

theorem Writer.sameButSizes (hw : Writer f file p) (hout : file.LaidOut d) : SameButSizes d (extendFile d f length).1 :=
  sameButSizes_extendFile hout.slot hw.parent length

/-- A write with enough free clusters returns. -/
theorem Writer.write (hw : Writer f file p) (hout : file.LaidOut d) (memory : Nat → Byte) (buffer : Nat)
    (hroom : p + length.toNat ≤ 512 * (file.clusters.length + (freeClusters d).length)) :
    ∃ d' f' new, (∃ fuel, ∀ fuel' ≥ fuel, fat12fsysWrite fuel' d f memory buffer length = ⟨d', f', memory, true⟩) ∧
      Written d d' f f' file new p length (fun k => memory (buffer + k)) := by
  have hsizes : SameButSizes d (extendFile d f length).1 := hw.sameButSizes hout
  have hchain := hsizes.chain hout.chain
  have hfree := hsizes.freeClusters_eq
  have hshort : length.toNat < 2 ^ 31 := by
    have hle := hout.chain.length_le
    have hle' := freeClusters_length_le d
    omega
  have hcovered := extendFile_covered (d := d) hw hshort
  have hat : At (extendFile d f length).2 file.clusters p := by
    rw [extendFile_same]
    exact ⟨hw.place.cluster, hw.place.position⟩
  have hends : (extendFile d f length).2.EndsAt ((p + length.toNat) % 512) := by
    refine fun _ => ⟨?_, by omega⟩
    rw [extendFile_same]
    dsimp only
    rw [hw.type]
    decide
  rw [← hfree] at hroom
  obtain ⟨fuel, d', f', new, hwrite, hwrote, hclusters, hmoved⟩ : ∃ fuel d' f' new,
      fat12fsysRw .write fuel (extendFile d f length).1 (extendFile d f length).2 memory buffer length =
        ⟨d', f', memory, true⟩ ∧ _ ∧ _ ∧ _ := rw_write hchain hat hw.inside rfl hends hroom
  refine ⟨d', f', new, ⟨fuel, fun fuel' hle => ?_⟩, hwrote, hclusters, hmoved⟩
  rw [write_eq, rw_le (by rw [hwrite]) hle, hwrite]

/-- The handle stays one of the file. -/
theorem Written.writer (h : Written d d' f f' file new p length src) (hw : Writer f file p)
    (hshort : length.toNat < 2 ^ 31) :
    Writer f' { file with clusters := file.clusters ++ new } (restPlace (file.clusters ++ new) p length.toNat) where
  place := h.moved.place
  inside := by
    have hinside := h.wrote.inside
    have hpos := hw.inside
    rw [List.length_append] at hinside
    rw [restPlace, List.length_append]
    split <;> omega
  type := by
    rw [h.moved.same, extendFile_same]
    exact hw.type
  parent := by
    rw [h.moved.same, extendFile_same]
    exact hw.parent
  covered := by
    have hcovered := extendFile_covered (d := d) hw hshort
    have hrest : restPlace (file.clusters ++ new) p length.toNat ≤ p + length.toNat := by
      rw [restPlace]
      split <;> omega
    rw [h.moved.same]
    dsimp only
    omega

namespace Written

/-- A sector of the root directory changes with the sizes only. -/
theorem root_sector (h : Written d d' f f' file new p length src) (hslot : slot ∈ slotsOf rootSectors) :
    d'.sectors slot.1 = (extendFile d f length).1.sectors slot.1 := by
  obtain ⟨hle, -, -⟩ := slot_bounds hslot
  exact h.wrote.sectors _ (by omega) fun c hc => slot_ne_physSector hslot (h.wrote.chain.data c hc).1

variable (h : Written d d' f f' file new p length src) (hw : Writer f file p) (hlaid : Laid d files)
  (hfile : file ∈ files)
include h hw hlaid hfile

theorem mem_freeClusters (hc : c ∈ new) : c ∈ freeClusters d := by
  rw [← (hw.sameButSizes (hlaid.each file hfile)).freeClusters_eq, h.wrote.free]
  exact List.mem_append_left _ hc

theorem freeClusters_eq : freeClusters d = new ++ freeClusters d' := by
  rw [← (hw.sameButSizes (hlaid.each file hfile)).freeClusters_eq, h.wrote.free]

theorem sameSlots : SameSlots d d' := by
  intro slot hslot k hk
  rw [h.root_sector hslot]
  exact (hw.sameButSizes (hlaid.each file hfile)).slots slot hslot k hk

/-- The entries of the table that lead through another chain, or to nowhere, are as before. -/
theorem fatEntry_eq (hc : c < 0xFF0) (hout : c ∉ file.clusters ++ new) : fatEntry d' c = fatEntry d c := by
  rw [h.wrote.entries c hc hout, (hw.sameButSizes (hlaid.each file hfile)).fatEntry_eq hc]

/-- No other sector than one of the chain changes behind the root directory. -/
theorem sectors_eq (hs : 33 ≤ s) (hout : ∀ c ∈ file.clusters ++ new, s ≠ physSector c) :
    d'.sectors s = d.sectors s := by
  rw [h.wrote.sectors s (by omega) hout, (hw.sameButSizes (hlaid.each file hfile)).sectors]
  intro hroot
  have := (mem_rootSectors.mp hroot).2
  omega

/-- The clusters of another file are not of the chain, however far it got. -/
theorem not_mem_of_apart (hfile' : file' ∈ files) (hapart : file.Apart file') (hc : c ∈ file'.clusters) :
    c ∉ file.clusters ++ new := by
  intro hmem
  obtain hmem | hmem := List.mem_append.mp hmem
  · exact hapart.2 hmem hc
  · exact hlaid.not_mem_freeClusters hfile' hc (h.mem_freeClusters hw hlaid hfile hmem)

/-- The other files keep their chains. -/
theorem chain_of_apart (hfile' : file' ∈ files) (hapart : file.Apart file') : Chain d' file'.clusters := by
  have hchain := (hlaid.each file' hfile').chain
  refine hchain.congr fun c hc => h.fatEntry_eq hw hlaid hfile (Nat.lt_trans (hchain.data c hc).2 (by decide)) ?_
  exact h.not_mem_of_apart hw hlaid hfile hfile' hapart hc

/-- The other files keep their data. -/
theorem fileByte_of_apart (hfile' : file' ∈ files) (hapart : file.Apart file')
    (hk : k < 512 * file'.clusters.length) : fileByte d' file'.clusters k = fileByte d file'.clusters k := by
  have hchain := (hlaid.each file' hfile').chain
  have hmem := Chain.getD_mem (Nat.div_lt_of_lt_mul hk)
  have hdata := (hchain.data _ hmem).1
  rw [fileByte, fileByte, flpydskReadSector, flpydskReadSector,
    h.sectors_eq hw hlaid hfile (by unfold physSector; omega)]
  intro c hc heq
  exact h.not_mem_of_apart hw hlaid hfile hfile' hapart hmem (physSector_injective heq ▸ hc)

/-- After the write the directory holds the same files, one of them with more clusters. -/
theorem laid : Laid d' (files.map (RootFile.grow file.slot new)) where
  each g hg := by
    obtain ⟨file', hfile', rfl⟩ := List.mem_map.mp hg
    have hout := hlaid.each file' hfile'
    have hfirst := (h.sameSlots hw hlaid hfile).entryFirstCluster_eq hout.slot
    obtain ⟨heq, rfl⟩ | ⟨heq, hapart⟩ := hlaid.grow_eq hfile hfile' new
    · rw [heq]
      refine ⟨hout.slot, ?_, h.wrote.chain⟩
      dsimp only
      rw [hfirst, hout.first, List.getD_append _ _ _ _ hout.chain.length_pos]
    · rw [heq]
      refine ⟨hout.slot, ?_, h.chain_of_apart hw hlaid hfile hfile' hapart⟩
      rw [hfirst, hout.first]
  apart := by
    refine List.pairwise_map.mpr (hlaid.apart.imp_of_mem fun {a b} ha hb hab => ?_)
    obtain ⟨heq, rfl⟩ | ⟨heq, hapart⟩ := hlaid.grow_eq hfile ha new
    · obtain ⟨-, rfl⟩ | ⟨heq', hapart'⟩ := hlaid.grow_eq hfile hb new
      · exact absurd rfl hab.1
      · rw [heq, heq']
        exact ⟨hab.1, fun c hc hc' => h.not_mem_of_apart hw hlaid hfile hb hapart' hc' hc⟩
    · obtain ⟨heq', rfl⟩ | ⟨heq', -⟩ := hlaid.grow_eq hfile hb new
      · rw [heq, heq']
        exact ⟨hab.1, fun c hc hc' => h.not_mem_of_apart hw hlaid hfile ha hapart hc hc'⟩
      · rw [heq, heq']
        exact hab
  covers slot hslot hne := by
    rw [(h.sameSlots hw hlaid hfile).entryFirstCluster_eq hslot] at hne
    obtain ⟨file', hfile', rfl⟩ := hlaid.covers slot hslot hne
    refine ⟨_, List.mem_map_of_mem hfile', ?_⟩
    rw [RootFile.grow]
    split <;> rfl
  unused slot hslot hzero hlive := by
    have hsame := h.sameSlots hw hlaid hfile
    exact hlaid.unused slot hslot (hsame.entryFirstCluster_eq hslot ▸ hzero) ((hsame.isLive_iff hslot).mp hlive)

end Written

/-- A disk of zeros has nothing in its root directory. -/
def blankDisk : Floppy := ⟨fun _ _ => 0#8, []⟩

theorem laid_blankDisk : Laid blankDisk [] where
  each _ hfile := absurd hfile List.not_mem_nil
  apart := .nil
  covers _ _ hne := absurd (show (0#8 ++ 0#8 : BitVec 16) = 0#16 by decide) hne
  unused _ _ _ hlive := hlive.2 rfl

end Akos.Fat12
