import Akos.Fat12.Handles
import Akos.Fat12.Listing

/-!
# The root directory as a list of named byte strings

Whoever creates, writes and reads files in the root directory knows it as a list of names with their bytes. A disk
represents such a list when its first slots have the names, and the chains behind them the bytes. A name is then found
in its own slot only, and a creation puts a new name behind the others.
-/

namespace Akos.Fat12

/-! ### What the user knows -/

/-- A file or a directory of the root directory, under the name of its entry. -/
structure Node where
  name : List Byte
  isDirectory : Bool
  bytes : List Byte

structure Listing where
  nodes : List Node
  free : Nat

/-- How many clusters a file has. -/
def clustersOf (n : Nat) : Nat := max 1 ((n + 511) / 512)

/-- The bytes from place `p` on are replaced, and more are added. -/
def overwrite (b : List Byte) (p : Nat) (w : List Byte) : List Byte := b.take p ++ w ++ b.drop (p + w.length)

/-- What is asked for; a write takes the bytes in the buffers of its calls, a read fills them. -/
inductive Request
  | create (name : List Byte) (flags : Flags)
  | write (name : List Byte) (calls : List ReadCall)
  | read (name : List Byte) (calls : List ReadCall)

def sent (calls : List ReadCall) : List Byte := calls.flatMap fun r => r.filled r.memory

/-- The file with the name. -/
def Listing.file? (a : Listing) (name : List Byte) : Option Node :=
  (toDosFileName name).bind fun dosFileName =>
    a.nodes.find? fun node => node.name = dosFileName && !node.isDirectory

/-- The file gets other bytes. -/
def Listing.put (a : Listing) (node : Node) (bytes : List Byte) : Listing where
  nodes := a.nodes.map fun node' => if node'.name = node.name then { node' with bytes } else node'
  free := a.free - (clustersOf bytes.length - clustersOf node.bytes.length)

/-- The answer to a request, and the list after it. A name that is in use, or one too many, is not created; a file that
is missing is neither written nor read. -/
def Listing.serve (a : Listing) : Request → List Byte × Listing
  | .create name flags => ([], (toDosFileName name).elim a fun dosFileName =>
      if a.nodes.any (fun node => node.name = dosFileName) || decide (224 ≤ a.nodes.length) then a
      else ⟨a.nodes ++ [⟨dosFileName, flags = .directory, []⟩], a.free - 1⟩)
  | .write name calls => ([], (a.file? name).elim a fun node => a.put node (overwrite node.bytes 0 (sent calls)))
  | .read name calls => ((a.file? name).elim [] fun node => node.bytes.take (total calls), a)

/-- No call begins to write right behind the last sector of the file. -/
def Clear : Nat → Nat → List ReadCall → Prop
  | _, _, [] => True
  | n, p, r :: calls => (r.length.toNat = 0 ∨ p < 512 * clustersOf n) ∧
      Clear (max n (p + r.length.toNat)) (p + r.length.toNat) calls

structure Usable (name : List Byte) : Prop where
  ne_nil : name ≠ []
  path : backslash ∉ name
  nul : 0#8 ∉ name
  head : name.head? ≠ some erased

/-- The request can be served: what it takes is free, and what it reads is there. -/
def Listing.Permits (a : Listing) : Request → Prop
  | .create name _ => Usable name ∧ ((∀ node ∈ a.nodes, toDosFileName name ≠ some node.name) →
      a.nodes.length < 224 → 0 < a.free)
  | .write name calls => Usable name ∧ ∀ node, a.file? name = some node → Clear node.bytes.length 0 calls ∧
      clustersOf (max node.bytes.length (total calls)) ≤ clustersOf node.bytes.length + a.free
  | .read name calls => Usable name ∧ ∀ node, a.file? name = some node → total calls ≤ node.bytes.length

def Listing.serveAll (a : Listing) : List Request → List (List Byte) × Listing
  | [] => ([], a)
  | r :: requests =>
    let rest := (a.serve r).2.serveAll requests
    ((a.serve r).1 :: rest.1, rest.2)

def Listing.PermitsAll (a : Listing) : List Request → Prop
  | [] => True
  | r :: requests => a.Permits r ∧ (a.serve r).2.PermitsAll requests

/-! ### What the code does -/

/-- The calls write through one handle. -/
def writeAll (fuel : Nat) : Floppy → FILE → List ReadCall → Option Floppy
  | d, _, [] => some d
  | d, f, r :: calls =>
    let write := fat12fsysWrite fuel d f r.memory r.buffer r.length
    if write.returned then writeAll fuel write.disk write.file calls else none

/-- A request, by the path to the root directory or to the file in it. -/
def Request.run (fuel : Nat) (d : Floppy) (junks : Nat → FILE) : Request → Option (List Byte × Floppy)
  | .create name flags => do
    let f ← fat12fsysOpen fuel d junks [backslash]
    (fat12fsysCreate fuel d (junks 0) f name flags).map fun d => ([], d)
  | .write name calls => do
    let f ← fat12fsysOpen fuel d junks (joinPieces backslash [name])
    if f.flags = .file then (writeAll fuel d f calls).map fun d => ([], d) else some ([], d)
  | .read name calls => do
    let f ← fat12fsysOpen fuel d junks (joinPieces backslash [name])
    if f.flags = .file then (readAll fuel d f calls).map fun parts => (parts.flatten, d) else some ([], d)

/-- One request after the other, each with what is on the stack then. -/
def runAll (fuel : Nat) : Floppy → List (Request × (Nat → FILE)) → Option (List (List Byte) × Floppy)
  | d, [] => some ([], d)
  | d, job :: jobs => do
    let served ← job.1.run fuel d job.2
    (runAll fuel served.2 jobs).map fun rest => (served.1 :: rest.1, rest.2)

/-! ### The list is that of the disk -/

/-- The entry, with the clusters behind it, is what is listed. -/
structure Shows (d : Floppy) (file : RootFile) (node : Node) : Prop where
  name : entryName (d.sectors file.slot.1) file.slot.2 = node.name
  type : IsDirectory d file.slot.1 file.slot.2 ↔ node.isDirectory = true
  stored : node.isDirectory = false → Stored d file.slot.1 file.slot.2 file.clusters node.bytes

/-- The entries are the first ones of the directory, each with a name of its own. -/
structure Shown (d : Floppy) (entries : List (RootFile × Node)) (a : Listing) : Prop where
  laid : Laid d (entries.map Prod.fst)
  nodes : entries.map Prod.snd = a.nodes
  each : ∀ e ∈ entries, Shows d e.1 e.2
  slots : entries.map (fun e => e.1.slot) <+: slotsOf rootSectors
  names : entries.Pairwise fun e e' => e.2.name ≠ e'.2.name
  free : (freeClusters d).length = a.free

def Represents (d : Floppy) (a : Listing) : Prop := ∃ entries, Shown d entries a

variable {d d' : Floppy} {f : FILE} {file : RootFile} {node : Node} {entries : List (RootFile × Node)}
  {e e' : RootFile × Node} {a : Listing} {name dosFileName : List Byte} {flags : Flags} {slot : Nat × Nat}

/-! ### Names -/

theorem nodup_rootSlots : (slotsOf rootSectors).Nodup := by
  refine List.nodup_flatMap.mpr ⟨fun s _ => ?_, ?_⟩
  · exact List.Nodup.map (fun i j heq => congrArg Prod.snd heq) List.nodup_range
  · have hsectors : rootSectors.Nodup := by decide
    refine hsectors.imp fun {s t} hne => ?_
    intro slot hslot hslot'
    obtain ⟨i, -, rfl⟩ := List.mem_map.mp hslot
    obtain ⟨j, -, heq⟩ := List.mem_map.mp hslot'
    exact hne (congrArg Prod.fst heq).symm

/-- A name that is searched for begins like that of an entry in use. -/
theorem Usable.isLive (h : Usable name) (hdos : toDosFileName name = some dosFileName)
    (hslot : entryName (d.sectors slot.1) slot.2 = dosFileName) : IsLive d slot.1 slot.2 := by
  obtain ⟨c, hhead, hc⟩ := head?_toDosFileName hdos
  rw [← hslot, entryName, List.range_succ_eq_map, List.map_cons, List.head?_cons, Option.some.injEq] at hhead
  have hnul := not_mem_toDosFileName hdos h.nul
  rw [← hslot, entryName, List.range_succ_eq_map, List.map_cons, List.mem_cons, not_or] at hnul
  rw [IsLive]
  rw [Nat.add_zero] at hhead hnul
  exact ⟨fun heq => h.head (hc.mp (hhead ▸ heq)), fun heq => hnul.1 heq.symm⟩

namespace Shown

variable (h : Shown d entries a)
include h

theorem laidOut (he : e ∈ entries) : e.1.LaidOut d := h.laid.each _ (List.mem_map_of_mem he)

theorem eq_of_name (he : e ∈ entries) (he' : e' ∈ entries) (hname : e.2.name = e'.2.name) : e = e' := by
  by_contra hne
  have hnames : Std.Symm fun e e' : RootFile × Node => e.2.name ≠ e'.2.name := ⟨fun _ _ hne heq => hne heq.symm⟩
  exact h.names.forall he he' hne hname

theorem nodup_slots : (entries.map fun e => e.1.slot).Nodup := h.slots.sublist.nodup nodup_rootSlots

theorem eq_of_slot (he : e ∈ entries) (he' : e' ∈ entries) (hslot : e.1.slot = e'.1.slot) : e = e' :=
  List.inj_on_of_nodup_map h.nodup_slots he he' hslot

/-- A slot with the name is that of an entry. -/
theorem exists_of_name (husable : Usable name) (hdos : toDosFileName name = some dosFileName)
    (hslot : slot ∈ slotsOf rootSectors) (hname : entryName (d.sectors slot.1) slot.2 = dosFileName) :
    ∃ e ∈ entries, e.1.slot = slot ∧ e.2.name = dosFileName := by
  have hlive := husable.isLive hdos hname
  obtain ⟨file, hfile, rfl⟩ := h.laid.covers slot hslot fun hzero => h.laid.unused slot hslot hzero hlive
  obtain ⟨e, he, rfl⟩ := List.mem_map.mp hfile
  exact ⟨e, he, rfl, (h.each e he).name.symm.trans hname⟩

/-- No other slot has the name of an entry. -/
theorem only (husable : Usable name) (hdos : toDosFileName name = some e.2.name) (he : e ∈ entries) :
    ∀ slot ∈ slotsOf rootSectors, entryName (d.sectors slot.1) slot.2 = e.2.name → slot = e.1.slot := by
  intro slot hslot hname
  obtain ⟨e', he', rfl, hname'⟩ := h.exists_of_name husable hdos hslot hname
  rw [h.eq_of_name he' he hname']

theorem rootOpen_eq (husable : Usable name) (hdos : toDosFileName name = some e.2.name) (he : e ∈ entries)
    (junk : FILE) : fat12fsysRootOpen d junk name =
      { fileOfEntry junk name (d.sectors e.1.slot.1) e.1.slot.2 (e.1.slot.1 - 31) with absPosition := 0#32 } :=
  Fat12.rootOpen_eq (h.laidOut he).slot hdos husable.nul (h.each e he).name (h.only husable hdos he) junk

/-- Within its sector, too, the entry is found by its name. -/
theorem findEntry_eq (husable : Usable name) (hdos : toDosFileName name = some e.2.name) (he : e ∈ entries) :
    findEntry (d.sectors e.1.slot.1) e.2.name = some e.1.slot.2 := by
  obtain ⟨sector, hsector, hfind⟩ := findsIn_root (h.laidOut he).slot (length_toDosFileName hdos)
    (not_mem_toDosFileName hdos husable.nul) (h.each e he).name (h.only husable hdos he)
  obtain ⟨sector', -, heq⟩ := List.exists_of_findSome?_eq_some hfind
  obtain ⟨i, hi, hpair⟩ := Option.map_eq_some_iff.mp heq
  obtain ⟨rfl, rfl⟩ := Prod.mk.inj hpair
  rw [flpydskReadSector, hsector] at hi
  exact hi

/-- A name that no entry has is not opened. -/
theorem rootOpen_invalid (husable : Usable name) (hnone : ∀ e ∈ entries, toDosFileName name ≠ some e.2.name)
    (junk : FILE) : (fat12fsysRootOpen d junk name).flags = .invalid := by
  obtain hinvalid | ⟨dosFileName, s, i, hdos, hfinds, -⟩ := rootOpen_cases d junk name
  · exact hinvalid
  · have hname := (cString_eq_iff (length_entryName.trans (length_toDosFileName hdos).symm)
      (not_mem_toDosFileName hdos husable.nul)).mp hfinds.cString
    have hslot : (s, i) ∈ slotsOf rootSectors := hfinds.mem_slotsOf
    obtain ⟨e, he, -, rfl⟩ := h.exists_of_name husable hdos hslot hname
    exact absurd hdos (hnone e he)

/-- A name is that of a file, which is opened, or nothing is opened that could be read or written. -/
theorem file?_cases (husable : Usable name) :
    (a.file? name = none ∧ ∀ junk, (fat12fsysRootOpen d junk name).flags ≠ .file) ∨
      ∃ e ∈ entries, a.file? name = some e.2 ∧ e.2.isDirectory = false ∧ toDosFileName name = some e.2.name := by
  by_cases hsome : ∃ e ∈ entries, toDosFileName name = some e.2.name
  · obtain ⟨e, he, hdos⟩ := hsome
    cases hdir : e.2.isDirectory with
    | true =>
      left
      refine ⟨?_, fun junk => ?_⟩
      · rw [Listing.file?, hdos, Option.bind_some, List.find?_eq_none, ← h.nodes]
        intro node hnode
        obtain ⟨e', he', rfl⟩ := List.mem_map.mp hnode
        by_cases hname : e'.2.name = e.2.name
        · rw [h.eq_of_name he' he hname, hdir]
          simp
        · simp [hname]
      · rw [h.rootOpen_eq husable hdos he, fileOfEntry]
        dsimp only
        rw [if_pos (show entryAttrib _ _ = _ from (h.each e he).type.mpr hdir)]
        decide
    | false =>
      right
      refine ⟨e, he, ?_, hdir, hdos⟩
      rw [Listing.file?, hdos, Option.bind_some, ← h.nodes, List.find?_map, Option.map_eq_some_iff]
      refine ⟨e, ?_, rfl⟩
      cases hfind : entries.find? _ with
      | none =>
        refine absurd ?_ (List.find?_eq_none.mp hfind e he)
        simp [hdir]
      | some e' =>
        have hname := List.find?_some hfind
        rw [Function.comp_apply, Bool.and_eq_true, decide_eq_true_iff] at hname
        rw [h.eq_of_name (List.mem_of_find?_eq_some hfind) he hname.1]
  · left
    have hnone : ∀ e ∈ entries, toDosFileName name ≠ some e.2.name := fun e he hdos => hsome ⟨e, he, hdos⟩
    refine ⟨?_, fun junk => ?_⟩
    · rw [Listing.file?, Option.bind_eq_none_iff]
      intro dosFileName hdos
      rw [List.find?_eq_none, ← h.nodes]
      intro node hnode
      obtain ⟨e, he, rfl⟩ := List.mem_map.mp hnode
      have hne : e.2.name ≠ dosFileName := fun heq => hnone e he (heq ▸ hdos)
      simp [hne]
    · rw [h.rootOpen_invalid husable hnone]
      decide

end Shown

/-! ### Creating -/

theorem Puts.freeClusters_eq {c : Nat} {rest : List Nat} (h : Puts d d' dosFileName flags slot)
    (hfree : freeClusters d = c :: rest) : freeClusters d' = rest := by
  have hfirst := firstFreeEntry_of_cons hfree
  have htaken : fatEntry d' c ≠ 0#16 := by
    intro hzero
    have htaken := h.taken
    rw [hfirst, hzero] at htaken
    exact absurd htaken (by decide)
  have hfilter : freeClusters d' = (freeClusters d).filter (· ≠ c) := by
    rw [freeClusters, freeClusters, List.filter_filter]
    refine List.filter_congr fun c' hc' => ?_
    by_cases heq : c' = c
    · simp [heq, htaken]
    · have hlt := (List.mem_range'_1.mp hc').2
      simp [heq, h.entries c' (by omega) (hfirst ▸ heq)]
  have hnodup : (c :: rest).Nodup := hfree ▸ freeClusters_nodup
  rw [hfilter, hfree, List.filter_cons_of_neg (by simp), List.filter_eq_self]
  intro c' hc'
  have hne : c' ≠ c := fun heq => (List.nodup_cons.mp hnodup).1 (heq ▸ hc')
  simpa using hne

theorem entryFileSize_of_not_changed (h : ¬ Changed d d' slot) :
    entryFileSize (d'.sectors slot.1) slot.2 = entryFileSize (d.sectors slot.1) slot.2 := by
  have hbyte : ∀ k < 32, d'.sectors slot.1 (32 * slot.2 + k) = d.sectors slot.1 (32 * slot.2 + k) := fun k hk =>
    byte_of_not_changed h hk
  simp only [entryFileSize, Packed.word, Nat.add_assoc]
  rw [hbyte _ (by decide), hbyte _ (by decide), hbyte _ (by decide), hbyte _ (by decide)]

/-- A file whose entry and data are as before. -/
theorem Shows.of_not_changed (h : Shows d file node) (hslot : ¬ Changed d d' file.slot)
    (hchain : Chain d' file.clusters)
    (hdata : ∀ k < 512 * file.clusters.length, fileByte d' file.clusters k = fileByte d file.clusters k) :
    Shows d' file node where
  name := by rw [entryName_of_not_changed hslot, h.name]
  type := by
    rw [← h.type, IsDirectory, IsDirectory, entryAttrib, entryAttrib, byte_of_not_changed hslot (by decide)]
  stored hfile := by
    have hstored := h.stored hfile
    refine ⟨?_, hchain, ?_, hstored.clusters, ?_, fun k hk => ?_⟩
    · rw [IsDirectory, entryAttrib, byte_of_not_changed hslot (by decide)]
      exact hstored.type
    · rw [entryFirstCluster_of_not_changed hslot, hstored.first]
    · rw [entryFileSize_of_not_changed hslot, hstored.size]
    · have hclusters := hstored.clusters
      rw [hdata k (by omega), hstored.bytes k hk]

namespace Shown

variable (h : Shown d entries a)
include h

theorem length_nodes : a.nodes.length = entries.length := by rw [← h.nodes, List.length_map]

/-- The slots in use have a cluster, the others have none. -/
theorem firstCluster_ne_zero (he : e ∈ entries) : entryFirstCluster (d.sectors e.1.slot.1) e.1.slot.2 ≠ 0#16 :=
  fun hzero => h.laid.slot_ne (List.mem_map_of_mem he) hzero rfl

/-- The search for a place stops at the entry with the name. -/
theorem created_of_name (he : e ∈ entries) (flags : Flags) :
    created d rootSectors e.2.name flags = d := by
  obtain ⟨rest, hrest⟩ := h.slots
  rw [created, firstStop, ← hrest, List.find?_append]
  cases hfind : (entries.map fun e => e.1.slot).find? fun p => stopsAt (d.sectors p.1) e.2.name p.2 with
  | none =>
    have hno := List.find?_eq_none.mp hfind _ (List.mem_map_of_mem he)
    rw [stopsAt, decide_eq_true_iff] at hno
    exact absurd (.inr (h.each e he).name.symm) hno
  | some slot =>
    obtain ⟨e', he', rfl⟩ := List.mem_map.mp (List.mem_of_find?_eq_some hfind)
    rw [Option.some_or, Option.elim_some, if_neg (h.firstCluster_ne_zero he')]

/-- Without such an entry it stops right behind the entries. -/
theorem firstStop_of_new (hnew : ∀ e ∈ entries, e.2.name ≠ dosFileName) :
    firstStop d rootSectors dosFileName = (slotsOf rootSectors)[entries.length]? := by
  obtain ⟨rest, hrest⟩ := h.slots
  have hlength : (entries.map fun e => e.1.slot).length = entries.length := List.length_map _
  have hnone : (entries.map fun e => e.1.slot).find? (fun p => stopsAt (d.sectors p.1) dosFileName p.2) = none := by
    refine List.find?_eq_none.mpr fun slot hslot => ?_
    obtain ⟨e, he, rfl⟩ := List.mem_map.mp hslot
    rw [stopsAt, decide_eq_true_iff, not_or]
    exact ⟨h.firstCluster_ne_zero he, fun heq => hnew e he ((h.each e he).name.symm.trans heq.symm)⟩
  rw [firstStop, ← hrest, List.find?_append, hnone, Option.none_or, List.getElem?_append_right (by omega), hlength,
    Nat.sub_self]
  cases rest with
  | nil => rfl
  | cons slot rest =>
    rw [List.find?_cons_of_pos, List.getElem?_cons_zero]
    rw [stopsAt, decide_eq_true_iff]
    left
    by_contra hne
    have hslot : slot ∈ slotsOf rootSectors := hrest ▸ List.mem_append_right _ List.mem_cons_self
    obtain ⟨file, hfile, heq⟩ := h.laid.covers slot hslot hne
    obtain ⟨e, he, rfl⟩ := List.mem_map.mp hfile
    have hnodup := nodup_rootSlots
    rw [← hrest, List.nodup_append] at hnodup
    exact hnodup.2.2 _ (List.mem_map_of_mem he) _ List.mem_cons_self heq

/-- The entry behind the others shows the new file or directory. -/
theorem put {slot : Nat × Nat} {c : Nat} {rest : List Nat} (hfree : freeClusters d = c :: rest)
    (hslot : (slotsOf rootSectors)[entries.length]? = some slot) (hnew : ∀ e ∈ entries, e.2.name ≠ dosFileName)
    (hzero : entryFirstCluster (d.sectors slot.1) slot.2 = 0#16) (hputs : Puts d d' dosFileName flags slot) :
    Shown d' (entries ++ [(⟨slot, [c]⟩, ⟨dosFileName, flags = .directory, []⟩)])
      ⟨a.nodes ++ [⟨dosFileName, flags = .directory, []⟩], a.free - 1⟩ := by
  have hfirst := firstFreeEntry_of_cons hfree
  obtain ⟨hdata, hentry⟩ := mem_freeClusters.mp (hfree ▸ List.mem_cons_self)
  rw [← hfirst] at hdata hentry
  have hmem := List.mem_of_getElem? hslot
  have hlaid := hputs.laid h.laid hentry hmem hdata hzero
  rw [hfirst] at hlaid
  refine ⟨?_, ?_, fun e he => ?_, ?_, ?_, ?_⟩
  · rw [List.map_append]
    exact hlaid
  · rw [List.map_append, h.nodes]
    rfl
  · obtain he | he := List.mem_append.mp he
    · have hfile : e.1 ∈ entries.map Prod.fst := List.mem_map_of_mem he
      refine (h.each e he).of_not_changed (hputs.not_changed_of_ne hdata (h.laidOut he).slot ?_)
        (hputs.chain_of_mem h.laid hentry hfile) fun k hk => hputs.fileByte_of_mem h.laid hentry hmem hfile hk
      exact h.laid.slot_ne hfile hzero
    · rw [List.mem_singleton.mp he]
      have hchain : Chain d' [c] := .singleton (hfirst ▸ hdata) (by rw [← hfirst, hputs.taken])
      refine ⟨hputs.name, ?_, fun hfile => ⟨?_, hchain, ?_, by simp, ?_, fun k hk => absurd hk (Nat.not_lt_zero k)⟩⟩
      · rw [IsDirectory, hputs.attrib, decide_eq_true_iff]
        split <;> simp [*]
      · have hflags := of_decide_eq_false hfile
        rw [IsDirectory, hputs.attrib, if_neg hflags]
        decide
      · rw [hputs.cluster, hfirst]
        rfl
      · rw [hputs.size]
        rfl
  · obtain ⟨rest', hrest⟩ := h.slots
    have hlength : (entries.map fun e => e.1.slot).length = entries.length := List.length_map _
    rw [← hrest, List.getElem?_append_right (by omega), hlength, Nat.sub_self] at hslot
    obtain ⟨rest'', rfl⟩ : ∃ rest'', rest' = slot :: rest'' := by
      cases rest' with
      | nil => cases hslot
      | cons slot' rest'' => exact ⟨rest'', by rw [Option.some.inj hslot]⟩
    exact ⟨rest'', by rw [← hrest, List.map_append, List.append_assoc]; rfl⟩
  · refine List.pairwise_append.mpr ⟨h.names, List.pairwise_singleton _ _, fun e he e' he' => ?_⟩
    rw [List.mem_singleton.mp he']
    exact hnew e he
  · have hcount := h.free
    rw [hfree, List.length_cons] at hcount
    rw [hputs.freeClusters_eq hfree]
    dsimp only
    omega

theorem create (hpermits : a.Permits (.create name flags)) (hopen : Directory.root.IsOpen d f) (junk : FILE) :
    ∃ d', StepBound.Gives (fun fuel => fat12fsysCreate fuel d junk f name flags) d' ∧
      Represents d' (a.serve (.create name flags)).2 := by
  obtain ⟨fuel, hcreate⟩ := create_eq hopen junk name flags
  refine ⟨_, ⟨fuel, hcreate⟩, ?_⟩
  rw [Listing.serve]
  cases hdos : toDosFileName name with
  | none => exact ⟨entries, h⟩
  | some dosFileName =>
    dsimp only
    rw [Option.elim_some, Option.elim_some, show Directory.root.sectors = rootSectors from rfl]
    by_cases hname : ∃ e ∈ entries, e.2.name = dosFileName
    · obtain ⟨e, he, rfl⟩ := hname
      have hany : a.nodes.any (fun node => node.name = e.2.name) = true := by
        rw [← h.nodes, List.any_map, List.any_eq_true]
        exact ⟨e, he, decide_eq_true rfl⟩
      rw [h.created_of_name he, hany, Bool.true_or, if_pos rfl]
      exact ⟨entries, h⟩
    have hnew : ∀ e ∈ entries, e.2.name ≠ dosFileName := fun e he heq => hname ⟨e, he, heq⟩
    have hany : a.nodes.any (fun node => node.name = dosFileName) = false := by
      rw [← h.nodes, List.any_map, List.any_eq_false]
      exact fun e he => by simpa using hnew e he
    have hslots : (slotsOf rootSectors).length = 224 := by decide +kernel
    rw [hany, Bool.false_or, created, h.firstStop_of_new hnew]
    by_cases hfull : 224 ≤ a.nodes.length
    · rw [decide_eq_true hfull, if_pos rfl, List.getElem?_eq_none (by rw [hslots, ← h.length_nodes]; exact hfull)]
      exact ⟨entries, h⟩
    rw [decide_eq_false hfull, if_neg Bool.false_ne_true]
    have hlt : entries.length < (slotsOf rootSectors).length := by
      rw [hslots, ← h.length_nodes]
      omega
    have hslot := List.getElem?_eq_getElem hlt
    generalize (slotsOf rootSectors)[entries.length] = slot at hslot
    have hstop : firstStop d rootSectors dosFileName = some slot := (h.firstStop_of_new hnew).trans hslot
    have hmem := List.mem_of_getElem? hslot
    have hzero : entryFirstCluster (d.sectors slot.1) slot.2 = 0#16 := by
      have hstops := List.find?_some hstop
      rw [stopsAt, decide_eq_true_iff] at hstops
      refine hstops.resolve_right fun heq => ?_
      obtain ⟨e, he, -, heq'⟩ := h.exists_of_name hpermits.1 hdos hmem heq.symm
      exact hnew e he heq'
    rw [hslot, Option.elim_some, if_pos hzero]
    obtain ⟨c, rest, hfree⟩ : ∃ c rest, freeClusters d = c :: rest := by
      refine List.exists_cons_of_ne_nil (List.length_pos_iff.mp ?_)
      rw [h.free]
      refine hpermits.2 (fun node hnode heq => ?_) (by omega)
      rw [← h.nodes] at hnode
      obtain ⟨e, he, rfl⟩ := List.mem_map.mp hnode
      exact hnew e he (Option.some.inj (hdos.symm.trans heq)).symm
    obtain ⟨hdata, -⟩ := mem_freeClusters.mp (hfree ▸ List.mem_cons_self)
    rw [← firstFreeEntry_of_cons hfree] at hdata
    obtain ⟨hge, -, hnumber⟩ := slot_bounds hmem
    have hputs : Puts d (putEntry d dosFileName flags slot) dosFileName flags slot :=
      puts_putEntry (Nat.lt_trans hdata.2 (by decide)) (length_toDosFileName hdos) (Nat.le_trans (by decide) hge)
        hnumber (slot_ne_physSector hmem hdata.1)
    exact ⟨_, h.put hfree hslot hnew hzero hputs⟩

end Shown

end Akos.Fat12
