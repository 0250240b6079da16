import Mathlib.Data.List.Find
import Mathlib.Tactic.IntervalCases
import Akos.Fat12.Paths

/-!
# Creating an entry

The search for a place goes through the slots of a directory in order, sector by sector, and stops at the first one
that has no cluster or has the name. What happens there is the same in the root directory and in any other one.
-/

namespace Akos.Fat12

variable {d d' : Floppy} {f junk : FILE} {c e i j n s fuel bound : Nat} {dosFileName : List Byte} {flags : Flags}
  {cs sectors : List Nat} {memory buf buf' : Nat → Byte} {p q : Nat × Nat}

/-- The slots of sectors, each by its sector and its number there. -/
def slotsOf (sectors : List Nat) : List (Nat × Nat) := sectors.flatMap fun s => (List.range 16).map fun i => (s, i)

/-- The search stops at the slot. -/
def stopsAt (buf : Nat → Byte) (dosFileName : List Byte) (i : Nat) : Bool :=
  entryFirstCluster buf i = 0#16 ∨ dosFileName = entryName buf i

/-- The slot where the search stops. -/
def firstStop (d : Floppy) (sectors : List Nat) (dosFileName : List Byte) : Option (Nat × Nat) :=
  (slotsOf sectors).find? fun p => stopsAt (d.sectors p.1) dosFileName p.2

/-- A cluster is taken, the slot gets the new entry, and the cluster of a directory is cleared; with no cluster, nothing
happens. -/
def putEntry (d : Floppy) (dosFileName : List Byte) (flags : Flags) (p : Nat × Nat) : Floppy :=
  let taken := fat12fsysOccupyFreeCluster d 0
  if taken.1 = 0xFF0 then taken.2
  else
    let attrib := if flags = .directory then 0x10#8 else 0#8
    let d := flpydskWriteSector taken.2 p.1 (setEntry (d.sectors p.1) p.2 dosFileName attrib taken.1)
    if flags = .directory then flpydskWriteSector d (physSector taken.1) (fun _ => 0#8) else d

/-- The disk after a creation in a directory with these sectors. -/
def created (d : Floppy) (sectors : List Nat) (dosFileName : List Byte) (flags : Flags) : Floppy :=
  (firstStop d sectors dosFileName).elim d fun p =>
    if entryFirstCluster (d.sectors p.1) p.2 = 0#16 then putEntry d dosFileName flags p else d

/-! ### Whole sectors -/

theorem writeSector_congr (h : SameSector buf buf') : flpydskWriteSector d s buf = flpydskWriteSector d s buf' := by
  rw [flpydskWriteSector, flpydskWriteSector, Floppy.mk.injEq]
  refine ⟨funext fun t => funext fun k => ?_, rfl⟩
  split
  · next hin => exact h k hin.2
  · rfl

theorem write_sector (hposition : f.position = 0#32) (hflags : f.flags = .directory) :
    (fat12fsysWrite (fuel + 2) d f memory 0 512#32).disk? =
      some (flpydskWriteSector d (physSector f.currentCluster) memory) := by
  have hcopy : (copySector .write d f memory 0 512#32).1 =
      flpydskWriteSector d (physSector f.currentCluster) memory := by
    unfold copySector
    dsimp only
    rw [hposition]
    exact writeSector_congr sameSector_memcpy
  have hextend : extendFile d f 512#32 = (d, f) := if_neg fun hne => hne hflags
  rw [fat12fsysWrite, hextend]
  dsimp only
  rw [rw_sector .write hposition, hcopy, Transfer.disk?, if_pos rfl]

theorem clearCluster_eq : clearCluster (fuel + 2) d junk c =
    some (flpydskWriteSector d (physSector c) fun _ => 0#8) := by
  rw [clearCluster]
  exact write_sector rfl rfl

theorem SameSector.setEntry (h : SameSector buf buf') (attrib : Byte) :
    SameSector (setEntry buf i dosFileName attrib c) (setEntry buf' i dosFileName attrib c) := by
  intro k hk
  rw [Fat12.setEntry, Fat12.setEntry]
  dsimp only
  rw [h k hk]

theorem SameSector.stopsAt_eq (h : SameSector buf buf') (hi : i < 16) :
    stopsAt buf dosFileName i = stopsAt buf' dosFileName i := by
  rw [stopsAt, stopsAt, h.entryFirstCluster_eq hi, h.entryName_eq hi]

/-! ### The search -/

theorem firstStop_cons : firstStop d (s :: sectors) dosFileName =
    (((List.range 16).find? (stopsAt (d.sectors s) dosFileName)).map fun i => (s, i)).or
      (firstStop d sectors dosFileName) := by
  rw [firstStop, slotsOf, List.flatMap_cons, List.find?_append, List.find?_map, ← slotsOf, ← firstStop]
  rfl

theorem find_stopsAt_congr (h : SameSector buf buf') :
    (List.range 16).find? (stopsAt buf dosFileName) = (List.range 16).find? (stopsAt buf' dosFileName) :=
  List.find?_congr fun _ hi => h.stopsAt_eq (List.mem_range.mp hi)

/-- The entry is written through the sector it came from. -/
theorem createEntry_eq {writeBack : Floppy → (Nat → Byte) → Option Floppy}
    (hwrite : ∀ d buf, writeBack d buf = some (flpydskWriteSector d s buf)) (hsame : SameSector buf (d.sectors s)) :
    createEntry (fuel + 2) d writeBack buf dosFileName flags junk i = some (putEntry d dosFileName flags (s, i)) := by
  unfold createEntry putEntry
  dsimp only
  split
  · rfl
  · rw [hwrite, writeSector_congr (hsame.setEntry _), Option.bind_eq_bind, Option.bind_some]
    split
    · exact clearCluster_eq
    · rfl

/-- The loop over the entries of a sector stops where the search does. -/
theorem createIn_range' {writeBack : Floppy → (Nat → Byte) → Option Floppy}
    (hwrite : ∀ d buf, writeBack d buf = some (flpydskWriteSector d s buf)) (hsame : SameSector buf (d.sectors s)) :
    createIn (fuel + 2) d writeBack buf dosFileName flags junk n i =
      ((List.range' i n).find? (stopsAt buf dosFileName)).elim (some (true, d)) fun j =>
        some (false, if entryFirstCluster buf j = 0#16 then putEntry d dosFileName flags (s, j) else d) := by
  induction n generalizing i with
  | zero => rfl
  | succ n ih =>
    rw [List.range'_succ, createIn]
    split
    · next hfree =>
      rw [List.find?_cons_of_pos (by simp [stopsAt, hfree]), Option.elim_some, if_pos hfree,
        createEntry_eq hwrite hsame, Option.map_some]
    · next hfree =>
      split
      · next hname => rw [List.find?_cons_of_pos (by simp [stopsAt, hname]), Option.elim_some, if_neg hfree]
      · next hname => rw [List.find?_cons_of_neg (by simp [stopsAt, hfree, hname]), ih]

/-- One sector of a directory, in front of the others. -/
theorem createIn_eq (fuel : Nat) (junk : FILE) {writeBack : Floppy → (Nat → Byte) → Option Floppy}
    (rest : Floppy → Option Floppy)
    (hwrite : ∀ d buf, writeBack d buf = some (flpydskWriteSector d s buf)) (hsame : SameSector buf (d.sectors s))
    (hrest : rest d = some (created d sectors dosFileName flags)) :
    ∃ more d', createIn (fuel + 2) d writeBack buf dosFileName flags junk 16 0 = some (more, d') ∧
      (if more then rest d' else some d') = some (created d (s :: sectors) dosFileName flags) := by
  rw [createIn_range' hwrite hsame, ← List.range_eq_range', find_stopsAt_congr hsame, created, firstStop_cons]
  cases hfind : (List.range 16).find? (stopsAt (d.sectors s) dosFileName) with
  | none =>
    refine ⟨true, d, rfl, ?_⟩
    rw [if_pos rfl, hrest, created, Option.map_none, Option.none_or]
  | some j =>
    have hj := List.mem_range.mp (List.mem_of_find?_eq_some hfind)
    refine ⟨false, _, rfl, ?_⟩
    rw [if_neg Bool.false_ne_true, Option.map_some, Option.some_or, Option.elim_some, hsame.entryFirstCluster_eq hj]

/-! ### The root directory -/

/-- The sectors of the root directory. -/
def rootSectors : List Nat := (List.range 14).map (rootOffset + ·)

theorem createInRoot_range' : createInRoot (fuel + 2) d dosFileName flags junk n i =
    some (created d ((List.range' i n).map (rootOffset + ·)) dosFileName flags) := by
  induction n generalizing i with
  | zero => rfl
  | succ n ih =>
    obtain ⟨more, d', hin, hdisk⟩ := createIn_eq (s := rootOffset + i) fuel junk
      (fun d => createInRoot (fuel + 2) d dosFileName flags junk n (i + 1)) (fun _ _ => rfl) (fun _ _ => rfl) ih
    rw [List.range'_succ, List.map_cons, createInRoot, flpydskReadSector, hin]
    exact hdisk

theorem createInRoot_eq : createInRoot (fuel + 2) d dosFileName flags junk 14 0 =
    some (created d rootSectors dosFileName flags) := by
  rw [createInRoot_range', rootSectors, List.range_eq_range']

/-! ### Other directories -/

theorem Chain.tail (h : Chain d (c :: e :: cs)) : Chain d (e :: cs) where
  ne_nil := List.cons_ne_nil _ _
  data c' hc' := h.data c' (List.mem_cons_of_mem c hc')
  nodup := (List.nodup_cons.mp h.nodup).2
  next i hi := h.next (i + 1) (Nat.succ_lt_succ hi)
  last := h.last

/-- The next cluster of a chain is entered. -/
theorem Chain.nextCluster_cons (h : Chain d (c :: e :: cs)) : nextCluster d c = some e := by
  have hentry : (fatEntry d c).toNat = e := h.next 0 (by simp)
  have hdata := h.data e (List.mem_cons_of_mem c List.mem_cons_self)
  have hge := hdata.1
  have hlt := hdata.2
  rw [nextCluster, hentry]
  exact if_neg fun hend => by omega

theorem Chain.nextCluster_last (h : Chain d [c]) : nextCluster d c = none := if_pos (Or.inl h.last)

/-- One sector of the directory, in front of those of the next clusters. -/
theorem createInSubdir_succ (hf : Stands f c) (hflags : f.flags = .directory)
    (hrest : createInSubdir (bound + 2) d dosFileName flags junk n (nextFile d f) =
      some (created d sectors dosFileName flags)) :
    createInSubdir (bound + 2) d dosFileName flags junk (n + 1) f =
      some (created d (physSector c :: sectors) dosFileName flags) := by
  have hwrite : ∀ d buf, (fat12fsysWrite (bound + 2) d f buf 0 512#32).disk? =
      some (flpydskWriteSector d (physSector c) buf) := fun d buf =>
    (write_sector hf.position hflags).trans (by rw [hf.cluster])
  have hsame : SameSector (memcpy (fun _ => 0#8) 0 (currentSector d f) 0 512) (d.sectors (physSector c)) := by
    rw [currentSector, hf.cluster]
    exact sameSector_memcpy
  obtain ⟨more, d', hin, hdisk⟩ := createIn_eq bound junk
    (fun d' => createInSubdir (bound + 2) d' dosFileName flags junk n (nextFile d f)) hwrite hsame hrest
  rw [createInSubdir, if_neg (by rw [hf.eof]; decide)]
  dsimp only
  rw [read_sector hf.position, if_neg (by simp), hin]
  exact hdisk

/-- Every cluster of the chain is searched. -/
theorem createInSubdir_eq (hcs : Chain d (c :: cs)) (hf : Stands f c) (hflags : f.flags = .directory)
    (hfuel : cs.length + 2 ≤ fuel) : createInSubdir (bound + 2) d dosFileName flags junk fuel f =
      some (created d ((c :: cs).map physSector) dosFileName flags) := by
  induction cs generalizing c f fuel with
  | nil =>
    obtain ⟨more, rfl⟩ := Nat.exists_eq_add_of_le' hfuel
    have heof : (nextFile d f).eof = true := by rw [hf.eof_nextFile, hcs.nextCluster_last, Option.isNone_none]
    refine createInSubdir_succ hf hflags ?_
    rw [createInSubdir, if_pos heof]
    rfl
  | cons e cs ih =>
    rw [List.length_cons] at hfuel
    obtain ⟨more, rfl⟩ := Nat.exists_eq_add_of_le' (Nat.le_trans (Nat.le_add_left 1 _) hfuel)
    exact createInSubdir_succ hf hflags (ih hcs.tail (hf.next hcs.nextCluster_cons) (nextFile_flags.trans hflags)
      (by omega))

/-! ### The new entry -/

variable {attrib : Byte} {k : Nat}

/-- The bytes of the new entry. -/
theorem setEntry_byte (hname : dosFileName.length = 11) (hk : k < 32) :
    setEntry buf i dosFileName attrib c (32 * i + k) =
      if k < 11 then dosFileName.getD k 0#8 else if k = 11 then attrib else if k = 26 then BitVec.ofNat 8 c
      else if k = 27 then BitVec.ofNat 8 (c / 256) else 0#8 := by
  rw [setEntry]
  dsimp only
  rw [if_pos ⟨Nat.le_add_right _ _, Nat.add_lt_add_left hk _⟩, Nat.add_sub_cancel_left, List.append_assoc,
    List.append_assoc]
  split
  · next hlow => rw [List.getD_append _ _ _ _ (hname ▸ hlow)]
  · next hhigh =>
    obtain ⟨m, rfl⟩ := Nat.exists_eq_add_of_le (Nat.le_of_not_lt hhigh)
    rw [List.getD_append_right _ _ _ _ (by omega), hname, Nat.add_sub_cancel_left]
    have hm : m < 21 := by omega
    clear hk hhigh hname
    interval_cases m <;> rfl

theorem setEntry_of_not_mem (h : ¬ (32 * i ≤ k ∧ k < 32 * i + 32)) :
    setEntry buf i dosFileName attrib c k = buf k := if_neg h

theorem entryName_setEntry (hname : dosFileName.length = 11) :
    entryName (setEntry buf i dosFileName attrib c) i = dosFileName := by
  refine List.ext_getElem (by rw [entryName, List.length_map, List.length_range, hname]) fun k hk hk' => ?_
  simp only [entryName, List.getElem_map, List.getElem_range]
  rw [setEntry_byte hname (by omega), if_pos (by omega), List.getD_eq_getElem _ _ hk']

theorem entryFirstCluster_setEntry (hname : dosFileName.length = 11) :
    entryFirstCluster (setEntry buf i dosFileName attrib c) i = BitVec.ofNat 16 c := by
  rw [entryFirstCluster, Packed.word, setEntry_byte hname (by decide), Nat.add_assoc,
    setEntry_byte hname (by decide)]
  have happend := BitVec.toNat_append (BitVec.ofNat 8 (c / 256)) (BitVec.ofNat 8 c)
  rw [BitVec.toNat_ofNat, BitVec.toNat_ofNat, ← Nat.shiftLeft_add_eq_or_of_lt (Nat.mod_lt _ (by decide)),
    Nat.shiftLeft_eq] at happend
  refine BitVec.eq_of_toNat_eq (happend.trans ?_)
  rw [BitVec.toNat_ofNat]
  omega

theorem entryAttrib_setEntry (hname : dosFileName.length = 11) :
    entryAttrib (setEntry buf i dosFileName attrib c) i = attrib := by
  rw [entryAttrib, setEntry_byte hname (by decide)]
  rfl

theorem entryFileSize_setEntry (hname : dosFileName.length = 11) :
    entryFileSize (setEntry buf i dosFileName attrib c) i = 0#32 := by
  rw [entryFileSize, Packed.word, Packed.word, Nat.add_assoc, Nat.add_assoc, setEntry_byte hname (by decide),
    setEntry_byte hname (by decide), setEntry_byte hname (by decide), setEntry_byte hname (by decide)]
  simp

theorem length_toDosFileName {name : List Byte} (h : toDosFileName name = some dosFileName) :
    dosFileName.length = 11 := by
  obtain ⟨hshort, rfl⟩ := toDosFileName_eq_some h
  rw [TooLong] at hshort
  have hlength : (dosName (baseOf name) (extOf name)).length = 11 := by
    rw [dosName, List.length_append, List.length_rightpad, List.length_rightpad, toUpper_length, toUpper_length]
    omega
  split
  · rw [List.length_set, hlength]
  · exact hlength

/-! ### What a creation changes -/

/-- The slot has other bytes than before. -/
def Changed (d d' : Floppy) (p : Nat × Nat) : Prop :=
  ∃ k < 32, d'.sectors p.1 (32 * p.2 + k) ≠ d.sectors p.1 (32 * p.2 + k)

/-- The bytes of the slot are as before. -/
theorem byte_of_not_changed (h : ¬ Changed d d' p) (hk : k < 32) :
    d'.sectors p.1 (32 * p.2 + k) = d.sectors p.1 (32 * p.2 + k) := by
  by_contra hne
  exact h ⟨k, hk, hne⟩

theorem entryName_of_not_changed (h : ¬ Changed d d' p) :
    entryName (d'.sectors p.1) p.2 = entryName (d.sectors p.1) p.2 := by
  refine List.map_congr_left fun k hk => byte_of_not_changed h ?_
  have hlt := List.mem_range.mp hk
  omega

theorem isLive_of_not_changed (h : ¬ Changed d d' p) : IsLive d' p.1 p.2 ↔ IsLive d p.1 p.2 := by
  have hbyte : d'.sectors p.1 (32 * p.2) = d.sectors p.1 (32 * p.2) := byte_of_not_changed (k := 0) h (by decide)
  rw [IsLive, IsLive, hbyte]

theorem mem_slotsOf : p ∈ slotsOf sectors ↔ p.1 ∈ sectors ∧ p.2 < 16 := by
  rw [slotsOf, List.mem_flatMap]
  constructor
  · rintro ⟨s, hs, hp⟩
    obtain ⟨i, hi, rfl⟩ := List.mem_map.mp hp
    exact ⟨hs, List.mem_range.mp hi⟩
  · rintro ⟨hs, hi⟩
    exact ⟨p.1, hs, List.mem_map.mpr ⟨p.2, List.mem_range.mpr hi, rfl⟩⟩

/-- What a new entry in a slot changes: the slot, the table, and for a directory the sector of its cluster. -/
structure Puts (d d' : Floppy) (dosFileName : List Byte) (flags : Flags) (p : Nat × Nat) : Prop where
  name : entryName (d'.sectors p.1) p.2 = dosFileName
  cluster : (entryFirstCluster (d'.sectors p.1) p.2).toNat = firstFreeEntry d
  attrib : entryAttrib (d'.sectors p.1) p.2 = if flags = .directory then 0x10#8 else 0#8
  size : entryFileSize (d'.sectors p.1) p.2 = 0#32
  others : ∀ k, ¬ (32 * p.2 ≤ k ∧ k < 32 * p.2 + 32) → d'.sectors p.1 k = d.sectors p.1 k
  sectors : ∀ s ≥ 14, s ≠ p.1 → (flags = .directory → s ≠ physSector (firstFreeEntry d)) → d'.sectors s = d.sectors s
  cleared : flags = .directory → ∀ k < 512, d'.sectors (physSector (firstFreeEntry d)) k = 0#8
  taken : (fatEntry d' (firstFreeEntry d)).toNat = 0xFF8
  entries : ∀ c < 0xFF0, c ≠ firstFreeEntry d → fatEntry d' c = fatEntry d c

theorem flpydskWriteSector_of_ne {t : Nat} (h : t ≠ s) : (flpydskWriteSector d s buf).sectors t = d.sectors t := by
  funext k
  exact if_neg fun hin => h hin.1

theorem flpydskWriteSector_self (hk : k < 512) : (flpydskWriteSector d s buf).sectors s k = buf k := if_pos ⟨rfl, hk⟩

/-- The disk behind a new entry, from the one where its cluster was taken. -/
theorem putEntry_of_lt (he : firstFreeEntry d < 0xFF0) (dosFileName : List Byte) (flags : Flags) (p : Nat × Nat) :
    ∃ d₁, Occupies d d₁ 0 (firstFreeEntry d) ∧ putEntry d dosFileName flags p =
      let attrib := if flags = .directory then 0x10#8 else 0#8
      let d₂ := flpydskWriteSector d₁ p.1 (setEntry (d.sectors p.1) p.2 dosFileName attrib (firstFreeEntry d))
      if flags = .directory then flpydskWriteSector d₂ (physSector (firstFreeEntry d)) (fun _ => 0#8) else d₂ := by
  have hpos : 0 ≠ firstFreeEntry d := by
    obtain ⟨heq, -⟩ | ⟨hle, -⟩ := firstFreeEntry_cases d
    · rw [heq]
      decide
    · omega
  refine ⟨_, occupies_of_lt he (by decide) hpos, ?_⟩
  rw [putEntry]
  dsimp only
  rw [occupyFreeCluster_fst, if_neg (Nat.ne_of_lt he)]

theorem puts_putEntry (he : firstFreeEntry d < 0xFF0) (hname : dosFileName.length = 11) (hp : 14 ≤ p.1) (hi : p.2 < 16)
    (hfree : p.1 ≠ physSector (firstFreeEntry d)) : Puts d (putEntry d dosFileName flags p) dosFileName flags p := by
  obtain ⟨d₁, hocc, hput⟩ := putEntry_of_lt he dosFileName flags p
  dsimp only at hput
  generalize hattrib : (if flags = .directory then 0x10#8 else 0#8) = attrib at hput
  generalize hbuf : setEntry (d.sectors p.1) p.2 dosFileName attrib (firstFreeEntry d) = buf at hput
  have hkept : ∀ s, (flags = .directory → s ≠ physSector (firstFreeEntry d)) →
      (putEntry d dosFileName flags p).sectors s = (flpydskWriteSector d₁ p.1 buf).sectors s := by
    intro s hs
    rw [hput]
    split
    · next hdir => exact flpydskWriteSector_of_ne (hs hdir)
    · rfl
  have hsector := hkept p.1 fun _ => hfree
  have hsame : SameSector ((putEntry d dosFileName flags p).sectors p.1) buf := by
    intro k hk
    rw [hsector, flpydskWriteSector_self hk]
  have hlow : ∀ s ≤ 13, (putEntry d dosFileName flags p).sectors s = d₁.sectors s := by
    intro s hs
    rw [hkept s fun _ => by unfold physSector; omega, flpydskWriteSector_of_ne (by omega)]
  refine ⟨?_, ?_, ?_, ?_, fun k hk => ?_, fun s hs hne hdir => ?_, fun hdir k hk => ?_, ?_, fun c hc hne => ?_⟩
  · rw [hsame.entryName_eq hi, ← hbuf, entryName_setEntry hname]
  · rw [hsame.entryFirstCluster_eq hi, ← hbuf, entryFirstCluster_setEntry hname, BitVec.toNat_ofNat,
      Nat.mod_eq_of_lt (by omega)]
  · rw [hsame.entryAttrib_eq hi, ← hbuf, entryAttrib_setEntry hname, hattrib]
  · rw [hsame.entryFileSize_eq hi, ← hbuf, entryFileSize_setEntry hname]
  · rw [hsector, flpydskWriteSector]
    dsimp only
    rw [hocc.sectors _ hp, ← hbuf, setEntry_of_not_mem hk]
    exact ite_self _
  · rw [hkept s hdir, flpydskWriteSector_of_ne hne, hocc.sectors s hs]
  · rw [hput, if_pos hdir, flpydskWriteSector_self hk]
  · rw [fatEntry_of_sectors he hlow, hocc.taken]
  · rw [fatEntry_of_sectors hc hlow, hocc.entries c hne fun hzero => absurd rfl hzero]

theorem Puts.changed (h : Puts d d' dosFileName flags p) (hzero : entryFirstCluster (d.sectors p.1) p.2 = 0#16)
    (he : 2 ≤ firstFreeEntry d) : Changed d d' p := by
  by_contra hsame
  have hcluster := h.cluster
  have hword : entryFirstCluster (d'.sectors p.1) p.2 = entryFirstCluster (d.sectors p.1) p.2 := by
    rw [entryFirstCluster, entryFirstCluster, Packed.word, Packed.word, Nat.add_assoc,
      byte_of_not_changed hsame (by decide), byte_of_not_changed hsame (by decide)]
  rw [hword, hzero] at hcluster
  rw [← hcluster] at he
  exact absurd he (by decide)

theorem Puts.not_changed (h : Puts d d' dosFileName flags p) (hs : 14 ≤ q.1)
    (hfree : q.1 ≠ physSector (firstFreeEntry d)) (hne : q ≠ p) : ¬ Changed d d' q := by
  rintro ⟨k, hk, hbyte⟩
  by_cases hsector : q.1 = p.1
  · rw [hsector] at hbyte
    have hnumber : q.2 ≠ p.2 := fun heq => hne (Prod.ext hsector heq)
    exact hbyte (h.others _ (by omega))
  · rw [h.sectors q.1 hs hsector fun _ => hfree] at hbyte
    exact hbyte rfl

end Akos.Fat12
