import Akos.Fat12.Steps

/-!
# Chains read sector by sector

What a directory holds is read one sector at a time: from the start of its cluster to the next cluster, or to the
end of the chain. The chain need not be well formed for that.
-/

namespace Akos.Fat12

variable {d : Floppy} {f : FILE} {c e i fuel : Nat} {memory buf buf' : Nat → Byte} {dir : FloppyDir}
  {length : BitVec 32}

/-- The cluster behind one, unless the chain ends there. -/
def nextCluster (d : Floppy) (c : Nat) : Option Nat :=
  let entry := (fatEntry d c).toNat
  if entry ≥ 0xFF8 ∨ entry = 0 then none else some entry

/-- The handle behind its sector. -/
def nextFile (d : Floppy) (f : FILE) : FILE :=
  (nextCluster d f.currentCluster).elim { f with eof := true } fun c => { f with currentCluster := c, position := 0#32 }

/-- The sector the handle stands at. -/
def currentSector (d : Floppy) (f : FILE) : Nat → Byte := flpydskReadSector d (physSector f.currentCluster)

/-- A handle at the start of a cluster. -/
structure Stands (f : FILE) (c : Nat) : Prop where
  cluster : f.currentCluster = c
  position : f.position = 0#32
  eof : f.eof = false

theorem nextFile_of_none (h : nextCluster d f.currentCluster = none) : nextFile d f = { f with eof := true } := by
  rw [nextFile, h, Option.elim_none]

theorem nextFile_of_some (h : nextCluster d f.currentCluster = some e) :
    nextFile d f = { f with currentCluster := e, position := 0#32 } := by
  rw [nextFile, h, Option.elim_some]

theorem Stands.next (hf : Stands f c) (h : nextCluster d c = some e) : Stands (nextFile d f) e := by
  rw [nextFile_of_some (hf.cluster ▸ h)]
  exact ⟨rfl, rfl, hf.eof⟩

theorem Stands.eof_nextFile (hf : Stands f c) : (nextFile d f).eof = (nextCluster d c).isNone := by
  cases h : nextCluster d c with
  | none =>
    rw [nextFile_of_none (hf.cluster ▸ h)]
    rfl
  | some e =>
    rw [(hf.next h).eof]
    rfl

theorem nextFile_flags : (nextFile d f).flags = f.flags := by
  rw [nextFile]
  cases nextCluster d f.currentCluster <;> rfl

/-- Where no sector is added to the chain: behind the last byte of a transfer, and in every read. -/
theorem nextSector_of_stops (hstop : ¬ (length > 0#32 ∧ dir = .write)) :
    nextSector dir d f length = ((nextCluster d f.currentCluster).isSome, d, nextFile d f) := by
  have hstop' : ¬ (length > 0#32 ∧ dir = .write ∧ (fatEntry d f.currentCluster).toNat ≥ 0xFF8) :=
    fun h => hstop ⟨h.1, h.2.1⟩
  rw [nextSector]
  dsimp only
  rw [if_neg hstop']
  by_cases hend : (fatEntry d f.currentCluster).toNat ≥ 0xFF8
  · have hnone : nextCluster d f.currentCluster = none := if_pos (Or.inl hend)
    rw [if_pos ⟨hend, hstop⟩, nextFile_of_none hnone, hnone]
    rfl
  rw [if_neg fun h => hend h.1]
  by_cases hzero : (fatEntry d f.currentCluster).toNat = 0
  · have hnone : nextCluster d f.currentCluster = none := if_pos (Or.inr hzero)
    rw [if_pos hzero, nextFile_of_none hnone, hnone]
    rfl
  · have hsome : nextCluster d f.currentCluster = some (fatEntry d f.currentCluster).toNat :=
      if_neg fun h => h.elim hend hzero
    rw [if_neg hzero, nextFile_of_some hsome, hsome]
    rfl

theorem nextSector_zero (dir : FloppyDir) :
    nextSector dir d f 0#32 = ((nextCluster d f.currentCluster).isSome, d, nextFile d f) :=
  nextSector_of_stops fun h => absurd h.1 (by decide)

theorem nextSector_of_read (length : BitVec 32) :
    nextSector .read d f length = ((nextCluster d f.currentCluster).isSome, d, nextFile d f) :=
  nextSector_of_stops fun h => absurd h.2 (by decide)

/-- A whole sector, from its start. -/
theorem rw_sector (dir : FloppyDir) (hposition : f.position = 0#32) : fat12fsysRw dir (fuel + 2) d f memory 0 512#32 =
    ⟨(copySector dir d f memory 0 512#32).1, nextFile (copySector dir d f memory 0 512#32).1 f,
      (copySector dir d f memory 0 512#32).2, true⟩ := by
  have hends : endsInSector f 512#32 = (false, f) := by
    unfold endsInSector
    rw [hposition]
    rfl
  have hlength : (512#32 - (512#32 - 0#32) : BitVec 32) = 0#32 := rfl
  have hbody : ∃ more buffer, rwSector dir d f memory 0 512#32 = (more,
      ⟨(copySector dir d f memory 0 512#32).1, nextFile (copySector dir d f memory 0 512#32).1 f,
        (copySector dir d f memory 0 512#32).2, true⟩, buffer, 0#32) := by
    rw [rwSector]
    dsimp only
    rw [hends, hposition, if_neg Bool.false_ne_true, hlength, nextSector_zero]
    exact ⟨_, _, rfl⟩
  obtain ⟨more, buffer, hbody⟩ := hbody
  rw [rw_eq (by decide), hbody]
  split
  · exact rw_zero rfl
  · rfl

theorem copySector_read_sector (hposition : f.position = 0#32) :
    copySector .read d f memory 0 512#32 = (d, memcpy memory 0 (currentSector d f) 0 512) := by
  unfold copySector currentSector
  dsimp only
  rw [hposition]
  rfl

theorem read_sector (hposition : f.position = 0#32) : fat12fsysRead (fuel + 2) d f memory 0 512#32 =
    ⟨d, nextFile d f, memcpy memory 0 (currentSector d f) 0 512, true⟩ := by
  rw [fat12fsysRead, rw_sector .read hposition, copySector_read_sector hposition]

/-- Whatever the bound on its steps, a read that returns is this one. -/
theorem read_sector_of_returned (hposition : f.position = 0#32)
    (h : (fat12fsysRead fuel d f memory 0 512#32).returned = true) : fat12fsysRead fuel d f memory 0 512#32 =
      ⟨d, nextFile d f, memcpy memory 0 (currentSector d f) 0 512, true⟩ := by
  have hread : fat12fsysRead 2 d f memory 0 512#32 =
      ⟨d, nextFile d f, memcpy memory 0 (currentSector d f) 0 512, true⟩ := read_sector hposition
  rw [← hread]
  exact rw_unique h (congrArg Transfer.returned hread)

/-! ### Entries in a sector -/

/-- The two hold the same bytes in the first sector. -/
def SameSector (buf buf' : Nat → Byte) : Prop := ∀ k < 512, buf k = buf' k

theorem sameSector_memcpy : SameSector (memcpy memory 0 buf 0 512) buf := by
  intro k hk
  rw [memcpy, if_pos ⟨Nat.zero_le k, by omega⟩, Nat.zero_add, Nat.sub_zero]

namespace SameSector

variable (h : SameSector buf buf') (hi : i < 16)
include h hi

theorem entryName_eq : entryName buf i = entryName buf' i := by
  refine List.map_congr_left fun k hk => h _ ?_
  have hlt := List.mem_range.mp hk
  omega

theorem word_eq {k : Nat} (hk : k < 31) : Packed.word buf (32 * i + k) = Packed.word buf' (32 * i + k) := by
  rw [Packed.word, Packed.word, h _ (by omega), h _ (by omega)]

theorem entryFirstCluster_eq : entryFirstCluster buf i = entryFirstCluster buf' i := h.word_eq hi (by decide)

theorem entryFileSize_eq : entryFileSize buf i = entryFileSize buf' i := by
  rw [entryFileSize, entryFileSize, h.word_eq hi (by decide), h.word_eq hi (by decide)]

theorem entryAttrib_eq : entryAttrib buf i = entryAttrib buf' i := h _ (by omega)

theorem fileOfEntry_eq {junk : FILE} {name : List Byte} {parent : Int} :
    fileOfEntry junk name buf i parent = fileOfEntry junk name buf' i parent := by
  rw [fileOfEntry, fileOfEntry, h.entryFirstCluster_eq hi, h.entryFileSize_eq hi, h.entryAttrib_eq hi, entryDateCreated,
    entryDateCreated, entryTimeCreated, entryTimeCreated, h.word_eq hi (by decide), h.word_eq hi (by decide)]

end SameSector

theorem SameSector.findEntry_eq {dosFileName : List Byte} (h : SameSector buf buf') :
    findEntry buf dosFileName = findEntry buf' dosFileName := by
  have hmem : ∀ i ∈ List.range 16, strcmp dosFileName (cString (entryName buf i)) =
      strcmp dosFileName (cString (entryName buf' i)) := by
    intro i hi
    rw [h.entryName_eq (List.mem_range.mp hi)]
  rw [findEntry, findEntry]
  generalize List.range 16 = is at hmem
  induction is with
  | nil => rfl
  | cons i is ih =>
    rw [List.find?_cons, List.find?_cons, hmem i List.mem_cons_self,
      ih fun j hj => hmem j (List.mem_cons_of_mem i hj)]

theorem findEntry_lt {dosFileName : List Byte} (h : findEntry buf dosFileName = some i) : i < 16 :=
  List.mem_range.mp (List.mem_of_find?_eq_some h)

end Akos.Fat12
