import Akos.Fat12.Clusters

/-!
# The steps of a transfer

A transfer works on one sector and passes the rest on. Here is what one step does for a handle at a place of its
chain, and that neither the result nor the sectors written depend on the bound on the steps, once it is high enough.
-/

namespace Akos.Fat12

variable {d d' d'' : Floppy} {f f' : FILE} {cs new new' rest : List Nat} {c e i k n p q s : Nat} {dir : FloppyDir}
  {memory src : Nat → Byte} {buffer fuel : Nat} {length : BitVec 32}

/-- Byte `k` of the sectors of a chain. -/
def fileByte (d : Floppy) (cs : List Nat) (k : Nat) : Byte :=
  flpydskReadSector d (physSector (cs.getD (k / 512) 0)) (k % 512)

/-- A transfer can end here in a sector: at its end, or where the length of a file reaches to. -/
def FILE.EndsAt (f : FILE) (t : Nat) : Prop := t ≠ 0 → f.flags ≠ .directory ∧ t ≤ f.fileLength.toNat

/-- The handle stands at place `p` of the chain. -/
structure At (f : FILE) (cs : List Nat) (p : Nat) : Prop where
  cluster : f.currentCluster = cs.getD (p / 512) 0
  position : f.position.toNat = p % 512

theorem physSector_injective (h : physSector c = physSector e) : c = e := Nat.add_left_cancel h

/-! ### Steps of a transfer -/

theorem written_setFatEntry (v : Nat) : d.written ⊆ (setFatEntry d c v).written := fun _ hs =>
  List.mem_cons_of_mem _ (List.mem_cons_of_mem _ hs)

theorem written_occupyFreeCluster (chain : Nat) : d.written ⊆ (fat12fsysOccupyFreeCluster d chain).2.written := by
  unfold fat12fsysOccupyFreeCluster
  dsimp only
  split <;> split
  · exact List.Subset.trans (written_setFatEntry _) (written_setFatEntry _)
  · exact written_setFatEntry _
  · exact written_setFatEntry _
  · exact List.Subset.refl _

theorem written_copySector (dir : FloppyDir) (d : Floppy) (f : FILE) (memory : Nat → Byte) (buffer : Nat)
    (length : BitVec 32) : d.written ⊆ (copySector dir d f memory buffer length).1.written := by
  cases dir with
  | read => exact List.Subset.refl _
  | write => exact List.subset_cons_self _ _

theorem written_nextSector (dir : FloppyDir) (d : Floppy) (f : FILE) (length : BitVec 32) :
    d.written ⊆ (nextSector dir d f length).2.1.written := by
  unfold nextSector
  dsimp only
  split
  · exact List.Subset.refl _
  · split
    · exact List.Subset.refl _
    · split
      · exact written_occupyFreeCluster _
      · exact List.Subset.refl _

theorem written_rwSector (dir : FloppyDir) (d : Floppy) (f : FILE) (memory : Nat → Byte) (buffer : Nat)
    (length : BitVec 32) : d.written ⊆ (rwSector dir d f memory buffer length).2.1.disk.written := by
  unfold rwSector
  dsimp only
  split
  · exact written_copySector dir d f memory buffer length
  · have hnext := written_nextSector dir (copySector dir d f memory buffer length).1 (endsInSector f length).2
      (length - (512#32 - f.position))
    generalize nextSector dir _ _ _ = next at hnext ⊢
    exact List.Subset.trans (written_copySector dir d f memory buffer length) hnext

/-- A transfer of no bytes. -/
theorem rw_zero (h : length.toNat = 0) :
    fat12fsysRw dir (fuel + 1) d f memory buffer length = ⟨d, f, memory, true⟩ := by
  have hzero : length = 0#32 := BitVec.eq_of_toNat_eq h
  rw [fat12fsysRw, if_pos hzero]

/-- A transfer of at least one byte, with the call that may follow. -/
theorem rw_eq (hzero : length ≠ 0#32) (fuel : Nat) : fat12fsysRw dir (fuel + 1) d f memory buffer length =
    if (rwSector dir d f memory buffer length).1 then
      fat12fsysRw dir fuel (rwSector dir d f memory buffer length).2.1.disk
        (rwSector dir d f memory buffer length).2.1.file (rwSector dir d f memory buffer length).2.1.memory
        (rwSector dir d f memory buffer length).2.2.1 (rwSector dir d f memory buffer length).2.2.2
    else (rwSector dir d f memory buffer length).2.1 := by
  rw [fat12fsysRw, if_neg hzero]

/-- A transfer that has returned does so with every higher bound on its steps. -/
theorem rw_succ (h : (fat12fsysRw dir fuel d f memory buffer length).returned = true) :
    fat12fsysRw dir (fuel + 1) d f memory buffer length = fat12fsysRw dir fuel d f memory buffer length := by
  induction fuel generalizing d f memory buffer length with
  | zero => cases h
  | succ fuel ih =>
    by_cases hzero : length = 0#32
    · rw [fat12fsysRw, fat12fsysRw, if_pos hzero, if_pos hzero]
    rw [rw_eq hzero] at h
    rw [rw_eq hzero (fuel + 1), rw_eq hzero fuel]
    generalize rwSector dir d f memory buffer length = next at h
    split at h
    · next hmore =>
      rw [if_pos hmore, if_pos hmore]
      exact ih h
    · next hmore => rw [if_neg hmore, if_neg hmore]

theorem rw_le {fuel' : Nat} (h : (fat12fsysRw dir fuel d f memory buffer length).returned = true)
    (hle : fuel ≤ fuel') :
    fat12fsysRw dir fuel' d f memory buffer length = fat12fsysRw dir fuel d f memory buffer length := by
  induction fuel', hle using Nat.le_induction with
  | base => rfl
  | succ fuel' _ ih =>
    rw [rw_succ (by rw [ih]; exact h), ih]

/-- All bounds that let the transfer return give the same result. -/
theorem rw_unique {fuel' : Nat} (h : (fat12fsysRw dir fuel d f memory buffer length).returned = true)
    (h' : (fat12fsysRw dir fuel' d f memory buffer length).returned = true) :
    fat12fsysRw dir fuel d f memory buffer length = fat12fsysRw dir fuel' d f memory buffer length := by
  rcases Nat.le_total fuel fuel' with hle | hle
  · rw [rw_le h hle]
  · rw [rw_le h' hle]

theorem written_rw : d.written ⊆ (fat12fsysRw dir fuel d f memory buffer length).disk.written := by
  induction fuel generalizing d f memory buffer length with
  | zero => exact List.Subset.refl _
  | succ fuel ih =>
    by_cases hzero : length = 0#32
    · rw [fat12fsysRw, if_pos hzero]
      exact List.Subset.refl _
    rw [rw_eq hzero]
    have hsector := written_rwSector dir d f memory buffer length
    generalize rwSector dir d f memory buffer length = next at hsector
    split
    · exact List.Subset.trans hsector ih
    · exact hsector

/-! ### One sector of a transfer -/

/-- The test for the end leaves all of the handle but its position. -/
theorem endsInSector_file (c : Nat) : { (endsInSector f length).2 with currentCluster := c, position := 0#32 } =
    { f with currentCluster := c, position := 0#32 } := by
  unfold endsInSector
  split <;> rfl

theorem endsInSector_cluster : (endsInSector f length).2.currentCluster = f.currentCluster := by
  unfold endsInSector
  split <;> rfl


/-- What is left of the sector behind a place. -/
theorem toNat_left {position : BitVec 32} (h : position.toNat < 512) :
    (512#32 - position).toNat = 512 - position.toNat := by
  rw [BitVec.toNat_sub, BitVec.toNat_ofNat]
  omega

theorem copyCount_eq {position : BitVec 32} (h : position.toNat < 512) (length : BitVec 32) :
    copyCount position length = min length.toNat (512 - position.toNat) := by
  have hleft := toNat_left h
  unfold copyCount
  dsimp only
  split
  · next hge =>
    rw [ge_iff_le, BitVec.le_def, hleft] at hge
    rw [BitVec.toInt_eq_toNat_of_lt (by omega), hleft]
    omega
  · next hlt =>
    rw [ge_iff_le, BitVec.le_def, hleft] at hlt
    rw [BitVec.toInt_eq_toNat_of_lt (by omega)]
    omega

/-- The chain goes on. -/
theorem nextSector_link (h : f.currentCluster = cs.getD i 0) (hcs : Chain d cs) (hi : i + 1 < cs.length) :
    nextSector dir d f length =
      (true, d, { f with currentCluster := cs.getD (i + 1) 0, position := 0#32 }) := by
  have hnext := hcs.next _ hi
  have hdata := hcs.data _ (Chain.getD_mem hi)
  have hlt := hdata.2
  have hge := hdata.1
  unfold nextSector
  dsimp only
  rw [h, hnext, if_neg fun hend => by omega, if_neg (by omega), if_neg fun hend => by omega]

/-- The chain ends, and nothing more is to be written. -/
theorem nextSector_end (h : f.currentCluster = cs.getD i 0) (hcs : Chain d cs) (hi : i + 1 = cs.length)
    (hstop : ¬ (length > 0#32 ∧ dir = .write)) :
    nextSector dir d f length = (false, d, { f with eof := true }) := by
  have hlast := hcs.last
  rw [← hi, Nat.add_sub_cancel] at hlast
  unfold nextSector
  dsimp only
  rw [h, if_pos ⟨hlast, hstop⟩]

/-- The chain ends, and a cluster is taken. -/
theorem nextSector_occupy (h : f.currentCluster = cs.getD i 0) (hcs : Chain d cs) (hi : i + 1 = cs.length)
    (hmore : length > 0#32) :
    nextSector .write d f length =
      (true, (fat12fsysOccupyFreeCluster d (cs.getD (cs.length - 1) 0)).2,
        { f with currentCluster := firstFreeEntry d, position := 0#32 }) := by
  have hlast := hcs.last
  have hindex : cs.length - 1 = i := by omega
  rw [hindex] at hlast
  unfold nextSector
  dsimp only
  rw [h, if_neg fun hend => hend.2 ⟨hmore, rfl⟩, if_neg (by omega), if_pos ⟨hmore, rfl, hlast⟩, hindex,
    occupyFreeCluster_fst]

namespace At

theorem position_lt (h : At f cs p) : f.position.toNat < 512 := by
  rw [h.position]
  exact Nat.mod_lt p (by decide)

theorem toNat_left (h : At f cs p) : (512#32 - f.position).toNat = 512 - p % 512 := by
  rw [Fat12.toNat_left h.position_lt, h.position]

/-- The place is kept when the chain grows. -/
theorem append (h : At f cs p) (hp : p < 512 * cs.length) (new : List Nat) : At f (cs ++ new) p where
  cluster := by rw [h.cluster, List.getD_append _ _ _ _ (Nat.div_lt_of_lt_mul hp)]
  position := h.position

/-- A transfer that ends in front of the end of the sector. -/
theorem rw_inSector (h : At f cs p) (hn : 0 < length.toNat) (hshort : p % 512 + length.toNat < 512)
    (hends : f.EndsAt (p % 512 + length.toNat)) :
    fat12fsysRw dir (fuel + 1) d f memory buffer length =
      ⟨(copySector dir d f memory buffer length).1, { f with position := BitVec.ofNat 32 (p % 512 + length.toNat) },
        (copySector dir d f memory buffer length).2, true⟩ := by
  have hposition := h.position
  have hsum : f.position + length = BitVec.ofNat 32 (p % 512 + length.toNat) := by
    refine BitVec.eq_of_toNat_eq ?_
    rw [BitVec.toNat_add, BitVec.toNat_ofNat, hposition]
  have htoNat : (f.position + length).toNat = p % 512 + length.toNat := by
    rw [hsum, BitVec.toNat_ofNat, Nat.mod_eq_of_lt (by omega)]
  have hin : length < 512#32 - f.position := by
    rw [BitVec.lt_def, h.toNat_left]
    omega
  obtain ⟨hflags, hlen⟩ := hends (by omega)
  have hlt : f.position + length < 512#32 := by
    rw [BitVec.lt_def, htoNat]
    exact hshort
  have hle : f.position + length ≤ f.fileLength := by
    rw [BitVec.le_def, htoNat]
    exact hlen
  have hne : length ≠ 0#32 := by
    rintro rfl
    exact Nat.lt_irrefl _ hn
  have hended : endsInSector f length = (true, { f with position := BitVec.ofNat 32 (p % 512 + length.toNat) }) := by
    unfold endsInSector
    dsimp only
    rw [if_pos hin, decide_eq_true ⟨hlt, hle, hflags⟩, hsum]
  rw [fat12fsysRw, if_neg hne, rwSector]
  dsimp only
  rw [hended, if_pos rfl, if_neg Bool.false_ne_true]

/-- A transfer that reaches the end of the sector. -/
theorem rw_toEnd (h : At f cs p) (hlong : 512 - p % 512 ≤ length.toNat) :
    fat12fsysRw dir (fuel + 1) d f memory buffer length =
      let copied := copySector dir d f memory buffer length
      let next := nextSector dir copied.1 f (length - (512#32 - f.position))
      if next.1 then fat12fsysRw dir fuel next.2.1 next.2.2 copied.2 (buffer + (512 - p % 512))
        (length - (512#32 - f.position))
      else ⟨next.2.1, next.2.2, copied.2, true⟩ := by
  have hin : ¬ length < 512#32 - f.position := by
    rw [BitVec.lt_def, h.toNat_left]
    omega
  have hne : length ≠ 0#32 := by
    rintro rfl
    have := Nat.mod_lt p (show 0 < 512 by decide)
    exact absurd hlong (by rw [BitVec.toNat_ofNat]; omega)
  have hended : endsInSector f length = (false, f) := if_neg hin
  rw [fat12fsysRw, if_neg hne, rwSector]
  dsimp only
  rw [hended, if_neg Bool.false_ne_true, h.toNat_left]

theorem toNat_rest (h : At f cs p) (hlong : 512 - p % 512 ≤ length.toNat) :
    (length - (512#32 - f.position)).toNat = length.toNat - (512 - p % 512) := by
  have hlt := length.isLt
  rw [BitVec.toNat_sub, h.toNat_left]
  omega

theorem copySector_write (h : At f cs p) : copySector .write d f memory buffer length =
    (flpydskWriteSector d (physSector (cs.getD (p / 512) 0))
      (memcpy (d.sectors (physSector (cs.getD (p / 512) 0))) (p % 512) memory buffer
        (min length.toNat (512 - p % 512))), memory) := by
  unfold copySector
  dsimp only
  rw [h.cluster, copyCount_eq h.position_lt, h.position]
  rfl

theorem copySector_read (h : At f cs p) : copySector .read d f memory buffer length =
    (d, memcpy memory buffer (fileByte d cs) p (min length.toNat (512 - p % 512))) := by
  have hmod := Nat.mod_lt p (show 0 < 512 by decide)
  unfold copySector
  dsimp only
  rw [h.cluster, copyCount_eq h.position_lt, h.position]
  refine congrArg (Prod.mk d) (funext fun k => ?_)
  unfold memcpy
  split
  · next hin =>
    have hdiv : (p + (k - buffer)) / 512 = p / 512 := by omega
    have hrest : (p + (k - buffer)) % 512 = p % 512 + (k - buffer) := by omega
    rw [fileByte, hdiv, hrest]
  · rfl

/-- A handle that was put at the start of a sector. -/
theorem start (h : f.currentCluster = cs.getD i 0) (hpos : f.position = 0#32) : At f cs (512 * i) where
  cluster := by rw [h, Nat.mul_div_cancel_left _ (by decide)]
  position := by rw [hpos, Nat.mul_mod_right, BitVec.toNat_zero]

end At

end Akos.Fat12
