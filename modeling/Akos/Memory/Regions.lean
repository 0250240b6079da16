import Akos.Memory.Boot

/-!
# Memory the firmware reports

Which frames `pmmngr_init_memory_regions` releases. It reads the low halves of an entry only, rounds start and
size to frames one by one, compares the first frame with the end of memory, and takes every type above 4 for
available memory. The frames it counts for an entry need not be the frames of available memory.
-/

namespace Akos.Pmm

namespace MemoryRegion

/-- The 64-bit start of an entry. -/
def start (r : MemoryRegion) : Nat := (r.startHi ++ r.startLo).toNat

/-- The 64-bit size of an entry. -/
def size (r : MemoryRegion) : Nat := (r.sizeHi ++ r.sizeLo).toNat

/-- The frame lies wholly in the byte range of the entry. -/
def Holds (r : MemoryRegion) (frame : Nat) : Prop :=
  r.start ≤ 4096 * frame ∧ 4096 * frame + 4096 ≤ r.start + r.size

instance (r : MemoryRegion) (frame : Nat) : Decidable (r.Holds frame) := inferInstanceAs (Decidable (_ ∧ _))

/-- The code counts the frame to the entry. -/
def Counts (r : MemoryRegion) (frame : Nat) : Prop :=
  frameOf r.startLo ≤ frame ∧ frame < frameOf r.startLo + regionBlocks r.sizeLo

end MemoryRegion

/-- The frame lies in an entry that the firmware reports as available. -/
def Available (regions : List MemoryRegion) (frame : Nat) : Prop :=
  ∃ r ∈ regions.take 15, r.type = 1#32 ∧ r.Holds frame

/-- The entries clear the bit of the frame. -/
def Clears (s : Pmm) (regions : List MemoryRegion) (frame : Nat) : Prop :=
  s.mmapTest frame = true ∧ (s.pmmngrInitMemoryRegions regions).mmapTest frame = false

/-- Only available memory is released, and no bit from the block count on, whatever was in the bitmap's memory. -/
def ReleasesAvailable (memSize : BitVec 32) (regions : List MemoryRegion) : Prop :=
  ∀ bitmap frame, Clears (pmmngrInit memSize bitmap) regions frame →
    (frame : Int) < (pmmngrInit memSize bitmap).pmmngrGetBlockCount ∧ Available regions frame

/-- The frames that are counted to an entry the code releases, but for the first frame of memory, are available
and below the block count. -/
def CountsAvailable (memSize : BitVec 32) (regions : List MemoryRegion) : Prop :=
  ∀ r ∈ releasedFrom 0 (regions.take 15), frameOf r.startLo / 8 < bitmapBytes memSize →
    ∀ frame, r.Counts frame → 0 < frame → (frame : Int) < blockCount memSize ∧ Available regions frame

variable {memSize : BitVec 32} {regions : List MemoryRegion} {s : Pmm} {frame : Nat}

/-- The first frame stays in use. -/
theorem mmapTest_zero_initRegionsFrom (h : s.mmapTest 0 = true) (i : Nat) :
    (s.initRegionsFrom i regions).mmapTest 0 = true := by
  induction regions generalizing s i with
  | nil => exact h
  | cons r rest ih =>
    unfold initRegionsFrom
    split
    · exact h
    · apply ih
      split
      · unfold pmmngrInitRegion
        split
        · exact h
        · exact WordMap.test_set_self _ _
      · exact h

theorem clears_iff (hcount : s.pmmngrGetBlockCount = blockCount memSize) :
    Clears s regions frame ↔
      s.mmapTest frame = true ∧ 0 < frame ∧ ∃ r ∈ releasedFrom 0 (regions.take 15),
        frameOf r.startLo / 8 < bitmapBytes memSize ∧ r.Counts frame := by
  unfold Clears pmmngrInitMemoryRegions
  constructor
  · intro h
    obtain ⟨hset, hclear⟩ := h
    have hpos : 0 < frame := by
      by_contra hzero
      obtain rfl : frame = 0 := by omega
      rw [mmapTest_zero_initRegionsFrom hset] at hclear
      cases hclear
    refine ⟨hset, hpos, ?_⟩
    by_contra hnone
    rw [(mmapTest_initRegionsFrom hcount 0 _ hpos).mpr ⟨hset, hnone⟩] at hclear
    cases hclear
  · intro h
    obtain ⟨hset, hpos, hcounted⟩ := h
    refine ⟨hset, Bool.eq_false_iff.mpr fun hkept => ?_⟩
    exact ((mmapTest_initRegionsFrom hcount 0 _ hpos).mp hkept).2 hcounted

theorem CountsAvailable.releases (h : CountsAvailable memSize regions) : ReleasesAvailable memSize regions := by
  intro bitmap frame hclears
  obtain ⟨-, hpos, r, hr, hbelow, hcounted⟩ := (clears_iff (pmmngrInit_blockCount memSize bitmap)).mp hclears
  rw [pmmngrInit_blockCount]
  exact h r hr hbelow frame hcounted hpos

theorem ReleasesAvailable.counts (h : ReleasesAvailable memSize regions) : CountsAvailable memSize regions := by
  intro r hr hbelow frame hcounts hpos
  -- a bitmap with the bit set shows that it is cleared
  have hset : (pmmngrInit memSize (WordMap.setRun (fun _ => 0#32) 0 (frame + 1))).mmapTest frame = true := by
    simp [mmapTest, pmmngrInit, WordMap.test_setRun]
  have hclears := (clears_iff (pmmngrInit_blockCount memSize _)).mpr ⟨hset, hpos, r, hr, hbelow, hcounts⟩
  have hright := h _ frame hclears
  rwa [pmmngrInit_blockCount] at hright

/-- Only available memory is released exactly when the frames counted to the entries are available memory. -/
theorem releasesAvailable_iff (memSize : BitVec 32) (regions : List MemoryRegion) :
    ReleasesAvailable memSize regions ↔ CountsAvailable memSize regions :=
  ⟨ReleasesAvailable.counts, CountsAvailable.releases⟩

/-! ### Plain maps -/

theorem mem_of_mem_releasedFrom {r : MemoryRegion} {i : Nat} (h : r ∈ releasedFrom i regions) :
    r ∈ regions ∧ r.sanitized = 1#32 := by
  induction regions generalizing i with
  | nil => cases h
  | cons q rest ih =>
    unfold releasedFrom at h
    split at h
    · cases h
    split at h
    · next htype =>
      rcases List.mem_cons.mp h with rfl | h
      · exact ⟨List.mem_cons_self, htype⟩
      · exact ⟨List.mem_cons_of_mem _ (ih h).1, (ih h).2⟩
    · exact ⟨List.mem_cons_of_mem _ (ih h).1, (ih h).2⟩

/-- An entry of whole frames below 4 GB. -/
structure MemoryRegion.Plain (r : MemoryRegion) : Prop where
  startHi : r.startHi = 0#32
  sizeHi : r.sizeHi = 0#32
  start_aligned : r.startLo.toNat % 4096 = 0
  size_aligned : r.sizeLo.toNat % 4096 = 0

theorem regionBlocks_of_aligned {size : BitVec 32} (h : size.toNat % 4096 = 0) :
    regionBlocks size = size.toNat / 4096 := by
  have hzero : size % blockSize = 0#32 := by
    apply BitVec.eq_of_toNat_eq
    rw [BitVec.toNat_umod, toNat_blockSize, h]
    rfl
  rw [regionBlocks, roundUp, if_neg (not_not_intro hzero), BitVec.toNat_udiv, toNat_blockSize]

theorem MemoryRegion.Plain.holds {r : MemoryRegion} (h : r.Plain) (hcounts : r.Counts frame) : r.Holds frame := by
  obtain ⟨hlo, hhi⟩ := hcounts
  have hstart : r.start = r.startLo.toNat := by
    rw [MemoryRegion.start, h.startHi, BitVec.toNat_append]
    simp
  have hsize : r.size = r.sizeLo.toNat := by
    rw [MemoryRegion.size, h.sizeHi, BitVec.toNat_append]
    simp
  have := h.start_aligned
  have := h.size_aligned
  rw [frameOf_eq] at hlo hhi
  rw [regionBlocks_of_aligned h.size_aligned] at hhi
  unfold MemoryRegion.Holds
  omega

/-- A map of known types whose available entries are plain and end below the end of memory. -/
theorem releasesAvailable_of_plain (htypes : ∀ r ∈ regions.take 15, r.type ≤ 4#32)
    (hplain : ∀ r ∈ regions.take 15, r.type = 1#32 → r.Plain ∧
      ((r.startLo.toNat + r.sizeLo.toNat) / 4096 : Int) ≤ blockCount memSize) :
    ReleasesAvailable memSize regions := by
  apply CountsAvailable.releases
  intro r hr hbelow frame hcounts hpos
  obtain ⟨hmem, hsanitized⟩ := mem_of_mem_releasedFrom hr
  have htype : r.type = 1#32 := by
    rwa [MemoryRegion.sanitized, if_neg (by simpa using htypes r hmem)] at hsanitized
  obtain ⟨hr, hend⟩ := hplain r hmem htype
  refine ⟨?_, r, hmem, htype, hr.holds hcounts⟩
  have := hr.start_aligned
  have hhi := hcounts.2
  rw [frameOf_eq, regionBlocks_of_aligned hr.size_aligned] at hhi
  omega

example : ReleasesAvailable 131072#32 plainRegions :=
  releasesAvailable_of_plain (by decide) fun r hr _ => by
    obtain rfl := List.mem_singleton.mp hr
    exact ⟨⟨rfl, rfl, rfl, rfl⟩, by decide⟩

/-- One entry of a type that is not known. -/
def unknownRegion : MemoryRegion := ⟨0x100000#32, 0#32, 0x1000#32, 0#32, 5#32, 0#32⟩

/-- It is to be reserved, and is released. -/
theorem not_releasesAvailable_unknownRegion : ¬ ReleasesAvailable 131072#32 [unknownRegion] := by
  intro hreleases
  have hcounts := hreleases.counts unknownRegion (by decide) (by decide) 256
    (by unfold MemoryRegion.Counts; decide) (by decide)
  obtain ⟨r, hr, htype, -⟩ := hcounts.2
  obtain rfl := List.mem_singleton.mp hr
  exact absurd htype (by decide)

end Akos.Pmm
