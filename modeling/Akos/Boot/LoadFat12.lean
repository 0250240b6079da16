import Akos.Fat12.Sectors

/-!
# The walk of the boot loader

`LOAD_IMAGE` of `load_fat12.asm`, with `disk_load_short.asm` and the parameters of `bpb.asm`, in 16-bit registers.
Both copies of the file allocation table are in memory from 0x0500 on when it starts, and the image is loaded to
other memory. The kernel reads two sectors of the table for every cluster instead.
-/

namespace Akos.Boot

open Fat12

/-! ### Parameters -/

abbrev bpbBytesPerSector : BitVec 16 := 512#16
abbrev bpbSectorsPerCluster : BitVec 8 := 1#8
abbrev bpbReservedSectors : BitVec 16 := 1#16
abbrev bpbNumberOfFATs : BitVec 8 := 2#8
abbrev bpbRootEntries : BitVec 16 := 224#16
abbrev bpbSectorsPerFAT : BitVec 16 := 9#16

/-- The sectors of the root directory, behind those of the tables. -/
def datasector : BitVec 16 :=
  bpbNumberOfFATs.setWidth 16 * bpbSectorsPerFAT + bpbReservedSectors + 0x20#16 * bpbRootEntries / bpbBytesPerSector

/-! ### Reading from the disk -/

/-- Cylinder, sector and head as the BIOS takes them. -/
structure Chs where
  ch : BitVec 8
  cl : BitVec 8
  dh : BitVec 8

/-- `lba_2_chs` -/
def lba2Chs (ax : BitVec 16) : Chs where
  ch := (ax / 72#16).setWidth 8
  dh := (ax % 72#16 / 36#16).setWidth 8
  cl := (ax % 72#16 % 36#16).setWidth 8 + 1#8

/-- One sector is read to `es:bx`. -/
structure BiosRead where
  ax : BitVec 16
  chs : Chs
  es : BitVec 16
  bx : BitVec 16

/-- The loop of `disk_load_short`: what is read, and `es:bx` behind it. When `bx` overflows, `ax` is used up for the new
`es`. -/
def diskLoadShort : Nat → BitVec 16 → BitVec 16 → BitVec 16 → List BiosRead × BitVec 16 × BitVec 16
  | 0, _, es, bx => ([], es, bx)
  | cx + 1, ax, es, bx =>
    let read := ⟨ax, lba2Chs ax, es, bx⟩
    let overflows := 0x10000 ≤ bx.toNat + 512
    let es := if overflows then es + 0x1000#16 else es
    let rest := diskLoadShort cx (if overflows then es else ax + 1#16) es (bx + 512#16)
    (read :: rest.1, rest.2)

/-- The sector at an address, on a drive with two heads and 36 sectors per track. -/
def Chs.sector (chs : Chs) : Nat := (chs.ch.toNat * 2 + chs.dh.toNat) * 36 + chs.cl.toNat - 1

/-- What a read does to memory. -/
def BiosRead.load (d : Floppy) (memory : Nat → Byte) (r : BiosRead) : Nat → Byte :=
  memcpy memory (r.es.toNat * 16 + r.bx.toNat) (d.sectors r.chs.sector) 0 512

/-- Memory behind `LOAD_FAT`. -/
def loadFat (d : Floppy) (memory : Nat → Byte) : Nat → Byte :=
  (diskLoadShort (bpbNumberOfFATs.setWidth 16 * bpbSectorsPerFAT).toNat bpbReservedSectors 0#16 0x0500#16).1.foldl
    (BiosRead.load d) memory

/-- `ClusterLBA` -/
def clusterLBA (ax : BitVec 16) : BitVec 16 := (ax - 2#16) * bpbSectorsPerCluster.setWidth 16 + datasector

/-- The entry of a cluster in the table in memory. -/
def entryInMemory (memory : Nat → Byte) (cluster : BitVec 16) : BitVec 16 :=
  let bx := 0x0500#16 + (cluster + cluster >>> 1)
  let dx := Packed.word memory bx.toNat
  if cluster &&& 1#16 = 0#16 then dx &&& 0x0FFF#16 else dx >>> 4

/-- `LOAD_IMAGE`: the reads in order, and how many sectors they are. -/
def loadImage (memory : Nat → Byte) :
    Nat → BitVec 16 → BitVec 16 → BitVec 16 → BitVec 16 → Option (List BiosRead × BitVec 16)
  | 0, _, _, _, _ => none
  | fuel + 1, cluster, es, bx, di =>
    let di := di + bpbSectorsPerCluster.setWidth 16
    let loaded := diskLoadShort bpbSectorsPerCluster.toNat (clusterLBA cluster) es bx
    let dx := entryInMemory memory cluster
    if dx < 0x0FF0#16 then
      (loadImage memory fuel dx loaded.2.1 loaded.2.2 di).map fun rest => (loaded.1 ++ rest.1, rest.2)
    else some (loaded.1, di)

/-! ### The kernel's walk -/

/-- Track, head and sector as the drive takes them. -/
structure Address where
  track : Nat
  head : Nat
  sector : Nat

/-- `flpydsk_lba_to_chs` -/
def flpydskLbaToChs (lba : Nat) : Address where
  head := lba % (36 * 2) / 36
  track := lba / (36 * 2)
  sector := lba % 36 + 1

/-- The sectors of a chain that is read one sector after the other, up to its end. -/
def readWhole (d : Floppy) : Nat → FILE → Option (List Nat)
  | 0, _ => none
  | fuel + 1, f =>
    if f.eof then some []
    else
      let read := fat12fsysRead fuel d f (fun _ => 0#8) 0 512#32
      if read.returned then (readWhole d fuel read.file).map (physSector f.currentCluster :: ·) else none

/-- A chain of the table: every entry is the next cluster, and the last one is an end mark. -/
inductive Walk (d : Floppy) : List Nat → Prop
  | last {c : Nat} : 2 ≤ c → c ≤ 0xFEF → 0xFF8 ≤ (fatEntry d c).toNat → Walk d [c]
  | step {c e : Nat} {cs : List Nat} : 2 ≤ c → c ≤ 0xFEF → (fatEntry d c).toNat = e → Walk d (e :: cs) →
      Walk d (c :: e :: cs)

variable {d : Floppy} {f : FILE} {memory : Nat → Byte} {c e n o fuel : Nat} {cs : List Nat}

/-! ### Addresses -/

/-- The address that the BIOS gets is the one that the drive gets. -/
def Chs.address (chs : Chs) : Address := ⟨chs.ch.toNat, chs.dh.toNat, chs.cl.toNat⟩

theorem address_lba2Chs {ax : BitVec 16} (h : ax.toNat < 72 * 256) :
    (lba2Chs ax).address = flpydskLbaToChs ax.toNat := by
  rw [lba2Chs, Chs.address, flpydskLbaToChs, Address.mk.injEq]
  simp only [BitVec.toNat_setWidth, BitVec.toNat_udiv, BitVec.toNat_umod, BitVec.toNat_add, BitVec.toNat_ofNat,
    Nat.reducePow, Nat.reduceMod]
  omega

theorem sector_lba2Chs {ax : BitVec 16} (h : ax.toNat < 72 * 256) : (lba2Chs ax).sector = ax.toNat := by
  rw [lba2Chs, Chs.sector]
  simp only [BitVec.toNat_setWidth, BitVec.toNat_udiv, BitVec.toNat_umod, BitVec.toNat_add, BitVec.toNat_ofNat,
    Nat.reducePow, Nat.reduceMod]
  omega

theorem toNat_datasector : datasector.toNat = 33 := by decide

theorem toNat_clusterLBA (hge : 2 ≤ c) (hle : c ≤ 0xFEF) : (clusterLBA (BitVec.ofNat 16 c)).toNat = physSector c := by
  have hone : (BitVec.setWidth 16 bpbSectorsPerCluster) = 1#16 := by decide
  rw [clusterLBA, hone, BitVec.mul_one, BitVec.toNat_add, toNat_datasector, BitVec.toNat_sub, BitVec.toNat_ofNat,
    BitVec.toNat_ofNat, physSector]
  omega

/-! ### The table in memory -/

/-- What the sectors of the table replace in memory, from sector `o` of it on. -/
theorem foldl_load (memory : Nat → Byte) (hn : 0x0500 + 512 * (o + n) < 0x10000) (a : Nat) :
    (diskLoadShort n (BitVec.ofNat 16 (1 + o)) 0#16 (BitVec.ofNat 16 (0x0500 + 512 * o))).1.foldl (BiosRead.load d)
      memory a = if 0x0500 + 512 * o ≤ a ∧ a < 0x0500 + 512 * (o + n) then fatByte d (a - 0x0500) else memory a := by
  induction n generalizing o memory with
  | zero => rw [if_neg (by omega), diskLoadShort, List.foldl_nil]
  | succ n ih =>
    have hbx : (BitVec.ofNat 16 (0x0500 + 512 * o)).toNat = 0x0500 + 512 * o := by
      rw [BitVec.toNat_ofNat, Nat.mod_eq_of_lt (by omega)]
    have hax : (BitVec.ofNat 16 (1 + o)).toNat = 1 + o := by rw [BitVec.toNat_ofNat, Nat.mod_eq_of_lt (by omega)]
    have hnext : BitVec.ofNat 16 (0x0500 + 512 * o) + 512#16 = BitVec.ofNat 16 (0x0500 + 512 * (o + 1)) := by
      rw [Nat.mul_succ, ← Nat.add_assoc, BitVec.ofNat_add (0x0500 + 512 * o) 512]
    have hsector : BitVec.ofNat 16 (1 + o) + 1#16 = BitVec.ofNat 16 (1 + (o + 1)) := by
      rw [← BitVec.ofNat_add, Nat.add_assoc]
    rw [diskLoadShort]
    dsimp only
    rw [if_neg (by rw [hbx]; omega), if_neg (by rw [hbx]; omega), hnext, hsector, List.foldl_cons, ih _ (by omega)]
    by_cases hlater : 0x0500 + 512 * (o + 1) ≤ a ∧ a < 0x0500 + 512 * (o + 1 + n)
    · rw [if_pos hlater, if_pos (by omega)]
    rw [if_neg hlater, BiosRead.load]
    dsimp only
    rw [hbx, BitVec.toNat_zero, Nat.zero_mul, Nat.zero_add, sector_lba2Chs (by rw [hax]; omega), hax, memcpy]
    split
    · next hhere =>
      have hend : a < 0x0500 + 512 * (o + (n + 1)) := by omega
      have hdiv : (a - 0x0500) / 512 = o := by omega
      have hmod : (a - 0x0500) % 512 = a - (0x0500 + 512 * o) := by omega
      rw [if_pos ⟨hhere.1, hend⟩, fatByte, hdiv, hmod, Nat.zero_add]
    · next hhere =>
      have hout : ¬ (0x0500 + 512 * o ≤ a ∧ a < 0x0500 + 512 * (o + (n + 1))) := fun hin => hlater (by omega)
      rw [if_neg hout]

/-- The two copies fill 18 sectors of memory. -/
theorem loadFat_byte {k : Nat} (hk : k < 9216) : loadFat d memory (0x0500 + k) = fatByte d k := by
  have hload := foldl_load (d := d) (n := 18) (o := 0) memory (by decide) (0x0500 + k)
  rw [if_pos (by omega), Nat.add_sub_cancel_left] at hload
  exact hload

theorem entryInMemory_eq (hle : c ≤ 0xFEF) :
    entryInMemory (loadFat d memory) (BitVec.ofNat 16 c) = fatEntry d c := by
  have hbx : (0x0500#16 + (BitVec.ofNat 16 c + BitVec.ofNat 16 c >>> 1)).toNat = 0x0500 + fatOffset c := by
    rw [BitVec.toNat_add, BitVec.toNat_add, BitVec.toNat_ushiftRight, BitVec.toNat_ofNat, BitVec.toNat_ofNat,
      Nat.shiftRight_eq_div_pow, fatOffset]
    omega
  have hparity : BitVec.ofNat 16 c &&& 1#16 = 0#16 ↔ ¬ c % 2 = 1 := by
    rw [← BitVec.toNat_inj, BitVec.toNat_and, BitVec.toNat_ofNat, BitVec.toNat_ofNat, Nat.and_one_is_mod,
      BitVec.toNat_ofNat]
    omega
  have hoffset : fatOffset c + 1 < 9216 := by
    rw [fatOffset]
    omega
  have hword : Packed.word (loadFat d memory) (0x0500 + fatOffset c) = Packed.word (fatByte d) (fatOffset c) := by
    rw [Packed.word, Packed.word, Nat.add_assoc, loadFat_byte hoffset, loadFat_byte (by omega)]
  rw [entryInMemory, fatEntry, word_loadFat, hbx, hword, if_congr hparity rfl rfl, ite_not]

/-! ### The two walks -/

theorem Walk.bounds (h : Walk d (c :: cs)) : 2 ≤ c ∧ c ≤ 0xFEF := by
  cases h with
  | last hge hle => exact ⟨hge, hle⟩
  | step hge hle => exact ⟨hge, hle⟩

/-- The kernel reads the chain's clusters in order. -/
theorem readWhole_eq (h : Walk d (c :: cs)) (hf : Stands f c) (hfuel : cs.length + 3 ≤ fuel) :
    readWhole d fuel f = some ((c :: cs).map physSector) := by
  induction cs generalizing c f fuel with
  | nil =>
    rw [List.length_nil, Nat.zero_add] at hfuel
    obtain ⟨more, rfl⟩ := Nat.exists_eq_add_of_le' hfuel
    cases h with
    | last _ _ hend =>
      have hnone : nextCluster d c = none := if_pos (.inl hend)
      have heof : (nextFile d f).eof = true := by rw [hf.eof_nextFile, hnone, Option.isNone_none]
      rw [readWhole, if_neg (by rw [hf.eof]; decide), read_sector hf.position]
      dsimp only
      rw [if_pos rfl, readWhole, if_pos heof, hf.cluster]
      rfl
  | cons e cs ih =>
    rw [List.length_cons] at hfuel
    obtain ⟨more, rfl⟩ := Nat.exists_eq_add_of_le' (Nat.le_trans (Nat.le_add_left 3 _) hfuel)
    cases h with
    | step _ _ hnext hrest =>
      obtain ⟨hge, hle⟩ := hrest.bounds
      have hsome : nextCluster d c = some e := by
        rw [nextCluster, hnext]
        exact if_neg fun hend => by omega
      rw [readWhole, if_neg (by rw [hf.eof]; decide), read_sector hf.position]
      dsimp only
      rw [if_pos rfl, ih hrest (hf.next hsome) (by omega), hf.cluster]
      rfl

/-- The boot loader reads the same sectors, at the same addresses. -/
theorem loadImage_eq (memory : Nat → Byte) (es bx di : BitVec 16) (h : Walk d (c :: cs)) (hfuel : cs.length + 1 ≤ fuel) :
    ∃ reads, loadImage (loadFat d memory) fuel (BitVec.ofNat 16 c) es bx di =
        some (reads, di + BitVec.ofNat 16 (cs.length + 1)) ∧
      reads.map (fun r => r.ax.toNat) = (c :: cs).map physSector ∧
      reads.map (fun r => r.chs.address) = ((c :: cs).map physSector).map flpydskLbaToChs := by
  induction cs generalizing c fuel es bx di with
  | nil =>
    obtain ⟨more, rfl⟩ := Nat.exists_eq_add_of_le' hfuel
    cases h with
    | last hge hle hend =>
      have hlba := toNat_clusterLBA hge hle
      have hstop : ¬ fatEntry d c < 0x0FF0#16 := by
        rw [BitVec.lt_def, BitVec.toNat_ofNat]
        omega
      refine ⟨[⟨clusterLBA (BitVec.ofNat 16 c), lba2Chs (clusterLBA (BitVec.ofNat 16 c)), es, bx⟩], ?_, ?_, ?_⟩
      · rw [List.length_nil, loadImage, entryInMemory_eq hle, if_neg hstop]
        rfl
      · rw [List.map_singleton, List.map_singleton, hlba]
      · rw [List.map_singleton, List.map_singleton, List.map_singleton,
          address_lba2Chs (by rw [hlba, physSector]; omega), hlba]
  | cons e cs ih =>
    obtain ⟨more, rfl⟩ := Nat.exists_eq_add_of_le' (Nat.le_trans (Nat.le_add_left 1 _) hfuel)
    cases h with
    | step hge hle hnext hrest =>
      obtain ⟨hge', hle'⟩ := hrest.bounds
      have hlba := toNat_clusterLBA hge hle
      have hentry : fatEntry d c = BitVec.ofNat 16 e := by rw [← hnext, BitVec.ofNat_toNat, BitVec.setWidth_eq]
      have hmore : BitVec.ofNat 16 e < 0x0FF0#16 := by
        rw [BitVec.lt_def, BitVec.toNat_ofNat, BitVec.toNat_ofNat]
        omega
      obtain ⟨reads, hload, hsectors, haddresses⟩ := ih (diskLoadShort 1 (clusterLBA (BitVec.ofNat 16 c)) es bx).2.1
        (diskLoadShort 1 (clusterLBA (BitVec.ofNat 16 c)) es bx).2.2 (di + 1#16) hrest (Nat.le_of_succ_le_succ hfuel)
      refine ⟨⟨clusterLBA (BitVec.ofNat 16 c), lba2Chs (clusterLBA (BitVec.ofNat 16 c)), es, bx⟩ :: reads, ?_, ?_, ?_⟩
      · have hdi : di + 1#16 + BitVec.ofNat 16 (cs.length + 1) = di + BitVec.ofNat 16 ((e :: cs).length + 1) := by
          rw [BitVec.add_assoc, ← BitVec.ofNat_add, Nat.add_comm 1, List.length_cons]
        rw [loadImage, entryInMemory_eq hle, hentry, if_pos hmore, ← hdi]
        exact congrArg (Option.map _) hload
      · rw [List.map_cons, hsectors, hlba]
        rfl
      · rw [List.map_cons, haddresses, address_lba2Chs (by rw [hlba, physSector]; omega), hlba]
        rfl

end Akos.Boot
