import Akos.Fat12.Files

/-!
# The entries of the file allocation table

Two bytes hold the whole of an entry and a half of a neighbour's. The table is read and written as fields of 12
bits, so an entry can be set without a change to the others. The chain of a file and the clusters that are free
are then facts about entries alone.
-/

namespace Akos.Fat12

variable {d d' : Floppy} {c c' s k n v : Nat} {cs new : List Nat}

/-! ### The table as bytes in a row -/

/-- The bytes of the disk from the first copy of the table on. -/
def fatByte (d : Floppy) (n : Nat) : Byte := d.sectors (1 + n / 512) (n % 512)

theorem sectors_eq_fatByte (hs : 1 ≤ s) (hk : k < 512) : d.sectors s k = fatByte d (512 * (s - 1) + k) := by
  rw [fatByte, Nat.mul_add_div (by decide), Nat.mul_add_mod, Nat.mod_eq_of_lt hk, Nat.div_eq_of_lt hk]
  congr 1
  omega

theorem entryOffset_lt (c : Nat) : entryOffset c < 512 := Nat.mod_lt _ (by decide)

theorem fatOffset_eq (c : Nat) : fatOffset c = 512 * (fatSector c - 1) + entryOffset c := by
  simp only [fatSector, entryOffset, sectorSize]
  omega

theorem loadFat_eq (hk : k < 1024) : loadFat d c k = fatByte d (512 * (fatSector c - 1) + k) := by
  have hs : 1 ≤ fatSector c := Nat.le_add_right 1 _
  simp only [loadFat, flpydskReadSector, sectorSize]
  split
  · next hlow => exact sectors_eq_fatByte hs hlow
  · next hhigh =>
    have hlow : k - 512 < 512 := by omega
    have hsplit : 512 * (fatSector c + 1 - 1) + (k - 512) = 512 * (fatSector c - 1) + k := by omega
    rw [sectors_eq_fatByte (Nat.le_add_left 1 _) hlow, hsplit]

theorem word_loadFat (d : Floppy) (c : Nat) :
    Packed.word (loadFat d c) (entryOffset c) = Packed.word (fatByte d) (fatOffset c) := by
  have hlt := entryOffset_lt c
  rw [Packed.word, Packed.word, loadFat_eq (by omega), loadFat_eq (by omega), fatOffset_eq c, Nat.add_assoc]

/-- The bits of an entry are those of field `c`. -/
theorem getLsbD_fatEntry (d : Floppy) (c k : Nat) :
    (fatEntry d c).getLsbD k = (decide (k < 12) && Packed.bit (fatByte d) (12 * c + k)) := by
  unfold fatEntry
  dsimp only
  rw [word_loadFat, fatOffset]
  split
  · next hodd =>
    rw [BitVec.getLsbD_ushiftRight]
    by_cases hk : k < 12
    · rw [Packed.getLsbD_word (by omega), decide_eq_true hk, Bool.true_and]
      congr 1
      omega
    · rw [decide_eq_false hk, Bool.false_and, BitVec.getLsbD_of_ge _ _ (by omega)]
  · next heven =>
    rw [BitVec.getLsbD_and, show 0x0FFF#16 = (BitVec.allOnes 12).setWidth 16 by decide, BitVec.getLsbD_setWidth,
      BitVec.getLsbD_allOnes]
    by_cases hk : k < 12
    · rw [Packed.getLsbD_word (by omega), decide_eq_true hk, decide_eq_true (show k < 16 by omega), Bool.true_and,
        Bool.and_true, Bool.true_and]
      congr 1
      omega
    · rw [decide_eq_false hk, Bool.and_false, Bool.and_false, Bool.false_and]

/-- An entry is as before when its bits are. -/
theorem fatEntry_congr (h : ∀ k < 12, Packed.bit (fatByte d') (12 * c + k) = Packed.bit (fatByte d) (12 * c + k)) :
    fatEntry d' c = fatEntry d c := by
  refine BitVec.eq_of_getLsbD_eq fun k _ => ?_
  rw [getLsbD_fatEntry, getLsbD_fatEntry]
  by_cases hk : k < 12
  · rw [h k hk]
  · rw [decide_eq_false hk, Bool.false_and, Bool.false_and]

/-! ### An entry is set -/

/-- The word that is written back for an entry. -/
def entryWord (d : Floppy) (c v : Nat) : BitVec 16 :=
  let word := Packed.word (loadFat d c) (entryOffset c)
  if c % 2 = 1 then (BitVec.ofNat 16 v <<< 4) ||| (word &&& 0xF#16) else BitVec.ofNat 16 v ||| (word &&& 0xF000#16)

theorem fatByte_setFatEntry (d : Floppy) (c v : Nat) :
    fatByte (setFatEntry d c v) n = Packed.setWord (fatByte d) (fatOffset c) (entryWord d c v) n := by
  have hoff := fatOffset_eq c
  have hlt := entryOffset_lt c
  have hs : 1 ≤ fatSector c := Nat.le_add_right 1 _
  have hn : n = 512 * (n / 512) + n % 512 := (Nat.div_add_mod n 512).symm
  have hmod : n % 512 < 512 := Nat.mod_lt n (by decide)
  simp only [fatByte, setFatEntry, flpydskWriteSector, sectorSize, hmod, and_true]
  rw [← entryWord]
  by_cases hsecond : 1 + n / 512 = fatSector c + 1
  · have hload : loadFat d c (512 + n % 512) = d.sectors (1 + n / 512) (n % 512) := by
      rw [loadFat_eq (by omega), show 512 * (fatSector c - 1) + (512 + n % 512) = n by omega, fatByte]
    have hrow : ∀ o, 512 + n % 512 = o ↔ n = 512 * (fatSector c - 1) + o := fun o => by omega
    rw [if_pos hsecond, Packed.setWord, Packed.setWord, hload, hoff]
    simp only [hrow, Nat.add_assoc]
    rfl
  rw [if_neg hsecond]
  by_cases hfirst : 1 + n / 512 = fatSector c
  · have hload : loadFat d c (n % 512) = d.sectors (1 + n / 512) (n % 512) := by
      rw [loadFat_eq (by omega), show 512 * (fatSector c - 1) + n % 512 = n by omega, fatByte]
    have hrow : ∀ o, n % 512 = o ↔ n = 512 * (fatSector c - 1) + o := fun o => by omega
    rw [if_pos hfirst, Packed.setWord, Packed.setWord, hload, hoff]
    simp only [hrow, Nat.add_assoc]
    rfl
  · rw [if_neg hfirst, Packed.setWord, if_neg (by omega), if_neg (by omega), fatByte]

/-- The word has the new entry in the bits of the entry, and what was there in the others. -/
theorem getLsbD_entryWord (hv : v < 4096) (hk : k < 16) : (entryWord d c v).getLsbD k =
    if 12 * c ≤ 8 * fatOffset c + k ∧ 8 * fatOffset c + k < 12 * c + 12 then
      (BitVec.ofNat 16 v).getLsbD (8 * fatOffset c + k - 12 * c)
    else Packed.bit (fatByte d) (8 * fatOffset c + k) := by
  have hhigh : ∀ j, 12 ≤ j → (BitVec.ofNat 16 v).getLsbD j = false := by
    intro j hj
    rw [← BitVec.testBit_toNat, BitVec.toNat_ofNat, Nat.mod_eq_of_lt (by omega)]
    exact Nat.testBit_lt_two_pow (Nat.lt_of_lt_of_le hv (Nat.pow_le_pow_right (n := 2) (by decide) hj))
  unfold entryWord
  dsimp only
  rw [word_loadFat]
  split
  · next hodd =>
    have hoff : 8 * fatOffset c + 4 = 12 * c := by
      rw [fatOffset]
      omega
    rw [BitVec.getLsbD_or, BitVec.getLsbD_shiftLeft, BitVec.getLsbD_and, Packed.getLsbD_word hk,
      show 0xF#16 = (BitVec.allOnes 4).setWidth 16 by decide, BitVec.getLsbD_setWidth, BitVec.getLsbD_allOnes]
    by_cases hlow : k < 4
    · rw [if_neg (by omega), decide_eq_true hlow, decide_eq_true hk, Bool.not_true, Bool.and_false, Bool.false_and,
        Bool.false_or, Bool.and_true, Bool.and_true]
    · rw [if_pos (by omega), decide_eq_false hlow, decide_eq_true hk, Bool.not_false, Bool.and_true, Bool.true_and,
        Bool.and_false, Bool.and_false, Bool.or_false]
      congr 1
      omega
  · next heven =>
    have hoff : 8 * fatOffset c = 12 * c := by
      rw [fatOffset]
      omega
    have hmask : ∀ j < 16, (0xF000#16).getLsbD j = !decide (j < 12) := by decide
    rw [BitVec.getLsbD_or, BitVec.getLsbD_and, Packed.getLsbD_word hk, hmask k hk]
    by_cases hlow : k < 12
    · rw [if_pos (by omega), decide_eq_true hlow, Bool.not_true, Bool.and_false, Bool.or_false]
      congr 1
      omega
    · rw [if_neg (by omega), decide_eq_false hlow, hhigh k (by omega), Bool.not_false, Bool.and_true, Bool.false_or]

/-- Setting an entry replaces one field of the table. -/
theorem replaces_setFatEntry (hv : v < 4096) :
    Packed.Replaces (fatByte d) (fatByte (setFatEntry d c v)) 12 c (BitVec.ofNat 16 v).getLsbD := by
  have hbytes : fatByte (setFatEntry d c v) = Packed.setWord (fatByte d) (fatOffset c) (entryWord d c v) :=
    funext fun n => fatByte_setFatEntry d c v
  have hoff : 8 * fatOffset c ≤ 12 * c ∧ 12 * c + 12 ≤ 8 * fatOffset c + 16 := by
    rw [fatOffset]
    omega
  rw [hbytes]
  refine ⟨fun k hk => ?_, fun n hn => ?_⟩
  · have hsplit : 8 * fatOffset c + (12 * c + k - 8 * fatOffset c) = 12 * c + k := by omega
    rw [Packed.bit_setWord, if_pos (by omega), getLsbD_entryWord hv (by omega), hsplit, if_pos (by omega),
      Nat.add_sub_cancel_left]
  · rw [Packed.bit_setWord]
    split
    · have hsplit : 8 * fatOffset c + (n - 8 * fatOffset c) = n := by omega
      rw [getLsbD_entryWord hv (by omega), hsplit, if_neg hn]
    · rfl

theorem fatEntry_setFatEntry_self (hv : v < 4096) : (fatEntry (setFatEntry d c v) c).toNat = v := by
  have heq : fatEntry (setFatEntry d c v) c = BitVec.ofNat 16 v := by
    refine BitVec.eq_of_getLsbD_eq fun k _ => ?_
    rw [getLsbD_fatEntry]
    by_cases hk : k < 12
    · rw [decide_eq_true hk, Bool.true_and]
      exact (replaces_setFatEntry hv).field k hk
    · rw [decide_eq_false hk, Bool.false_and, ← BitVec.testBit_toNat, BitVec.toNat_ofNat,
        Nat.mod_eq_of_lt (by omega)]
      exact (Nat.testBit_lt_two_pow
        (Nat.lt_of_lt_of_le hv (Nat.pow_le_pow_right (n := 2) (by decide) (Nat.le_of_not_lt hk)))).symm
  rw [heq, BitVec.toNat_ofNat, Nat.mod_eq_of_lt (by omega)]

theorem fatEntry_setFatEntry_of_ne (hv : v < 4096) (hne : c' ≠ c) :
    fatEntry (setFatEntry d c v) c' = fatEntry d c' := by
  refine fatEntry_congr fun k hk => ?_
  have hsame := (replaces_setFatEntry (d := d) (c := c) hv).isField_of_ne
    (u := fun k => Packed.bit (fatByte d) (12 * c' + k)) hne
  exact hsame.mpr (fun _ _ => rfl) k hk

theorem setFatEntry_sectors (h : s ≠ fatSector c) (h' : s ≠ fatSector c + 1) :
    (setFatEntry d c v).sectors s = d.sectors s := by
  funext k
  simp only [setFatEntry, flpydskWriteSector, h, h', false_and, if_false]

theorem setFatEntry_written :
    (setFatEntry d c v).written = (fatSector c + 1) :: fatSector c :: d.written := rfl

/-- The sectors of an entry that the scan looks at. -/
theorem fatSector_le (hc : c < 0xFF0) : fatSector c ≤ 12 := by
  simp only [fatSector, fatOffset, sectorSize]
  omega

/-- The entries are those of the sectors below 14. -/
theorem fatEntry_of_sectors (hc : c < 0xFF0) (h : ∀ s ≤ 13, d'.sectors s = d.sectors s) :
    fatEntry d' c = fatEntry d c := by
  have hle := fatSector_le hc
  have hload : loadFat d' c = loadFat d c := by
    unfold loadFat flpydskReadSector
    rw [h _ (by omega), h _ (by omega)]
  rw [fatEntry, fatEntry, hload]

end Akos.Fat12
