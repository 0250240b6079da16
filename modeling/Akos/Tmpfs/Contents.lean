import Mathlib.Data.Finset.Card
import Mathlib.Data.Finset.Range
import Akos.Tmpfs.Ids

/-!
# Writing and reading back

A file holds the bytes of its blocks one after the other, with every block full but the last. Writing any
chunks through a fresh handle leaves their bytes in the chain. Reading them back in one call compares the
place in a block with the place in the file, and stops delivering behind the first block.
-/

namespace Akos.Tmpfs.Arena

variable {s s' : Arena} {b c n fid last cur fuel k length position : Nat} {bytes rest buffer : List UInt8}

/-! ### Free blocks -/

def freeBlocks (s : Arena) : Finset Nat := (Finset.range blockCount).filter fun b => (s b).occupied = false

theorem mem_freeBlocks : b ∈ s.freeBlocks ↔ b < blockCount ∧ (s b).occupied = false := by
  rw [freeBlocks, Finset.mem_filter, Finset.mem_range]

theorem SameLinks.freeBlocks_eq (h : s.SameLinks s') : s'.freeBlocks = s.freeBlocks := by
  ext b
  rw [mem_freeBlocks, mem_freeBlocks, h.occupied]

theorem exists_firstFree (h : 0 < s.freeBlocks.card) : ∃ n, s.firstFree = some n := by
  obtain ⟨b, hb⟩ := Finset.card_pos.mp h
  rw [mem_freeBlocks] at hb
  refine Option.isSome_iff_exists.mp (List.find?_isSome.mpr ⟨b, List.mem_range.mpr hb.1, ?_⟩)
  rw [hb.2]
  rfl

theorem card_freeBlocks_extended (hn : s.firstFree = some n) (hlast : (s last).occupied = true) :
    (s.extended last n).freeBlocks.card + 1 = s.freeBlocks.card := by
  obtain ⟨hfree, hlt, -⟩ := firstFree_eq_some_iff.mp hn
  have hne : n ≠ last := by
    rintro rfl
    rw [hlast] at hfree
    cases hfree
  have herase : (s.extended last n).freeBlocks = s.freeBlocks.erase n := by
    ext x
    rw [Finset.mem_erase, mem_freeBlocks, mem_freeBlocks]
    obtain rfl | hx := eq_or_ne x n
    · rw [extended_new hne]
      simp [newBlock]
    · rw [extended_old hx]
      simp [hx]
  rw [herase, Finset.card_erase_add_one (mem_freeBlocks.mpr ⟨hlt, hfree⟩)]

theorem card_freeBlocks_splice {p : Nat} (hs : s.Linked) (hc : (s c).occupied = true) :
    (s.splice c p).freeBlocks.card = s.freeBlocks.card + 1 := by
  have hinsert : (s.splice c p).freeBlocks = insert c s.freeBlocks := by
    ext x
    rw [Finset.mem_insert, mem_freeBlocks, mem_freeBlocks]
    obtain rfl | hx := eq_or_ne x c
    · rw [splice_self]
      simp [Block.zero, (hs.bid x hc).1]
    · rw [splice_occupied hx]
      simp [hx]
  rw [hinsert, Finset.card_insert_of_notMem]
  rw [mem_freeBlocks, hc]
  simp

theorem SameLinks.lastOf_eq (h : s.SameLinks s') : s'.lastOf fuel b = s.lastOf fuel b := by
  induction fuel generalizing b with
  | zero => rfl
  | succ fuel ih =>
    rw [lastOf, lastOf, h.childBlock]
    cases (s b).childBlock with
    | none => rfl
    | some c => exact ih

/-! ### What a file holds -/

/-- A block with the bytes. -/
structure BlockHolds (block : Block) (bytes : List UInt8) : Prop where
  occupied : block.occupied = true
  dataPointer : block.dataPointer = bytes.length
  data : ∀ i, (h : i < bytes.length) → block.data i = bytes[i]

/-- The chain from a block on, with its bytes and its last block. -/
inductive Holds (s : Arena) : Nat → List UInt8 → Nat → Prop
  | last {b : Nat} {bytes : List UInt8} :
      BlockHolds (s b) bytes → bytes.length < payload → (s b).childBlock = none → Holds s b bytes b
  | full {b c last : Nat} {bytes rest : List UInt8} :
      BlockHolds (s b) bytes → bytes.length = payload → (s b).childBlock = some c → Holds s c rest last →
      Holds s b (bytes ++ rest) last

theorem BlockHolds.fill {block : Block} (h : BlockHolds block bytes) :
    BlockHolds (fill block buffer) (bytes ++ buffer) := by
  refine ⟨h.occupied, ?_, fun i hi => ?_⟩
  · rw [List.length_append, ← h.dataPointer]
    rfl
  · rw [List.length_append] at hi
    dsimp only [Arena.fill]
    rw [h.dataPointer]
    split
    · next hlt => rw [h.data i hlt, List.getElem_append_left hlt]
    · next hge =>
      rw [List.getElem_append_right (by omega), List.getElem?_eq_getElem (by omega), Option.getD_some]

namespace Holds

theorem div_add_one (hlength : bytes.length = payload) :
    (bytes ++ rest).length / payload = rest.length / payload + 1 := by
  rw [List.length_append, hlength]
  exact Nat.add_div_left _ (by decide)

/-- The chain has one block more than it has full ones. -/
theorem lastOf_iff (h : s.Holds b bytes last) {x : Nat} :
    s.lastOf fuel b = some x ↔ x = last ∧ bytes.length / payload < fuel := by
  induction h generalizing fuel with
  | last _ hlt hchild =>
    cases fuel with
    | zero => simp [lastOf]
    | succ fuel =>
      rw [lastOf, hchild, Nat.div_eq_of_lt hlt]
      simp [eq_comm]
  | full _ hlength hchild _ ih =>
    cases fuel with
    | zero => simp [lastOf]
    | succ fuel =>
      rw [lastOf, hchild, div_add_one hlength]
      dsimp only
      rw [ih, Nat.succ_lt_succ_iff]

/-- Between the front and the last block: whatever the last block becomes, the blocks in front stay. -/
theorem split_last (h : s.Holds b bytes last) :
    ∃ front back, bytes = front ++ back ∧ payload ∣ front.length ∧ back.length < payload ∧
      BlockHolds (s last) back ∧ (s last).childBlock = none ∧
      ∀ (s' : Arena) (new : List UInt8) (last' : Nat), (∀ x, (s x).occupied = true → (s x).childBlock ≠ none → s' x = s x) →
        s'.Holds last new last' → s'.Holds b (front ++ new) last' := by
  induction h with
  | last hblock hlt hchild =>
    exact ⟨[], _, rfl, Nat.dvd_zero _, hlt, hblock, hchild, fun _ _ _ _ h => h⟩
  | @full b c last bytes rest hblock hlength hchild _ ih =>
    obtain ⟨front, back, rfl, hdvd, hlt, hback, hnone, hkeep⟩ := ih
    refine ⟨bytes ++ front, back, (List.append_assoc _ _ _).symm, ?_, hlt, hback, hnone, ?_⟩
    · rw [List.length_append, hlength]
      exact Nat.dvd_add (Nat.dvd_refl _) hdvd
    · intro s' new last' hsame hnew
      have hb : s' b = s b := hsame b hblock.occupied (by rw [hchild]; simp)
      rw [List.append_assoc]
      exact full (hb ▸ hblock) hlength (by rw [hb, hchild]) (hkeep s' new last' hsame hnew)

/-- The walk over the full blocks ends at the last one. -/
theorem skipFull (h : s.Holds b bytes last) (hfuel : bytes.length / payload < fuel) :
    Arena.skipFull fuel s b = some (s, last) := by
  induction h generalizing fuel with
  | last hblock hlt _ =>
    obtain ⟨fuel, rfl⟩ := Nat.exists_eq_add_one.mpr (Nat.zero_lt_of_lt hfuel)
    rw [Arena.skipFull, if_neg]
    rw [hblock.dataPointer]
    exact Nat.ne_of_lt hlt
  | full hblock hlength hchild _ ih =>
    obtain ⟨fuel, rfl⟩ := Nat.exists_eq_add_one.mpr (Nat.zero_lt_of_lt hfuel)
    rw [div_add_one hlength] at hfuel
    rw [Arena.skipFull, if_pos (hblock.dataPointer.trans hlength), hchild, if_neg (by simp),
      Option.bind_eq_bind, Option.bind_some, hchild, Option.bind_eq_bind, Option.bind_some]
    exact ih (Nat.succ_lt_succ_iff.mp hfuel)

theorem sizeFrom (h : s.Holds b bytes last) (hfuel : bytes.length / payload + 1 < fuel) :
    s.sizeFrom fuel (some b) = some bytes.length := by
  induction h generalizing fuel with
  | last hblock hlt hchild =>
    rw [Nat.div_eq_of_lt hlt] at hfuel
    obtain ⟨fuel, rfl⟩ : ∃ k, fuel = k + 1 + 1 := ⟨fuel - 2, by omega⟩
    rw [Arena.sizeFrom, hchild, Arena.sizeFrom, hblock.dataPointer]
    rfl
  | full hblock hlength hchild _ ih =>
    obtain ⟨fuel, rfl⟩ := Nat.exists_eq_add_one.mpr (Nat.zero_lt_of_lt hfuel)
    rw [div_add_one hlength] at hfuel
    rw [Arena.sizeFrom, hchild, ih (Nat.succ_lt_succ_iff.mp hfuel), hblock.dataPointer, List.length_append]
    rfl

end Holds

/-- A file in use with its bytes. -/
structure Contents (s : Arena) (fid b : Nat) (bytes : List UInt8) (last : Nat) : Prop where
  opened : s.Opened fid b
  holds : s.Holds b bytes last

namespace Contents

theorem lastOf (h : s.Contents fid b bytes last) :
    s.lastOf blockCount b = some last ∧ bytes.length / payload < blockCount := by
  obtain ⟨x, hx⟩ := exists_lastOf h.opened.linked h.opened.occupied
  obtain ⟨rfl, hlt⟩ := h.holds.lastOf_iff.mp hx
  exact ⟨hx, hlt⟩

/-- One byte. The chain gets a block when the byte fills the last one. -/
theorem writeByte (h : s.Contents fid b bytes last) {x : UInt8}
    (hroom : (bytes.length + 1) / payload ≤ bytes.length / payload + s.freeBlocks.card) :
    ∃ s' last', Arena.writeByte (s, last) x = some (s', last') ∧ s'.Contents fid b (bytes ++ [x]) last' ∧
      (bytes.length + 1) / payload + s'.freeBlocks.card = bytes.length / payload + s.freeBlocks.card := by
  obtain ⟨front, back, rfl, ⟨k, hk⟩, hlt, hback, hnone, hkeep⟩ := h.holds.split_last
  let s₁ := s.set last (fill (s last) [x])
  have hsame : s.SameLinks s₁ := SameLinks.set rfl rfl rfl rfl rfl rfl
  have hopened : s₁.Opened fid b := h.opened.sameLinks hsame
  have hblock : BlockHolds (s₁ last) (back ++ [x]) := by
    rw [show s₁ last = _ from set_self]
    exact hback.fill
  have hother : ∀ y, (s y).occupied = true → (s y).childBlock ≠ none → s₁ y = s y := by
    intro y _ hy
    refine set_of_ne ?_
    rintro rfl
    exact hy hnone
  have hpointer : (s₁ last).dataPointer = back.length + 1 := by
    rw [hblock.dataPointer, List.length_append, List.length_singleton]
  have hstep : Arena.writeByte (s, last) x =
      if back.length + 1 = payload then
        (s₁.extendFile (s₁ last).fid).bind fun t => (t last).childBlock.bind fun child => some (t, child)
      else some (s₁, last) := by
    rw [Arena.writeByte, ← hpointer]
    dsimp only
    rw [← fill_singleton]
    rfl
  rw [hstep]
  rw [List.length_append, hk] at hroom ⊢
  by_cases hfull : back.length + 1 = payload
  · rw [if_pos hfull]
    have hpos : 0 < s.freeBlocks.card := by
      simp only [payload] at hroom hfull
      omega
    obtain ⟨n, hn⟩ := exists_firstFree (s := s₁) (by rw [hsame.freeBlocks_eq]; exact hpos)
    obtain ⟨hfree, -, -⟩ := firstFree_eq_some_iff.mp hn
    have hlast : s₁.lastOf blockCount b = some last := hsame.lastOf_eq.trans h.lastOf.1
    obtain ⟨hocc, -, hfid, -⟩ := lastOf_spec hopened.linked hopened.occupied hlast
    have hne : n ≠ last := by
      rintro rfl
      rw [hocc] at hfree
      cases hfree
    have hextend : s₁.extendFile (s₁ last).fid = some (s₁.extended last n) := by
      rw [hfid, hopened.fid_eq, hopened.extendFile_eq hlast, hn, Option.map_some]
    rw [hextend, Option.bind_some, extended_last, Option.bind_some]
    refine ⟨_, n, rfl, ⟨hopened.extend hlast hn, ?_⟩, ?_⟩
    · rw [List.append_assoc]
      refine hkeep _ _ n (fun y hy hchild => ?_) ?_
      · have hyn : y ≠ n := by
          rintro rfl
          rw [hsame.occupied, hy] at hfree
          cases hfree
        have hylast : y ≠ last := by
          rintro rfl
          exact hchild hnone
        rw [extended_of_ne hylast hyn]
        exact hother y hy hchild
      · rw [← List.append_nil (back ++ [x])]
        refine .full ?_ ?_ (by rw [extended_last]) (.last ?_ (by decide) (by rw [extended_new hne]; rfl))
        · rw [extended_last]
          exact ⟨hblock.occupied, hblock.dataPointer, hblock.data⟩
        · rw [List.length_append, List.length_singleton, hfull]
        · rw [extended_new hne]
          exact ⟨rfl, rfl, fun i hi => absurd hi (Nat.not_lt_zero i)⟩
    · have hcard := card_freeBlocks_extended hn hocc
      rw [hsame.freeBlocks_eq] at hcard
      simp only [payload] at hfull ⊢
      omega
  · rw [if_neg hfull]
    refine ⟨s₁, last, rfl, ⟨hopened, ?_⟩, ?_⟩
    · rw [List.append_assoc]
      refine hkeep s₁ _ last hother (.last hblock ?_ ((hsame.childBlock last).trans hnone))
      rw [List.length_append, List.length_singleton]
      omega
    · rw [hsame.freeBlocks_eq]
      simp only [payload] at hlt hfull ⊢
      omega

theorem writeBytes (h : s.Contents fid b bytes last)
    (hroom : (bytes.length + buffer.length) / payload ≤ bytes.length / payload + s.freeBlocks.card) :
    ∃ s' last', buffer.foldlM Arena.writeByte (s, last) = some (s', last') ∧
      s'.Contents fid b (bytes ++ buffer) last' ∧
      (bytes.length + buffer.length) / payload + s'.freeBlocks.card =
        bytes.length / payload + s.freeBlocks.card := by
  induction buffer generalizing s bytes last with
  | nil => exact ⟨s, last, rfl, by rwa [List.append_nil], rfl⟩
  | cons x buffer ih =>
    rw [List.length_cons, Nat.add_comm buffer.length 1, ← Nat.add_assoc] at hroom ⊢
    have hle : (bytes.length + 1) / payload ≤ (bytes.length + 1 + buffer.length) / payload :=
      Nat.div_le_div_right (Nat.le_add_right _ _)
    obtain ⟨s₁, last₁, hstep, h₁, hcount⟩ := h.writeByte (x := x) (Nat.le_trans hle hroom)
    have hlength : (bytes ++ [x]).length = bytes.length + 1 := by
      rw [List.length_append, List.length_singleton]
    rw [← hcount, ← hlength] at hroom
    obtain ⟨s', last', hrest, h', hcount'⟩ := ih h₁ hroom
    rw [hlength, hcount] at hcount'
    rw [List.append_assoc] at h'
    refine ⟨s', last', ?_, h', hcount'⟩
    rw [List.foldlM_cons, hstep]
    exact hrest

/-- Starting over on an empty file changes nothing. -/
theorem resetFile_nil (h : s.Contents fid b [] last) : s.resetFile fid = some s := by
  obtain ⟨hblock, hchild⟩ : BlockHolds (s b) [] ∧ (s b).childBlock = none := by
    have hnil : ∀ {bytes}, s.Holds b bytes last → bytes = [] → BlockHolds (s b) [] ∧ (s b).childBlock = none := by
      intro bytes hholds hnil
      cases hholds with
      | last hblock _ hchild => exact ⟨hnil ▸ hblock, hchild⟩
      | full hblock hlength _ _ =>
        rw [(List.append_eq_nil_iff.mp hnil).1] at hlength
        exact absurd hlength (by decide)
    exact hnil h.holds rfl
  have hsame : ({ s b with dataPointer := 0 } : Block) = s b := by
    rw [← List.length_nil (α := UInt8), ← hblock.dataPointer]
  rw [Arena.resetFile, h.opened.faddr, Option.bind_eq_bind, Option.bind_some, resetChildren, hchild,
    Option.bind_eq_bind, Option.bind_some]
  dsimp only at hsame ⊢
  rw [hsame, set, Function.update_eq_self]

/-- A call of `tfsys_write` through a handle that stands at the end, or at the start of an empty file. -/
theorem tfsysWrite {file : FILE} (h : s.Contents file.id b bytes last) (hpos : file.position = 0 → bytes = [])
    (hroom : (bytes.length + buffer.length) / payload ≤ bytes.length / payload + s.freeBlocks.card) :
    ∃ s' last', s.tfsysWrite file buffer =
        some (s', { file with position := file.position + buffer.length }) ∧
      s'.Contents file.id b (bytes ++ buffer) last' ∧
      (bytes.length + buffer.length) / payload + s'.freeBlocks.card =
        bytes.length / payload + s.freeBlocks.card := by
  obtain ⟨s', last', hwrite, h', hcount⟩ := h.writeBytes hroom
  refine ⟨s', last', ?_, h', hcount⟩
  have hreset : (if file.position = 0 then s.resetFile file.id else some s) = some s := by
    split
    · next hzero =>
      obtain rfl := hpos hzero
      exact h.resetFile_nil
    · rfl
  rw [Arena.tfsysWrite, h.opened.lookup, hreset]
  simp only [Option.bind_eq_bind, Option.bind_some, h.opened.faddr, h.holds.skipFull h.lastOf.2, hwrite]

end Contents

/-- The chunks written one after the other through one handle. -/
def tfsysWrites (s : Arena) (file : FILE) (chunks : List (List UInt8)) : Option (Arena × FILE) :=
  chunks.foldlM (fun r chunk => r.1.tfsysWrite r.2 chunk) (s, file)

theorem Contents.tfsysWrites {file : FILE} {chunks : List (List UInt8)} (h : s.Contents file.id b bytes last)
    (hpos : file.position = bytes.length)
    (hroom : (bytes.length + chunks.flatten.length) / payload ≤ bytes.length / payload + s.freeBlocks.card) :
    ∃ s' file' last', s.tfsysWrites file chunks = some (s', file') ∧
      s'.Contents file.id b (bytes ++ chunks.flatten) last' := by
  induction chunks generalizing s file bytes last with
  | nil => exact ⟨s, file, last, rfl, by rwa [List.flatten_nil, List.append_nil]⟩
  | cons chunk chunks ih =>
    rw [List.flatten_cons, List.length_append, ← Nat.add_assoc] at hroom
    have hle : (bytes.length + chunk.length) / payload ≤
        (bytes.length + chunk.length + chunks.flatten.length) / payload :=
      Nat.div_le_div_right (Nat.le_add_right _ _)
    have hempty : file.position = 0 → bytes = [] := fun hzero => List.eq_nil_of_length_eq_zero (hpos ▸ hzero)
    obtain ⟨s₁, last₁, hstep, h₁, hcount⟩ := h.tfsysWrite hempty (Nat.le_trans hle hroom)
    rw [← hcount, ← List.length_append] at hroom
    let moved : FILE := { file with position := file.position + chunk.length }
    have h₁' : s₁.Contents moved.id b (bytes ++ chunk) last₁ := h₁
    have hpos' : moved.position = (bytes ++ chunk).length := by
      rw [List.length_append, ← hpos]
    obtain ⟨s', file', last', hrest, h'⟩ := ih h₁' hpos' hroom
    rw [List.append_assoc, ← List.flatten_cons] at h'
    refine ⟨s', file', last', ?_, h'⟩
    rw [Arena.tfsysWrites, List.foldlM_cons, hstep]
    exact hrest

/-! ### Starting over -/

theorem Opened.exists_resetChildren (h : s.Opened fid b) (hfuel : blockCount ≤ fuel + s.freeBlocks.card) :
    ∃ s', resetChildren fuel s b = some s' := by
  induction fuel generalizing s with
  | zero =>
    have hlt : s.freeBlocks.card < (Finset.range blockCount).card := by
      refine Finset.card_lt_card (Finset.filter_ssubset.mpr ⟨b, ?_, ?_⟩)
      · exact Finset.mem_range.mpr (h.linked.bid b h.occupied).1
      · rw [h.occupied]
        decide
    rw [Finset.card_range] at hlt
    omega
  | succ fuel ih =>
    rw [resetChildren]
    cases hchild : (s b).childBlock with
    | none => exact ⟨s, rfl⟩
    | some c =>
      obtain ⟨hc, htype, hparent, -⟩ := h.linked.child b c h.occupied hchild
      have hcard := card_freeBlocks_splice (p := b) h.linked hc
      obtain ⟨s', hs'⟩ := ih (h.splice hc htype hparent) (by omega)
      refine ⟨s', ?_⟩
      simp only [(h.linked.bid c hc).2, h.linked.freeBlock_subFile hc htype hparent]
      exact hs'

/-- What the first write starts from. -/
theorem Opened.exists_resetFile (h : s.Opened fid b) : ∃ s', s.resetFile fid = some s' ∧ s'.Contents fid b [] b := by
  obtain ⟨t, ht⟩ := h.exists_resetChildren (Nat.le_add_right blockCount _)
  obtain ⟨hopened, -, hnone⟩ := resetChildren_spec h ht
  have hsame : t.SameLinks (t.set b { t b with dataPointer := 0 }) := SameLinks.set rfl rfl rfl rfl rfl rfl
  refine ⟨t.set b { t b with dataPointer := 0 }, ?_, hopened.sameLinks hsame, ?_⟩
  · rw [Arena.resetFile, h.faddr, Option.bind_eq_bind, Option.bind_some, ht]
    rfl
  · refine .last ?_ (by decide) ((hsame.childBlock b).trans hnone)
    rw [set_self]
    exact ⟨hopened.occupied, rfl, fun i hi => absurd hi (Nat.not_lt_zero i)⟩

/-- The first write to a file goes as on the empty file. -/
theorem Opened.tfsysWrite_eq {file : FILE} (h : s.Opened file.id b) (hpos : file.position = 0)
    (hreset : s.resetFile file.id = some s') (h' : s'.Contents file.id b [] last) :
    s.tfsysWrite file buffer = s'.tfsysWrite file buffer := by
  rw [tfsysWrite, tfsysWrite, h.lookup, h'.opened.lookup, if_pos hpos, if_pos hpos, hreset, h'.resetFile_nil]

theorem Opened.tfsysWrites {file : FILE} {chunks : List (List UInt8)} (h : s.Opened file.id b)
    (hpos : file.position = 0) (hchunks : chunks ≠ [])
    (hroom : ∀ t, s.resetFile file.id = some t → chunks.flatten.length / payload ≤ t.freeBlocks.card) :
    ∃ s' file' last, s.tfsysWrites file chunks = some (s', file') ∧
      s'.Contents file.id b chunks.flatten last := by
  obtain ⟨t, ht, hcontents⟩ := h.exists_resetFile
  have hroom' : (([] : List UInt8).length + chunks.flatten.length) / payload ≤
      ([] : List UInt8).length / payload + t.freeBlocks.card := by
    rw [List.length_nil, Nat.zero_add, Nat.zero_div, Nat.zero_add]
    exact hroom t ht
  obtain ⟨s', file', last, hwrites, h'⟩ := hcontents.tfsysWrites hpos hroom'
  refine ⟨s', file', last, ?_, h'⟩
  rw [← hwrites]
  obtain ⟨chunk, chunks, rfl⟩ := List.exists_cons_of_ne_nil hchunks
  rw [Arena.tfsysWrites, Arena.tfsysWrites, List.foldlM_cons, List.foldlM_cons, h.tfsysWrite_eq hpos ht hcontents]

/-! ### Reading back -/

/-- While the place in the block is the place in the file, each byte is delivered. -/
theorem BlockHolds.readLoop_step (h : BlockHolds (s b) bytes) (hk : k < bytes.length) (hlength : 0 < length)
    (hnext : k + 1 ≠ payload) :
    s.readLoop (fuel + 1) (some b) k length k =
      (s.readLoop fuel (some b) (k + 1) (length - 1) (k + 1)).map fun r => (bytes[k] :: r.1, r.2) := by
  rw [readLoop, if_pos ⟨h.dataPointer ▸ hk, hlength⟩]
  simp only [if_neg hnext, if_pos (Nat.le_refl k), h.data k hk]

theorem BlockHolds.readLoop_last (h : BlockHolds (s b) bytes) (hlt : bytes.length < payload)
    (hk : k ≤ bytes.length) :
    s.readLoop (fuel + 1 + (bytes.length - k)) (some b) k (bytes.length - k) k =
      some (bytes.drop k, some b, bytes.length) := by
  generalize hm : bytes.length - k = m
  induction m generalizing k with
  | zero =>
    obtain rfl : k = bytes.length := by omega
    rw [Nat.add_zero, readLoop, if_neg (by omega), List.drop_length]
  | succ m ih =>
    have hk' : k < bytes.length := by omega
    rw [← Nat.add_assoc, h.readLoop_step hk' (Nat.succ_pos m) (by omega), Nat.succ_sub_one, ih hk' (by omega),
      Option.map_some, List.drop_eq_getElem_cons hk']

/-- A full block is delivered as a whole, and the next one is read with the place in the file behind it. -/
theorem BlockHolds.readLoop_full (h : BlockHolds (s b) bytes) (hfull : bytes.length = payload)
    (hchild : (s b).childBlock = some c) (hk : k < payload) :
    s.readLoop (fuel + (payload - k)) (some b) k (length + (payload - k)) k =
      (s.readLoop fuel (some c) 0 length payload).map fun r => (bytes.drop k ++ r.1, r.2) := by
  generalize hm : payload - k = m
  induction m generalizing k with
  | zero => omega
  | succ m ih =>
    have hk' : k < bytes.length := by omega
    rw [List.drop_eq_getElem_cons hk']
    by_cases hnext : k + 1 = payload
    · obtain rfl : m = 0 := by omega
      rw [readLoop, if_pos ⟨h.dataPointer ▸ hk', by omega⟩]
      simp only [hchild, if_pos (Nat.le_refl k), h.data k hk', Nat.zero_add, Nat.add_sub_cancel, hnext, ← hfull,
        List.drop_length, List.cons_append, List.nil_append, if_true]
    · rw [← Nat.add_assoc, h.readLoop_step hk' (by omega) hnext,
        show length + (m + 1) - 1 = length + m from rfl, ih (by omega) (by omega), Option.map_map]
      rfl

/-- Behind the first block the place in the block is never the place in the file, and nothing is delivered. -/
theorem BlockHolds.readLoop_skip (h : BlockHolds (s b) bytes) (hk : k < bytes.length) (hlength : 0 < length)
    (hposition : bytes.length ≤ position) :
    s.readLoop (fuel + 1) (some b) k length position = s.readLoop fuel
      (if k + 1 = payload then (s b).childBlock else some b) (if k + 1 = payload then 0 else k + 1) length
      position := by
  rw [readLoop, if_pos ⟨h.dataPointer ▸ hk, hlength⟩]
  dsimp only
  rw [if_neg (by omega)]

theorem BlockHolds.readLoop_behind_last (h : BlockHolds (s b) bytes) (hlt : bytes.length < payload)
    (hlength : 0 < length) (hposition : payload ≤ position) (hle : k ≤ bytes.length) (hfuel : bytes.length < fuel + k) :
    s.readLoop fuel (some b) k length position = some ([], some b, position) := by
  induction fuel generalizing k with
  | zero => omega
  | succ fuel ih =>
    by_cases hk : k < bytes.length
    · rw [h.readLoop_skip hk hlength (by omega), if_neg (by omega), if_neg (by omega)]
      exact ih (by omega) (by omega)
    · rw [readLoop, if_neg]
      rw [h.dataPointer]
      exact fun h => hk h.1

theorem BlockHolds.readLoop_behind_full (h : BlockHolds (s b) bytes) (hfull : bytes.length = payload)
    (hchild : (s b).childBlock = some c) (hlength : 0 < length) (hposition : payload ≤ position) (hk : k < payload) :
    s.readLoop (fuel + (payload - k)) (some b) k length position = s.readLoop fuel (some c) 0 length position := by
  generalize hm : payload - k = m
  induction m generalizing k with
  | zero => omega
  | succ m ih =>
    rw [← Nat.add_assoc, h.readLoop_skip (by omega) hlength (by omega)]
    by_cases hnext : k + 1 = payload
    · obtain rfl : m = 0 := by omega
      rw [if_pos hnext, if_pos hnext, hchild, Nat.add_zero]
    · rw [if_neg hnext, if_neg hnext]
      exact ih (by omega) (by omega)

theorem Holds.readLoop_behind (h : s.Holds b bytes last) (hposition : payload ≤ position)
    (hfuel : bytes.length < fuel) :
    ∃ stop, s.readLoop fuel (some b) 0 length position = some ([], stop, position) := by
  obtain rfl | hlength := Nat.eq_zero_or_pos length
  · obtain ⟨fuel, rfl⟩ := Nat.exists_eq_add_one.mpr (Nat.zero_lt_of_lt hfuel)
    exact ⟨some b, by rw [readLoop, if_neg (by omega)]⟩
  · induction h generalizing fuel with
    | last hblock hlt _ => exact ⟨_, hblock.readLoop_behind_last hlt hlength hposition (Nat.zero_le _) hfuel⟩
    | full hblock hfull hchild _ ih =>
      rw [List.length_append, hfull] at hfuel
      obtain ⟨fuel, rfl⟩ : ∃ k, fuel = k + payload := ⟨fuel - payload, by omega⟩
      obtain ⟨stop, hstop⟩ := ih (show _ < fuel by omega)
      refine ⟨stop, ?_⟩
      rw [← hstop]
      exact hblock.readLoop_behind_full hfull hchild hlength hposition (show 0 < payload by decide)

/-- A loop over a whole file delivers its first block. -/
theorem Holds.readLoop (h : s.Holds b bytes last) (hfuel : bytes.length < fuel) :
    ∃ stop position, s.readLoop fuel (some b) 0 bytes.length 0 = some (bytes.take payload, stop, position) := by
  cases h with
  | last hblock hlt _ =>
    obtain ⟨fuel, rfl⟩ : ∃ k, fuel = k + 1 + bytes.length := ⟨fuel - bytes.length - 1, by omega⟩
    have hread : s.readLoop (fuel + 1 + _) _ _ _ _ = _ := hblock.readLoop_last hlt (Nat.zero_le _)
    rw [Nat.sub_zero, List.drop_zero] at hread
    rw [List.take_of_length_le (Nat.le_of_lt hlt)]
    exact ⟨_, _, hread⟩
  | @full _ c _ bytes rest hblock hfull hchild hrest =>
    rw [List.length_append, hfull] at hfuel
    obtain ⟨fuel, rfl⟩ : ∃ k, fuel = k + payload := ⟨fuel - payload, by omega⟩
    have hread : s.readLoop (fuel + _) _ _ (rest.length + _) _ = _ :=
      hblock.readLoop_full hfull hchild (show 0 < payload by decide)
    obtain ⟨stop, hstop⟩ : ∃ stop, s.readLoop fuel _ _ rest.length payload = some ([], stop, payload) :=
      hrest.readLoop_behind (Nat.le_refl payload) (show rest.length < fuel by omega)
    rw [Nat.sub_zero, hstop, Option.map_some, List.drop_zero, List.append_nil] at hread
    rw [List.length_append, hfull, Nat.add_comm payload, List.take_left' hfull]
    exact ⟨_, _, hread⟩

/-! ### Writing and reading back -/

/-- What opening a file again and reading all of it gives: the bytes of its first block. -/
theorem Contents.tfsysRead (h : s.Contents fid b bytes last) {record : DirRecord} (hrecord : record.fid = fid) :
    ∃ file file', s.openRecord record = some file ∧
      s.tfsysRead file bytes.length = some (bytes.take payload, file') := by
  obtain ⟨-, hblocks⟩ := h.lastOf
  have hsize : s.size record.fid = some bytes.length := by
    rw [size, hrecord, h.opened.faddr]
    exact h.holds.sizeFrom (Nat.succ_lt_succ hblocks)
  have hlt : bytes.length < blockCount * payload + 1 := by
    simp only [payload, blockCount] at hblocks ⊢
    omega
  have hword : bytes.length % 2 ^ 32 = bytes.length := by
    refine Nat.mod_eq_of_lt ?_
    simp only [payload, blockCount] at hlt
    omega
  obtain ⟨stop, position, hread⟩ := h.holds.readLoop hlt
  have hopen : s.openRecord record = some ⟨.file, bytes.length, fid, false, 0⟩ := by
    rw [openRecord, hsize, hrecord, h.opened.faddr]
    simp [h.opened.type]
  have hcall : ∃ file', s.tfsysRead ⟨.file, bytes.length, fid, false, 0⟩ bytes.length =
      some (bytes.take payload, file') := by
    rw [Arena.tfsysRead]
    simp only [h.opened.faddr, Option.bind_eq_bind, Option.bind_some, Nat.zero_add, hword, Nat.le_refl, if_true,
      Nat.lt_irrefl, if_false, hread]
    exact ⟨_, rfl⟩
  obtain ⟨file', hfile'⟩ := hcall
  exact ⟨_, file', hopen, hfile'⟩

theorem Opened.tfsysRead_zero {file : FILE} (h : s.Opened file.id b) :
    ∃ file', s.tfsysRead file 0 = some ([], file') := by
  have hloop : ∀ position, s.readLoop (blockCount * payload + 1) (some b) 0 0 position =
      some ([], some b, position) := by
    intro position
    rw [readLoop, if_neg (by omega)]
  rw [tfsysRead, h.faddr, Option.bind_eq_bind, Option.bind_some]
  simp only [hloop, Option.bind_eq_bind, Option.bind_some]
  generalize (if file.fileLength ≤ (file.position + 0) % 2 ^ 32 then { file with eof := true } else file) = opened
  by_cases hpast : opened.fileLength < (opened.position + 0) % 2 ^ 32
  · rw [if_pos hpast]
    exact ⟨_, rfl⟩
  · rw [if_neg hpast]
    exact ⟨_, rfl⟩

theorem openRecord_spec {record : DirRecord} {file : FILE} (h : s.openRecord record = some file) :
    file.id = record.fid ∧ file.position = 0 := by
  obtain ⟨length, -, h⟩ := Option.bind_eq_some_iff.mp h
  obtain ⟨b, -, h⟩ := Option.bind_eq_some_iff.mp h
  obtain rfl := Option.some.inj h
  exact ⟨rfl, rfl⟩

/-- A file opened fresh takes every list of chunks there are blocks for. Opening it again and reading all of it
gives what its first block holds. -/
theorem Opened.read_writes {record : DirRecord} {file : FILE} {chunks : List (List UInt8)}
    (h : s.Opened record.fid b) (hopen : s.openRecord record = some file)
    (hroom : ∀ t, s.resetFile record.fid = some t → chunks.flatten.length / payload ≤ t.freeBlocks.card) :
    ∃ t file' again read, s.tfsysWrites file chunks = some (t, file') ∧ t.openRecord record = some again ∧
      t.tfsysRead again chunks.flatten.length = some (chunks.flatten.take payload, read) := by
  obtain ⟨hid, hpos⟩ := openRecord_spec hopen
  obtain rfl | hchunks := eq_or_ne chunks []
  · rw [← hid] at h
    obtain ⟨read, hread⟩ := h.tfsysRead_zero
    exact ⟨s, file, file, read, rfl, hopen, hread⟩
  · rw [← hid] at h hroom
    obtain ⟨t, file', last, hwrites, hcontents⟩ := h.tfsysWrites hpos hchunks hroom
    obtain ⟨again, read, hagain, hread⟩ := hcontents.tfsysRead hid.symm
    exact ⟨t, file', again, read, hwrites, hagain, hread⟩

/-- Over every run, the chunks come back exactly when they fit into one block. -/
theorem read_writes_of_run {memory : Arena} {calls : List Call} {record : DirRecord} {file : FILE}
    {chunks : List (List UInt8)} (hinit : tfsysInit memory = some s) (hrun : Transition.Run Step s calls s')
    (hlookup : s'.lookup record.fid .file = some b) (hopen : s'.openRecord record = some file)
    (hroom : ∀ t, s'.resetFile record.fid = some t → chunks.flatten.length / payload ≤ t.freeBlocks.card) :
    ∃ t file' again bytes read, s'.tfsysWrites file chunks = some (t, file') ∧ t.openRecord record = some again ∧
      t.tfsysRead again chunks.flatten.length = some (bytes, read) ∧
      (bytes = chunks.flatten ↔ chunks.flatten.length ≤ payload) := by
  have hopened := Opened.of_lookup (linked_of_run hinit hrun) hlookup
  obtain ⟨t, file', again, read, hwrites, hagain, hread⟩ := hopened.read_writes hopen hroom
  exact ⟨t, file', again, _, read, hwrites, hagain, hread, List.take_eq_self_iff _⟩

theorem read_writes_of_run_three_bytes : ∃ s s' calls t file file' again read, tfsysInit (fun _ => .zero) = some s ∧
    Transition.Run Step s calls s' ∧ s'.openRecord ⟨1, [65], true, none⟩ = some file ∧
    s'.tfsysWrites file [[1, 2], [3]] = some (t, file') ∧ t.openRecord ⟨1, [65], true, none⟩ = some again ∧
    t.tfsysRead again 3 = some ([1, 2, 3], read) := by
  have hcalls : ((tfsysInit fun _ => .zero).bind fun s =>
      (s.tfsysCreate ⟨.directory, 0, 0, false, 0⟩ [65] .file).bind fun s =>
        if s.lookup 1 .file = some 1 ∧ (s.openRecord ⟨1, [65], true, none⟩).isSome then some () else none) =
      some () := by
    decide +kernel
  obtain ⟨s, hinit, h⟩ := Option.bind_eq_some_iff.mp hcalls
  obtain ⟨s', hcreate, h⟩ := Option.bind_eq_some_iff.mp h
  rw [Option.ite_none_right_eq_some] at h
  obtain ⟨⟨hlookup, hsome⟩, -⟩ := h
  obtain ⟨file, hopen⟩ := Option.isSome_iff_exists.mp hsome
  have hrun : Transition.Run Step s [_] s' := .single (.create hcreate)
  have hroom : ∀ t, s'.resetFile 1 = some t → [[1, 2], [(3 : UInt8)]].flatten.length / payload ≤ t.freeBlocks.card :=
    fun _ _ => Nat.zero_le _
  obtain ⟨t, file', again, bytes, read, hwrites, hagain, hread, hiff⟩ :=
    read_writes_of_run hinit hrun hlookup hopen hroom
  rw [hiff.mpr (by decide)] at hread
  exact ⟨s, s', _, t, file, file', again, read, hinit, hrun, hopen, hwrites, hagain, hread⟩

/-- A file of 4037 bytes does not come back. -/
theorem second_block_is_lost : ∃ s s' calls t file file' again bytes read,
    tfsysInit (fun _ => .zero) = some s ∧ Transition.Run Step s calls s' ∧ s'.lookup 1 .file = some 1 ∧
    s'.openRecord ⟨1, [65], true, none⟩ = some file ∧ (∀ t, s'.resetFile 1 = some t → 0 < t.freeBlocks.card) ∧
    s'.tfsysWrites file [List.replicate 4037 7] = some (t, file') ∧
    t.openRecord ⟨1, [65], true, none⟩ = some again ∧ t.tfsysRead again 4037 = some (bytes, read) ∧
    bytes ≠ List.replicate 4037 7 := by
  have hcalls : ((tfsysInit fun _ => .zero).bind fun s =>
      (s.tfsysCreate ⟨.directory, 0, 0, false, 0⟩ [65] .file).bind fun s =>
        if s.lookup 1 .file = some 1 ∧ (s.openRecord ⟨1, [65], true, none⟩).isSome ∧ (s 2).occupied = false then
          some ()
        else none) = some () := by
    decide +kernel
  obtain ⟨s, hinit, h⟩ := Option.bind_eq_some_iff.mp hcalls
  obtain ⟨s', hcreate, h⟩ := Option.bind_eq_some_iff.mp h
  rw [Option.ite_none_right_eq_some] at h
  obtain ⟨⟨hlookup, hsome, hfree⟩, -⟩ := h
  obtain ⟨file, hopen⟩ := Option.isSome_iff_exists.mp hsome
  have hrun : Transition.Run Step s [_] s' := .single (.create hcreate)
  have hopened := Opened.of_lookup (linked_of_run hinit hrun) hlookup
  have hroom : ∀ t, s'.resetFile 1 = some t → 0 < t.freeBlocks.card := by
    intro t ht
    refine Finset.card_pos.mpr ⟨2, mem_freeBlocks.mpr ⟨by decide, ?_⟩⟩
    by_contra hocc
    have hstays := ((hopened.resetFile ht).2 2 (Bool.eq_true_of_not_eq_false hocc)).1
    rw [hfree] at hstays
    cases hstays
  have hchunks : [List.replicate 4037 (7 : UInt8)].flatten = List.replicate 4037 7 := List.append_nil _
  have hroom' : ∀ t, s'.resetFile 1 = some t →
      [List.replicate 4037 (7 : UInt8)].flatten.length / payload ≤ t.freeBlocks.card := by
    rw [hchunks, List.length_replicate]
    exact hroom
  obtain ⟨t, file', again, read, hwrites, hagain, hread⟩ := Opened.read_writes hopened hopen hroom'
  rw [hchunks, List.length_replicate, List.take_replicate] at hread
  refine ⟨s, s', _, t, file, file', again, _, read, hinit, hrun, hlookup, hopen, hroom, hwrites, hagain, hread, ?_⟩
  intro heq
  have hlength := congrArg List.length heq
  rw [List.length_replicate, List.length_replicate] at hlength
  exact absurd hlength (by decide)

end Akos.Tmpfs.Arena
