import Mathlib.Data.List.Perm.Subperm
import Mathlib.Data.List.Range
import Akos.Tmpfs.Links

/-!
# Files and their chains

A file in use leads to its first block, and from there over the links to the last one. Writing extends the chain
behind the last block, and starts over by taking the continuation blocks out one by one.
-/

namespace Akos.Tmpfs.Arena

variable {s s' s'' : Arena} {b p c n x fid last cur fuel : Nat}

/-! ### Ids -/

theorem getFaddrById_eq_some_iff : s.getFaddrById fid = some b ↔
    ((s b).fid = fid ∧ (s b).type ≠ .subFile) ∧ b < blockCount ∧
      ∀ x < b, (s x).fid = fid → (s x).type = .subFile := by
  rw [getFaddrById, List.find?_range_eq_some]
  simp [imp_iff_not_or]

/-- Every block with an id of its own was there before, with that id. -/
def KeepsIds (s s' : Arena) : Prop :=
  ∀ b, (s' b).occupied = true → (s' b).type ≠ .subFile →
    (s b).occupied = true ∧ (s' b).type = (s b).type ∧ (s' b).fid = (s b).fid

theorem Shrinks.keepsIds (h : s.Shrinks s') : s.KeepsIds s' := fun b hb _ => h b hb

theorem KeepsIds.trans (h : s.KeepsIds s') (h' : s'.KeepsIds s'') : s.KeepsIds s'' := by
  intro b hb htype
  obtain ⟨hb', htype', hfid'⟩ := h' b hb htype
  obtain ⟨hb'', htype'', hfid''⟩ := h b hb' (htype' ▸ htype)
  exact ⟨hb'', htype'.trans htype'', hfid'.trans hfid''⟩

theorem keepsIds_extended : s.KeepsIds (s.extended last n) := by
  intro x hx htype
  have hxn : x = n → x = last := by
    rintro rfl
    by_contra hne
    rw [extended_new hne] at htype
    exact htype rfl
  obtain rfl | hlast := eq_or_ne x last
  · rw [extended_last] at hx ⊢
    exact ⟨hx, rfl, rfl⟩
  · rw [extended_of_ne hlast fun h => hlast (hxn h)] at hx ⊢
    exact ⟨hx, rfl, rfl⟩

/-- The id leads to a file in use. -/
structure Opened (s : Arena) (fid b : Nat) : Prop where
  linked : s.Linked
  faddr : s.getFaddrById fid = some b
  occupied : (s b).occupied = true
  type : (s b).type = .file

namespace Opened

theorem fid_eq (h : s.Opened fid b) : (s b).fid = fid := (getFaddrById_eq_some_iff.mp h.faddr).1.1

/-- The base directory has the id 0. -/
theorem fid_ne_zero (h : s.Opened fid b) : fid ≠ 0 := by
  rintro rfl
  obtain ⟨-, hdir, hroot⟩ := h.linked.root
  obtain ⟨⟨-, -⟩, -, hfront⟩ := getFaddrById_eq_some_iff.mp h.faddr
  obtain rfl | hb := Nat.eq_zero_or_pos b
  · have htype := h.type
    rw [hdir] at htype
    cases htype
  · have htype := hfront 0 hb hroot
    rw [hdir] at htype
    cases htype

theorem of_lookup (hs : s.Linked) (h : s.lookup fid .file = some b) : s.Opened fid b := by
  obtain ⟨hfaddr, htest⟩ := Option.filter_eq_some_iff.mp h
  simp only [Bool.and_eq_true, decide_eq_true_eq] at htest
  exact ⟨hs, hfaddr, htest.1, htest.2⟩

theorem lookup (h : s.Opened fid b) : s.lookup fid .file = some b := by
  rw [Arena.lookup, h.faddr]
  simp [Option.filter, h.occupied, h.type]

theorem sameLinks (h : s.Opened fid b) (hsame : s.SameLinks s') : s'.Opened fid b := by
  refine ⟨hsame.linked h.linked, ?_, (hsame.occupied b).trans h.occupied, (hsame.type b).trans h.type⟩
  rw [getFaddrById_eq_some_iff]
  simp only [hsame.fid, hsame.type]
  exact getFaddrById_eq_some_iff.mp h.faddr

theorem extended (h : s.Opened fid b) (hn : s.firstFree = some n) (hlast : (s last).occupied = true)
    (htype : (s last).type ≠ .dir) (hnone : (s last).childBlock = none) : (s.extended last n).Opened fid b := by
  obtain ⟨hfree, -, -⟩ := firstFree_eq_some_iff.mp hn
  have hbn : b ≠ n := by
    rintro rfl
    rw [h.occupied] at hfree
    cases hfree
  have hlastn : n ≠ last := by
    rintro rfl
    rw [hlast] at hfree
    cases hfree
  obtain ⟨hb, hlt, hfront⟩ := getFaddrById_eq_some_iff.mp h.faddr
  refine ⟨h.linked.extended hn hlast htype hnone, getFaddrById_eq_some_iff.mpr ⟨?_, hlt, ?_⟩, ?_, ?_⟩
  · rw [extended_old hbn]
    exact hb
  · intro x hx
    obtain rfl | hxn := eq_or_ne x n
    · rw [extended_new hlastn]
      exact fun _ => rfl
    · rw [extended_old hxn]
      exact hfront x hx
  · rw [extended_old hbn]
    exact h.occupied
  · rw [extended_old hbn]
    exact h.type

theorem splice (h : s.Opened fid b) (hc : (s c).occupied = true) (htype : (s c).type = .subFile)
    (hparent : (s c).parentBlock = some p) : (s.splice c p).Opened fid b := by
  have hbc : b ≠ c := by
    rintro rfl
    rw [h.type] at htype
    cases htype
  obtain ⟨hb, hlt, hfront⟩ := getFaddrById_eq_some_iff.mp h.faddr
  refine ⟨h.linked.splice hc htype hparent, getFaddrById_eq_some_iff.mpr ⟨?_, hlt, ?_⟩, ?_, ?_⟩
  · rw [splice_fid hbc, splice_type hbc]
    exact hb
  · intro x hx hfid
    obtain rfl | hxc := eq_or_ne x c
    · rw [splice_self] at hfid
      exact absurd hfid.symm h.fid_ne_zero
    · rw [splice_fid hxc] at hfid
      rw [splice_type hxc]
      exact hfront x hx hfid
  · rw [splice_occupied hbc]
    exact h.occupied
  · rw [splice_type hbc]
    exact h.type

end Opened

/-! ### The last block of a chain -/

theorem lastOf_spec (hs : s.Linked) (hb : (s b).occupied = true) (h : s.lastOf fuel b = some last) :
    (s last).occupied = true ∧ (s last).childBlock = none ∧ (s last).fid = (s b).fid ∧
      ((s b).type ≠ .dir → (s last).type ≠ .dir) := by
  induction fuel generalizing b with
  | zero => cases h
  | succ fuel ih =>
    rw [lastOf] at h
    cases hchild : (s b).childBlock with
    | none =>
      rw [hchild] at h
      obtain rfl := Option.some.inj h
      exact ⟨hb, hchild, rfl, id⟩
    | some c =>
      rw [hchild] at h
      obtain ⟨hc, htype, -, hfid⟩ := hs.child b c hb hchild
      obtain ⟨hocc, hnone, hlast, hdir⟩ := ih hc h
      refine ⟨hocc, hnone, hlast.trans hfid, fun _ => hdir ?_⟩
      rw [htype]
      decide

/-- A walk that does not come to the end goes over different blocks, and not over the base directory. -/
theorem walk_of_lastOf_eq_none (hs : s.Linked) {depth : Nat → Nat}
    (hdepth : ∀ p c, (s p).occupied = true → (s p).childBlock = some c → depth p < depth c)
    (hb : (s b).occupied = true) (h : s.lastOf fuel b = none) :
    ∃ walk : List Nat, walk.length = fuel ∧ walk.Nodup ∧
      ∀ x ∈ walk, 0 < x ∧ x < blockCount ∧ depth b ≤ depth x := by
  induction fuel generalizing b with
  | zero => exact ⟨[], rfl, List.nodup_nil, fun x hx => absurd hx List.not_mem_nil⟩
  | succ fuel ih =>
    rw [lastOf] at h
    cases hchild : (s b).childBlock with
    | none =>
      rw [hchild] at h
      cases h
    | some c =>
      rw [hchild] at h
      obtain ⟨walk, hlength, hnodup, hwalk⟩ := ih (hs.child b c hb hchild).1 h
      have hlt := hdepth b c hb hchild
      have hpos : 0 < b := by
        refine Nat.pos_of_ne_zero ?_
        rintro rfl
        rw [hs.dir 0 hs.root.1 hs.root.2.1] at hchild
        cases hchild
      refine ⟨b :: walk, by rw [List.length_cons, hlength], List.nodup_cons.mpr ⟨fun hmem => ?_, hnodup⟩, ?_⟩
      · have hle := (hwalk b hmem).2.2
        omega
      · intro x hx
        cases hx with
        | head => exact ⟨hpos, (hs.bid b hb).1, Nat.le_refl _⟩
        | tail _ hx =>
          obtain ⟨hxpos, hxlt, hle⟩ := hwalk x hx
          exact ⟨hxpos, hxlt, by omega⟩

/-- The loops over chains end within the number of blocks. -/
theorem exists_lastOf (hs : s.Linked) (hb : (s b).occupied = true) : ∃ last, s.lastOf blockCount b = some last := by
  cases h : s.lastOf blockCount b with
  | some last => exact ⟨last, rfl⟩
  | none =>
    obtain ⟨depth, hdepth⟩ := hs.depth
    obtain ⟨walk, hlength, hnodup, hwalk⟩ := walk_of_lastOf_eq_none hs hdepth hb h
    have hsub : walk ⊆ List.range' 1 255 := by
      intro x hx
      obtain ⟨hpos, hlt, -⟩ := hwalk x hx
      simp only [blockCount] at hlt
      rw [List.mem_range'_1]
      omega
    have hle := (List.subperm_of_subset hnodup hsub).length_le
    rw [hlength, List.length_range'] at hle
    exact absurd hle (by decide)

/-! ### Extending -/

theorem Opened.extendFile_eq (h : s.Opened fid b) (hlast : s.lastOf blockCount b = some last) :
    s.extendFile fid = s.firstFree.map (s.extended last) := by
  obtain ⟨hocc, -, -, -⟩ := lastOf_spec h.linked h.occupied hlast
  rw [extendFile, h.faddr, Option.bind_eq_bind, Option.bind_some, hlast, Option.bind_some]
  cases hn : s.firstFree with
  | none =>
    rw [createBlock, hn]
    rfl
  | some n =>
    have hne : last ≠ n := by
      rintro rfl
      rw [(firstFree_eq_some_iff.mp hn).1] at hocc
      cases hocc
    rw [createBlock_subFile hn, Option.bind_eq_bind, Option.bind_some, Option.map_some]
    dsimp only
    congr 1
    funext x
    obtain rfl | hx := eq_or_ne x last
    · rw [set_self, set_of_ne hne, extended_last]
    · rw [set_of_ne hx]
      obtain rfl | hxn := eq_or_ne x n
      · rw [set_self, extended_new hx]
      · rw [set_of_ne hxn, extended_of_ne hx hxn]

/-- A chain gets a block behind its last one. -/
theorem Opened.extendFile_spec (h : s.Opened fid b) (hextend : s.extendFile fid = some s') :
    ∃ last n, s.lastOf blockCount b = some last ∧ s.firstFree = some n ∧ s' = s.extended last n := by
  obtain ⟨last, hlast⟩ := exists_lastOf h.linked h.occupied
  rw [h.extendFile_eq hlast] at hextend
  obtain ⟨n, hn, rfl⟩ := Option.map_eq_some_iff.mp hextend
  exact ⟨last, n, hlast, hn, rfl⟩

theorem Opened.extend (h : s.Opened fid b) (hlast : s.lastOf blockCount b = some last)
    (hn : s.firstFree = some n) : (s.extended last n).Opened fid b := by
  obtain ⟨hocc, hnone, -, hdir⟩ := lastOf_spec h.linked h.occupied hlast
  refine h.extended hn hocc (hdir ?_) hnone
  rw [h.type]
  decide

/-! ### Starting over -/

/-- What the loop of `reset_file` makes of the links, whether it comes to its end or not. -/
theorem resetChildren_spec (h : s.Opened fid b) (hreset : resetChildren fuel s b = some s') :
    s'.Opened fid b ∧ s.Shrinks s' ∧ (s' b).childBlock = none := by
  induction fuel generalizing s with
  | zero => cases hreset
  | succ fuel ih =>
    rw [resetChildren] at hreset
    cases hchild : (s b).childBlock with
    | none =>
      rw [hchild] at hreset
      obtain rfl := Option.some.inj hreset
      exact ⟨h, Shrinks.refl s, hchild⟩
    | some c =>
      obtain ⟨hc, htype, hparent, -⟩ := h.linked.child b c h.occupied hchild
      simp only [hchild, (h.linked.bid c hc).2, h.linked.freeBlock_subFile hc htype hparent] at hreset
      obtain ⟨hopened, hshrinks, hnone⟩ := ih (h.splice hc htype hparent) hreset
      exact ⟨hopened, splice_shrinks.trans hshrinks, hnone⟩

/-! ### Bytes in a block -/

/-- A block with more bytes. -/
def fill (block : Block) (buffer : List UInt8) : Block :=
  { block with
    data := fun i => if i < block.dataPointer then block.data i else
      buffer[i - block.dataPointer]?.getD (block.data i)
    dataPointer := block.dataPointer + buffer.length }

theorem fill_singleton {block : Block} {c : UInt8} : fill block [c] = { block with
    data := Function.update block.data block.dataPointer c
    dataPointer := block.dataPointer + 1 } := by
  rw [fill]
  congr 1
  funext i
  obtain hlt | rfl | hgt := Nat.lt_trichotomy i block.dataPointer
  · rw [if_pos hlt, Function.update_of_ne (Nat.ne_of_lt hlt)]
  · rw [if_neg (Nat.lt_irrefl _), Function.update_self, Nat.sub_self]
    rfl
  · rw [if_neg (Nat.lt_asymm hgt), Function.update_of_ne (Nat.ne_of_gt hgt),
      List.getElem?_eq_none (by rw [List.length_singleton]; omega), Option.getD_none]

theorem fill_cons {block : Block} {c : UInt8} {buffer : List UInt8} :
    fill (fill block [c]) buffer = fill block (c :: buffer) := by
  rw [fill_singleton, fill, fill]
  congr 1
  · rw [List.length_cons]
    dsimp only
    omega
  · funext i
    dsimp only
    obtain hlt | rfl | hgt := Nat.lt_trichotomy i block.dataPointer
    · rw [if_pos (by omega), if_pos hlt, Function.update_of_ne (Nat.ne_of_lt hlt)]
    · rw [if_pos (by omega), if_neg (Nat.lt_irrefl _), Function.update_self, Nat.sub_self]
      rfl
    · obtain ⟨k, rfl⟩ : ∃ k, i = block.dataPointer + 1 + k := ⟨i - (block.dataPointer + 1), by omega⟩
      rw [if_neg (by omega), if_neg (by omega), Function.update_of_ne (by omega), Nat.add_sub_cancel_left,
        Nat.add_assoc, Nat.add_sub_cancel_left, Nat.add_comm 1 k, List.getElem?_cons_succ]

end Akos.Tmpfs.Arena
