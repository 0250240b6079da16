import Akos.Tmpfs.Contents
import Akos.Tmpfs.Writes

/-!
# Staying in the arena

As long as every call finds room for the blocks and the record it makes, everything it writes is in the arena,
and the records in the block of their directory. The code asks for no room: the first call without it writes
behind the end.
-/

namespace Akos.Tmpfs

open Logged

variable {s s' : Arena} {behind : Behind} {b c k n fid last cur fuel : Nat} {bytes buffer : List UInt8}

/-- In the arena, and for a record in the block of its directory. -/
structure Write.Inside (w : Write) : Prop where
  base : tfsysBase ≤ w.address
  ceiling : w.address + w.length ≤ tfsysCeiling
  record : ∀ dir, w.dir = some dir → blockAddress dir ≤ w.address ∧ w.address + w.length ≤ blockAddress dir + 4096

/-- `tfsys_create` and `tfsys_write` -/
inductive Request
  | create (file : FILE) (fname : List UInt8) (flags : Flags)
  | write (file : FILE) (buffer : List UInt8)

def Request.run (behind : Behind) (s : Arena) : Request → Traced Write Arena
  | .create file fname flags => tfsysCreate behind s file fname flags
  | .write file buffer => do
    let r ← tfsysWrite behind s file buffer
    pure r.1

/-- Whether a call of `tfsys_create` makes anything. -/
def Makes (file : FILE) (flags : Flags) : Prop := file.flags = .directory ∧ flags ≠ .invalid

/-- The handle leads to a directory or a file in use, as the call takes it for one. -/
def Request.Leads (s : Arena) : Request → Prop
  | .create file _ flags => Makes file flags → ∃ parent, s.lookup file.id .dir = some parent
  | .write file _ => ∃ b, s.lookup file.id .file = some b

/-- There is a block and a record for a new file or directory, and for a write the blocks that the file fills:
it keeps those it has, also when it is written from the start. -/
def Request.HasRoom (s : Arena) : Request → Prop
  | .create file _ flags => Makes file flags → (∃ n, s.firstFree = some n) ∧
      ∀ parent, s.lookup file.id .dir = some parent → ∃ slot < recordCount, ((s parent).records slot).occupied = false
  | .write file buffer => ∀ length, s.size file.id = some length →
      ((if file.position = 0 then 0 else length) + buffer.length) / payload ≤ length / payload + s.freeBlocks.card

/-- A call that stays in the arena, and changes nothing without room. -/
structure Request.Stays (request : Request) (behind : Behind) (s : Arena) : Prop where
  inside : (request.run behind s).Within Write.Inside
  unchanged : ¬request.HasRoom s → (request.run behind s).effects = []

/-! ### Blocks -/

theorem blockAddress_le (hb : b < blockCount) : tfsysBase ≤ blockAddress b ∧ blockAddress b + 4096 ≤ tfsysCeiling := by
  simp only [blockAddress, tfsysBase, tfsysCeiling, blockCount] at hb ⊢
  omega

/-- What stays in a block of the arena. -/
theorem inside_block {offset length : Nat} (hb : b < blockCount) (hlength : offset + length ≤ 4096) :
    Write.Inside ⟨blockAddress b + offset, length, none⟩ := by
  obtain ⟨hbase, hceiling⟩ := blockAddress_le hb
  exact ⟨by dsimp only; omega, by dsimp only; omega, fun dir hdir => by cases hdir⟩

/-- What stays in one of the records that fit. -/
theorem inside_record {slot offset length : Nat} (hb : b < blockCount) (hslot : slot < recordCount)
    (hlength : offset + length ≤ 44) : Write.Inside ⟨recordAddress b slot + offset, length, some b⟩ := by
  obtain ⟨hbase, hceiling⟩ := blockAddress_le hb
  have hrecord : recordAddress b slot + 44 ≤ blockAddress b + 4096 := by
    simp only [recordAddress, recordCount, payload] at hslot ⊢
    omega
  have hle : blockAddress b ≤ recordAddress b slot := Nat.le_add_right _ _
  refine ⟨by dsimp only; omega, by dsimp only; omega, fun dir hdir => ?_⟩
  obtain rfl := Option.some.inj hdir
  dsimp only
  omega

theorem addRecordToDir_within (behind : Behind) (fid : Nat) (name : List UInt8) {slot : Nat} (hb : b < blockCount)
    (hslot : slot < recordCount) (hfree : ((s b).records slot).occupied = false) :
    (addRecordToDir behind s fid name b).Within Write.Inside ∧ ∃ s', s.addRecordToDir fid name b = some s' := by
  obtain ⟨found, hfound⟩ : ∃ found, (List.range recordCount).find? (fun slot => !((s b).records slot).occupied) =
      some found := by
    refine Option.isSome_iff_exists.mp (List.find?_isSome.mpr ⟨slot, List.mem_range.mpr hslot, ?_⟩)
    rw [hfree]
    rfl
  have hlt : found < recordCount := List.mem_range.mp (List.mem_of_find?_eq_some hfound)
  refine ⟨Traced.Within.bind (Traced.within_emit ?_) fun _ _ => Traced.within_lift _, ?_⟩
  · intro w hw
    rw [hfound, Option.getD_some] at hw
    cases hw with
    | head => exact inside_record hb (by decide) (Nat.le_refl 44)
    | tail _ hw =>
      obtain rfl := List.mem_singleton.mp hw
      exact (inside_record hb hlt (Nat.le_refl 44) : Write.Inside ⟨recordAddress b found + 0, 44, some b⟩)
  · rw [Arena.addRecordToDir, hfound]
    exact ⟨_, rfl⟩

theorem within_clear (hb : b < blockCount) :
    ∀ w ∈ ([⟨blockAddress b, 4096, none⟩, ⟨blockAddress b, 60, none⟩] : List Write),
    w.Inside := by
  intro w hw
  cases hw with
  | head => exact (inside_block hb (Nat.le_refl 4096) : Write.Inside ⟨blockAddress b + 0, 4096, none⟩)
  | tail _ hw =>
    obtain rfl := List.mem_singleton.mp hw
    exact (inside_block hb (by decide) : Write.Inside ⟨blockAddress b + 0, 60, none⟩)

/-! ### New blocks -/

theorem createBlock_subFile_within (hn : s.firstFree = some n) {name : List UInt8} :
    (createBlock behind s last .subFile name).Within Write.Inside := by
  obtain ⟨-, hlt, -⟩ := Arena.firstFree_eq_some_iff.mp hn
  refine Traced.Within.bind (Traced.within_emit ?_) fun _ _ => Traced.Within.bind (Traced.within_lift _) fun _ _ => ?_
  · rw [hn]
    exact within_clear hlt
  · exact Traced.within_pure _

/-- The records of a directory after one more is put into it. -/
theorem addRecordToDir_records {name : List UInt8} (h : s.addRecordToDir fid name b = some s') :
    ∃ slot < recordCount, ((s b).records slot).occupied = false ∧
      ∀ x, x ≠ slot → ((s' b).records x).occupied = ((s b).records x).occupied := by
  obtain ⟨slot, hslot, rfl⟩ := Option.map_eq_some_iff.mp h
  have hfree := List.find?_some hslot
  refine ⟨slot, List.mem_range.mp (List.mem_of_find?_eq_some hslot), by simpa using hfree, fun x hx => ?_⟩
  rw [Arena.set_self]
  dsimp only
  rw [Function.update_of_ne hx]
  obtain rfl | hx0 := eq_or_ne x 0
  · rw [Function.update_self]
  · rw [Function.update_of_ne hx0]

theorem addRecordToDir_of_ne {name : List UInt8} (h : s.addRecordToDir fid name b = some s') (hne : c ≠ b) :
    s' c = s c := by
  obtain ⟨slot, -, rfl⟩ := Option.map_eq_some_iff.mp h
  exact Arena.set_of_ne hne

/-- A file or a directory that finds a block and a record. -/
theorem createBlock_within {type : BlockType} {name : List UInt8} {parent slot : Nat} (hs : s.Linked)
    (hn : s.firstFree = some n) (hparent : (s parent).occupied = true) (hslot : slot < recordCount)
    (hfree : ((s parent).records slot).occupied = false) (htype : type ≠ .subFile) :
    (createBlock behind s parent type name).Within Write.Inside ∧
      ∃ r, s.createBlock parent type name = some r := by
  obtain ⟨hnfree, hlt, -⟩ := Arena.firstFree_eq_some_iff.mp hn
  have hne : parent ≠ n := by
    rintro rfl
    rw [hparent] at hnfree
    cases hnfree
  have hplt := (hs.bid parent hparent).1
  have hfid := Arena.getNextFid_eq hn
  generalize ((List.range n).countP fun x => (s x).type ≠ .subFile) = fid at hfid
  have hrecord : ∀ type, (((s.set n (Arena.newBlock parent type fid n name)) parent).records slot).occupied = false := by
    intro type
    rw [Arena.set_of_ne hne, hfree]
  obtain ⟨hwithin, t, ht⟩ := addRecordToDir_within behind fid (name.take 31) hplt hslot (hrecord type)
  -- In the new directory every record is free.
  have hnew : t n = Arena.newBlock parent type fid n name := by
    rw [addRecordToDir_of_ne ht hne.symm, Arena.set_self]
  obtain ⟨hwithin', u, hu⟩ := addRecordToDir_within behind fid [46] hlt (by decide : 0 < recordCount)
    (s := t) (by rw [hnew]; rfl)
  obtain ⟨found, -, -, hothers⟩ := addRecordToDir_records hu
  obtain ⟨slot', hslot', hnext⟩ : ∃ slot' < recordCount, slot' ≠ found := by
    obtain rfl | hfound := eq_or_ne found 0
    · exact ⟨1, by decide, by decide⟩
    · exact ⟨0, by decide, hfound.symm⟩
  obtain ⟨hwithin'', v, hv⟩ := addRecordToDir_within behind (u parent).fid [46, 46] hlt hslot'
    (s := u) (by rw [hothers slot' hnext, hnew]; rfl)
  refine ⟨Traced.Within.bind (Traced.within_emit ?_) fun _ _ => Traced.Within.bind (Traced.within_lift _) ?_, ?_⟩
  · rw [hn]
    exact within_clear hlt
  · intro base hbase
    obtain rfl := Option.some.inj (hn.symm.trans hbase)
    cases type with
    | subFile => exact absurd rfl htype
    | file =>
      refine Traced.Within.bind (Traced.within_lift _) fun fid' hfid' => ?_
      obtain rfl := Option.some.inj (hfid.symm.trans hfid')
      exact Traced.Within.bind hwithin fun _ _ => Traced.within_pure _
    | dir =>
      refine Traced.Within.bind (Traced.within_lift _) fun fid' hfid' => ?_
      obtain rfl := Option.some.inj (hfid.symm.trans hfid')
      refine Traced.Within.bind hwithin fun t' ht' => ?_
      obtain rfl := Option.some.inj (ht.symm.trans (addRecordToDir_result.symm.trans ht'))
      refine Traced.Within.bind hwithin' fun u' hu' => ?_
      obtain rfl := Option.some.inj (hu.symm.trans (addRecordToDir_result.symm.trans hu'))
      exact Traced.Within.bind hwithin'' fun _ _ => Traced.within_pure _
  · rw [Arena.createBlock, hn]
    cases type with
    | subFile => exact absurd rfl htype
    | file => exact ⟨(n, t), by simp only [Option.bind_eq_bind, Option.bind_some, hfid, ht]⟩
    | dir => exact ⟨(n, v), by simp only [Option.bind_eq_bind, Option.bind_some, hfid, ht, hu, hv]⟩

/-! ### Full blocks -/

/-- In every chain the blocks are full but the last one. -/
structure FullButLast (s : Arena) : Prop where
  full : ∀ b c, (s b).occupied = true → (s b).childBlock = some c → (s b).dataPointer = payload
  last : ∀ b, (s b).occupied = true → (s b).childBlock = none → (s b).dataPointer < payload

namespace FullButLast

theorem holds (h : FullButLast s) (hs : s.Linked) (hb : (s b).occupied = true)
    (hlast : s.lastOf fuel b = some last) : ∃ bytes, s.Holds b bytes last := by
  induction fuel generalizing b with
  | zero => cases hlast
  | succ fuel ih =>
    have hblock : Arena.BlockHolds (s b) ((List.range (s b).dataPointer).map (s b).data) :=
      ⟨hb, by rw [List.length_map, List.length_range], fun i hi => by rw [List.getElem_map, List.getElem_range]⟩
    rw [Arena.lastOf] at hlast
    cases hchild : (s b).childBlock with
    | none =>
      rw [hchild] at hlast
      obtain rfl := Option.some.inj hlast
      refine ⟨_, .last hblock ?_ hchild⟩
      rw [List.length_map, List.length_range]
      exact h.last b hb hchild
    | some c =>
      rw [hchild] at hlast
      obtain ⟨bytes, hbytes⟩ := ih (hs.child b c hb hchild).1 hlast
      refine ⟨_, .full hblock ?_ hchild hbytes⟩
      rw [List.length_map, List.length_range]
      exact h.full b c hb hchild

theorem contents (h : FullButLast s) (hopened : s.Opened fid b) : ∃ bytes last, s.Contents fid b bytes last := by
  obtain ⟨last, hlast⟩ := Arena.exists_lastOf hopened.linked hopened.occupied
  obtain ⟨bytes, hbytes⟩ := h.holds hopened.linked hopened.occupied hlast
  exact ⟨bytes, last, hopened, hbytes⟩

/-- A last block with room, in place of another. -/
theorem set (h : FullButLast s) {block : Block} (hchild : block.childBlock = none)
    (hlt : block.dataPointer < payload) : FullButLast (s.set b block) := by
  constructor
  · intro x c hx hc
    obtain rfl | hxb := eq_or_ne x b
    · rw [Arena.set_self, hchild] at hc
      cases hc
    · rw [Arena.set_of_ne hxb] at hx hc ⊢
      exact h.full x c hx hc
  · intro x hx hc
    obtain rfl | hxb := eq_or_ne x b
    · rw [Arena.set_self]
      exact hlt
    · rw [Arena.set_of_ne hxb] at hx hc ⊢
      exact h.last x hx hc

/-- The last block of a chain gets full, and one more behind it. -/
theorem extended (h : FullButLast s) {block : Block} (hblock : block.dataPointer = payload) (hne : n ≠ last) :
    FullButLast ((s.set last block).extended last n) := by
  constructor
  · intro x c hx hc
    obtain rfl | hxn := eq_or_ne x n
    · rw [Arena.extended_new hne] at hc
      cases hc
    · rw [Arena.extended_old hxn] at hx hc ⊢
      dsimp only at hx hc ⊢
      obtain rfl | hxlast := eq_or_ne x last
      · rw [Arena.set_self]
        exact hblock
      · rw [if_neg hxlast, Arena.set_of_ne hxlast] at hc
        rw [Arena.set_of_ne hxlast] at hx ⊢
        exact h.full x c hx hc
  · intro x hx hc
    obtain rfl | hxn := eq_or_ne x n
    · rw [Arena.extended_new hne]
      exact (by decide : 0 < payload)
    · rw [Arena.extended_old hxn] at hx hc ⊢
      dsimp only at hx hc ⊢
      obtain rfl | hxlast := eq_or_ne x last
      · rw [if_pos rfl] at hc
        cases hc
      · rw [if_neg hxlast, Arena.set_of_ne hxlast] at hc
        rw [Arena.set_of_ne hxlast] at hx ⊢
        exact h.last x hx hc

end FullButLast

/-! ### Writing -/

theorem extendFile_within (h : s.Opened fid b) (hextend : s.extendFile fid = some s') :
    (extendFile behind s fid).Within Write.Inside := by
  obtain ⟨last, n, hlast, hn, -⟩ := h.extendFile_spec hextend
  obtain ⟨hocc, -, -, -⟩ := Arena.lastOf_spec h.linked h.occupied hlast
  refine Traced.Within.bind (Traced.within_lift _) fun base hbase => ?_
  obtain rfl := Option.some.inj (h.faddr.symm.trans hbase)
  refine Traced.Within.bind (Traced.within_lift _) fun last' hlast' => ?_
  obtain rfl := Option.some.inj (hlast.symm.trans hlast')
  refine Traced.Within.bind (createBlock_subFile_within hn) fun _ _ => ?_
  refine Traced.Within.bind (Traced.within_emit fun w hw => ?_) fun _ _ => Traced.within_pure _
  obtain rfl := List.mem_singleton.mp hw
  exact inside_block (h.linked.bid last hocc).1 (by decide)

/-- A byte that finds room. -/
theorem writeByte_within (behind : Behind) {r : Arena × Nat} {x : UInt8} (h : s.Contents fid b bytes last)
    (hfull : FullButLast s)
    (hwrite : Arena.writeByte (s, last) x = some r) :
    (writeByte behind (s, last) x).Within Write.Inside ∧ FullButLast r.1 := by
  obtain ⟨hocc, hnone, hfid, -⟩ := Arena.lastOf_spec h.opened.linked h.opened.occupied h.lastOf.1
  have hlt := hfull.last last hocc hnone
  have hblt := (h.opened.linked.bid last hocc).1
  let block : Block := { s last with
    data := Function.update (s last).data (s last).dataPointer x
    dataPointer := (s last).dataPointer + 1 }
  have hsame : s.SameLinks (s.set last block) := Arena.SameLinks.set rfl rfl rfl rfl rfl rfl
  have hopened : (s.set last block).Opened fid b := h.opened.sameLinks hsame
  have hfid' : ((s.set last block) last).fid = fid := (hsame.fid last).trans (hfid.trans h.opened.fid_eq)
  have hemit : ∀ w ∈ ([⟨blockAddress last + (60 + (s last).dataPointer), 1, none⟩,
      ⟨blockAddress last + 20, 4, none⟩] : List Write), w.Inside := by
    intro w hw
    simp only [payload] at hlt
    cases hw with
    | head => exact inside_block hblt (by omega)
    | tail _ hw =>
      obtain rfl := List.mem_singleton.mp hw
      exact inside_block hblt (by decide)
  rw [Arena.writeByte] at hwrite
  dsimp only at hwrite
  split at hwrite
  · next heq =>
    obtain ⟨t, ht, hwrite⟩ := Option.bind_eq_some_iff.mp hwrite
    obtain ⟨child, -, hwrite⟩ := Option.bind_eq_some_iff.mp hwrite
    obtain rfl := Option.some.inj hwrite
    have hextend : (s.set last block).extendFile fid = some t := by
      rw [← h.opened.fid_eq, ← hfid, ← ht, Arena.set_self]
    constructor
    · refine Traced.Within.bind (Traced.within_emit hemit) fun _ _ => ?_
      dsimp only
      rw [if_pos heq]
      refine Traced.Within.bind (extendFile_within (hfid'.symm ▸ hopened) (hfid'.symm ▸ hextend)) fun _ _ => ?_
      exact Traced.Within.bind (Traced.within_lift _) fun _ _ => Traced.within_pure _
    · obtain ⟨last', n, hlast', hn, rfl⟩ := hopened.extendFile_spec hextend
      obtain rfl := Option.some.inj ((hsame.lastOf_eq.trans h.lastOf.1).symm.trans hlast')
      refine hfull.extended ?_ ?_
      · rw [← heq, Arena.set_self]
      · rintro rfl
        have hfree := (Arena.firstFree_eq_some_iff.mp hn).1
        rw [hsame.occupied, hocc] at hfree
        cases hfree
  · next hneq =>
    obtain rfl := Option.some.inj hwrite
    constructor
    · refine Traced.Within.bind (Traced.within_emit hemit) fun _ _ => ?_
      dsimp only
      rw [if_neg hneq]
      exact Traced.within_pure _
    · rw [Arena.set_self] at hneq
      refine hfull.set hnone ?_
      dsimp only at hneq ⊢
      omega

theorem writeBytes_within (behind : Behind) (h : s.Contents fid b bytes last) (hfull : FullButLast s)
    (hroom : (bytes.length + buffer.length) / payload ≤ bytes.length / payload + s.freeBlocks.card) :
    (buffer.foldlM (writeByte behind) (s, last)).Within Write.Inside ∧
      ∃ r, buffer.foldlM Arena.writeByte (s, last) = some r ∧ r.1.Opened fid b ∧ FullButLast r.1 := by
  induction buffer generalizing s bytes last with
  | nil => exact ⟨Traced.within_pure _, (s, last), rfl, h.opened, hfull⟩
  | cons x buffer ih =>
    rw [List.length_cons, Nat.add_comm buffer.length 1, ← Nat.add_assoc] at hroom
    have hle : (bytes.length + 1) / payload ≤ (bytes.length + 1 + buffer.length) / payload :=
      Nat.div_le_div_right (Nat.le_add_right _ _)
    obtain ⟨s₁, last₁, hstep, h₁, hcount⟩ := h.writeByte (x := x) (Nat.le_trans hle hroom)
    have hlength : (bytes ++ [x]).length = bytes.length + 1 := by
      rw [List.length_append, List.length_singleton]
    obtain ⟨hwithin, hfull₁⟩ := writeByte_within behind h hfull hstep
    rw [← hcount, ← hlength] at hroom
    obtain ⟨hrest, r, hr, hopened, hfull'⟩ := ih h₁ hfull₁ hroom
    refine ⟨?_, r, ?_, hopened, hfull'⟩
    · rw [List.foldlM_cons]
      refine Traced.Within.bind hwithin fun t ht => ?_
      obtain rfl := Option.some.inj (hstep.symm.trans (writeByte_result.symm.trans ht))
      exact hrest
    · rw [List.foldlM_cons, hstep]
      exact hr

/-- Going over the full blocks writes nothing. -/
theorem skipFull_within (h : s.Holds b bytes last) : (skipFull behind fuel s b).Within Write.Inside := by
  induction h generalizing fuel with
  | last hblock hlt _ =>
    cases fuel with
    | zero => exact Traced.within_lift _
    | succ fuel =>
      rw [skipFull, if_neg (by rw [hblock.dataPointer]; exact Nat.ne_of_lt hlt)]
      exact Traced.within_pure _
  | full hblock hlength hchild _ ih =>
    cases fuel with
    | zero => exact Traced.within_lift _
    | succ fuel =>
      rw [skipFull, if_pos (hblock.dataPointer.trans hlength), hchild, if_neg (by simp)]
      refine Traced.Within.bind (Traced.within_pure _) fun t ht => ?_
      obtain rfl := Option.some.inj ht
      refine Traced.Within.bind (Traced.within_lift _) fun child hc => ?_
      obtain rfl := Option.some.inj (hchild.symm.trans hc)
      exact ih

/-! ### Starting over -/

/-- The number of blocks behind one. -/
inductive Trail (s : Arena) : Nat → Nat → Prop
  | last {b : Nat} : (s b).childBlock = none → Trail s b 0
  | next {b c k : Nat} : (s b).childBlock = some c → Trail s c k → Trail s b (k + 1)

theorem trail_of_holds (h : s.Holds b bytes last) : Trail s b (bytes.length / payload) := by
  induction h with
  | last _ hlt hchild =>
    rw [Nat.div_eq_of_lt hlt]
    exact .last hchild
  | full _ hlength hchild _ ih =>
    rw [Arena.Holds.div_add_one hlength]
    exact .next hchild ih

/-- Further down a chain the blocks come behind the two that `splice` changes. -/
theorem Trail.splice {depth : Nat → Nat} (h : Trail s b k) (hs : s.Linked)
    (hdepth : ∀ p c, (s p).occupied = true → (s p).childBlock = some c → depth p < depth c)
    (hb : (s b).occupied = true) {p : Nat} (hc : depth c < depth b) (hp : depth p < depth b) :
    Trail (s.splice c p) b k := by
  have hne : ∀ {x}, depth c < depth x → depth p < depth x → (s.splice c p x).childBlock = (s x).childBlock := by
    intro x hcx hpx
    refine Arena.splice_childBlock ?_ ?_ <;> rintro rfl
    · exact absurd hcx (Nat.lt_irrefl _)
    · exact absurd hpx (Nat.lt_irrefl _)
  induction h with
  | last hchild => exact .last ((hne hc hp).trans hchild)
  | @next b d k hchild _ ih =>
    have hlt := hdepth b d hb hchild
    exact .next ((hne hc hp).trans hchild)
      (ih (hs.child b d hb hchild).1 (Nat.lt_trans hc hlt) (Nat.lt_trans hp hlt))

/-- The file takes over the chain of the continuation block that goes. -/
theorem splice_child (hne : b ≠ c) : (s.splice c b b).childBlock = (s c).childBlock := by
  rw [Arena.splice, if_neg hne, if_pos rfl]

theorem card_freeBlocks_resetChildren (h : s.Opened fid b) (htrail : Trail s b k)
    (hreset : Arena.resetChildren fuel s b = some s') : s'.freeBlocks.card = s.freeBlocks.card + k := by
  induction fuel generalizing s k with
  | zero => cases hreset
  | succ fuel ih =>
    rw [Arena.resetChildren] at hreset
    cases htrail with
    | last hchild =>
      rw [hchild] at hreset
      obtain rfl := Option.some.inj hreset
      rfl
    | @next _ c k hchild hrest =>
      obtain ⟨hc, htype, hparent, -⟩ := h.linked.child b c h.occupied hchild
      simp only [hchild, (h.linked.bid c hc).2, h.linked.freeBlock_subFile hc htype hparent] at hreset
      have hbc : b ≠ c := (h.linked.not_child_self h.occupied hchild).symm
      have htrail : Trail (s.splice c b) b k := by
        obtain ⟨depth, hdepth⟩ := h.linked.depth
        cases hrest with
        | last hnone => exact .last ((splice_child hbc).trans hnone)
        | @next _ d k hd hrest =>
          have hbc' := hdepth b c h.occupied hchild
          have hcd := hdepth c d hc hd
          exact .next ((splice_child hbc).trans hd)
            (hrest.splice h.linked hdepth (h.linked.child c d hc hd).1 hcd (Nat.lt_trans hbc' hcd))
      rw [ih (h.splice hc htype hparent) htrail hreset, Arena.card_freeBlocks_splice h.linked hc, Nat.add_assoc,
        Nat.add_comm 1]

theorem splice_dataPointer {p x : Nat} (hne : x ≠ b) : (s.splice b p x).dataPointer = (s x).dataPointer := by
  rw [Arena.splice, if_neg hne]
  split
  · next h => rw [h]
  · split <;> rfl

/-- The other files keep their chains, block by block. -/
theorem resetChildren_others (h : s.Opened fid b) (hreset : Arena.resetChildren fuel s b = some s') {x : Nat}
    (hx : x ≠ b) (hocc : (s' x).occupied = true) : (s x).occupied = true ∧ (s' x).childBlock = (s x).childBlock ∧
      (s' x).dataPointer = (s x).dataPointer := by
  induction fuel generalizing s with
  | zero => cases hreset
  | succ fuel ih =>
    rw [Arena.resetChildren] at hreset
    cases hchild : (s b).childBlock with
    | none =>
      rw [hchild] at hreset
      obtain rfl := Option.some.inj hreset
      exact ⟨hocc, rfl, rfl⟩
    | some c =>
      obtain ⟨hc, htype, hparent, -⟩ := h.linked.child b c h.occupied hchild
      simp only [hchild, (h.linked.bid c hc).2, h.linked.freeBlock_subFile hc htype hparent] at hreset
      obtain ⟨hocc', hchild', hpointer⟩ := ih (h.splice hc htype hparent) hreset
      have hxc := Arena.ne_of_splice_occupied hocc'
      rw [Arena.splice_occupied hxc] at hocc'
      exact ⟨hocc', hchild'.trans (Arena.splice_childBlock hxc hx), hpointer.trans (splice_dataPointer hxc)⟩

theorem resetChildren_within (h : s.Opened fid b) : (resetChildren fuel s b).Within Write.Inside := by
  induction fuel generalizing s with
  | zero => exact Traced.within_lift _
  | succ fuel ih =>
    rw [resetChildren]
    cases hchild : (s b).childBlock with
    | none => exact Traced.within_pure _
    | some c =>
      obtain ⟨hc, htype, hparent, -⟩ := h.linked.child b c h.occupied hchild
      obtain ⟨hclt, hbid⟩ := h.linked.bid c hc
      dsimp only
      rw [hbid]
      refine Traced.Within.bind ?_ fun t ht => ?_
      · refine Traced.Within.bind (Traced.within_lift _) fun parent hp => ?_
        obtain rfl := Option.some.inj (hparent.symm.trans hp)
        refine Traced.Within.bind (Traced.within_emit fun w hw => ?_) fun _ _ =>
          Traced.Within.bind (Traced.within_emit fun w hw => ?_) fun _ _ =>
            Traced.Within.bind (Traced.within_lift _) fun _ _ => Traced.within_pure _
        · cases hw with
          | head => exact inside_block (h.linked.bid b h.occupied).1 (by decide)
          | tail _ hw =>
            obtain ⟨d, hd, rfl⟩ := List.mem_map.mp hw
            have hd' := (h.linked.child c d hc (by simpa using hd)).1
            exact (inside_block (h.linked.bid d hd').1 (by decide) : Write.Inside ⟨blockAddress d + 0, 4, none⟩)
        · obtain rfl := List.mem_singleton.mp hw
          exact (inside_block hclt (Nat.le_refl 4096) : Write.Inside ⟨blockAddress c + 0, 4096, none⟩)
      · rw [freeBlock_result h.linked hc htype hparent] at ht
        obtain rfl := Option.some.inj ht
        exact ih (h.splice hc htype hparent)

/-- A file before its first byte: what it had beyond one block is free. -/
theorem resetFile_within (h : s.Contents fid b bytes last) (hfull : FullButLast s) :
    (resetFile s fid).Within Write.Inside ∧ ∃ s', s.resetFile fid = some s' ∧ s'.Contents fid b [] b ∧
      FullButLast s' ∧ s'.freeBlocks.card = s.freeBlocks.card + bytes.length / payload := by
  obtain ⟨t, ht⟩ := h.opened.exists_resetChildren (Nat.le_add_right blockCount _)
  obtain ⟨s', hreset, hcontents⟩ := h.opened.exists_resetFile
  obtain ⟨hopened, -, hnone⟩ := Arena.resetChildren_spec h.opened ht
  refine ⟨?_, s', hreset, hcontents, ?_⟩
  · refine Traced.Within.bind (Traced.within_lift _) fun b' hb' => ?_
    obtain rfl := Option.some.inj (h.opened.faddr.symm.trans hb')
    refine Traced.Within.bind (resetChildren_within h.opened) fun _ _ =>
      Traced.Within.bind (Traced.within_emit fun w hw => ?_) fun _ _ => Traced.within_pure _
    obtain rfl := List.mem_singleton.mp hw
    exact inside_block (h.opened.linked.bid b h.opened.occupied).1 (by decide)
  · rw [Arena.resetFile, h.opened.faddr, Option.bind_eq_bind, Option.bind_some, ht] at hreset
    obtain rfl := Option.some.inj hreset
    have hsame : t.SameLinks (t.set b { t b with dataPointer := 0 }) := Arena.SameLinks.set rfl rfl rfl rfl rfl rfl
    refine ⟨⟨fun x c hx hc => ?_, fun x hx hc => ?_⟩, ?_⟩
    · obtain rfl | hxb := eq_or_ne x b
      · rw [hsame.childBlock, hnone] at hc
        cases hc
      · rw [Arena.set_of_ne hxb] at hx hc ⊢
        obtain ⟨hocc, hchild, hpointer⟩ := resetChildren_others h.opened ht hxb hx
        rw [hpointer]
        exact hfull.full x c hocc (hchild.symm.trans hc)
    · obtain rfl | hxb := eq_or_ne x b
      · rw [Arena.set_self]
        exact (by decide : 0 < payload)
      · rw [Arena.set_of_ne hxb] at hx hc ⊢
        obtain ⟨hocc, hchild, hpointer⟩ := resetChildren_others h.opened ht hxb hx
        rw [hpointer]
        exact hfull.last x hocc (hchild.symm.trans hc)
    · rw [hsame.freeBlocks_eq, card_freeBlocks_resetChildren h.opened (trail_of_holds h.holds) ht]

/-! ### One call -/

theorem addRecordToDir_fullButLast {name : List UInt8} (h : FullButLast s)
    (hadd : s.addRecordToDir fid name b = some s') : FullButLast s' := by
  obtain ⟨slot, -, rfl⟩ := Option.map_eq_some_iff.mp hadd
  constructor
  · intro x c hx hc
    obtain rfl | hxb := eq_or_ne x b
    · rw [Arena.set_self] at hx hc ⊢
      exact h.full x c hx hc
    · rw [Arena.set_of_ne hxb] at hx hc ⊢
      exact h.full x c hx hc
  · intro x hx hc
    obtain rfl | hxb := eq_or_ne x b
    · rw [Arena.set_self] at hx hc ⊢
      exact h.last x hx hc
    · rw [Arena.set_of_ne hxb] at hx hc ⊢
      exact h.last x hx hc

theorem createBlock_fullButLast {type : BlockType} {name : List UInt8} {parent : Nat} {r : Nat × Arena}
    (h : FullButLast s) (htype : type ≠ .subFile) (hcreate : s.createBlock parent type name = some r) :
    FullButLast r.2 := by
  rw [Arena.createBlock] at hcreate
  obtain ⟨n, -, hcreate⟩ := Option.bind_eq_some_iff.mp hcreate
  have hnew : ∀ fid, FullButLast (s.set n (Arena.newBlock parent type fid n name)) :=
    fun fid => h.set rfl (by decide : 0 < payload)
  cases type with
  | subFile => exact absurd rfl htype
  | file =>
    obtain ⟨fid, -, hcreate⟩ := Option.bind_eq_some_iff.mp hcreate
    obtain ⟨t, ht, hcreate⟩ := Option.bind_eq_some_iff.mp hcreate
    obtain rfl := Option.some.inj hcreate
    exact addRecordToDir_fullButLast (hnew fid) ht
  | dir =>
    obtain ⟨fid, -, hcreate⟩ := Option.bind_eq_some_iff.mp hcreate
    obtain ⟨t, ht, hcreate⟩ := Option.bind_eq_some_iff.mp hcreate
    obtain ⟨u, hu, hcreate⟩ := Option.bind_eq_some_iff.mp hcreate
    obtain ⟨v, hv, hcreate⟩ := Option.bind_eq_some_iff.mp hcreate
    obtain rfl := Option.some.inj hcreate
    exact addRecordToDir_fullButLast (addRecordToDir_fullButLast (addRecordToDir_fullButLast (hnew fid) ht) hu) hv

theorem tfsysCreate_within (behind : Behind) {file : FILE} {fname : List UInt8} {flags : Flags} (hs : s.Linked)
    (hleads : (Request.create file fname flags).Leads s) (hroom : (Request.create file fname flags).HasRoom s) :
    (tfsysCreate behind s file fname flags).Within Write.Inside ∧
      ∃ s', s.tfsysCreate file fname flags = some s' := by
  have hmake : ∀ type, type ≠ .subFile → Makes file flags → ∃ parent, s.lookup file.id .dir = some parent ∧
      (createBlock behind s parent type fname).Within Write.Inside ∧
      ∃ r, s.createBlock parent type fname = some r := by
    intro type htype hmakes
    obtain ⟨parent, hparent⟩ := hleads hmakes
    obtain ⟨⟨n, hn⟩, hslots⟩ := hroom hmakes
    obtain ⟨slot, hslot, hfree⟩ := hslots parent hparent
    obtain ⟨-, htest⟩ := Option.filter_eq_some_iff.mp hparent
    simp only [Bool.and_eq_true, decide_eq_true_eq] at htest
    exact ⟨parent, hparent, createBlock_within hs hn htest.1 hslot hfree htype⟩
  unfold tfsysCreate Arena.tfsysCreate
  cases hfile : file.flags with
  | file => exact ⟨Traced.within_pure _, s, rfl⟩
  | invalid => exact ⟨Traced.within_pure _, s, rfl⟩
  | directory =>
    cases flags with
    | invalid => exact ⟨Traced.within_pure _, s, rfl⟩
    | file =>
      obtain ⟨parent, hparent, hwithin, r, hr⟩ := hmake .file (by decide) ⟨hfile, by decide⟩
      refine ⟨Traced.Within.bind (Traced.within_lift _) fun parent' hp => ?_, r.2, ?_⟩
      · obtain rfl := Option.some.inj (hparent.symm.trans hp)
        exact Traced.Within.bind hwithin fun _ _ => Traced.within_pure _
      · simp only [hparent, hr, Option.bind_eq_bind, Option.bind_some, Option.map_some]
    | directory =>
      obtain ⟨parent, hparent, hwithin, r, hr⟩ := hmake .dir (by decide) ⟨hfile, by decide⟩
      refine ⟨Traced.Within.bind (Traced.within_lift _) fun parent' hp => ?_, r.2, ?_⟩
      · obtain rfl := Option.some.inj (hparent.symm.trans hp)
        exact Traced.Within.bind hwithin fun _ _ => Traced.within_pure _
      · simp only [hparent, hr, Option.bind_eq_bind, Option.bind_some, Option.map_some]

theorem tfsysWrite_within (behind : Behind) {file : FILE} (hs : s.Linked) (hfull : FullButLast s)
    (hleads : (Request.write file buffer).Leads s) (hroom : (Request.write file buffer).HasRoom s) :
    (tfsysWrite behind s file buffer).Within Write.Inside ∧
      ∃ r, s.tfsysWrite file buffer = some r ∧ FullButLast r.1 := by
  obtain ⟨b, hb⟩ := hleads
  have hopened := Arena.Opened.of_lookup hs hb
  obtain ⟨bytes, last, hcontents⟩ := hfull.contents hopened
  have hsize : s.size file.id = some bytes.length := by
    rw [Arena.size, hopened.faddr]
    exact hcontents.holds.sizeFrom (Nat.succ_lt_succ hcontents.lastOf.2)
  have hroom := hroom _ hsize
  -- After the reset, if there is one, the bytes fit behind those that are left.
  obtain ⟨hwithin, t, kept, last', ht, hkept, hfull', hroom'⟩ :
      (if file.position = 0 then resetFile s file.id else pure s).Within Write.Inside ∧
        ∃ t kept last', (if file.position = 0 then s.resetFile file.id else some s) = some t ∧
          t.Contents file.id b kept last' ∧ FullButLast t ∧
          (kept.length + buffer.length) / payload ≤ kept.length / payload + t.freeBlocks.card := by
    split
    · next hpos =>
      obtain ⟨hwithin, t, ht, hempty, hfull', hcard⟩ := resetFile_within hcontents hfull
      refine ⟨hwithin, t, [], b, ht, hempty, hfull', ?_⟩
      rw [if_pos hpos] at hroom
      rw [hcard, List.length_nil, Nat.zero_div]
      omega
    · next hpos =>
      rw [if_neg hpos] at hroom
      exact ⟨Traced.within_pure _, s, bytes, last, rfl, hcontents, hfull, hroom⟩
  have hskip := hkept.holds.skipFull hkept.lastOf.2
  obtain ⟨hbytes, r, hr, -, hfull''⟩ := writeBytes_within behind hkept hfull' hroom'
  constructor
  · refine Traced.Within.bind (Traced.within_lift _) fun _ _ => Traced.Within.bind hwithin fun t' ht' => ?_
    rw [Traced.result_ite, resetFile_result hopened, Traced.result_pure, ht] at ht'
    obtain rfl := Option.some.inj ht'
    refine Traced.Within.bind (Traced.within_lift _) fun b' hb' => ?_
    obtain rfl := Option.some.inj (hkept.opened.faddr.symm.trans hb')
    refine Traced.Within.bind (skipFull_within hkept.holds) fun start hstart => ?_
    obtain rfl := Option.some.inj (hskip.symm.trans (skipFull_result.symm.trans hstart))
    exact Traced.Within.bind hbytes fun _ _ => Traced.within_pure _
  · refine ⟨(r.1, { file with position := file.position + buffer.length }), ?_, hfull''⟩
    rw [Arena.tfsysWrite, hopened.lookup, ht]
    simp only [Option.bind_eq_bind, Option.bind_some, hkept.opened.faddr, hskip, hr]

theorem Request.run_within {request : Request} (hs : s.Linked) (hfull : FullButLast s) (hleads : request.Leads s)
    (hroom : request.HasRoom s) : (request.run behind s).Within Write.Inside ∧
      ∃ s', (request.run behind s).result = some s' ∧ s'.Linked ∧ FullButLast s' := by
  cases request with
  | create file fname flags =>
    obtain ⟨hwithin, s', hs'⟩ := tfsysCreate_within behind hs hleads hroom
    refine ⟨hwithin, s', tfsysCreate_result.trans hs', (Arena.Step.create hs').linked hs, ?_⟩
    obtain rfl | ⟨parent, type, r, htype, hr, rfl⟩ := Arena.tfsysCreate_spec hs'
    · exact hfull
    · exact createBlock_fullButLast hfull htype hr
  | write file buffer =>
    obtain ⟨hwithin, r, hr, hfull'⟩ := tfsysWrite_within behind hs hfull hleads hroom
    refine ⟨Traced.Within.bind hwithin fun _ _ => Traced.within_pure _, r.1, ?_, (Arena.tfsysWrite_spec hs hr).1, hfull'⟩
    rw [Request.run, Traced.result_bind, tfsysWrite_result hs, hr]
    rfl

/-- Without room a call writes all the same. -/
theorem Request.effects_ne_nil {request : Request} (hs : s.Linked) (hfull : FullButLast s) (hleads : request.Leads s)
    (hroom : ¬request.HasRoom s) : (request.run behind s).effects ≠ [] := by
  suffices ∃ w, w ∈ (request.run behind s).effects by
    obtain ⟨w, hw⟩ := this
    exact List.ne_nil_of_mem hw
  cases request with
  | create file fname flags =>
    obtain ⟨hfile, hflags⟩ : Makes file flags := by
      by_contra hnot
      exact hroom fun hmakes => absurd hmakes hnot
    obtain ⟨parent, hparent⟩ := hleads ⟨hfile, hflags⟩
    have hblock : ∀ type, ∃ w, w ∈ (createBlock behind s parent type fname).effects :=
      fun type => ⟨_, Traced.mem_effects_bind_left List.mem_cons_self⟩
    rw [Request.run]
    unfold tfsysCreate
    rw [hfile]
    cases flags with
    | invalid => exact absurd rfl hflags
    | file =>
      obtain ⟨w, hw⟩ := hblock .file
      exact ⟨w, Traced.mem_effects_bind_right hparent (Traced.mem_effects_bind_left hw)⟩
    | directory =>
      obtain ⟨w, hw⟩ := hblock .dir
      exact ⟨w, Traced.mem_effects_bind_right hparent (Traced.mem_effects_bind_left hw)⟩
  | write file buffer =>
    obtain ⟨b, hb⟩ := hleads
    have hopened := Arena.Opened.of_lookup hs hb
    suffices ∃ w, w ∈ (tfsysWrite behind s file buffer).effects by
      obtain ⟨w, hw⟩ := this
      exact ⟨w, Traced.mem_effects_bind_left hw⟩
    rw [tfsysWrite]
    by_cases hpos : file.position = 0
    · obtain ⟨t, ht⟩ := hopened.exists_resetChildren (Nat.le_add_right blockCount _)
      have hreset : ∃ w, w ∈ (resetFile s file.id).effects :=
        ⟨_, Traced.mem_effects_bind_right hopened.faddr
          (Traced.mem_effects_bind_right ((resetChildren_result hopened).trans ht)
            (Traced.mem_effects_bind_left List.mem_cons_self))⟩
      obtain ⟨w, hw⟩ := hreset
      rw [if_pos hpos]
      exact ⟨w, Traced.mem_effects_bind_right hb (Traced.mem_effects_bind_left hw)⟩
    · rw [if_neg hpos]
      cases buffer with
      | nil =>
        refine absurd (fun length _ => ?_) hroom
        rw [if_neg hpos]
        exact Nat.le_add_right _ _
      | cons x buffer =>
        obtain ⟨bytes, last, hcontents⟩ := hfull.contents hopened
        have hskip : (skipFull behind blockCount s b).result = some (s, last) :=
          skipFull_result.trans (hcontents.holds.skipFull hcontents.lastOf.2)
        obtain ⟨w, hw⟩ : ∃ w, w ∈ ((x :: buffer).foldlM (writeByte behind) (s, last)).effects := by
          rw [List.foldlM_cons]
          exact ⟨_, Traced.mem_effects_bind_left (Traced.mem_effects_bind_left List.mem_cons_self)⟩
        exact ⟨w, Traced.mem_effects_bind_right hb (Traced.mem_effects_bind_right rfl
          (Traced.mem_effects_bind_right hopened.faddr (Traced.mem_effects_bind_right hskip
            (Traced.mem_effects_bind_left hw))))⟩

/-- A call through a handle that leads to its file or directory stays in the arena when there is room, and then
alone. -/
theorem Request.stays_iff {request : Request} (hs : s.Linked) (hfull : FullButLast s) (hleads : request.Leads s) :
    request.Stays behind s ↔ request.HasRoom s := by
  constructor
  · intro hstays
    by_contra hroom
    exact Request.effects_ne_nil hs hfull hleads hroom (hstays.unchanged hroom)
  · intro hroom
    exact ⟨(Request.run_within hs hfull hleads hroom).1, fun hnot => absurd hroom hnot⟩

/-! ### Runs -/

theorem tfsysInit_fullButLast {memory : Arena} (h : Arena.tfsysInit memory = some s) : FullButLast s := by
  obtain ⟨t, ht, hu⟩ := Option.bind_eq_some_iff.mp h
  refine addRecordToDir_fullButLast (addRecordToDir_fullButLast ?_ ht) hu
  have hblank : FullButLast fun b => { memory b with occupied := false } :=
    ⟨fun _ _ hb => Bool.noConfusion hb, fun _ hb => Bool.noConfusion hb⟩
  exact hblank.set rfl (by decide : 0 < payload)

/-- The calls made so far, each with the arena before it, and the arena as long as every call came back. -/
structure History where
  arena : Option Arena
  calls : List (Arena × Behind × Request)

namespace History

/-- A call, with what stands behind the ends of the arena and of the directories. -/
def Step (h : History) (call : Behind × Request) (h' : History) : Prop :=
  h.arena.map (fun s => ⟨(call.2.run call.1 s).result, h.calls ++ [(s, call)]⟩) = some h'

/-- Every call so far stayed in the arena. -/
def StaysInside (h : History) : Prop := ∀ c ∈ h.calls, c.2.2.Stays c.2.1 c.1

/-- A call through a handle that leads to its file or directory, and finds room. -/
def ReadyStep (h : History) (call : Behind × Request) (h' : History) : Prop :=
  (∀ s, h.arena = some s → call.2.Leads s ∧ call.2.HasRoom s) ∧ h.Step call h'

end History

/-- The invariant of the runs whose calls find room. -/
def History.Inv (h : History) : Prop :=
  h.StaysInside ∧ ∃ s, h.arena = some s ∧ s.Linked ∧ FullButLast s

theorem History.ReadyStep.inv {h h' : History} {call : Behind × Request} (hinv : h.Inv) (hstep : h.ReadyStep call h') :
    h'.Inv := by
  obtain ⟨hstays, s, hs, hlinked, hfull⟩ := hinv
  obtain ⟨hready, hcall⟩ := hstep
  obtain ⟨hleads, hroom⟩ := hready s hs
  rw [History.Step, hs, Option.map_some] at hcall
  obtain rfl := Option.some.inj hcall
  obtain ⟨hwithin, s', hresult, hlinked', hfull'⟩ := Request.run_within hlinked hfull hleads hroom
  refine ⟨fun c hc => ?_, s', hresult, hlinked', hfull'⟩
  obtain hc | hc := List.mem_append.mp hc
  · exact hstays c hc
  · obtain rfl := List.mem_singleton.mp hc
    exact (Request.stays_iff hlinked hfull hleads).mpr hroom

/-- In every run whose calls find room, through handles that lead to a file or directory in use, every call stays
in the arena and comes back, and the next one stays in it exactly when it finds room. -/
theorem staysInside_of_run {memory : Arena} {h : History} {calls : List (Behind × Request)}
    (hinit : Arena.tfsysInit memory = some s) (hrun : Transition.Run History.ReadyStep ⟨some s, []⟩ calls h) :
    h.StaysInside ∧ ∃ s', h.arena = some s' ∧
      ∀ (behind : Behind) (request : Request), request.Leads s' → (request.Stays behind s' ↔ request.HasRoom s') := by
  have hstart : History.Inv ⟨some s, []⟩ :=
    ⟨fun c hc => absurd hc List.not_mem_nil, s, rfl, (Arena.tfsysInit_spec hinit).1, tfsysInit_fullButLast hinit⟩
  obtain ⟨hstays, s', hs', hlinked, hfull⟩ := hrun.invariant History.Inv (fun _ _ _ hinv hstep => hstep.inv hinv) hstart
  exact ⟨hstays, s', hs', fun _ _ hleads => Request.stays_iff hlinked hfull hleads⟩

theorem staysInside_of_run_file : ∃ s h calls, Arena.tfsysInit (fun _ => .zero) = some s ∧
    Transition.Run History.ReadyStep ⟨some s, []⟩ calls h ∧ h.calls.length = 2 ∧ h.StaysInside := by
  let root : FILE := ⟨.directory, 0, 0, false, 0⟩
  let file : FILE := ⟨.file, 0, 1, false, 0⟩
  have hcalls : ((Arena.tfsysInit fun _ => .zero).bind fun s => (s.tfsysCreate root [65] .file).bind fun t =>
      if s.lookup 0 .dir = some 0 ∧ s.firstFree = some 1 ∧ ((s 0).records 2).occupied = false ∧
        t.lookup 1 .file = some 1 ∧ t.size 1 = some 0 then some () else none) = some () := by
    decide +kernel
  obtain ⟨s, hinit, h⟩ := Option.bind_eq_some_iff.mp hcalls
  obtain ⟨t, hcreate, h⟩ := Option.bind_eq_some_iff.mp h
  rw [Option.ite_none_right_eq_some] at h
  obtain ⟨⟨hlookup, hfree, hslot, hlookup', hsize⟩, -⟩ := h
  let create : Behind × Request := (⟨0, 0⟩, .create root [65] .file)
  let write : Behind × Request := (⟨0, 0⟩, .write file [66])
  have hstep : History.Step ⟨some s, []⟩ create ⟨some t, [(s, create)]⟩ := by
    rw [History.Step, ← hcreate, ← tfsysCreate_result]
    rfl
  have hrun : Transition.Run History.ReadyStep ⟨some s, []⟩ [create, write]
      ⟨(write.2.run write.1 t).result, [(s, create), (t, write)]⟩ := by
    refine .cons ⟨fun u hu => ?_, hstep⟩ (.single ⟨fun u hu => ?_, rfl⟩)
    · obtain rfl := Option.some.inj hu
      refine ⟨fun _ => ⟨0, hlookup⟩, fun _ => ⟨⟨1, hfree⟩, fun parent hparent => ?_⟩⟩
      obtain rfl := Option.some.inj (hlookup.symm.trans hparent)
      exact ⟨2, by decide, hslot⟩
    · obtain rfl := Option.some.inj hu
      refine ⟨⟨1, hlookup'⟩, fun length hlength => ?_⟩
      obtain rfl := Option.some.inj (hsize.symm.trans hlength)
      exact Nat.le_trans (Nat.le_of_eq (rfl : (0 + 1) / payload = 0)) (Nat.zero_le _)
  exact ⟨s, _, _, hinit, hrun, rfl, (staysInside_of_run hinit hrun).1⟩

/-! ### A run that leaves a directory -/

/-- The first `k` records are used. -/
def UsesRecords (s : Arena) (b k : Nat) : Prop := ∀ slot, ((s b).records slot).occupied = decide (slot < k)

theorem UsesRecords.find (h : UsesRecords s b k) :
    ((List.range recordCount).find? fun slot => !((s b).records slot).occupied) =
      if k < recordCount then some k else none := by
  split
  · next hk =>
    rw [List.find?_range_eq_some]
    refine ⟨by rw [h]; simp, List.mem_range.mpr hk, fun slot hslot => ?_⟩
    rw [h]
    simpa using hslot
  · next hk =>
    rw [List.find?_eq_none]
    intro slot hslot
    rw [List.mem_range] at hslot
    rw [h]
    simp only [decide_eq_true (Nat.lt_of_lt_of_le hslot (Nat.not_lt.mp hk))]
    decide

/-- A record goes into the first free place. -/
theorem UsesRecords.addRecordToDir (h : UsesRecords s b k) (fid : Nat) (name : List UInt8) (hk : k < recordCount) :
    ∃ records, s.addRecordToDir fid name b = some (s.set b { s b with records := records }) ∧
      UsesRecords (s.set b { s b with records := records }) b (k + 1) := by
  refine ⟨_, by rw [Arena.addRecordToDir, h.find, if_pos hk, Option.map_some], fun slot => ?_⟩
  rw [Arena.set_self]
  dsimp only
  obtain rfl | hslot := eq_or_ne slot k
  · rw [Function.update_self]
    simp
  · rw [Function.update_of_ne hslot]
    have hsame : (Function.update (s b).records 0 { (s b).records 0 with nextRecord := some k } slot).occupied =
        ((s b).records slot).occupied := by
      obtain rfl | h0 := eq_or_ne slot 0
      · rw [Function.update_self]
      · rw [Function.update_of_ne h0]
    rw [hsame, h, decide_eq_decide]
    omega

/-- The base directory holds `n` files, each of one block, and nothing else is in use. -/
structure Crowded (s : Arena) (n : Nat) : Prop where
  occupied : ∀ b, (s b).occupied = decide (b < n + 1)
  root : (s 0).type = .dir ∧ (s 0).fid = 0
  records : UsesRecords s 0 (n + 2)

namespace Crowded

variable (h : Crowded s n)
include h

theorem lookup : s.lookup 0 .dir = some 0 := by
  have hfaddr : s.getFaddrById 0 = some 0 := by
    rw [Arena.getFaddrById_eq_some_iff, h.root.1]
    exact ⟨⟨h.root.2, by decide⟩, by decide, fun x hx => absurd hx (Nat.not_lt_zero x)⟩
  rw [Arena.lookup, hfaddr]
  simp [Option.filter, h.occupied, h.root.1]

theorem firstFree (hn : n + 1 < blockCount) : s.firstFree = some (n + 1) := by
  rw [Arena.firstFree_eq_some_iff]
  refine ⟨by rw [h.occupied]; simp, hn, fun b hb => ?_⟩
  rw [h.occupied]
  simpa using hb

/-- One more file in the base directory. -/
theorem create {file : FILE} (fname : List UInt8) (hfile : file.flags = .directory) (hid : file.id = 0)
    (hn : n + 2 < recordCount) : ∃ s', s.tfsysCreate file fname .file = some s' ∧ Crowded s' (n + 1) := by
  have hlt : n + 1 < blockCount := Nat.lt_trans (Nat.lt_succ_self _) (Nat.lt_trans hn (by decide))
  have hfree := h.firstFree hlt
  have hfid := Arena.getNextFid_eq hfree
  generalize ((List.range (n + 1)).countP fun x => (s x).type ≠ .subFile) = fid at hfid
  let t := s.set (n + 1) (Arena.newBlock 0 .file fid (n + 1) fname)
  have hroot : t 0 = s 0 := Arena.set_of_ne (Nat.succ_ne_zero n).symm
  have huses : UsesRecords t 0 (n + 2) := by
    intro slot
    rw [hroot]
    exact h.records slot
  obtain ⟨records, hadd, huses'⟩ := huses.addRecordToDir fid (fname.take 31) hn
  refine ⟨t.set 0 { t 0 with records := records }, ?_, fun b => ?_, ?_, huses'⟩
  · unfold Arena.tfsysCreate
    rw [hfile, hid]
    simp only [h.lookup, Arena.createBlock, hfree, hfid, Option.bind_eq_bind, Option.bind_some]
    exact congrArg (fun r => Option.map Prod.snd (r.bind fun u => some (n + 1, u))) hadd
  · obtain rfl | hb0 := eq_or_ne b 0
    · rw [Arena.set_self, hroot, h.occupied]
      simp
    · rw [Arena.set_of_ne hb0]
      obtain rfl | hb := eq_or_ne b (n + 1)
      · rw [show t (n + 1) = _ from Arena.set_self]
        simp [Arena.newBlock]
      · rw [show t b = s b from Arena.set_of_ne hb, h.occupied, decide_eq_decide]
        omega
  · rw [Arena.set_self, hroot]
    exact h.root

end Crowded

/-- What `tfsys_init` leaves on a memory of zeros. -/
theorem crowded_tfsysInit : ∃ s, Arena.tfsysInit (fun _ => .zero) = some s ∧ Crowded s 0 := by
  let base : Block := { Block.zero with
    parentBlock := some 0
    type := .dir
    occupied := true
    name := [92] }
  let s : Arena := Arena.set (fun _ => .zero) 0 base
  have huses : UsesRecords s 0 0 := fun slot => by
    rw [show s 0 = base from Arena.set_self]
    simp [base, Block.zero, DirRecord.zero]
  obtain ⟨records, hadd, huses⟩ := huses.addRecordToDir 0 [46] (by decide)
  obtain ⟨records', hadd', huses⟩ := huses.addRecordToDir 0 [46, 46] (by decide)
  refine ⟨_, ?_, fun b => ?_, ?_, huses⟩
  · rw [Arena.tfsysInit, Arena.createBaseDir]
    exact (congrArg (fun r => r.bind fun t => t.addRecordToDir 0 [46, 46] 0) hadd).trans hadd'
  · obtain rfl | hb := eq_or_ne b 0
    · rw [Arena.set_self, Arena.set_self]
      rfl
    · rw [Arena.set_of_ne hb, Arena.set_of_ne hb, show s b = .zero from Arena.set_of_ne hb]
      simpa [Block.zero] using hb
  · rw [Arena.set_self, Arena.set_self]
    exact ⟨rfl, rfl⟩

/-- Files can be created in the base directory until its records are used up. -/
theorem exists_crowded (hinit : Crowded s 0) (file : FILE) (hfile : file.flags = .directory) (hid : file.id = 0)
    (hn : n + 2 ≤ recordCount) : ∃ s' calls requests, Crowded s' n ∧
      Transition.Run History.Step ⟨some s, []⟩ requests ⟨some s', calls⟩ := by
  induction n with
  | zero => exact ⟨s, [], [], hinit, .nil _⟩
  | succ n ih =>
    obtain ⟨t, calls, requests, ht, hrun⟩ := ih (by omega)
    obtain ⟨s', hs', hcrowded⟩ := ht.create [65] hfile hid (by omega)
    let create : Behind × Request := (⟨0, 0⟩, .create file [65] .file)
    refine ⟨s', calls ++ [(t, create)], requests ++ [create], hcrowded, hrun.snoc ?_⟩
    rw [History.Step, ← hs', ← tfsysCreate_result]
    rfl

/-- The 90th file of the base directory: its record begins in the block of the directory and ends behind it. -/
theorem not_staysInside : ∃ s h calls, Arena.tfsysInit (fun _ => .zero) = some s ∧
    Transition.Run History.Step ⟨some s, []⟩ calls h ∧ ¬h.StaysInside := by
  let root : FILE := ⟨.directory, 0, 0, false, 0⟩
  let create : Behind × Request := (⟨0, 0⟩, .create root [65] .file)
  obtain ⟨s, hinit, hcrowded⟩ := crowded_tfsysInit
  obtain ⟨t, calls, requests, ht, hrun⟩ := exists_crowded hcrowded root rfl rfl (by decide : 89 + 2 ≤ recordCount)
  refine ⟨s, _, requests ++ [create], hinit, hrun.snoc rfl, fun hstays => ?_⟩
  have hinside := (hstays (t, create) (List.mem_append_right _ List.mem_cons_self)).inside
  have hfree : t.firstFree = some 90 := ht.firstFree (by decide)
  have hfid := Arena.getNextFid_eq hfree
  generalize ((List.range 90).countP fun x => (t x).type ≠ .subFile) = fid at hfid
  have hwrite : (⟨recordAddress 0 91, 44, some 0⟩ : Write) ∈ (create.2.run create.1 t).effects := by
    refine Traced.mem_effects_bind_right (ht.lookup) (Traced.mem_effects_bind_left ?_)
    refine Traced.mem_effects_bind_right rfl (Traced.mem_effects_bind_right hfree ?_)
    refine Traced.mem_effects_bind_right hfid (Traced.mem_effects_bind_left (Traced.mem_effects_bind_left ?_))
    have huses : UsesRecords (t.set 90 (Arena.newBlock 0 .file fid 90 [65])) 0 91 := by
      intro slot
      rw [Arena.set_of_ne (by decide)]
      exact ht.records slot
    have hslot := huses.find
    rw [if_neg (by decide)] at hslot
    refine List.mem_cons_of_mem _ (List.mem_singleton.mpr ?_)
    exact congrArg (fun slot => (⟨recordAddress 0 (slot.getD (recordCount + 0)), 44, some 0⟩ : Write)) hslot.symm
  have hrecord := ((hinside _ hwrite).record 0 rfl).2
  exact absurd hrecord (by decide)

end Akos.Tmpfs
