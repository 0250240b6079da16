import Akos.Lib.Transition
import Akos.Tmpfs.Arena

/-!
# The chains of the RAM file system

Continuation blocks hang in chains, each block pointing back to the one that points to it. This holds over
every run, whatever ids the files have: the code only links a new block behind a last one and takes single
blocks out.
-/

namespace Akos.Tmpfs.Arena

variable {s s' s'' : Arena} {b p c n x fid : Nat}

@[simp] theorem set_self {block : Block} : s.set b block b = block := by rw [set, Function.update_self]

theorem set_of_ne {block : Block} (h : x ≠ b) : s.set b block x = s x := by rw [set, Function.update_of_ne h]

theorem set_set {block block' : Block} : (s.set b block).set b block' = s.set b block' := by
  rw [set, set, Function.update_idem, set]

/-- The invariant of the links. -/
structure Linked (s : Arena) : Prop where
  root : (s 0).occupied = true ∧ (s 0).type = .dir ∧ (s 0).fid = 0
  bid : ∀ b, (s b).occupied = true → b < blockCount ∧ (s b).bid = b
  dir : ∀ b, (s b).occupied = true → (s b).type = .dir → (s b).childBlock = none
  child : ∀ p c, (s p).occupied = true → (s p).childBlock = some c →
    (s c).occupied = true ∧ (s c).type = .subFile ∧ (s c).parentBlock = some p ∧ (s c).fid = (s p).fid
  parent : ∀ c, (s c).occupied = true → (s c).type = .subFile →
    ∃ p, (s c).parentBlock = some p ∧ (s p).occupied = true ∧ (s p).childBlock = some c
  depth : ∃ depth : Nat → Nat, ∀ p c, (s p).occupied = true → (s p).childBlock = some c → depth p < depth c
  blank : ∃ used, (∀ b, used ≤ b → (s b).occupied = false) ∧
    ∀ b, (s b).occupied = false → b < used → (s b).fid = 0 ∧ (s b).type = .file

/-- The blocks that stay occupied keep their type and their id. -/
def Shrinks (s s' : Arena) : Prop :=
  ∀ b, (s' b).occupied = true → (s b).occupied = true ∧ (s' b).type = (s b).type ∧ (s' b).fid = (s b).fid

/-- The two states differ in what stands behind the links only. -/
structure SameLinks (s s' : Arena) : Prop where
  occupied : ∀ b, (s' b).occupied = (s b).occupied
  type : ∀ b, (s' b).type = (s b).type
  fid : ∀ b, (s' b).fid = (s b).fid
  bid : ∀ b, (s' b).bid = (s b).bid
  childBlock : ∀ b, (s' b).childBlock = (s b).childBlock
  parentBlock : ∀ b, (s' b).parentBlock = (s b).parentBlock

theorem Shrinks.refl (s : Arena) : s.Shrinks s := fun _ h => ⟨h, rfl, rfl⟩

theorem Shrinks.trans (h : s.Shrinks s') (h' : s'.Shrinks s'') : s.Shrinks s'' := by
  intro b hb
  obtain ⟨hb', htype', hfid'⟩ := h' b hb
  obtain ⟨hb'', htype, hfid⟩ := h b hb'
  exact ⟨hb'', htype'.trans htype, hfid'.trans hfid⟩

namespace SameLinks

theorem refl (s : Arena) : s.SameLinks s :=
  ⟨fun _ => rfl, fun _ => rfl, fun _ => rfl, fun _ => rfl, fun _ => rfl, fun _ => rfl⟩

theorem trans (h : s.SameLinks s') (h' : s'.SameLinks s'') : s.SameLinks s'' :=
  ⟨fun b => (h'.occupied b).trans (h.occupied b), fun b => (h'.type b).trans (h.type b),
    fun b => (h'.fid b).trans (h.fid b), fun b => (h'.bid b).trans (h.bid b),
    fun b => (h'.childBlock b).trans (h.childBlock b), fun b => (h'.parentBlock b).trans (h.parentBlock b)⟩

/-- One block gets other contents. -/
theorem set {block : Block} (ho : block.occupied = (s b).occupied) (ht : block.type = (s b).type)
    (hf : block.fid = (s b).fid) (hb : block.bid = (s b).bid) (hc : block.childBlock = (s b).childBlock)
    (hp : block.parentBlock = (s b).parentBlock) : s.SameLinks (s.set b block) := by
  refine ⟨fun x => ?_, fun x => ?_, fun x => ?_, fun x => ?_, fun x => ?_, fun x => ?_⟩ <;>
    obtain rfl | hne := eq_or_ne x b <;> simp only [set_self, set_of_ne, ne_eq, *, not_false_eq_true]

theorem shrinks (h : s.SameLinks s') : s.Shrinks s' :=
  fun b hb => ⟨h.occupied b ▸ hb, h.type b, h.fid b⟩

theorem linked (h : s.SameLinks s') (hs : s.Linked) : s'.Linked := by
  constructor <;> simp only [h.occupied, h.type, h.fid, h.bid, h.childBlock, h.parentBlock]
  · exact hs.root
  · exact hs.bid
  · exact hs.dir
  · exact hs.child
  · exact hs.parent
  · exact hs.depth
  · exact hs.blank

end SameLinks

/-! ### What one operation does to the links -/

namespace Linked

theorem not_child_self (hs : s.Linked) (hp : (s p).occupied = true) (hc : (s p).childBlock = some c) :
    c ≠ p := by
  obtain ⟨depth, hdepth⟩ := hs.depth
  rintro rfl
  exact Nat.lt_irrefl _ (hdepth c c hp hc)

/-- Zeroing a block that is in no chain. -/
theorem zero (hs : s.Linked) (hb : b ≠ 0)
    (halone : (s b).occupied = true → (s b).type ≠ .subFile ∧ (s b).childBlock = none) :
    (s.set b .zero).Linked := by
  have hzero : (Block.zero).occupied = false := rfl
  have hne : ∀ x, (s.set b .zero x).occupied = true → x ≠ b := by
    rintro x hx rfl
    rw [set_self, hzero] at hx
    cases hx
  have hchild : ∀ p, (s p).occupied = true → (s p).childBlock ≠ some b := by
    intro p hp hpb
    obtain ⟨hocc, htype, -⟩ := hs.child p b hp hpb
    exact (halone hocc).1 htype
  constructor
  · rw [set_of_ne hb.symm]
    exact hs.root
  · intro x hx
    have hxb := hne x hx
    rw [set_of_ne hxb] at hx ⊢
    exact hs.bid x hx
  · intro x hx
    have hxb := hne x hx
    rw [set_of_ne hxb] at hx ⊢
    exact hs.dir x hx
  · intro p c hp
    have hpb := hne p hp
    rw [set_of_ne hpb] at hp ⊢
    intro hc
    have hcb : c ≠ b := fun h => hchild p hp (h ▸ hc)
    rw [set_of_ne hcb]
    exact hs.child p c hp hc
  · intro c hc
    have hcb := hne c hc
    rw [set_of_ne hcb] at hc ⊢
    intro htype
    obtain ⟨p, hparent, hp, hpc⟩ := hs.parent c hc htype
    have hpb : p ≠ b := by
      rintro rfl
      rw [(halone hp).2] at hpc
      cases hpc
    refine ⟨p, hparent, ?_⟩
    rw [set_of_ne hpb]
    exact ⟨hp, hpc⟩
  · obtain ⟨depth, hdepth⟩ := hs.depth
    refine ⟨depth, fun p c hp => ?_⟩
    have hpb := hne p hp
    rw [set_of_ne hpb] at hp ⊢
    exact hdepth p c hp
  · obtain ⟨used, hfree, hblank⟩ := hs.blank
    refine ⟨used, fun x hx => ?_, fun x hx hlt => ?_⟩
    · obtain rfl | hxb := eq_or_ne x b
      · rw [set_self]
        rfl
      · rw [set_of_ne hxb]
        exact hfree x hx
    · obtain rfl | hxb := eq_or_ne x b
      · rw [set_self]
        exact ⟨rfl, rfl⟩
      · rw [set_of_ne hxb] at hx ⊢
        exact hblank x hx hlt

end Linked

/-- The arena without the continuation block `b` behind `p`. -/
def splice (s : Arena) (b p : Nat) : Arena := fun x =>
  if x = b then .zero
  else if x = p then { s p with childBlock := (s b).childBlock }
  else if (s b).childBlock = some x then { s x with parentBlock := some p }
  else s x

section

variable (hne : x ≠ b)
include hne

theorem splice_occupied : (s.splice b p x).occupied = (s x).occupied := by
  rw [splice, if_neg hne]
  split
  · next h => rw [h]
  · split <;> rfl

theorem splice_type : (s.splice b p x).type = (s x).type := by
  rw [splice, if_neg hne]
  split
  · next h => rw [h]
  · split <;> rfl

theorem splice_fid : (s.splice b p x).fid = (s x).fid := by
  rw [splice, if_neg hne]
  split
  · next h => rw [h]
  · split <;> rfl

theorem splice_bid : (s.splice b p x).bid = (s x).bid := by
  rw [splice, if_neg hne]
  split
  · next h => rw [h]
  · split <;> rfl

theorem splice_childBlock (hp : x ≠ p) : (s.splice b p x).childBlock = (s x).childBlock := by
  rw [splice, if_neg hne, if_neg hp]
  split <;> rfl

theorem splice_parentBlock (hc : (s b).childBlock ≠ some x) : (s.splice b p x).parentBlock = (s x).parentBlock := by
  rw [splice, if_neg hne, if_neg hc]
  split
  · next h => rw [h]
  · rfl

end

@[simp] theorem splice_self : s.splice b p b = .zero := if_pos rfl

theorem ne_of_splice_occupied (h : (s.splice b p x).occupied = true) : x ≠ b := by
  rintro rfl
  rw [splice_self] at h
  cases h

theorem splice_shrinks : s.Shrinks (s.splice b p) := by
  intro x hx
  have hne := ne_of_splice_occupied hx
  rw [splice_occupied hne] at hx
  exact ⟨hx, splice_type hne, splice_fid hne⟩

namespace Linked

/-- A continuation block leaves its chain. -/
theorem splice (hs : s.Linked) (hb : (s b).occupied = true) (htype : (s b).type = .subFile)
    (hparent : (s b).parentBlock = some p) : (s.splice b p).Linked := by
  obtain ⟨q, hq, hp, hpb⟩ := hs.parent b hb htype
  obtain rfl : p = q := Option.some.inj (hparent.symm.trans hq)
  have hbp : b ≠ p := hs.not_child_self hp hpb
  have hnextp : ∀ c, (s b).childBlock = some c → c ≠ p := by
    obtain ⟨depth, hdepth⟩ := hs.depth
    rintro c hc rfl
    have hup := hdepth c b hp hpb
    have hdown := hdepth b c hb hc
    omega
  have hchildp : (s.splice b p p).childBlock = (s b).childBlock := by
    rw [Arena.splice, if_neg hbp.symm, if_pos rfl]
  constructor
  · have h0 : 0 ≠ b := by
      rintro rfl
      rw [hs.root.2.1] at htype
      cases htype
    rw [splice_occupied h0, splice_type h0, splice_fid h0]
    exact hs.root
  · intro x hx
    have hxb := ne_of_splice_occupied hx
    rw [splice_occupied hxb] at hx
    rw [splice_bid hxb]
    exact hs.bid x hx
  · intro x hx hdir
    have hxb := ne_of_splice_occupied hx
    rw [splice_occupied hxb] at hx
    rw [splice_type hxb] at hdir
    have hnone := hs.dir x hx hdir
    have hxp : x ≠ p := by
      rintro rfl
      rw [hpb] at hnone
      cases hnone
    rw [splice_childBlock hxb hxp]
    exact hnone
  · intro x c hx hc
    have hxb := ne_of_splice_occupied hx
    rw [splice_occupied hxb] at hx
    obtain rfl | hxp := eq_or_ne x p
    · rw [hchildp] at hc
      obtain ⟨hcocc, hctype, -, hcfid⟩ := hs.child b c hb hc
      have hcb := hs.not_child_self hb hc
      have hcp := hnextp c hc
      rw [splice_occupied hcb, splice_type hcb, splice_fid hcb, splice_fid hxb]
      refine ⟨hcocc, hctype, ?_, hcfid.trans (hs.child x b hp hpb).2.2.2⟩
      rw [Arena.splice, if_neg hcb, if_neg hcp, if_pos hc]
    · rw [splice_childBlock hxb hxp] at hc
      obtain ⟨hcocc, hctype, hcparent, hcfid⟩ := hs.child x c hx hc
      have hcb : c ≠ b := by
        rintro rfl
        exact hxp (Option.some.inj (hcparent.symm.trans hparent))
      have hbc : (s b).childBlock ≠ some c := by
        intro h
        exact hxb (Option.some.inj (hcparent.symm.trans (hs.child b c hb h).2.2.1))
      rw [splice_occupied hcb, splice_type hcb, splice_fid hcb, splice_fid hxb, splice_parentBlock hcb hbc]
      exact ⟨hcocc, hctype, hcparent, hcfid⟩
  · intro c hc hctype
    have hcb := ne_of_splice_occupied hc
    rw [splice_occupied hcb] at hc
    rw [splice_type hcb] at hctype
    obtain ⟨q, hcparent, hq, hqc⟩ := hs.parent c hc hctype
    obtain rfl | hqb := eq_or_ne q b
    · refine ⟨p, ?_, ?_, hchildp.trans hqc⟩
      · rw [Arena.splice, if_neg hcb, if_neg (hnextp c hqc), if_pos hqc]
      · rw [splice_occupied hbp.symm]
        exact hp
    · have hqp : q ≠ p := by
        rintro rfl
        exact hcb (Option.some.inj (hqc.symm.trans hpb))
      have hbc : (s b).childBlock ≠ some c := by
        intro h
        exact hqb (Option.some.inj (hcparent.symm.trans (hs.child b c hb h).2.2.1))
      rw [splice_parentBlock hcb hbc]
      refine ⟨q, hcparent, ?_⟩
      rw [splice_occupied hqb, splice_childBlock hqb hqp]
      exact ⟨hq, hqc⟩
  · obtain ⟨depth, hdepth⟩ := hs.depth
    refine ⟨depth, fun x c hx hc => ?_⟩
    have hxb := ne_of_splice_occupied hx
    rw [splice_occupied hxb] at hx
    obtain rfl | hxp := eq_or_ne x p
    · rw [hchildp] at hc
      exact Nat.lt_trans (hdepth x b hp hpb) (hdepth b c hb hc)
    · rw [splice_childBlock hxb hxp] at hc
      exact hdepth x c hx hc
  · obtain ⟨used, hfree, hblank⟩ := hs.blank
    refine ⟨used, fun x hx => ?_, fun x hx hlt => ?_⟩
    · obtain rfl | hxb := eq_or_ne x b
      · rw [splice_self]
        rfl
      · rw [splice_occupied hxb]
        exact hfree x hx
    · obtain rfl | hxb := eq_or_ne x b
      · rw [splice_self]
        exact ⟨rfl, rfl⟩
      · rw [splice_occupied hxb] at hx
        rw [splice_fid hxb, splice_type hxb]
        exact hblank x hx hlt

/-- What `free_block` makes of a continuation block. -/
theorem unlink_eq (hs : s.Linked) (hb : (s b).occupied = true) (htype : (s b).type = .subFile)
    (hparent : (s b).parentBlock = some p) :
    (s.unlink b).map (·.set b .zero) = some (s.splice b p) := by
  obtain ⟨q, hq, hp, hpb⟩ := hs.parent b hb htype
  obtain rfl : p = q := Option.some.inj (hparent.symm.trans hq)
  have hbp : b ≠ p := hs.not_child_self hp hpb
  rw [unlink, hparent, Option.bind_eq_bind, Option.bind_some]
  simp only [set_of_ne hbp]
  cases hc : (s b).childBlock with
  | none =>
    simp only [Option.map_some]
    congr 1
    funext x
    rw [Arena.splice, hc]
    obtain rfl | hxb := eq_or_ne x b
    · rw [set_self, if_pos rfl]
    · rw [set_of_ne hxb, if_neg hxb]
      obtain rfl | hxp := eq_or_ne x p
      · rw [set_self, if_pos rfl]
      · rw [set_of_ne hxp, if_neg hxp, if_neg (by simp)]
  | some c =>
    simp only [Option.map_some]
    congr 1
    funext x
    rw [Arena.splice, hc]
    have hcp : c ≠ p := by
      obtain ⟨depth, hdepth⟩ := hs.depth
      rintro rfl
      have hup := hdepth c b hp hpb
      have hdown := hdepth b c hb hc
      omega
    obtain rfl | hxb := eq_or_ne x b
    · rw [set_self, if_pos rfl]
    · rw [set_of_ne hxb, if_neg hxb]
      obtain rfl | hxp := eq_or_ne x p
      · rw [set_of_ne hcp.symm, set_self, if_pos rfl]
      · rw [if_neg hxp]
        obtain rfl | hxc := eq_or_ne x c
        · rw [set_self, set_of_ne hxp, if_pos rfl]
        · rw [set_of_ne hxc, set_of_ne hxp, if_neg (by simpa using hxc.symm)]

/-- `free_block` of a continuation block. -/
theorem freeBlock_subFile (hs : s.Linked) {fuel : Nat} (hb : (s b).occupied = true)
    (htype : (s b).type = .subFile) (hparent : (s b).parentBlock = some p) :
    freeBlock (fuel + 1) s b = some (true, s.splice b p) := by
  have hb0 : b ≠ 0 := by
    rintro rfl
    rw [hs.root.2.1] at htype
    cases htype
  have hunlink := hs.unlink_eq hb htype hparent
  obtain ⟨t, ht, hset⟩ := Option.map_eq_some_iff.mp hunlink
  rw [freeBlock, if_neg hb0, if_pos ⟨(hs.bid b hb).1, hb⟩]
  simp only [htype, ht, Option.bind_eq_bind, Option.bind_some, hset]

/-- Over the continuation blocks the freed file stays, and in the end has none left. -/
theorem freeChildren_spec {fuel : Nat} {free : Arena → Nat → Option (Bool × Arena)}
    (hfree : ∀ s c p, s.Linked → (s c).occupied = true → (s c).type = .subFile → (s c).parentBlock = some p →
      ∀ r, free s c = some r → r.2 = s.splice c p) :
    ∀ {s : Arena} {next : Option Nat}, s.Linked → (s b).occupied = true → (s b).childBlock = next →
      freeChildren free fuel s next = some s' →
      s'.Linked ∧ s.Shrinks s' ∧ (s' b).occupied = true ∧ (s' b).childBlock = none := by
  induction fuel with
  | zero =>
    intro s next _ _ _ h
    cases h
  | succ fuel ih =>
    intro s next hs hb hnext h
    cases next with
    | none =>
      obtain rfl := Option.some.inj h
      exact ⟨hs, Shrinks.refl s, hb, hnext⟩
    | some c =>
      obtain ⟨hc, htype, hparent, -⟩ := hs.child b c hb hnext
      rw [freeChildren, (hs.bid c hc).2] at h
      obtain ⟨r, hr, hrest⟩ := Option.bind_eq_some_iff.mp h
      have hsplice := hfree s c b hs hc htype hparent r hr
      have hbc : b ≠ c := (hs.not_child_self hb hnext).symm
      change freeChildren free fuel r.2 (s c).childBlock = some s' at hrest
      rw [hsplice] at hrest
      have hb' : (s.splice c b b).occupied = true := (splice_occupied hbc).trans hb
      have hchild : (s.splice c b b).childBlock = (s c).childBlock := by
        rw [Arena.splice, if_neg hbc, if_pos rfl]
      obtain ⟨hlinked, hshrinks, hend⟩ := ih (hs.splice hc htype hparent) hb' hchild hrest
      exact ⟨hlinked, splice_shrinks.trans hshrinks, hend⟩

end Linked

/-- The loop over the records keeps what each call it makes keeps. -/
theorem freeRecords_spec {fuel dir : Nat} {free : Arena → Nat → Option (Bool × Arena)}
    (hfree : ∀ s c r, s.Linked → free s c = some r → r.2.Linked ∧ s.Shrinks r.2) :
    ∀ {s : Arena} {next : Option Nat}, s.Linked → freeRecords free dir fuel s next = some s' →
      s'.Linked ∧ s.Shrinks s' := by
  induction fuel with
  | zero =>
    intro s next _ h
    cases h
  | succ fuel ih =>
    intro s next hs h
    cases next with
    | none =>
      obtain rfl := Option.some.inj h
      exact ⟨hs, Shrinks.refl s⟩
    | some slot =>
      rw [freeRecords] at h
      split at h
      · obtain ⟨c, -, hrest⟩ := Option.bind_eq_some_iff.mp h
        obtain ⟨r, hr, hrest⟩ := Option.bind_eq_some_iff.mp hrest
        obtain ⟨hlinked, hshrinks⟩ := hfree s _ r hs hr
        obtain ⟨hlinked', hshrinks'⟩ := ih hlinked hrest
        exact ⟨hlinked', hshrinks.trans hshrinks'⟩
      · exact ih hs h

theorem removeRecordFromDir_sameLinks {rId dirId : Nat} (h : s.removeRecordFromDir rId dirId = some s') :
    s.SameLinks s' := by
  rw [removeRecordFromDir] at h
  obtain ⟨dir, -, h⟩ := Option.bind_eq_some_iff.mp h
  dsimp only at h
  split at h
  · cases h
  · obtain ⟨found, -, h⟩ := Option.bind_eq_some_iff.mp h
    obtain rfl := Option.some.inj h
    exact SameLinks.set rfl rfl rfl rfl rfl rfl

theorem addRecordToDir_sameLinks {name : List UInt8} (h : s.addRecordToDir fid name p = some s') :
    s.SameLinks s' := by
  obtain ⟨slot, -, rfl⟩ := Option.map_eq_some_iff.mp h
  exact SameLinks.set rfl rfl rfl rfl rfl rfl

theorem zero_shrinks : s.Shrinks (s.set b .zero) := by
  intro x hx
  have hne : x ≠ b := by
    rintro rfl
    rw [set_self] at hx
    cases hx
  rw [set_of_ne hne] at hx ⊢
  exact ⟨hx, rfl, rfl⟩

/-- `free_block` keeps the links, and every block it leaves keeps type and id. -/
theorem freeBlock_spec {fuel : Nat} : ∀ {s : Arena} {b : Nat} {r : Bool × Arena}, s.Linked →
    freeBlock fuel s b = some r → r.2.Linked ∧ s.Shrinks r.2 := by
  induction fuel with
  | zero =>
    intro s b r _ h
    cases h
  | succ fuel ih =>
    intro s b r hs h
    have hcall := h
    rw [freeBlock] at h
    split at h
    · obtain rfl := Option.some.inj h
      exact ⟨hs, Shrinks.refl s⟩
    · next hb0 =>
      split at h
      · next hb =>
        obtain ⟨-, hb⟩ := hb
        cases htype : (s b).type with
        | subFile =>
          obtain ⟨p, hparent, -⟩ := hs.parent b hb htype
          rw [hs.freeBlock_subFile hb htype hparent] at hcall
          obtain rfl := Option.some.inj hcall
          exact ⟨hs.splice hb htype hparent, splice_shrinks⟩
        | file =>
          simp only [htype] at h
          obtain ⟨p, -, h⟩ := Option.bind_eq_some_iff.mp h
          obtain ⟨u, hu, h⟩ := Option.bind_eq_some_iff.mp h
          obtain ⟨t, ht, h⟩ := Option.bind_eq_some_iff.mp h
          obtain rfl := Option.some.inj h
          have hsame := removeRecordFromDir_sameLinks hu
          have hfree : ∀ s c p, s.Linked → (s c).occupied = true → (s c).type = .subFile →
              (s c).parentBlock = some p → ∀ r, freeBlock fuel s c = some r → r.2 = s.splice c p := by
            intro s c p hs hc htype hparent r hr
            cases fuel with
            | zero => cases hr
            | succ fuel =>
              rw [hs.freeBlock_subFile hc htype hparent] at hr
              obtain rfl := Option.some.inj hr
              rfl
          obtain ⟨hlinked, hshrinks, hocc, hnone⟩ := Linked.freeChildren_spec hfree (hsame.linked hs)
            ((hsame.occupied b).trans hb) rfl ht
          have htype' : (t b).type = .file := by
            rw [(hshrinks b hocc).2.1, hsame.type, htype]
          refine ⟨hlinked.zero hb0 fun _ => ⟨?_, hnone⟩, ?_⟩
          · rw [htype']
            decide
          · exact (hsame.shrinks.trans hshrinks).trans zero_shrinks
        | dir =>
          simp only [htype] at h
          obtain ⟨p, -, h⟩ := Option.bind_eq_some_iff.mp h
          obtain ⟨u, hu, h⟩ := Option.bind_eq_some_iff.mp h
          obtain ⟨t, ht, h⟩ := Option.bind_eq_some_iff.mp h
          obtain rfl := Option.some.inj h
          have hsame := removeRecordFromDir_sameLinks hu
          obtain ⟨hlinked, hshrinks⟩ := freeRecords_spec (fun s c r hs hr => ih hs hr) (hsame.linked hs) ht
          have hkept : s.Shrinks t := hsame.shrinks.trans hshrinks
          refine ⟨hlinked.zero hb0 fun hocc => ?_, hkept.trans zero_shrinks⟩
          -- The calls may have freed the directory itself; if not, it is a directory still.
          have htype' : (t b).type = .dir := (hkept b hocc).2.1.trans htype
          refine ⟨?_, hlinked.dir b hocc htype'⟩
          rw [htype']
          decide
      · cases h

/-! ### New blocks -/

theorem firstFree_eq_some_iff :
    s.firstFree = some n ↔ (s n).occupied = false ∧ n < blockCount ∧ ∀ b < n, (s b).occupied = true := by
  rw [firstFree, List.find?_range_eq_some]
  simp

/-- The arena after the block `last` of a chain got the new block `n` behind it. -/
def extended (s : Arena) (last n : Nat) : Arena := fun x =>
  if x = last then { s last with childBlock := some n }
  else if x = n then newBlock last .subFile (s last).fid n []
  else s x

section

variable {last : Nat}

theorem extended_new (hne : n ≠ last) : s.extended last n n = newBlock last .subFile (s last).fid n [] := by
  rw [extended, if_neg hne, if_pos rfl]

theorem extended_last : s.extended last n last = { s last with childBlock := some n } := if_pos rfl

theorem extended_of_ne (hlast : x ≠ last) (hn : x ≠ n) : s.extended last n x = s x := by
  rw [extended, if_neg hlast, if_neg hn]

/-- Of the blocks that were there, the last one alone changes, and in its link alone. -/
theorem extended_old (hn : x ≠ n) : s.extended last n x = { s x with
    childBlock := if x = last then some n else (s x).childBlock } := by
  obtain rfl | hlast := eq_or_ne x last
  · rw [extended_last, if_pos rfl]
  · rw [extended_of_ne hlast hn, if_neg hlast]

theorem createBlock_subFile (hn : s.firstFree = some n) {name : List UInt8} :
    s.createBlock last .subFile name = some (n, s.set n (newBlock last .subFile (s last).fid n name)) := by
  rw [createBlock, hn]
  rfl

end

namespace Linked

theorem ne_of_free (hs : s.Linked) (hp : (s p).occupied = true) (hc : (s p).childBlock = some c)
    (hfree : (s n).occupied = false) : c ≠ n := by
  rintro rfl
  rw [(hs.child p c hp hc).1] at hfree
  cases hfree

/-- The used part of the arena with its first free block taken. -/
theorem blank_take (hs : s.Linked) (hn : s.firstFree = some n)
    (hold : ∀ x ≠ n, (s' x).occupied = (s x).occupied ∧ (s' x).fid = (s x).fid ∧ (s' x).type = (s x).type)
    (hnew : (s' n).occupied = true) : ∃ used, (∀ b, used ≤ b → (s' b).occupied = false) ∧
      ∀ b, (s' b).occupied = false → b < used → (s' b).fid = 0 ∧ (s' b).type = .file := by
  obtain ⟨-, -, hfront⟩ := firstFree_eq_some_iff.mp hn
  obtain ⟨used, hfree, hblank⟩ := hs.blank
  have hle : n ≤ used := by
    by_contra hlt
    have hocc := hfront used (by omega)
    rw [hfree used (Nat.le_refl _)] at hocc
    cases hocc
  refine ⟨max used (n + 1), fun x hx => ?_, fun x hx hlt => ?_⟩
  · have hxn : x ≠ n := by omega
    rw [(hold x hxn).1]
    exact hfree x (by omega)
  · have hxn : x ≠ n := by
      rintro rfl
      rw [hnew] at hx
      cases hx
    obtain ⟨hocc, hfid, htype⟩ := hold x hxn
    rw [hocc] at hx
    rw [hfid, htype]
    exact hblank x hx (by omega)

/-- A new file or directory. -/
theorem create (hs : s.Linked) (hn : s.firstFree = some n) {block : Block} (hocc : block.occupied = true)
    (htype : block.type ≠ .subFile) (hchild : block.childBlock = none) (hbid : block.bid = n) :
    (s.set n block).Linked := by
  obtain ⟨hfree, hlt, -⟩ := firstFree_eq_some_iff.mp hn
  have hne : ∀ x, (s x).occupied = true → x ≠ n := by
    rintro x hx rfl
    rw [hfree] at hx
    cases hx
  constructor
  · rw [set_of_ne (hne 0 hs.root.1)]
    exact hs.root
  · intro x hx
    obtain rfl | hxn := eq_or_ne x n
    · rw [set_self]
      exact ⟨hlt, hbid⟩
    · rw [set_of_ne hxn] at hx ⊢
      exact hs.bid x hx
  · intro x hx
    obtain rfl | hxn := eq_or_ne x n
    · rw [set_self]
      exact fun _ => hchild
    · rw [set_of_ne hxn] at hx ⊢
      exact hs.dir x hx
  · intro p c hp hc
    obtain rfl | hpn := eq_or_ne p n
    · rw [set_self, hchild] at hc
      cases hc
    · rw [set_of_ne hpn] at hp hc ⊢
      rw [set_of_ne (hs.ne_of_free hp hc hfree)]
      exact hs.child p c hp hc
  · intro c hc hctype
    obtain rfl | hcn := eq_or_ne c n
    · rw [set_self] at hctype
      exact absurd hctype htype
    · rw [set_of_ne hcn] at hc hctype ⊢
      obtain ⟨p, hparent, hp, hpc⟩ := hs.parent c hc hctype
      refine ⟨p, hparent, ?_⟩
      rw [set_of_ne (hne p hp)]
      exact ⟨hp, hpc⟩
  · obtain ⟨depth, hdepth⟩ := hs.depth
    refine ⟨depth, fun p c hp hc => ?_⟩
    obtain rfl | hpn := eq_or_ne p n
    · rw [set_self, hchild] at hc
      cases hc
    · rw [set_of_ne hpn] at hp hc
      exact hdepth p c hp hc
  · refine hs.blank_take hn (fun x hx => ?_) (by rw [set_self, hocc])
    rw [set_of_ne hx]
    exact ⟨rfl, rfl, rfl⟩

/-- A chain gets one more block. -/
theorem extended {last : Nat} (hs : s.Linked) (hn : s.firstFree = some n) (hlast : (s last).occupied = true)
    (htype : (s last).type ≠ .dir) (hnone : (s last).childBlock = none) : (s.extended last n).Linked := by
  obtain ⟨hfree, hlt, -⟩ := firstFree_eq_some_iff.mp hn
  have hne : ∀ x, (s x).occupied = true → x ≠ n := by
    rintro x hx rfl
    rw [hfree] at hx
    cases hx
  have hnew : s.extended last n n = newBlock last .subFile (s last).fid n [] := extended_new (hne last hlast).symm
  constructor
  · rw [extended_old (hne 0 hs.root.1)]
    exact hs.root
  · intro x hx
    obtain rfl | hxn := eq_or_ne x n
    · rw [hnew]
      exact ⟨hlt, rfl⟩
    · rw [extended_old hxn] at hx ⊢
      exact hs.bid x hx
  · intro x hx hdir
    obtain rfl | hxn := eq_or_ne x n
    · rw [hnew]
      rfl
    · rw [extended_old hxn] at hx hdir ⊢
      have hxlast : x ≠ last := by
        rintro rfl
        exact htype hdir
      dsimp only
      rw [if_neg hxlast]
      exact hs.dir x hx hdir
  · intro p c hp hc
    obtain rfl | hpn := eq_or_ne p n
    · rw [hnew] at hc
      cases hc
    · rw [extended_old hpn] at hp hc ⊢
      dsimp only at hp hc ⊢
      split at hc
      · next heq =>
        obtain rfl := Option.some.inj hc
        rw [hnew, heq]
        exact ⟨rfl, rfl, rfl, rfl⟩
      · rw [extended_old (hs.ne_of_free hp hc hfree)]
        exact hs.child p c hp hc
  · intro c hc hctype
    obtain rfl | hcn := eq_or_ne c n
    · refine ⟨last, by rw [hnew]; rfl, ?_⟩
      rw [extended_last]
      exact ⟨hlast, rfl⟩
    · rw [extended_old hcn] at hc hctype ⊢
      obtain ⟨p, hparent, hp, hpc⟩ := hs.parent c hc hctype
      have hplast : p ≠ last := by
        rintro rfl
        rw [hnone] at hpc
        cases hpc
      refine ⟨p, hparent, ?_⟩
      rw [extended_of_ne hplast (hne p hp)]
      exact ⟨hp, hpc⟩
  · obtain ⟨depth, hdepth⟩ := hs.depth
    refine ⟨Function.update depth n (depth last + 1), fun p c hp hc => ?_⟩
    obtain rfl | hpn := eq_or_ne p n
    · rw [hnew] at hc
      cases hc
    · rw [extended_old hpn] at hp hc
      dsimp only at hp hc
      rw [Function.update_of_ne hpn]
      split at hc
      · next heq =>
        obtain rfl := Option.some.inj hc
        rw [Function.update_self, heq]
        exact Nat.lt_succ_self _
      · rw [Function.update_of_ne (hs.ne_of_free hp hc hfree)]
        exact hdepth p c hp hc
  · refine hs.blank_take hn (fun x hx => ?_) (by rw [hnew]; rfl)
    rw [extended_old hx]
    exact ⟨rfl, rfl, rfl⟩

end Linked

end Akos.Tmpfs.Arena
