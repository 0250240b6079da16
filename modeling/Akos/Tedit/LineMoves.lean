import Akos.Tedit.LineMemory

/-!
# Bytes of a line are moved

The loops that put the bytes of some regions behind those of another line and free each region. Whatever they are run
on, the regions they leave alone stay as they are, those of the line that grows keep all but their length and their
pointer ahead, and a new region was not live before. A loop that does not find memory ends the process; none of them
runs on for ever.
-/

namespace Akos

open Blocks (header)

/-- An allocation of at least `n` bytes, with its header in order. -/
def Blocks.Sized (b : Blocks) (p : BitVec 32) (n : Nat) : Prop :=
  ∃ size, b.live p = some size ∧ n ≤ size.toNat ∧ b.word p header = Heap.blockAmt size

section Sized

variable {h : UserHeap} {b b' : Blocks} {p : BitVec 32} {n m : Nat}

theorem Blocks.Sized.mono (hp : b.Sized p n) (hle : m ≤ n) : b.Sized p m := by
  obtain ⟨size, hlive, hsize, hheader⟩ := hp
  exact ⟨size, hlive, Nat.le_trans hle hsize, hheader⟩

theorem Blocks.Sized.congr (hp : b.Sized p n) (hlive : b'.live p = b.live p)
    (hheader : b'.word p header = b.word p header) : b'.Sized p n := by
  obtain ⟨size, hsome, hsize, hword⟩ := hp
  exact ⟨size, hlive.trans hsome, hsize, hheader.trans hword⟩

theorem Blocks.Sized.setField (hp : b.Sized p n) (q : BitVec 32) (f : Tedit.Field) (value : BitVec 32) :
    (b.setField q f value).Sized p n := hp.congr rfl (Blocks.header_setField b q f value p)

theorem Blocks.Sized.setByte (hp : b.Sized p n) (q : BitVec 32) {i : BitVec 32} (hi : i.toNat ≤ 128) (c : BitVec 8) :
    (b.setByte q i c).Sized p n := hp.congr rfl (Blocks.header_setByte b q hi c p)

theorem Blocks.sized_take (b : Blocks) (p size : BitVec 32) : (b.take p size).Sized p size.toNat :=
  ⟨size, Blocks.live_take.mpr (.inl ⟨rfl, rfl⟩), Nat.le_refl _, Blocks.header_take_self b p size⟩

theorem Blocks.Sized.take (hp : b.Sized p n) {q : BitVec 32} (hne : p ≠ q) (size : BitVec 32) :
    (b.take q size).Sized p n :=
  hp.congr (Function.update_of_ne hne _ _) (Blocks.word_take_of_ne b hne size header)

theorem Blocks.Sized.release (hp : b.Sized p n) {q : BitVec 32} (hne : p ≠ q) : (b.release q).Sized p n :=
  hp.congr (Function.update_of_ne hne _ _) rfl

namespace UserHeap.Holds

theorem sized_ne_zero (hh : Holds h b) (hp : b.Sized p n) : p ≠ 0#32 := by
  obtain ⟨_, hlive, -⟩ := hp
  exact hh.ne_zero hlive

theorem field_eq (hh : Holds h b) (hp : b.Sized p n) (f : Tedit.Field) (hf : f.offset.toNat + 4 ≤ n) :
    h.field p f = b.field p f := by
  obtain ⟨size, hlive, hsize, -⟩ := hp
  exact hh.word_eq hlive (Blocks.inBlockWord_of_le (hh.size_lt hlive) (Nat.le_trans hf hsize))

theorem setField (hh : Holds h b) (hp : b.Sized p n) (f : Tedit.Field) (hf : f.offset.toNat + 4 ≤ n)
    (value : BitVec 32) : Holds (h.setField p f value) (b.setField p f value) := by
  obtain ⟨size, hlive, hsize, -⟩ := hp
  exact hh.setWord hlive (Blocks.inBlockWord_of_le (hh.size_lt hlive) (Nat.le_trans hf hsize)) value

theorem setByteAt (hh : Holds h b) (hp : b.Sized p n) {i : BitVec 32} (hi : i.toNat < n) (c : BitVec 8) :
    Holds (h.setByte p i c) (b.setByte p i c) := by
  obtain ⟨size, hlive, hsize, -⟩ := hp
  exact hh.setByte hlive (Blocks.inBlock_of_lt (hh.size_lt hlive) (Nat.lt_of_lt_of_le hi hsize)) c

end UserHeap.Holds

end Sized

namespace Tedit.InMemory

open UserHeap (Holds)

/-! ### Results -/

section Ends

variable {α β : Type} {post : α → Prop} {post' : β → Prop} {r : Result α} {f : α → Result β} {o : Option α} {a : α}

/-- The operation returns a value of which `post` holds, or there is no memory for it. -/
inductive Ends (post : α → Prop) : Result α → Prop
  | ok {a : α} : post a → Ends post (.ok a)
  | noMemory : Ends post (.error .noMemory)

theorem Ends.bind (hr : Ends post r) (hf : ∀ a, post a → Ends post' (f a)) : Ends post' (r >>= f) := by
  cases hr with
  | ok ha => exact hf _ ha
  | noMemory => exact .noMemory

theorem Ends.mono {post'' : α → Prop} (hr : Ends post r) (himp : ∀ a, post a → post'' a) : Ends post'' r := by
  cases hr with
  | ok ha => exact .ok (himp _ ha)
  | noMemory => exact .noMemory

theorem Ends.of_ok (hr : Ends post (.ok a)) : post a := by
  cases hr with
  | ok ha => exact ha

theorem ends_noMemory (ho : ∀ a, o = some a → post a) : Ends post (orStop .noMemory o) := by
  cases o with
  | none => exact .noMemory
  | some a => exact .ok (ho a rfl)

/-- A new allocation, or no memory for it. -/
theorem ends_calloc {h : UserHeap} {b : Blocks} (hh : Holds h b) {size : BitVec 32}
    (hsize : size.toNat ≤ 0xFFFFFFF4) :
    Ends (fun new => b.live new.1 = none ∧ Holds new.2 (b.take new.1 size)) (orStop .noMemory (h.calloc size)) :=
  ends_noMemory fun _ hnew => hh.calloc hsize hnew

end Ends

/-! ### A line that grows -/

/-- The regions of a line. -/
structure Chained (b : Blocks) (rs : List (BitVec 32)) : Prop where
  linked : Doubly.Segment (fun p => b.field p .next) (fun p => b.field p .prev) 0#32 rs 0#32
  sized : ∀ r ∈ rs, b.Sized r 140
  pos : ∀ r ∈ rs, (b.field r .pos).toNat ≤ 128
  nodup : rs.Nodup

/-- Regions were added to a line and some others may have been freed. -/
structure Extends (freed : List (BitVec 32)) (b b' : Blocks) (rs rs' : List (BitVec 32)) : Prop where
  added : ∃ new, rs' = rs ++ new
  others : ∀ p, p ∉ rs → p ∉ freed → ∀ size, b.live p = some size → b'.live p = some size ∧ b'.cell p = b.cell p
  own : ∀ p ∈ rs, b'.live p = b.live p ∧ b'.word p header = b.word p header ∧
    ∀ f, f ≠ .pos → f ≠ .next → b'.field p f = b.field p f
  fresh : ∀ p ∈ rs', p ∈ rs ∨ p ∈ freed ∨ b.live p = none

section Extends

variable {b b' b'' : Blocks} {freed freed' rs rs' rs'' : List (BitVec 32)} {p : BitVec 32} {n : Nat}

theorem Extends.refl (b : Blocks) (rs : List (BitVec 32)) : Extends [] b b rs rs where
  added := ⟨[], (List.append_nil rs).symm⟩
  others _ _ _ _ hlive := ⟨hlive, rfl⟩
  own _ _ := ⟨rfl, rfl, fun _ _ _ => rfl⟩
  fresh _ hp := .inl hp

theorem Extends.trans (h : Extends freed b b' rs rs') (h' : Extends freed' b' b'' rs' rs'') :
    Extends (freed ++ freed') b b'' rs rs'' where
  added := by
    obtain ⟨new, rfl⟩ := h.added
    obtain ⟨new', rfl⟩ := h'.added
    exact ⟨new ++ new', List.append_assoc ..⟩
  others p hrs hfreed size hlive := by
    rw [List.mem_append, not_or] at hfreed
    obtain ⟨hlive', hcell⟩ := h.others p hrs hfreed.1 size hlive
    have hrs' : p ∉ rs' := fun hmem => (h.fresh p hmem).elim hrs fun hor => hor.elim hfreed.1 fun hnone => by
      rw [hnone] at hlive
      cases hlive
    obtain ⟨hlive'', hcell'⟩ := h'.others p hrs' hfreed.2 size hlive'
    exact ⟨hlive'', hcell'.trans hcell⟩
  own p hp := by
    obtain ⟨hlive, hheader, hfields⟩ := h.own p hp
    obtain ⟨new, rfl⟩ := h.added
    obtain ⟨hlive', hheader', hfields'⟩ := h'.own p (List.mem_append_left new hp)
    exact ⟨hlive'.trans hlive, hheader'.trans hheader, fun f hpos hnext =>
      (hfields' f hpos hnext).trans (hfields f hpos hnext)⟩
  fresh p hp := by
    rw [List.mem_append]
    obtain hmem | hmem | hnone := h'.fresh p hp
    · exact (h.fresh p hmem).imp_right fun hor => hor.imp_left Or.inl
    · exact .inr (.inl (.inr hmem))
    · by_cases hrs : p ∈ rs
      · exact .inl hrs
      · by_cases hfreed : p ∈ freed
        · exact .inr (.inl (.inl hfreed))
        · refine .inr (.inr ?_)
          cases hlive : b.live p with
          | none => rfl
          | some size =>
            rw [(h.others p hrs hfreed size hlive).1] at hnone
            cases hnone

theorem Extends.sized (h : Extends freed b b' rs rs') (hp : b.Sized p n) (hfreed : p ∉ freed) : b'.Sized p n := by
  by_cases hrs : p ∈ rs
  · obtain ⟨hlive, hheader, -⟩ := h.own p hrs
    exact hp.congr hlive hheader
  · obtain ⟨size, hlive, hsize, hheader⟩ := hp
    obtain ⟨hlive', hcell⟩ := h.others p hrs hfreed size hlive
    refine ⟨size, hlive', hsize, ?_⟩
    rw [Blocks.word, hcell]
    exact hheader

/-- A region that is neither the line's nor freed is as it was. -/
theorem Extends.cell (h : Extends freed b b' rs rs') (hp : b.Sized p n) (hrs : p ∉ rs) (hfreed : p ∉ freed) :
    b'.cell p = b.cell p := by
  obtain ⟨size, hlive, -, -⟩ := hp
  exact (h.others p hrs hfreed size hlive).2

theorem Extends.field (h : Extends freed b b' rs rs') (hp : b.Sized p n) (hrs : p ∉ rs) (hfreed : p ∉ freed)
    (f : Field) : b'.field p f = b.field p f := by
  rw [Blocks.field, Blocks.word, h.cell hp hrs hfreed]
  rfl

end Extends

/-! ### A byte is put behind the others -/

/-- The line has grown, and has room behind its last byte in the region the loop goes on with. -/
def Grown (freed : List (BitVec 32)) (b : Blocks) (line : List (BitVec 32)) (r : UserHeap × BitVec 32) : Prop :=
  ∃ b' rs, Holds r.1 b' ∧ Chained b' (rs ++ [r.2]) ∧ (b'.field r.2 .pos).toNat < 128 ∧
    Extends freed b b' line (rs ++ [r.2])

section Put

variable {h : UserHeap} {b b' : Blocks} {rs : List (BitVec 32)} {dest new pos : BitVec 32} {c : BitVec 8}

/-- Only the length and the bytes of a region are different. -/
theorem Chained.put (hc : Chained b (rs ++ [dest])) (hlive : b'.live = b.live)
    (hheader : ∀ q, b'.word q header = b.word q header)
    (hfield : ∀ q f, b'.field q f = if q = dest ∧ f = .pos then pos else b.field q f) (hpos : pos.toNat ≤ 128) :
    Chained b' (rs ++ [dest]) where
  linked := hc.linked.congr (fun q _ => (hfield q .next).trans (if_neg fun h => by cases h.2))
    fun q _ => (hfield q .prev).trans (if_neg fun h => by cases h.2)
  sized r hr := (hc.sized r hr).congr (congrFun hlive r) (hheader r)
  pos r hr := by
    rw [hfield]
    split
    · exact hpos
    · exact hc.pos r hr
  nodup := hc.nodup

/-- A new region behind the last one. -/
theorem Chained.grow (hc : Chained b (rs ++ [dest])) (hnew : new ∉ rs ++ [dest]) (hsized : b'.Sized new 140)
    (hlive : ∀ q ≠ new, b'.live q = b.live q) (hheader : ∀ q ≠ new, b'.word q header = b.word q header)
    (hfield : ∀ q f, q ≠ new → b'.field q f = if q = dest ∧ f = .next then new else b.field q f)
    (hfieldNew : ∀ f, b'.field new f = if f = .prev then dest else 0#32) : Chained b' ((rs ++ [dest]) ++ [new]) := by
  have hne : ∀ q ∈ rs ++ [dest], q ≠ new := fun q hq heq => hnew (heq ▸ hq)
  have hdest : dest ∈ rs ++ [dest] := List.mem_append_right rs List.mem_cons_self
  refine ⟨?_, ?_, ?_, ?_⟩
  · rw [List.append_assoc]
    refine hc.linked.insert (fun q hq => ?_) (fun q hq => ?_) ?_ ?_ ?_ fun q hq => by cases hq
    · rw [List.append_nil] at hq
      have hqdest : q ≠ dest := by
        rintro rfl
        exact (List.nodup_append.mp hc.nodup).2.2 q hq q List.mem_cons_self rfl
      rw [hfield q .next (hne q (List.mem_append_left _ hq)), if_neg fun h => hqdest h.1]
    · rw [hfield q .prev (hne q hq), if_neg fun h => by cases h.2]
    · rw [hfield dest .next (hne dest hdest), if_pos ⟨rfl, rfl⟩]
    · have hlast : b.field dest .next = 0#32 := (Doubly.segment_append.mp hc.linked).2.2.1
      rw [hfieldNew, hlast]
      rfl
    · rw [hfieldNew, if_pos rfl]
  · refine List.forall_mem_append.mpr ⟨fun r hr => ?_, List.forall_mem_singleton.mpr hsized⟩
    exact (hc.sized r hr).congr (hlive r (hne r hr)) (hheader r (hne r hr))
  · refine List.forall_mem_append.mpr ⟨fun r hr => ?_, List.forall_mem_singleton.mpr ?_⟩
    · rw [hfield r .pos (hne r hr), if_neg fun h => by cases h.2]
      exact hc.pos r hr
    · rw [hfieldNew, if_neg (by decide)]
      exact Nat.zero_le _
  · exact List.nodup_append.mpr ⟨hc.nodup, List.nodup_singleton new, fun q hq q' hq' heq => hnew (by
      rw [← List.mem_singleton.mp hq', ← heq]
      exact hq)⟩

/-- A region is allocated behind the last one. -/
theorem newRegion_spec (hh : Holds h b) (hc : Chained b (rs ++ [dest])) :
    Ends (Grown [] b (rs ++ [dest])) (do
      let new ← orStop .noMemory (h.calloc sizeofTextRegion)
      let h := new.2.setField dest .next new.1
      let h := h.setField (h.field dest .next) .prev dest
      pure (h, h.field dest .next)) := by
  refine (ends_calloc hh (show (140#32).toNat ≤ 0xFFFFFFF4 by decide)).bind fun new hnew => ?_
  obtain ⟨hnone, hh₂⟩ := hnew
  have hdest : dest ∈ rs ++ [dest] := List.mem_append_right rs List.mem_cons_self
  have hlive : ∀ q size, b.live q = some size → q ≠ new.1 := by
    rintro q size hq rfl
    rw [hnone] at hq
    cases hq
  have hold : ∀ q ∈ rs ++ [dest], q ≠ new.1 := fun q hq => by
    obtain ⟨size, hq, -⟩ := hc.sized q hq
    exact hlive q size hq
  have hne : dest ≠ new.1 := hold dest hdest
  have hsized₂ : (b.take new.1 140#32).Sized dest 140 := (hc.sized dest hdest).take hne _
  have hsizedNew : (b.take new.1 140#32).Sized new.1 140 := Blocks.sized_take b new.1 140#32
  have hh₃ := hh₂.setField hsized₂ .next (by decide) new.1
  have hh₄ := hh₃.setField (hsizedNew.setField dest .next new.1) .prev (by decide) dest
  have hread := hh₃.field_eq (hsized₂.setField dest .next new.1) .next (by decide)
  rw [Blocks.field_setField, if_pos ⟨rfl, rfl⟩] at hread
  have hread' := hh₄.field_eq ((hsized₂.setField dest .next new.1).setField new.1 .prev dest) .next (by decide)
  rw [Blocks.field_setField, if_neg fun h => hne h.1, Blocks.field_setField, if_pos ⟨rfl, rfl⟩] at hread'
  have hheader₄ : ∀ q ≠ new.1, (((b.take new.1 140#32).setField dest .next new.1).setField new.1 .prev dest).word q
      header = b.word q header := fun q hq => by
    rw [Blocks.header_setField, Blocks.header_setField, Blocks.word_take_of_ne b hq]
  have hfield₄ : ∀ q f, q ≠ new.1 →
      (((b.take new.1 140#32).setField dest .next new.1).setField new.1 .prev dest).field q f =
        if q = dest ∧ f = .next then new.1 else b.field q f := fun q f hq => by
    rw [Blocks.field_setField, if_neg fun h => hq h.1, Blocks.field_setField, Blocks.field, Blocks.word_take_of_ne b hq]
    rfl
  have hfieldNew : ∀ f, (((b.take new.1 140#32).setField dest .next new.1).setField new.1 .prev dest).field new.1 f =
      if f = .prev then dest else 0#32 := fun f => by
    have hzero : ((b.take new.1 140#32).setField dest .next new.1).field new.1 f = 0#32 := by
      rw [Blocks.field_setField, if_neg fun h => hne h.1.symm, Blocks.field_take_self]
    rw [Blocks.field_setField, hzero]
    exact if_congr (and_iff_right rfl) rfl rfl
  have hgrown := hc.grow (fun hmem => hold new.1 hmem rfl)
    ((hsizedNew.setField dest .next new.1).setField new.1 .prev dest) (fun q hq => Function.update_of_ne hq _ _)
    hheader₄ hfield₄ hfieldNew
  dsimp only
  rw [hread, hread']
  refine .ok ⟨_, rs ++ [dest], hh₄, hgrown, ?_, ⟨⟨[new.1], rfl⟩, ?_, ?_, ?_⟩⟩
  · rw [hfieldNew, if_neg (by decide)]
    decide
  · intro q hq _ size hqlive
    have hqnew := hlive q size hqlive
    refine ⟨(Function.update_of_ne hqnew _ _).trans hqlive, ?_⟩
    have hqdest : q ≠ dest := fun heq => hq (heq ▸ hdest)
    exact (Blocks.cell_setWord_of_ne _ hqnew _ _).trans ((Blocks.cell_setWord_of_ne _ hqdest _ _).trans
      (Blocks.cell_take_of_ne b hqnew _))
  · intro q hq
    have hqnew := hold q hq
    refine ⟨Function.update_of_ne hqnew _ _, hheader₄ q hqnew, fun f _ hf => ?_⟩
    rw [hfield₄ q f hqnew, if_neg fun h => hf h.2]
  · intro q hq
    refine (List.mem_append.mp hq).imp_right fun hnew => .inr ?_
    rw [List.mem_singleton.mp hnew]
    exact hnone

theorem putByte_spec (hh : Holds h b) (hc : Chained b (rs ++ [dest])) (hroom : (b.field dest .pos).toNat < 128)
    (c : BitVec 8) : Ends (Grown [] b (rs ++ [dest])) (putByte h dest c) := by
  have hdest : dest ∈ rs ++ [dest] := List.mem_append_right rs List.mem_cons_self
  have hsized := hc.sized dest hdest
  have hsum : (b.field dest .pos + 1#32).toNat = (b.field dest .pos).toNat + 1 := by
    rw [BitVec.toNat_add, show (1#32).toNat = 1 from rfl]
    omega
  -- the length is counted up and the byte is put into the buffer
  obtain ⟨b₁, hh₁, hput, hpos₁, hext₁⟩ : ∃ b₁, Holds ((h.setField dest .pos (b.field dest .pos + 1#32)).setByte dest
      (b.field dest .pos) c) b₁ ∧ Chained b₁ (rs ++ [dest]) ∧ b₁.field dest .pos = b.field dest .pos + 1#32 ∧
      Extends [] b b₁ (rs ++ [dest]) (rs ++ [dest]) := by
    have hfield₁ : ∀ q f, ((b.setField dest .pos (b.field dest .pos + 1#32)).setByte dest (b.field dest .pos) c).field
        q f = if q = dest ∧ f = .pos then b.field dest .pos + 1#32 else b.field q f := fun q f =>
      (Blocks.field_setByte _ dest hroom c q f).trans (Blocks.field_setField b dest .pos _ q f)
    have hheader₁ : ∀ q, ((b.setField dest .pos (b.field dest .pos + 1#32)).setByte dest (b.field dest .pos) c).word q
        header = b.word q header := fun q =>
      (Blocks.header_setByte _ dest (Nat.le_of_lt hroom) c q).trans (Blocks.header_setField b dest .pos _ q)
    refine ⟨_, (hh.setField hsized .pos (by decide) _).setByteAt (hsized.setField dest .pos _) (by omega) c,
      hc.put rfl hheader₁ hfield₁ (by omega), (hfield₁ dest .pos).trans (if_pos ⟨rfl, rfl⟩),
      ⟨⟨[], (List.append_nil _).symm⟩, fun q hq _ size hlive => ⟨hlive, ?_⟩, fun q _ => ⟨rfl, hheader₁ q, ?_⟩,
        fun q hq => .inl hq⟩⟩
    · have hqdest : q ≠ dest := fun heq => hq (heq ▸ hdest)
      exact (Blocks.cell_setByte_of_ne _ hqdest _ c).trans (Blocks.cell_setWord_of_ne b hqdest _ _)
    · exact fun f hf _ => (hfield₁ q f).trans (if_neg fun h => hf h.2)
  rw [putByte, hh.field_eq hsized .pos (by decide)]
  dsimp only
  rw [hh₁.field_eq (hput.sized dest hdest) .pos (by decide), hpos₁]
  split
  · refine (newRegion_spec hh₁ hput).mono fun r hr => ?_
    obtain ⟨b', rs', hh', hc', hroom', hext⟩ := hr
    exact ⟨b', rs', hh', hc', hroom', hext₁.trans hext⟩
  · next hnot =>
    have hlt : (b.field dest .pos).toNat + 1 ≠ 128 := fun heq => hnot (BitVec.eq_of_toNat_eq (hsum.trans heq))
    exact .ok ⟨b₁, rs, hh₁, hput, by rw [hpos₁]; omega, hext₁⟩

end Put

/-! ### Regions are moved -/

section Move

variable {h : UserHeap} {b b' : Blocks} {rs line freed : List (BitVec 32)} {before dest tr i p : BitVec 32}
  {steps : Nat}

theorem Extends.not_mem (h : Extends [] b b' rs line) (hp : b.Sized p 140) (hrs : p ∉ rs) : p ∉ line := by
  intro hmem
  obtain ⟨size, hlive, -⟩ := hp
  obtain hmem | hmem | hnone := h.fresh p hmem
  · exact hrs hmem
  · cases hmem
  · rw [hnone] at hlive
    cases hlive

/-- The bytes of a region that is not the line's go behind the line's last byte. -/
theorem moveBytes_spec (hh : Holds h b) (hc : Chained b (rs ++ [dest])) (hroom : (b.field dest .pos).toNat < 128)
    (htr : b.Sized tr 140) (hmem : tr ∉ rs ++ [dest]) (hi : i.toNat ≤ (b.field tr .pos).toNat)
    (hsteps : (b.field tr .pos).toNat - i.toNat < steps) :
    Ends (Grown [] b (rs ++ [dest])) (moveBytes tr steps h dest i) := by
  induction steps generalizing h b rs dest i with
  | zero => cases hsteps
  | succ steps ih =>
    rw [moveBytes, hh.field_eq htr .pos (by decide)]
    by_cases hlt : i < b.field tr .pos
    · rw [if_pos hlt]
      refine (putByte_spec hh hc hroom (h.byte tr i)).bind fun put hput => ?_
      obtain ⟨b', rs', hh', hc', hroom', hext⟩ := hput
      have hpos := hext.field htr hmem List.not_mem_nil .pos
      have hnext : (i + 1#32).toNat = i.toNat + 1 := by
        rw [BitVec.toNat_add, show (1#32).toNat = 1 from rfl]
        rw [BitVec.lt_def] at hlt
        omega
      rw [BitVec.lt_def] at hlt
      refine (ih hh' hc' hroom' (hext.sized htr List.not_mem_nil) (hext.not_mem htr hmem) (by rw [hpos]; omega)
        (by rw [hpos]; omega)).mono fun r hr => ?_
      obtain ⟨b'', rs'', hh'', hc'', hroom'', hext'⟩ := hr
      exact ⟨b'', rs'', hh'', hc'', hroom'', hext.trans hext'⟩
    · rw [if_neg hlt]
      exact .ok ⟨b, rs, hh, hc, hroom, Extends.refl b _⟩

theorem moveBytes_of_empty (htr : h.field tr .pos = 0#32) (hsteps : 0 < steps) :
    moveBytes tr steps h dest 0#32 = .ok (h, dest) := by
  obtain ⟨steps, rfl⟩ := Nat.exists_eq_succ_of_ne_zero (Nat.ne_of_gt hsteps)
  rw [moveBytes, htr, if_neg (by decide)]
  rfl

theorem Chained.release (hc : Chained b rs) (hp : p ∉ rs) : Chained (b.release p) rs where
  linked := hc.linked
  sized r hr := (hc.sized r hr).release fun heq => hp (heq ▸ hr)
  pos := hc.pos
  nodup := hc.nodup

theorem extends_release (b : Blocks) (hp : p ∉ rs) : Extends [p] b (b.release p) rs rs where
  added := ⟨[], (List.append_nil rs).symm⟩
  others q _ hq size hlive := by
    rw [List.mem_singleton] at hq
    exact ⟨Blocks.live_release.mpr ⟨hq, hlive⟩, rfl⟩
  own q hq := ⟨Function.update_of_ne (fun heq => hp (by rw [← heq]; exact hq)) _ _, rfl, fun _ _ _ => rfl⟩
  fresh q hq := .inl hq

/-- The regions of one line go into another one, and are freed. The line that grows has room, or there is nothing to
put into it. -/
theorem moveRegions_spec (hh : Holds h b) (hc : Chained b (rs ++ [dest]))
    (hlinked : Doubly.Segment (fun p => b.field p .next) (fun p => b.field p .prev) before freed 0#32)
    (hp : p = freed.headD 0#32) (hsized : ∀ r ∈ freed, b.Sized r 140)
    (hpos : ∀ r ∈ freed, (b.field r .pos).toNat ≤ 128) (hnodup : ((rs ++ [dest]) ++ freed).Nodup)
    (hroom : (b.field dest .pos).toNat < 128 ∨ ∀ r ∈ freed, b.field r .pos = 0#32) (hsteps : freed.length < steps) :
    Ends (fun h' => ∃ b' line, Holds h' b' ∧ Chained b' line ∧ Extends freed b b' (rs ++ [dest]) line)
      (moveRegions steps h dest p) := by
  induction freed generalizing h b rs dest steps before p with
  | nil =>
    obtain ⟨steps, rfl⟩ := Nat.exists_eq_add_of_lt hsteps
    rw [moveRegions, if_pos (by rw [hp]; rfl)]
    exact .ok ⟨b, rs ++ [dest], hh, hc, Extends.refl b _⟩
  | cons r freed ih =>
    obtain ⟨steps, rfl⟩ := Nat.exists_eq_add_of_lt hsteps
    obtain ⟨-, hnext, hrest⟩ := hlinked
    obtain ⟨hsizedR, hsizedRest⟩ := List.forall_mem_cons.mp hsized
    obtain ⟨hposR, hposRest⟩ := List.forall_mem_cons.mp hpos
    obtain ⟨hline, hfreed, hdisjoint⟩ := List.nodup_append.mp hnodup
    have hr : r ∉ rs ++ [dest] := fun hmem => hdisjoint r hmem r List.mem_cons_self rfl
    obtain ⟨hrFreed, hfreedNodup⟩ := List.nodup_cons.mp hfreed
    obtain rfl : p = r := hp
    rw [moveRegions, if_neg (hh.sized_ne_zero hsizedR)]
    have hmoved : Ends (fun m => ∃ b' rs', Holds m.1 b' ∧ Chained b' (rs' ++ [m.2]) ∧
        Extends [] b b' (rs ++ [dest]) (rs' ++ [m.2]) ∧
        ((b'.field m.2 .pos).toNat < 128 ∨ ∀ r ∈ freed, b'.field r .pos = 0#32))
        (moveBytes p maxSteps h dest 0#32) := by
      obtain hroom | hempty := hroom
      · refine (moveBytes_spec hh hc hroom hsizedR hr (Nat.zero_le _) ?_).mono fun m hm => ?_
        · rw [maxSteps]
          omega
        · obtain ⟨b', rs', hh', hc', hroom', hext⟩ := hm
          exact ⟨b', rs', hh', hc', hext, .inl hroom'⟩
      · obtain ⟨hemptyR, hemptyRest⟩ := List.forall_mem_cons.mp hempty
        rw [moveBytes_of_empty ((hh.field_eq hsizedR .pos (by decide)).trans hemptyR) (by decide)]
        exact .ok ⟨b, rs, hh, hc, Extends.refl b _, .inr hemptyRest⟩
    refine hmoved.bind fun m hm => ?_
    obtain ⟨b', rs', hh', hc', hext, hroom'⟩ := hm
    have hsizedR' := hext.sized hsizedR List.not_mem_nil
    have hr' : p ∉ rs' ++ [m.2] := hext.not_mem hsizedR hr
    obtain ⟨size, hlive, -, hheader⟩ := hsizedR'
    have hnext' : m.1.field p .next = freed.headD 0#32 := by
      rw [hh'.field_eq (hext.sized hsizedR List.not_mem_nil) .next (by decide),
        hext.field hsizedR hr List.not_mem_nil .next]
      exact hnext
    have houtside : ∀ x ∈ freed, x ∉ rs ++ [dest] := fun x hx hmem => hdisjoint x hmem x (List.mem_cons_of_mem p hx) rfl
    have hfield : ∀ x ∈ freed, ∀ f, (b'.release p).field x f = b.field x f := fun x hx f =>
      hext.field (hsizedRest x hx) (houtside x hx) List.not_mem_nil f
    have hsteps' : freed.length < (p :: freed).length + steps := by
      rw [List.length_cons]
      omega
    refine (ih (hh'.free hlive hheader) (hc'.release hr') (hrest.congr (fun x hx => hfield x hx .next)
      fun x hx => hfield x hx .prev) hnext' (fun x hx => ?_) (fun x hx => ?_) ?_ hroom' hsteps').mono fun h' hh'' => ?_
    · exact (hext.sized (hsizedRest x hx) List.not_mem_nil).release fun heq => hrFreed (heq ▸ hx)
    · rw [hfield x hx]
      exact hposRest x hx
    · refine List.nodup_append.mpr ⟨hc'.nodup, hfreedNodup, fun x hx y hy heq => ?_⟩
      subst heq
      exact hext.not_mem (hsizedRest x hy) (houtside x hy) hx
    · obtain ⟨b'', line, hh'', hc'', hext'⟩ := hh''
      exact ⟨b'', line, hh'', hc'', (hext.trans (extends_release b' hr')).trans hext'⟩

end Move

end Tedit.InMemory

end Akos
