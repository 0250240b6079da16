import Akos.Tedit.LineMoves
import Mathlib.Data.BitVec

/-!
# The list of lines

The lines of a text are linked both ways and carry the numbers 0, 1, 2, and so on. The loops that copy, link and count
are here by what they leave in memory: a new line that takes bytes of another one, a line that is put behind another
one with those behind it counted up, and a line that is taken out with those behind it counted down.
-/

namespace Akos.Tedit.InMemory

open Blocks (header)
open UserHeap (Holds)

/-! ### Loops over a line and over the lines -/

section Loops

variable {h : UserHeap} {b b' : Blocks} {new tr i j p step before : BitVec 32} {l rs : List (BitVec 32)} {steps : Nat}

/-- Only bytes of one buffer are different. -/
structure BufferOnly (new : BitVec 32) (b b' : Blocks) : Prop where
  live : b'.live = b.live
  header : ∀ q, b'.word q header = b.word q header
  field : ∀ q f, b'.field q f = b.field q f
  cell : ∀ q ≠ new, b'.cell q = b.cell q

theorem BufferOnly.trans {b'' : Blocks} (h : BufferOnly new b b') (h' : BufferOnly new b' b'') :
    BufferOnly new b b'' where
  live := h'.live.trans h.live
  header q := (h'.header q).trans (h.header q)
  field q f := (h'.field q f).trans (h.field q f)
  cell q hq := (h'.cell q hq).trans (h.cell q hq)

theorem copyTail_spec (hh : Holds h b) (hnew : b.Sized new 140) (htr : b.Sized tr 140)
    (hpos : (b.field tr .pos).toNat ≤ 128) (hij : j.toNat ≤ i.toNat)
    (hsteps : (b.field tr .pos).toNat - i.toNat < steps) :
    Ends (fun h' => ∃ b', Holds h' b' ∧ BufferOnly new b b') (copyTail new tr steps h i j) := by
  induction steps generalizing h b i j with
  | zero => cases hsteps
  | succ steps ih =>
    rw [copyTail, hh.field_eq htr .pos (by decide)]
    by_cases hlt : i < b.field tr .pos
    · rw [if_pos hlt]
      rw [BitVec.lt_def] at hlt
      have hj : j.toNat < 128 := by omega
      have hone : (1#32).toNat = 1 := rfl
      have hnextI : (i + 1#32).toNat = i.toNat + 1 := by
        rw [BitVec.toNat_add]
        omega
      have hnextJ : (j + 1#32).toNat = j.toNat + 1 := by
        rw [BitVec.toNat_add]
        omega
      have hput : BufferOnly new b (b.setByte new j (h.byte tr i)) :=
        ⟨rfl, Blocks.header_setByte b new (Nat.le_of_lt hj) _, Blocks.field_setByte b new hj _,
          fun q hq => Blocks.cell_setByte_of_ne b hq j _⟩
      refine (ih (hh.setByteAt hnew (by omega) _) (hnew.setByte new (Nat.le_of_lt hj) _)
        (htr.setByte new (Nat.le_of_lt hj) _) (by rw [hput.field]; exact hpos) (by omega)
        (by rw [hput.field]; omega)).mono fun h' hcopied => ?_
      obtain ⟨b', hh', hsame⟩ := hcopied
      exact ⟨b', hh', hput.trans hsame⟩
    · rw [if_neg hlt]
      exact .ok ⟨b, hh, rfl, fun _ => rfl, fun _ _ => rfl, fun _ _ => rfl⟩

/-- Only links and numbers of lines are different. -/
structure LinesOnly (b b' : Blocks) : Prop where
  live : b'.live = b.live
  header : ∀ q, b'.word q header = b.word q header
  field : ∀ q f, f = .pos ∨ f = .prev ∨ f = .next → b'.field q f = b.field q f

theorem LinesOnly.refl (b : Blocks) : LinesOnly b b := ⟨rfl, fun _ => rfl, fun _ _ _ => rfl⟩

theorem LinesOnly.trans {b'' : Blocks} (h : LinesOnly b b') (h' : LinesOnly b' b'') : LinesOnly b b'' where
  live := h'.live.trans h.live
  header q := (h'.header q).trans (h.header q)
  field q f hf := (h'.field q f hf).trans (h.field q f hf)

theorem linesOnly_setField (b : Blocks) (p value : BitVec 32) {f : Field} (hpos : f ≠ .pos) (hprev : f ≠ .prev)
    (hnext : f ≠ .next) : LinesOnly b (b.setField p f value) where
  live := rfl
  header := Blocks.header_setField b p f value
  field q g hg := by
    rw [Blocks.field_setField, if_neg]
    rintro ⟨-, rfl⟩
    obtain hg | hg | hg := hg
    · exact hpos hg
    · exact hprev hg
    · exact hnext hg

theorem LinesOnly.sized {n : Nat} (h : LinesOnly b b') (hp : b.Sized p n) : b'.Sized p n :=
  hp.congr (congrFun h.live p) (h.header p)

/-- What is said of the regions of a line depends on these fields only. -/
theorem Chained.congr (hc : Chained b rs) (hsized : ∀ r ∈ rs, b'.Sized r 140)
    (hfield : ∀ r ∈ rs, ∀ f, f = .pos ∨ f = .prev ∨ f = .next → b'.field r f = b.field r f) : Chained b' rs where
  linked := hc.linked.congr (fun r hr => hfield r hr .next (.inr (.inr rfl))) fun r hr =>
    hfield r hr .prev (.inr (.inl rfl))
  sized := hsized
  pos r hr := by
    rw [hfield r hr .pos (.inl rfl)]
    exact hc.pos r hr
  nodup := hc.nodup

theorem LinesOnly.chained (h : LinesOnly b b') (hc : Chained b rs) : Chained b' rs :=
  hc.congr (fun r hr => h.sized (hc.sized r hr)) fun r _ f hf => h.field r f hf

/-- The numbers of the lines from one on. -/
theorem renumber_spec (hh : Holds h b)
    (hlinked : Doubly.Segment (fun p => b.field p .nextLine) (fun p => b.field p .prevLine) before l 0#32)
    (hp : p = l.headD 0#32) (hsized : ∀ x ∈ l, b.Sized x 152) (hnodup : l.Nodup) (hsteps : l.length < steps) :
    Ends (fun h' => ∃ b', Holds h' b' ∧ LinesOnly b b' ∧
        ∀ q f, b'.field q f = if q ∈ l ∧ f = .line then b.field q f + step else b.field q f)
      (renumber step steps h p) := by
  induction l generalizing h b steps before p with
  | nil =>
    obtain ⟨steps, rfl⟩ := Nat.exists_eq_add_of_lt hsteps
    rw [renumber, if_pos (by rw [hp]; rfl)]
    exact .ok ⟨b, hh, LinesOnly.refl b, fun q f => (if_neg fun hmem => by cases hmem.1).symm⟩
  | cons x l ih =>
    obtain ⟨steps, rfl⟩ := Nat.exists_eq_add_of_lt hsteps
    obtain ⟨-, hnext, hrest⟩ := hlinked
    obtain ⟨hsizedX, hsizedRest⟩ := List.forall_mem_cons.mp hsized
    obtain ⟨hx, hrestNodup⟩ := List.nodup_cons.mp hnodup
    obtain rfl : p = x := hp
    have hsteps' : l.length < (p :: l).length + steps := by
      rw [List.length_cons]
      omega
    have hh₁ := hh.setField hsizedX .line (by decide) (b.field p .line + step)
    have hfield₁ := Blocks.field_setField b p .line (b.field p .line + step)
    have hlines₁ := linesOnly_setField b p (b.field p .line + step) (f := .line) (by decide) (by decide) (by decide)
    have hnext₁ : ∀ q, (b.setField p .line (b.field p .line + step)).field q .nextLine = b.field q .nextLine :=
      fun q => (hfield₁ q .nextLine).trans (if_neg fun h => by cases h.2)
    have hprev₁ : ∀ q, (b.setField p .line (b.field p .line + step)).field q .prevLine = b.field q .prevLine :=
      fun q => (hfield₁ q .prevLine).trans (if_neg fun h => by cases h.2)
    rw [renumber, if_neg (hh.sized_ne_zero hsizedX), hh.field_eq hsizedX .line (by decide)]
    dsimp only
    refine (ih hh₁ (hrest.congr (fun q _ => hnext₁ q) fun q _ => hprev₁ q) ?_
      (fun y hy => hlines₁.sized (hsizedRest y hy)) hrestNodup hsteps').mono fun h' hrenumbered => ?_
    · rw [hh₁.field_eq (hlines₁.sized hsizedX) .nextLine (by decide), hnext₁]
      exact hnext
    · obtain ⟨b', hh', hlines, hfield⟩ := hrenumbered
      refine ⟨b', hh', hlines₁.trans hlines, fun q f => ?_⟩
      rw [hfield, hfield₁]
      by_cases hline : f = .line
      · subst hline
        by_cases hqp : q = p
        · subst hqp
          simp [hx]
        · simp [hqp]
      · simp [hline]

end Loops

/-! ### A new line -/

section NewLine

variable {h : UserHeap} {b b' : Blocks} {new tr k before : BitVec 32} {rest l : List (BitVec 32)}

/-- There are fewer addresses than a loop has steps. -/
theorem length_lt_maxSteps (hnodup : l.Nodup) (hzero : 0#32 ∉ l) : l.length < maxSteps := by
  have hmap : ((0#32 :: l).map BitVec.toNat).Nodup :=
    (List.nodup_cons.mpr ⟨hzero, hnodup⟩).map BitVec.toNat_injective
  have hrange : (0#32 :: l).map BitVec.toNat ⊆ List.range maxSteps := fun n hn => by
    obtain ⟨a, -, rfl⟩ := List.mem_map.mp hn
    exact List.mem_range.mpr a.isLt
  have hle := (hmap.subperm hrange).length_le
  rw [List.length_map, List.length_cons, List.length_range] at hle
  exact hle

/-- A store into a new allocation is seen nowhere else. -/
theorem extends_new (hnone : b.live new = none) (hlive : ∀ q ≠ new, b'.live q = b.live q)
    (hcell : ∀ q ≠ new, b'.cell q = b.cell q) : Extends [] b b' [] [new] where
  added := ⟨[new], rfl⟩
  others q _ _ size hq := by
    have hne : q ≠ new := fun heq => by
      rw [heq, hnone] at hq
      cases hq
    exact ⟨(hlive q hne).trans hq, hcell q hne⟩
  own q hq := by cases hq
  fresh q hq := by
    rw [List.mem_singleton.mp hq]
    exact .inr (.inr hnone)

/-- A line of one region, which has no neighbours. -/
theorem chained_singleton (hsized : b.Sized new 140) (hprev : b.field new .prev = 0#32)
    (hnext : b.field new .next = 0#32) (hpos : (b.field new .pos).toNat ≤ 128) : Chained b [new] where
  linked := ⟨hprev, hnext, trivial⟩
  sized := List.forall_mem_singleton.mpr hsized
  pos := List.forall_mem_singleton.mpr hpos
  nodup := List.nodup_singleton new

/-- The bytes from byte `k` of a region on go into a new line, and the regions behind are freed. -/
theorem takeTail_spec (hh : Holds h b) (htr : b.Sized tr 140) (hk : k.toNat ≤ (b.field tr .pos).toNat)
    (hpos : (b.field tr .pos).toNat ≤ 128) (hnext : b.field tr .next = rest.headD 0#32)
    (hlinked : Doubly.Segment (fun p => b.field p .next) (fun p => b.field p .prev) before rest 0#32)
    (hsized : ∀ r ∈ rest, b.Sized r 140) (hposRest : ∀ r ∈ rest, (b.field r .pos).toNat ≤ 128) (hnodup : rest.Nodup)
    (hroom : (b.field tr .pos).toNat - k.toNat < 128 ∨ ∀ r ∈ rest, b.field r .pos = 0#32) :
    Ends (fun t => ∃ b' line, Holds t.2 b' ∧ Chained b' (t.1 :: line) ∧ b'.Sized t.1 152 ∧
      Extends rest b b' [] (t.1 :: line)) (takeTail h tr k) := by
  refine (ends_calloc hh (show (152#32).toNat ≤ 0xFFFFFFF4 by decide)).bind fun new hnew => ?_
  obtain ⟨hnone, hh₁⟩ := hnew
  have hlive : ∀ q n, b.Sized q n → q ≠ new.1 := fun q n hq heq => by
    obtain ⟨size, hsome, -⟩ := hq
    rw [heq, hnone] at hsome
    cases hsome
  have hsizedNew : (b.take new.1 152#32).Sized new.1 152 := Blocks.sized_take b new.1 152#32
  have hfield₁ : ∀ q ≠ new.1, ∀ f, (b.take new.1 152#32).field q f = b.field q f :=
    fun q hq f => Blocks.word_take_of_ne b hq 152#32 f.offset
  have htrNew := hlive tr 140 htr
  refine (copyTail_spec hh₁ (hsizedNew.mono (by decide)) (htr.take htrNew _) (by rwa [hfield₁ tr htrNew])
    (show (0#32).toNat ≤ k.toNat from Nat.zero_le _) ?_).bind fun h₂ hcopied => ?_
  · rw [hfield₁ tr htrNew, maxSteps]
    omega
  obtain ⟨b₂, hh₂, hsame⟩ := hcopied
  have hfield₂ : ∀ q ≠ new.1, ∀ f, b₂.field q f = b.field q f := fun q hq f =>
    (hsame.field q f).trans (hfield₁ q hq f)
  have hzero : ∀ f, b₂.field new.1 f = 0#32 := fun f => (hsame.field new.1 f).trans (Blocks.field_take_self b new.1 _ f)
  have hsizedNew₂ := hsizedNew.congr (congrFun hsame.live new.1) (hsame.header new.1)
  have hsized₂ : ∀ q ≠ new.1, b.Sized q 140 → b₂.Sized q 140 := fun q hq hsized =>
    (hsized.take hq 152#32).congr (congrFun hsame.live q) (hsame.header q)
  have hsub : (b.field tr .pos - k).toNat = (b.field tr .pos).toNat - k.toNat := BitVec.toNat_sub_of_le hk
  have hread : h₂.field tr .pos = b.field tr .pos := by
    rw [hh₂.field_eq (hsized₂ tr htrNew htr) .pos (by decide), hfield₂ tr htrNew]
  have hh₃ := hh₂.setField hsizedNew₂ .pos (by decide) (b.field tr .pos - k)
  have hfield₃ : ∀ q ≠ new.1, ∀ f, (b₂.setField new.1 .pos (b.field tr .pos - k)).field q f = b.field q f :=
    fun q hq f => (Blocks.field_setField b₂ new.1 .pos _ q f).trans ((if_neg fun h => hq h.1).trans (hfield₂ q hq f))
  have hpos₃ : (b₂.setField new.1 .pos (b.field tr .pos - k)).field new.1 .pos = b.field tr .pos - k := by
    rw [Blocks.field_setField, if_pos ⟨rfl, rfl⟩]
  have hread₃ : (h₂.setField new.1 .pos (b.field tr .pos - k)).field tr .next = rest.headD 0#32 := by
    rw [hh₃.field_eq ((hsized₂ tr htrNew htr).setField _ _ _) .next (by decide), hfield₃ tr htrNew, hnext]
  have hne : ∀ r ∈ rest, r ≠ new.1 := fun r hr => hlive r 140 (hsized r hr)
  have hline : Chained (b₂.setField new.1 .pos (b.field tr .pos - k)) ([] ++ [new.1]) := by
    refine chained_singleton ((hsizedNew₂.setField _ _ _).mono (by decide)) ?_ ?_ (by rw [hpos₃]; omega)
    · rw [Blocks.field_setField, if_neg (by simp), hzero]
    · rw [Blocks.field_setField, if_neg (by simp), hzero]
  have hext : Extends [] b (b₂.setField new.1 .pos (b.field tr .pos - k)) [] [new.1] := by
    refine extends_new hnone (fun q hq => ?_) fun q hq => ?_
    · exact (congrFun hsame.live q).trans (Function.update_of_ne hq _ _)
    · exact (Blocks.cell_setWord_of_ne b₂ hq _ _).trans ((hsame.cell q hq).trans (Blocks.cell_take_of_ne b hq _))
  dsimp only
  rw [hread, hread₃]
  refine (moveRegions_spec hh₃ hline (hlinked.congr (fun r hr => hfield₃ r (hne r hr) .next)
    fun r hr => hfield₃ r (hne r hr) .prev) rfl (fun r hr => (hsized₂ r (hne r hr) (hsized r hr)).setField _ _ _)
    (fun r hr => ?_) ?_ ?_ (length_lt_maxSteps hnodup fun hmem => ?_)).bind fun h₄ hmoved => ?_
  · rw [hfield₃ r (hne r hr)]
    exact hposRest r hr
  · exact List.nodup_cons.mpr ⟨fun hmem => hne new.1 hmem rfl, hnodup⟩
  · rw [hpos₃, hsub]
    exact hroom.imp_right fun hempty r hr => (hfield₃ r (hne r hr) .pos).trans (hempty r hr)
  · exact hh.sized_ne_zero (hsized 0#32 hmem) rfl
  · obtain ⟨b₄, line, hh₄, hchained, hext₄⟩ := hmoved
    obtain ⟨more, rfl⟩ := hext₄.added
    refine .ok ⟨b₄, more, hh₄, hchained, ?_, hext.trans hext₄⟩
    exact hext₄.sized (hsizedNew₂.setField _ _ _) fun hmem => hne new.1 hmem rfl

/-- The end of line fits into the buffer, or its last byte goes into the length. -/
theorem endLine_spec (hh : Holds h b) (htr : b.Sized tr 140) (hk : k.toNat < 128) :
    ∃ b', Holds (endLine h tr k) b' ∧ (∀ q n, b.Sized q n → b'.Sized q n) ∧
      (∀ q f, q ≠ tr ∨ f ≠ .pos ∧ f ≠ .next → b'.field q f = b.field q f) ∧
      b'.field tr .next = 0#32 ∧ (b'.field tr .pos).toNat ≤ 128 := by
  have hone : (k + 1#32).toNat = k.toNat + 1 := by
    rw [BitVec.toNat_add, show (1#32).toNat = 1 from rfl]
    omega
  have hsized₁ : ∀ q n, b.Sized q n → ((b.setField tr .next 0#32).setField tr .pos (k + 2#32)).Sized q n :=
    fun q n hq => (hq.setField tr .next 0#32).setField tr .pos (k + 2#32)
  have hh₁ : Holds ((h.setField tr .next 0#32).setField tr .pos (k + 2#32))
      ((b.setField tr .next 0#32).setField tr .pos (k + 2#32)) :=
    (hh.setField htr .next (by decide) 0#32).setField (htr.setField tr .next 0#32) .pos (by decide) (k + 2#32)
  have hfield₁ : ∀ q f, ((b.setField tr .next 0#32).setField tr .pos (k + 2#32)).field q f =
      if q = tr ∧ f = .pos then k + 2#32 else if q = tr ∧ f = .next then 0#32 else b.field q f := fun q f => by
    rw [Blocks.field_setField, Blocks.field_setField]
  generalize (b.setField tr .next 0#32).setField tr .pos (k + 2#32) = b₁ at hsized₁ hh₁ hfield₁
  have hbytes : ∀ q f, q ≠ tr ∨ f ≠ .pos →
      ((b₁.setByte tr k 0x0D#8).setByte tr (k + 1#32) 0x0A#8).field q f = b₁.field q f := fun q f hne =>
    (Blocks.field_setByte_of_ne_pos _ tr (by omega) _ hne).trans (Blocks.field_setByte _ tr hk _ q f)
  have hh₂ := (hh₁.setByteAt (hsized₁ tr 140 htr) (show k.toNat < 140 by omega) 0x0D#8).setByteAt
    ((hsized₁ tr 140 htr).setByte tr (Nat.le_of_lt hk) _) (show (k + 1#32).toNat < 140 by omega) 0x0A#8
  refine ⟨_, hh₂, fun q n hq => ?_, fun q f hne => ?_, ?_, ?_⟩
  · exact ((hsized₁ q n hq).setByte tr (Nat.le_of_lt hk) _).setByte tr (by omega) _
  · rw [hbytes q f (hne.imp_right And.left), hfield₁, if_neg fun h => hne.elim (· h.1) fun hf => hf.1 h.2,
      if_neg fun h => hne.elim (· h.1) fun hf => hf.2 h.2]
  · rw [hbytes tr .next (.inr (by decide)), hfield₁, if_neg (by simp), if_pos ⟨rfl, rfl⟩]
  · by_cases hlast : k.toNat < 127
    · rw [Blocks.field_setByte _ tr (by omega), Blocks.field_setByte _ tr hk, hfield₁, if_pos ⟨rfl, rfl⟩,
        BitVec.toNat_add, show (2#32).toNat = 2 from rfl]
      omega
    · -- byte 127 is CR, and LF replaces the lowest byte of the length 129
      obtain rfl : k = 127#32 := BitVec.eq_of_toNat_eq (show k.toNat = 127 by omega)
      rw [show (127#32 + 1#32) = 128#32 from rfl, Blocks.pos_setByte_behind, Blocks.field_setByte _ tr hk, hfield₁,
        if_pos ⟨rfl, rfl⟩]
      decide

end NewLine

/-! ### The links of two neighbours -/

section Links

variable {h : UserHeap} {b : Blocks} {ltr new prevLtr next : BitVec 32}

/-- The line behind, if there is one, points back to another line. -/
theorem linkBack_spec (hh : Holds h b) (hsized : next ≠ 0#32 → b.Sized next 152) (p : BitVec 32) :
    ∃ b', Holds (if next ≠ 0#32 then h.setField next .prevLine p else h) b' ∧ LinesOnly b b' ∧
      ∀ q f, b'.field q f = if q = next ∧ next ≠ 0#32 ∧ f = .prevLine then p else b.field q f := by
  by_cases hzero : next = 0#32
  · rw [if_neg (not_not_intro hzero)]
    refine ⟨b, hh, LinesOnly.refl b, fun q f => (if_neg ?_).symm⟩
    exact fun h => h.2.1 hzero
  · rw [if_pos hzero]
    refine ⟨_, hh.setField (hsized hzero) .prevLine (by decide) p,
      linesOnly_setField _ next p (by decide) (by decide) (by decide), fun q f => ?_⟩
    rw [Blocks.field_setField]
    exact if_congr (and_congr_right fun _ => (and_iff_right hzero).symm) rfl rfl

/-- A line is put behind another one, which may be the last. -/
theorem linkBehind_spec (hh : Holds h b) (hltr : b.Sized ltr 152) (hnew : b.Sized new 152) (hne : ltr ≠ new)
    (hnext : b.field ltr .nextLine = next) (hsized : next ≠ 0#32 → b.Sized next 152) :
    ∃ b', Holds (linkBehind h ltr new) b' ∧ LinesOnly b b' ∧
      (∀ q, b'.field q .nextLine = if q = ltr then new else if q = new then next else b.field q .nextLine) ∧
      (∀ q, b'.field q .prevLine =
        if q = new then ltr else if q = next ∧ next ≠ 0#32 then new else b.field q .prevLine) ∧
      ∀ q, b'.field q .line = if q = new then b.field ltr .line else b.field q .line := by
  have hh₁ := hh.setField hnew .nextLine (by decide) next
  have hlines₁ := linesOnly_setField b new next (f := .nextLine) (by decide) (by decide) (by decide)
  have hread₁ : (h.setField new .nextLine next).field ltr .nextLine = next := by
    rw [hh₁.field_eq (hlines₁.sized hltr) .nextLine (by decide), Blocks.field_setField, if_neg fun h => hne h.1, hnext]
  have hread₂ : (h.setField new .nextLine next).field new .nextLine = next := by
    rw [hh₁.field_eq (hlines₁.sized hnew) .nextLine (by decide), Blocks.field_setField, if_pos ⟨rfl, rfl⟩]
  obtain ⟨b₂, hh₂, hlines₂, hfield₂⟩ := linkBack_spec hh₁ (fun hzero => hlines₁.sized (hsized hzero)) new
  have hltr₂ := hlines₂.sized (hlines₁.sized hltr)
  have hnew₂ := hlines₂.sized (hlines₁.sized hnew)
  have hh₄ := (hh₂.setField hltr₂ .nextLine (by decide) new).setField (hnew₂.setField ltr .nextLine new) .prevLine
    (by decide) ltr
  have hline : ∀ q, ((b₂.setField ltr .nextLine new).setField new .prevLine ltr).field q .line = b.field q .line := by
    intro q
    simp only [Blocks.field_setField, hfield₂]
    simp
  have hread₄ := hh₄.field_eq ((hltr₂.setField ltr .nextLine new).setField new .prevLine ltr) .line (by decide)
  rw [hline] at hread₄
  have hh₅ := hh₄.setField ((hnew₂.setField ltr .nextLine new).setField new .prevLine ltr) .line (by decide)
    (b.field ltr .line)
  rw [linkBehind, hh.field_eq hltr .nextLine (by decide), hnext, hread₁, hread₂, hread₄]
  have hlines₃ := linesOnly_setField b₂ ltr new (f := .nextLine) (by decide) (by decide) (by decide)
  have hlines₄ := linesOnly_setField (b₂.setField ltr .nextLine new) new ltr (f := .prevLine) (by decide) (by decide)
    (by decide)
  have hlines₅ := linesOnly_setField ((b₂.setField ltr .nextLine new).setField new .prevLine ltr) new
    (b.field ltr .line) (f := .line) (by decide) (by decide) (by decide)
  refine ⟨_, hh₅, (hlines₁.trans hlines₂).trans ((hlines₃.trans hlines₄).trans hlines₅), fun q => ?_, fun q => ?_,
    fun q => ?_⟩
  · simp only [Blocks.field_setField, hfield₂]
    simp
  · simp only [Blocks.field_setField, hfield₂]
    simp
  · rw [Blocks.field_setField, hline]
    simp

/-- A line is taken out, with another one in front of it. -/
theorem unlink_spec (hh : Holds h b) (hltr : b.Sized ltr 152) (hprev : b.Sized prevLtr 152) (hne : ltr ≠ prevLtr)
    (hnext : b.field ltr .nextLine = next) (hsized : next ≠ 0#32 → b.Sized next 152) :
    ∃ b', Holds (unlink h ltr prevLtr) b' ∧ LinesOnly b b' ∧
      ∀ q f, b'.field q f = if q = next ∧ next ≠ 0#32 ∧ f = .prevLine then prevLtr
        else if q = prevLtr ∧ f = .nextLine then next else b.field q f := by
  have hh₁ := hh.setField hprev .nextLine (by decide) next
  have hlines₁ := linesOnly_setField b prevLtr next (f := .nextLine) (by decide) (by decide) (by decide)
  have hread₁ : (h.setField prevLtr .nextLine next).field ltr .nextLine = next := by
    rw [hh₁.field_eq (hlines₁.sized hltr) .nextLine (by decide), Blocks.field_setField, if_neg fun h => hne h.1, hnext]
  obtain ⟨b₂, hh₂, hlines₂, hfield₂⟩ := linkBack_spec hh₁ (fun hzero => hlines₁.sized (hsized hzero)) prevLtr
  rw [unlink, hh.field_eq hltr .nextLine (by decide), hnext, hread₁]
  refine ⟨b₂, hh₂, hlines₁.trans hlines₂, fun q f => ?_⟩
  rw [hfield₂, Blocks.field_setField]

end Links

/-! ### Insertion and removal -/

/-- The lines are linked both ways and numbered. -/
structure Listed (b : Blocks) (l : List (BitVec 32)) : Prop where
  linked : Doubly.Segment (fun p => b.field p .nextLine) (fun p => b.field p .prevLine) 0#32 l 0#32
  numbered : Doubly.Numbered (fun p => b.field p .line) 0#32 l
  sized : ∀ a ∈ l, b.Sized a 152
  nodup : l.Nodup

section Listed

variable {h : UserHeap} {b b' : Blocks} {l l₁ l₂ : List (BitVec 32)} {a n : BitVec 32}

theorem Listed.congr (hl : Listed b l) (hsized : ∀ a ∈ l, b'.Sized a 152)
    (hfield : ∀ a ∈ l, ∀ f, f = .prevLine ∨ f = .nextLine ∨ f = .line → b'.field a f = b.field a f) : Listed b' l where
  linked := hl.linked.congr (fun a ha => hfield a ha .nextLine (.inr (.inl rfl))) fun a ha =>
    hfield a ha .prevLine (.inl rfl)
  numbered := hl.numbered.congr fun a ha => hfield a ha .line (.inr (.inr rfl))
  sized := hsized
  nodup := hl.nodup

theorem Listed.zero_not_mem (hh : Holds h b) (hl : Listed b l) : 0#32 ∉ l := fun hmem =>
  hh.sized_ne_zero (hl.sized 0#32 hmem) rfl

/-- The line behind the first ones, if there is one, is on the list. -/
theorem Listed.headD_mem (hl : Listed b (l₁ ++ l₂)) (hzero : l₂.headD 0#32 ≠ 0#32) : b.Sized (l₂.headD 0#32) 152 := by
  cases l₂ with
  | nil => exact absurd rfl hzero
  | cons c l₂ => exact hl.sized c (List.mem_append_right l₁ List.mem_cons_self)

/-- A line is put behind another one, and those behind it are counted up. -/
theorem insertLine_spec (hh : Holds h b) (hl : Listed b (l₁ ++ a :: l₂)) (hn : b.Sized n 152)
    (hmem : n ∉ l₁ ++ a :: l₂) : Ends (fun h' => ∃ b', Holds h' b' ∧ LinesOnly b b' ∧ Listed b' (l₁ ++ a :: n :: l₂))
      (renumber 1#32 maxSteps (linkBehind h a n) n) := by
  have ha : a ∈ l₁ ++ a :: l₂ := List.mem_append_right l₁ List.mem_cons_self
  have hzero := hl.zero_not_mem hh
  have hzero₂ : 0#32 ∉ l₂ := fun h0 => hzero (List.mem_append_right l₁ (List.mem_cons_of_mem a h0))
  have hnext : b.field a .nextLine = l₂.headD 0#32 := (Doubly.segment_append.mp hl.linked).2.2.1
  have hna : a ≠ n := fun heq => hmem (heq ▸ ha)
  have hheadD : l₂.headD 0#32 ≠ 0#32 → b.Sized (l₂.headD 0#32) 152 := by
    have hl' := hl
    rw [List.append_cons] at hl'
    exact hl'.headD_mem
  obtain ⟨b₁, hh₁, hlines₁, hnext₁, hprev₁, hline₁⟩ := linkBehind_spec hh (hl.sized a ha) hn hna hnext hheadD
  have hlinked₁ : Doubly.Segment (fun p => b₁.field p .nextLine) (fun p => b₁.field p .prevLine) 0#32
      (l₁ ++ a :: n :: l₂) 0#32 :=
    hl.linked.linkBehind hl.nodup hmem hzero₂ (fun q => by rw [hnext₁, hnext]) fun q => by rw [hprev₁, hnext]
  have hnodup : (l₁ ++ a :: n :: l₂).Nodup := by
    rw [List.append_cons, List.nodup_middle, ← List.append_cons]
    exact List.nodup_cons.mpr ⟨hmem, hl.nodup⟩
  have hsized : ∀ x ∈ l₁ ++ a :: n :: l₂, b₁.Sized x 152 := fun x hx => by
    rw [List.append_cons, List.mem_append, List.mem_cons, or_left_comm, ← List.mem_append, ← List.append_cons] at hx
    obtain rfl | hx := hx
    · exact hlines₁.sized hn
    · exact hlines₁.sized (hl.sized x hx)
  have hlinked₁' := hlinked₁
  have hnodup' := hnodup
  rw [List.append_cons] at hlinked₁' hnodup'
  obtain ⟨hfrontNodup, hbackNodup, hdisjoint⟩ := List.nodup_append.mp hnodup'
  have hback : ∀ x ∈ n :: l₂, x ∈ l₁ ++ a :: n :: l₂ := fun x hx =>
    List.mem_append_right l₁ (List.mem_cons_of_mem a hx)
  have hzeroBack : 0#32 ∉ n :: l₂ := fun h0 => hh₁.sized_ne_zero (hsized 0#32 (hback 0#32 h0)) rfl
  refine (renumber_spec hh₁ (Doubly.segment_append.mp hlinked₁').2 rfl (fun x hx => hsized x (hback x hx)) hbackNodup
    (length_lt_maxSteps hbackNodup hzeroBack)).mono fun h₂ hcounted => ?_
  obtain ⟨b₂, hh₂, hlines₂, hfield₂⟩ := hcounted
  have hlink : ∀ q f, f ≠ .line → b₂.field q f = b₁.field q f := fun q f hf =>
    (hfield₂ q f).trans (if_neg fun h => hf h.2)
  have hline : ∀ q ∈ n :: l₂, b₂.field q .line = b₁.field q .line + 1#32 := fun q hq =>
    (hfield₂ q .line).trans (if_pos ⟨hq, rfl⟩)
  have hnRest : n ∉ l₂ := (List.nodup_cons.mp hbackNodup).1
  refine ⟨b₂, hh₂, hlines₁.trans hlines₂, ⟨?_, ?_, fun x hx => hlines₂.sized (hsized x hx), hnodup⟩⟩
  · exact hlinked₁.congr (fun q _ => hlink q .nextLine (by decide)) fun q _ => hlink q .prevLine (by decide)
  · refine hl.numbered.insert (fun x hx => ?_) ?_ fun x hx => ?_
    · have hx' : x ∉ n :: l₂ := fun hmem => hdisjoint x hx x hmem rfl
      have hxn : x ≠ n := List.ne_of_not_mem_cons hx'
      rw [hfield₂, if_neg fun h => hx' h.1, hline₁, if_neg hxn]
    · rw [hline n List.mem_cons_self, hline₁, if_pos rfl]
      rfl
    · have hxn : x ≠ n := fun heq => hnRest (heq ▸ hx)
      rw [hline x (List.mem_cons_of_mem n hx), hline₁, if_neg hxn]
      rfl

/-- A line is taken out, and those behind it are counted down. -/
theorem eraseLine_spec (hh : Holds h b) (hl : Listed b (l₁ ++ a :: n :: l₂)) :
    Ends (fun h' => ∃ b', Holds h' b' ∧ LinesOnly b b' ∧ Listed b' (l₁ ++ a :: l₂))
      (renumber (-1#32) maxSteps (unlink h n a) ((unlink h n a).field a .nextLine)) := by
  have hback : ∀ x ∈ l₂, x ∈ l₁ ++ a :: n :: l₂ := fun x hx =>
    List.mem_append_right l₁ (List.mem_cons_of_mem a (List.mem_cons_of_mem n hx))
  have ha : a ∈ l₁ ++ a :: n :: l₂ := List.mem_append_right l₁ List.mem_cons_self
  have hn : n ∈ l₁ ++ a :: n :: l₂ := List.mem_append_right l₁ (List.mem_cons_of_mem a List.mem_cons_self)
  have hzero := hl.zero_not_mem hh
  have hnext : b.field n .nextLine = l₂.headD 0#32 := (Doubly.segment_append.mp hl.linked).2.2.2.2.1
  have hnodup := hl.nodup
  rw [List.append_cons] at hnodup
  obtain ⟨-, hnBack, hdisjoint⟩ := List.nodup_append.mp hnodup
  obtain ⟨-, hbackNodup⟩ := List.nodup_cons.mp hnBack
  have hna : n ≠ a := fun heq => hdisjoint a (List.mem_append_right l₁ List.mem_cons_self) n List.mem_cons_self heq.symm
  have hheadD : l₂.headD 0#32 ≠ 0#32 → b.Sized (l₂.headD 0#32) 152 := by
    have hl' := hl
    rw [List.append_cons, List.append_cons] at hl'
    exact hl'.headD_mem
  obtain ⟨b₁, hh₁, hlines₁, hfield₁⟩ := unlink_spec hh (hl.sized n hn) (hl.sized a ha) hna hnext hheadD
  have hnext₁ : ∀ q, b₁.field q .nextLine = if q = a then b.field n .nextLine else b.field q .nextLine := fun q => by
    rw [hfield₁, hnext]
    simp
  have hprev₁ : ∀ q, b₁.field q .prevLine = if q = b.field n .nextLine ∧ b.field n .nextLine ≠ 0#32 then a
      else b.field q .prevLine := fun q => by
    rw [hfield₁, hnext]
    simp
  have hline₁ : ∀ q, b₁.field q .line = b.field q .line := fun q => by
    rw [hfield₁]
    simp
  have hlinked₁ : Doubly.Segment (fun p => b₁.field p .nextLine) (fun p => b₁.field p .prevLine) 0#32
      (l₁ ++ a :: l₂) 0#32 := hl.linked.unlink hl.nodup (fun h0 => hzero (hback 0#32 h0)) hnext₁ hprev₁
  have hsub : (l₁ ++ a :: l₂).Sublist (l₁ ++ a :: n :: l₂) :=
    ((List.sublist_cons_self n l₂).cons_cons a).append_left l₁
  have hread : (unlink h n a).field a .nextLine = l₂.headD 0#32 := by
    rw [hh₁.field_eq (hlines₁.sized (hl.sized a ha)) .nextLine (by decide), hnext₁, if_pos rfl, hnext]
  rw [hread]
  have hlinked₁' := hlinked₁
  rw [List.append_cons] at hlinked₁'
  refine (renumber_spec hh₁ (Doubly.segment_append.mp hlinked₁').2 rfl
    (fun x hx => hlines₁.sized (hl.sized x (hback x hx))) hbackNodup
    (length_lt_maxSteps hbackNodup fun h0 => hzero (hback 0#32 h0))).mono fun h₂ hcounted => ?_
  obtain ⟨b₂, hh₂, hlines₂, hfield₂⟩ := hcounted
  have hlink : ∀ q f, f ≠ .line → b₂.field q f = b₁.field q f := fun q f hf =>
    (hfield₂ q f).trans (if_neg fun h => hf h.2)
  refine ⟨b₂, hh₂, hlines₁.trans hlines₂, ⟨?_, ?_, fun x hx => ?_, hl.nodup.sublist hsub⟩⟩
  · exact hlinked₁.congr (fun q _ => hlink q .nextLine (by decide)) fun q _ => hlink q .prevLine (by decide)
  · refine hl.numbered.erase (fun x hx => ?_) fun x hx => ?_
    · have hx' : x ∉ l₂ := fun hmem => hdisjoint x hx x (List.mem_cons_of_mem n hmem) rfl
      rw [hfield₂, if_neg fun h => hx' h.1, hline₁]
    · rw [hfield₂, if_pos ⟨hx, rfl⟩, hline₁]
      rfl
  · exact hlines₂.sized (hlines₁.sized (hl.sized x (hsub.subset hx)))

end Listed

end Akos.Tedit.InMemory
