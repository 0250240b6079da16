import Akos.Tedit.LineLinks

/-!
# An end of line is typed or removed

Each of the two operations on an intact text leaves an intact text, with one line more or one line less, or there is
no memory for it. Typed at a byte of a region, an end of line must find no more bytes behind the cursor than a new line
can take; removed, it must be there: the line in front ends in a region of two bytes or more.
-/

namespace Akos.Tedit.InMemory

open UserHeap (Holds)

/-- A line by the addresses of its regions. The first one is the line's. -/
structure Row where
  first : BitVec 32
  rest : List (BitVec 32)

def Row.regions (row : Row) : List (BitVec 32) := row.first :: row.rest

/-- The lines are linked both ways and numbered, and each region is an allocation of its own. -/
structure Intact (b : Blocks) (base : BitVec 32) (rows : List Row) : Prop where
  head : (rows.map Row.first).head? = some base
  listed : Listed b (rows.map Row.first)
  chained : ∀ row ∈ rows, Chained b row.regions
  nodup : (rows.flatMap Row.regions).Nodup

section Regions

variable {h : UserHeap} {b b' : Blocks} {rs rest : List (BitVec 32)} {tr r : BitVec 32}

/-- The first regions of a line, which ends there now. -/
theorem Chained.cut (hc : Chained b (rs ++ tr :: rest)) (hsized : ∀ p ∈ rs ++ [tr], b'.Sized p 140)
    (hfield : ∀ p ∈ rs ++ [tr], ∀ f, p ≠ tr ∨ f ≠ .pos ∧ f ≠ .next → b'.field p f = b.field p f)
    (hnext : b'.field tr .next = 0#32) (hpos : (b'.field tr .pos).toNat ≤ 128) : Chained b' (rs ++ [tr]) where
  linked := by
    have hlinked := hc.linked
    rw [List.append_cons, Doubly.segment_append] at hlinked
    have hne : ∀ p ∈ rs, p ≠ tr := fun p hp heq =>
      (List.nodup_append.mp hc.nodup).2.2 p hp tr List.mem_cons_self heq
    refine hlinked.1.relast (fun p hp => ?_) (fun p hp => ?_) hnext
    · exact hfield p (List.mem_append_left _ hp) .next (.inl (hne p hp))
    · exact hfield p hp .prev (.inr (by decide))
  sized := hsized
  pos p hp := by
    by_cases heq : p = tr
    · rwa [heq]
    · rw [hfield p hp .pos (.inl heq)]
      have hsub := ((List.nil_sublist rest).cons_cons tr).append_left rs
      exact hc.pos p (hsub.subset hp)
  nodup := hc.nodup.sublist (((List.nil_sublist rest).cons_cons tr).append_left rs)

theorem firstRegion_eq (hh : Holds h b) (hc : Chained b (rs ++ tr :: rest)) : firstRegion h tr = .ok (rs.headD tr) := by
  have hlinked := hc.linked
  rw [List.append_cons, Doubly.segment_append] at hlinked
  have hsized : ∀ p ∈ rs ++ [tr], b.Sized p 140 := fun p hp =>
    hc.sized p ((((List.nil_sublist rest).cons_cons tr).append_left rs).subset hp)
  have hzero : 0#32 ∉ rs := fun hmem => hh.sized_ne_zero (hsized 0#32 (List.mem_append_left _ hmem)) rfl
  have hlength := length_lt_maxSteps (List.nodup_append.mp hc.nodup).1 hzero
  have hmemory : Doubly.Segment (fun p => h.field p .next) (fun p => h.field p .prev) 0#32 (rs ++ [tr]) _ :=
    hlinked.1.congr (fun p hp => hh.field_eq (hsized p hp) .next (by decide)) fun p hp =>
      hh.field_eq (hsized p hp) .prev (by decide)
  rw [firstRegion, Doubly.follow_prev hmemory hzero hlength]
  rfl

theorem lastRegion_eq (hh : Holds h b) (hc : Chained b (r :: rs)) : lastRegion h r = .ok (rs.getLastD r) := by
  have hzero : 0#32 ∉ rs := fun hmem => hh.sized_ne_zero (hc.sized 0#32 (List.mem_cons_of_mem r hmem)) rfl
  have hlength := length_lt_maxSteps (List.nodup_cons.mp hc.nodup).2 hzero
  have hmemory : Doubly.Segment (fun p => h.field p .next) (fun p => h.field p .prev) 0#32 (r :: rs) 0#32 :=
    hc.linked.congr (fun p hp => hh.field_eq (hc.sized p hp) .next (by decide)) fun p hp =>
      hh.field_eq (hc.sized p hp) .prev (by decide)
  rw [lastRegion, Doubly.follow_next hmemory hzero hlength]
  rfl

end Regions

/-! ### A line is parted -/

/-- A line ends at one of its regions, the ones behind are freed, and there is a new line. -/
structure Parted (b b' : Blocks) (rs : List (BitVec 32)) (tr : BitVec 32) (rest : List (BitVec 32)) (new : Row) :
    Prop where
  front : Chained b' (rs ++ [tr])
  back : Chained b' new.regions
  sized : b'.Sized new.first 152
  fresh : ∀ p ∈ new.regions, p ∈ rest ∨ b.live p = none
  kept : ∀ p n, b.Sized p n → p ∉ rest → b'.Sized p n
  field : ∀ p n, b.Sized p n → p ∉ rest → ∀ f, p ≠ tr ∨ f ≠ .pos ∧ f ≠ .next → b'.field p f = b.field p f

section Part

variable {h : UserHeap} {b b' : Blocks} {rs rest : List (BitVec 32)} {tr k p : BitVec 32} {new : Row} {n : Nat}

theorem Parted.not_mem (hp : Parted b b' rs tr rest new) (hsized : b.Sized p n) (hrest : p ∉ rest) :
    p ∉ new.regions := by
  intro hmem
  obtain ⟨size, hlive, -⟩ := hsized
  have hnone := (hp.fresh p hmem).resolve_left hrest
  rw [hnone] at hlive
  cases hlive

theorem endLine_takeTail_spec (hh : Holds h b) (hc : Chained b (rs ++ tr :: rest)) (hk : k.toNat < 128)
    (hkpos : k.toNat ≤ (b.field tr .pos).toNat)
    (hroom : (b.field tr .pos).toNat - k.toNat < 128 ∨ ∀ r ∈ rest, b.field r .pos = 0#32) :
    Ends (fun t => ∃ b' line, Holds (endLine t.2 tr k) b' ∧ Parted b b' rs tr rest ⟨t.1, line⟩) (takeTail h tr k) := by
  have hmem : ∀ p ∈ rest, p ∈ rs ++ tr :: rest := fun p hp => List.mem_append_right rs (List.mem_cons_of_mem tr hp)
  have htr : tr ∈ rs ++ tr :: rest := List.mem_append_right rs List.mem_cons_self
  obtain ⟨-, -, hnext, hlinked⟩ := Doubly.segment_append.mp hc.linked
  obtain ⟨hnodup, hrestNodup, hdisjoint⟩ := List.nodup_append.mp hc.nodup
  obtain ⟨htrRest, hrestNodup⟩ := List.nodup_cons.mp hrestNodup
  refine (takeTail_spec hh (hc.sized tr htr) hkpos (hc.pos tr htr) hnext hlinked (fun r hr => hc.sized r (hmem r hr))
    (fun r hr => hc.pos r (hmem r hr)) hrestNodup hroom).mono fun t ht => ?_
  obtain ⟨b₁, line, hh₁, hchained, hsized, hext⟩ := ht
  have hfresh : ∀ p ∈ t.1 :: line, p ∈ rest ∨ b.live p = none := fun p hp =>
    (hext.fresh p hp).resolve_left List.not_mem_nil
  have htr₁ := hext.sized (hc.sized tr htr) htrRest
  obtain ⟨b₂, hh₂, hkept, hfield, hend, hpos⟩ := endLine_spec hh₁ htr₁ hk
  have hkept' : ∀ p n, b.Sized p n → p ∉ rest → b₂.Sized p n := fun p n hp hrest => hkept p n (hext.sized hp hrest)
  have hfield' : ∀ p n, b.Sized p n → p ∉ rest → ∀ f, p ≠ tr ∨ f ≠ .pos ∧ f ≠ .next → b₂.field p f = b.field p f :=
    fun p n hp hrest f hne => (hfield p f hne).trans (hext.field hp List.not_mem_nil hrest f)
  have hfront : ∀ p ∈ rs ++ [tr], b.Sized p 140 ∧ p ∉ rest := fun p hp => by
    refine ⟨hc.sized p ((((List.nil_sublist rest).cons_cons tr).append_left rs).subset hp), fun hrest => ?_⟩
    obtain hp | hp := List.mem_append.mp hp
    · exact hdisjoint p hp p (List.mem_cons_of_mem tr hrest) rfl
    · exact htrRest (List.mem_singleton.mp hp ▸ hrest)
  have hne : ∀ p ∈ t.1 :: line, p ≠ tr := fun p hp heq => by
    obtain ⟨size, hlive, -⟩ := hc.sized tr htr
    obtain hrest | hnone := hfresh p hp
    · exact htrRest (heq ▸ hrest)
    · rw [heq, hlive] at hnone
      cases hnone
  refine ⟨b₂, line, hh₂, ?_, ?_, hkept _ _ hsized, hfresh, hkept', hfield'⟩
  · exact hc.cut (fun p hp => hkept' p _ (hfront p hp).1 (hfront p hp).2)
      (fun p hp => hfield' p _ (hfront p hp).1 (hfront p hp).2) hend hpos
  · exact hchained.congr (fun p hp => hkept p _ (hchained.sized p hp)) fun p hp f _ => hfield p f (.inl (hne p hp))

end Part

/-! ### Rows of regions -/

section Rows

variable {h : UserHeap} {b b' : Blocks} {base p : BitVec 32} {rows rows₁ rows₂ mid mid' : List Row} {row other : Row}

/-- Regions of different lines are different. -/
theorem Intact.apart (hi : Intact b base (rows₁ ++ (mid ++ rows₂))) (hother : other ∈ rows₁ ++ rows₂)
    (hp : p ∈ other.regions) : p ∉ mid.flatMap Row.regions := by
  intro hmem
  have hnodup := hi.nodup
  rw [List.flatMap_append, List.flatMap_append] at hnodup
  obtain ⟨-, hrest, hdisjoint⟩ := List.nodup_append.mp hnodup
  obtain hother | hother := List.mem_append.mp hother
  · exact hdisjoint p (List.mem_flatMap_of_mem hother hp) p (List.mem_append_left _ hmem) rfl
  · exact (List.nodup_append.mp hrest).2.2 p hmem p (List.mem_flatMap_of_mem hother hp) rfl

/-- Some lines are replaced by others, whose regions are theirs or new. -/
theorem Intact.splice (hi : Intact b base (rows₁ ++ (mid ++ rows₂)))
    (hbase : ((rows₁ ++ (mid' ++ rows₂)).map Row.first).head? = some base)
    (hlisted : Listed b' ((rows₁ ++ (mid' ++ rows₂)).map Row.first)) (hmid : ∀ row ∈ mid', Chained b' row.regions)
    (hnodup : (mid'.flatMap Row.regions).Nodup)
    (hfresh : ∀ p ∈ mid'.flatMap Row.regions, p ∈ mid.flatMap Row.regions ∨ b.live p = none)
    (hkept : ∀ p, p ∉ mid.flatMap Row.regions → b.Sized p 140 → b'.Sized p 140 ∧
      ∀ f, f = .pos ∨ f = .prev ∨ f = .next → b'.field p f = b.field p f) :
    Intact b' base (rows₁ ++ (mid' ++ rows₂)) where
  head := hbase
  listed := hlisted
  chained row hrow := by
    rw [List.mem_append, List.mem_append, or_left_comm, ← List.mem_append] at hrow
    obtain hrow | hrow := hrow
    · exact hmid row hrow
    · have hold : row ∈ rows₁ ++ (mid ++ rows₂) := by
        rw [List.mem_append, List.mem_append, or_left_comm, ← List.mem_append]
        exact .inr hrow
      have hc := hi.chained row hold
      exact hc.congr (fun p hp => (hkept p (hi.apart hrow hp) (hc.sized p hp)).1) fun p hp =>
        (hkept p (hi.apart hrow hp) (hc.sized p hp)).2
  nodup := by
    have hold := hi.nodup
    rw [List.flatMap_append, List.flatMap_append] at hold ⊢
    refine Doubly.nodup_splice hold hnodup fun p hp => (hfresh p hp).imp_right fun hnone hmem => ?_
    rw [← List.flatMap_append] at hmem
    obtain ⟨row, hrow, hp'⟩ := List.mem_flatMap.mp hmem
    have hmem' : row ∈ rows₁ ++ (mid ++ rows₂) := by
      rw [List.mem_append, List.mem_append, or_left_comm, ← List.mem_append]
      exact .inr hrow
    obtain ⟨size, hlive, -⟩ := (hi.chained row hmem').sized p hp'
    rw [hnone] at hlive
    cases hlive

end Rows

/-! ### The operations -/

section Operations

variable {h : UserHeap} {b : Blocks} {base tr last cursorCol : BitVec 32} {rows₁ rows₂ : List Row}
  {prev row : Row} {rs rest front : List (BitVec 32)}

/-- The regions of a line up to one of them. -/
theorem exists_front (hrow : row.regions = rs ++ tr :: rest) :
    rs.headD tr = row.first ∧ ∃ front : Row, front.first = row.first ∧ front.regions = rs ++ [tr] := by
  cases rs with
  | nil =>
    obtain ⟨hfirst, -⟩ := List.cons.inj hrow
    exact ⟨hfirst.symm, ⟨row.first, []⟩, rfl, by rw [hfirst]; rfl⟩
  | cons r rs =>
    obtain ⟨hfirst, -⟩ := List.cons.inj hrow
    exact ⟨hfirst.symm, ⟨row.first, rs ++ [tr]⟩, rfl, by rw [hfirst]; rfl⟩

/-- An end of line is typed: the line is parted at the cursor. -/
theorem appendAtPosition_spec (hh : Holds h b) (hi : Intact b base (rows₁ ++ ([row] ++ rows₂)))
    (hrow : row.regions = rs ++ tr :: rest) (hk : (cursorCol % 128#32).toNat ≤ (b.field tr .pos).toNat)
    (hroom : (b.field tr .pos).toNat - (cursorCol % 128#32).toNat < 128 ∨ ∀ r ∈ rest, b.field r .pos = 0#32) :
    Ends (fun r => ∃ b' front new, Holds r.2 b' ∧ Intact b' base (rows₁ ++ ([front, new] ++ rows₂)))
      (appendAtPosition h tr cursorCol) := by
  have hc := hi.chained row (List.mem_append_right rows₁ List.mem_cons_self)
  rw [hrow] at hc
  have hk128 : (cursorCol % 128#32).toNat < 128 := by
    rw [BitVec.toNat_umod]
    exact Nat.mod_lt _ (by decide)
  refine (endLine_takeTail_spec hh hc hk128 hk hroom).bind fun t ht => ?_
  obtain ⟨b₂, line, hh₂, hparted⟩ := ht
  obtain ⟨hfirst, front, hfront, hfrontRegions⟩ := exists_front hrow
  have hregions : ([row].flatMap Row.regions) = rs ++ tr :: rest := (List.append_nil _).trans hrow
  have hrest : ∀ p ∈ rest, p ∈ [row].flatMap Row.regions := fun p hp => by
    rw [hregions]
    exact List.mem_append_right rs (List.mem_cons_of_mem tr hp)
  have hfrontRest : ∀ p ∈ rs ++ [tr], p ∉ rest := by
    have hnodup := hc.nodup
    rw [List.append_cons] at hnodup
    exact fun p hp hp' => (List.nodup_append.mp hnodup).2.2 p hp p hp' rfl
  have hfirsts : ∀ a ∈ (rows₁ ++ ([row] ++ rows₂)).map Row.first, a ∉ rest := fun a ha => by
    obtain ⟨other, hother, rfl⟩ := List.mem_map.mp ha
    rw [List.mem_append, List.mem_append, or_left_comm, ← List.mem_append, List.mem_singleton] at hother
    obtain rfl | hother := hother
    · exact hfrontRest _ (by rw [← hfrontRegions, ← hfront]; exact List.mem_cons_self)
    · exact fun hmem => hi.apart hother List.mem_cons_self (hrest _ hmem)
  have hlisted : Listed b₂ ((rows₁ ++ ([row] ++ rows₂)).map Row.first) := by
    refine hi.listed.congr (fun a ha => hparted.kept a _ (hi.listed.sized a ha) (hfirsts a ha)) fun a ha f hf => ?_
    refine hparted.field a _ (hi.listed.sized a ha) (hfirsts a ha) f (.inr ?_)
    obtain rfl | rfl | rfl := hf <;> decide
  have hnew : t.1 ∉ (rows₁ ++ ([row] ++ rows₂)).map Row.first := fun hmem =>
    hparted.not_mem (hi.listed.sized t.1 hmem) (hfirsts t.1 hmem) List.mem_cons_self
  rw [List.map_append, List.map_append] at hlisted hnew
  dsimp only
  rw [firstRegion_eq hh₂ hparted.front, hfirst]
  refine (insertLine_spec hh₂ hlisted hparted.sized hnew).bind fun h₄ hinserted => ?_
  obtain ⟨b₄, hh₄, hlines, hlisted₄⟩ := hinserted
  refine .ok ⟨b₄, front, ⟨t.1, line⟩, hh₄, ?_⟩
  have hregions' : [front, ⟨t.1, line⟩].flatMap Row.regions = (rs ++ [tr]) ++ (t.1 :: line) := by
    rw [← hfrontRegions, List.flatMap_cons, List.flatMap_singleton]
    rfl
  refine hi.splice ?_ ?_ (List.forall_mem_cons.mpr ⟨?_, List.forall_mem_singleton.mpr (hlines.chained hparted.back)⟩) ?_
    (fun p hp => ?_) fun p hp hsized => ?_
  · rw [← hi.head]
    cases rows₁ with
    | nil => exact congrArg some hfront
    | cons _ _ => rfl
  · rw [List.map_append, List.map_append, List.map_cons, hfront]
    exact hlisted₄
  · rw [hfrontRegions]
    exact hlines.chained hparted.front
  · rw [hregions']
    refine List.nodup_append.mpr ⟨hparted.front.nodup, hparted.back.nodup, fun p hp q hq heq => ?_⟩
    have hsized := hc.sized p ((((List.nil_sublist rest).cons_cons tr).append_left rs).subset hp)
    exact hparted.not_mem hsized (hfrontRest p hp) (heq ▸ hq)
  · rw [hregions', List.mem_append] at hp
    rw [hregions]
    obtain hp | hp := hp
    · exact .inl ((((List.nil_sublist rest).cons_cons tr).append_left rs).subset hp)
    · refine (hparted.fresh p hp).imp_left fun hmem => ?_
      rw [← hregions]
      exact hrest p hmem
  · have hp' : p ∉ rest := fun hmem => hp (hrest p hmem)
    have htr : p ≠ tr := fun heq => hp (by
      rw [hregions, heq]
      exact List.mem_append_right rs List.mem_cons_self)
    exact ⟨hlines.sized (hparted.kept p _ hsized hp'), fun f hf =>
      (hlines.field p f hf).trans (hparted.field p _ hsized hp' f (.inl htr))⟩

theorem exists_last (row : Row) : ∃ front, row.regions = front ++ [row.rest.getLastD row.first] := by
  refine ⟨row.regions.dropLast, ?_⟩
  rw [← List.getLast_eq_getLastD (List.cons_ne_nil _ _)]
  exact (List.dropLast_concat_getLast (List.cons_ne_nil _ _)).symm

/-- The bytes of a line go behind those of another one, over its last two, and its regions are freed. -/
theorem joinRegions_spec (hh : Holds h b) (hfront : Chained b (front ++ [last])) (hback : Chained b rs)
    (hnodup : ((front ++ [last]) ++ rs).Nodup) (hlast : 2 ≤ (b.field last .pos).toNat) :
    Ends (fun h' => ∃ b' line, Holds h' b' ∧ Chained b' line ∧ Extends rs b b' (front ++ [last]) line)
      (moveRegions maxSteps (h.setField last .pos (h.field last .pos - 2#32)) last (rs.headD 0#32)) := by
  have hlastMem : last ∈ front ++ [last] := List.mem_append_right front List.mem_cons_self
  have hsized := hfront.sized last hlastMem
  have hpos := hfront.pos last hlastMem
  have hsub : (b.field last .pos - 2#32).toNat = (b.field last .pos).toNat - 2 :=
    BitVec.toNat_sub_of_le (show (2#32).toNat ≤ _ from hlast)
  have hne : ∀ p ∈ rs, p ≠ last := fun p hp heq =>
    (List.nodup_append.mp hnodup).2.2 last hlastMem p hp heq.symm
  have hfield := Blocks.field_setField b last .pos (b.field last .pos - 2#32)
  have hheader := Blocks.header_setField b last .pos (b.field last .pos - 2#32)
  have hext : Extends [] b (b.setField last .pos (b.field last .pos - 2#32)) (front ++ [last]) (front ++ [last]) := by
    refine ⟨⟨[], (List.append_nil _).symm⟩, fun q hq _ size hlive => ⟨hlive, ?_⟩, fun q _ => ⟨rfl, hheader q, ?_⟩,
      fun q hq => .inl hq⟩
    · have hne' : q ≠ last := fun heq => hq (heq ▸ hlastMem)
      exact Blocks.cell_setWord_of_ne b hne' _ _
    · exact fun f hf _ => (hfield q f).trans (if_neg fun h => hf h.2)
  have hfront' : Chained (b.setField last .pos (b.field last .pos - 2#32)) (front ++ [last]) :=
    hfront.put rfl hheader hfield (by omega)
  have hback' : Chained (b.setField last .pos (b.field last .pos - 2#32)) rs :=
    hback.congr (fun p hp => (hback.sized p hp).setField last .pos _) fun p hp f _ =>
      (hfield p f).trans (if_neg fun h => hne p hp h.1)
  have hroom : ((b.setField last .pos (b.field last .pos - 2#32)).field last .pos).toNat < 128 := by
    rw [hfield, if_pos ⟨rfl, rfl⟩]
    omega
  rw [hh.field_eq hsized .pos (by decide)]
  refine (moveRegions_spec (hh.setField hsized .pos (by decide) _) hfront' hback'.linked rfl hback'.sized hback'.pos
    hnodup (.inl hroom) (length_lt_maxSteps hback.nodup fun h0 => hh.sized_ne_zero (hback.sized 0#32 h0) rfl)).mono
    fun h' hmoved => ?_
  obtain ⟨b', line, hh', hline, hext'⟩ := hmoved
  exact ⟨b', line, hh', hline, hext.trans hext'⟩

/-- An end of line is removed: the line goes into the one in front. -/
theorem removeAtPosition_spec (hh : Holds h b) (hi : Intact b base (rows₁ ++ ([prev, row] ++ rows₂)))
    (hrow : row.regions = rs ++ tr :: rest) (hlast : 2 ≤ (b.field (prev.rest.getLastD prev.first) .pos).toNat) :
    Ends (fun r => ∃ b' joined, Holds r.2 b' ∧ Intact b' base (rows₁ ++ ([joined] ++ rows₂)))
      (removeAtPosition h tr) := by
  have hprevMem : prev ∈ rows₁ ++ ([prev, row] ++ rows₂) := List.mem_append_right rows₁ List.mem_cons_self
  have hrowMem : row ∈ rows₁ ++ ([prev, row] ++ rows₂) :=
    List.mem_append_right rows₁ (List.mem_cons_of_mem prev List.mem_cons_self)
  have hprev := hi.chained prev hprevMem
  have hc := hi.chained row hrowMem
  have hlisted := hi.listed
  rw [List.map_append, List.map_append] at hlisted
  have hsizedRow := hi.listed.sized row.first (List.mem_map_of_mem hrowMem)
  have hsizedPrev := hi.listed.sized prev.first (List.mem_map_of_mem hprevMem)
  have hprevLine : h.field row.first .prevLine = prev.first := by
    rw [hh.field_eq hsizedRow .prevLine (by decide)]
    exact (Doubly.segment_append.mp hlisted.linked).2.2.2.1
  have hfirstRegion : firstRegion h tr = .ok row.first := by
    rw [hrow] at hc
    rw [firstRegion_eq hh hc, (exists_front hrow).1]
  have hregions : [prev, row].flatMap Row.regions = prev.regions ++ row.regions := by
    rw [List.flatMap_cons, List.flatMap_singleton]
  have hnodup : (prev.regions ++ row.regions).Nodup := by
    have hall := hi.nodup
    rw [List.flatMap_append, List.flatMap_append] at hall
    rw [← hregions]
    exact (List.nodup_append.mp (List.nodup_append.mp hall).2.1).1
  have hfirsts : ∀ a ∈ rows₁.map Row.first ++ prev.first :: rows₂.map Row.first, a ∉ row.regions := fun a ha hmem => by
    rw [← List.map_cons, ← List.map_append] at ha
    obtain ⟨other, hother, rfl⟩ := List.mem_map.mp ha
    rw [← List.singleton_append, List.mem_append, List.mem_append, or_left_comm, ← List.mem_append,
      List.mem_singleton] at hother
    obtain rfl | hother := hother
    · exact (List.nodup_append.mp hnodup).2.2 _ List.mem_cons_self _ hmem rfl
    · refine hi.apart hother List.mem_cons_self ?_
      rw [hregions]
      exact List.mem_append_right _ hmem
  obtain ⟨front, hfront⟩ := exists_last prev
  rw [removeAtPosition, hfirstRegion]
  show Ends _ (if _ then _ else _)
  rw [hprevLine, if_pos (hh.sized_ne_zero hsizedPrev)]
  refine (eraseLine_spec hh hlisted).bind fun h₂ herased => ?_
  obtain ⟨b₂, hh₂, hlines, hlisted₂⟩ := herased
  have hprev₂ := hlines.chained hprev
  have hpos₂ := hlines.field (prev.rest.getLastD prev.first) .pos (.inl rfl)
  rw [lastRegion_eq hh₂ hprev₂]
  rw [hfront] at hprev₂ hnodup
  refine (joinRegions_spec hh₂ hprev₂ (hlines.chained hc) hnodup (by rwa [hpos₂])).bind fun h₄ hjoined => ?_
  obtain ⟨b₄, line, hh₄, hline, hext⟩ := hjoined
  rw [← hfront] at hext
  obtain ⟨more, rfl⟩ := hext.added
  refine .ok ⟨b₄, ⟨prev.first, prev.rest ++ more⟩, hh₄, ?_⟩
  refine hi.splice ?_ ?_ (List.forall_mem_singleton.mpr hline) ?_ (fun p hp => ?_) fun p hp hsized => ?_
  · rw [← hi.head]
    cases rows₁ with
    | nil => rfl
    | cons _ _ => rfl
  · rw [List.map_append, List.map_append]
    refine hlisted₂.congr (fun a ha => hext.sized (hlisted₂.sized a ha) (hfirsts a ha)) fun a ha f hf => ?_
    by_cases hmem : a ∈ prev.regions
    · refine (hext.own a hmem).2.2 f ?_ ?_
      · obtain rfl | rfl | rfl := hf <;> decide
      · obtain rfl | rfl | rfl := hf <;> decide
    · exact hext.field (hlisted₂.sized a ha) hmem (hfirsts a ha) f
  · rw [List.flatMap_singleton]
    exact hline.nodup
  · rw [List.flatMap_singleton] at hp
    rw [hregions, List.mem_append, ← hlines.live, or_assoc]
    exact hext.fresh p hp
  · rw [hregions, List.mem_append, not_or] at hp
    exact ⟨hext.sized (hlines.sized hsized) hp.2, fun f hf =>
      (hext.field (hlines.sized hsized) hp.1 hp.2 f).trans (hlines.field p f hf)⟩

/-- The first line has no line in front, and nothing happens. -/
theorem removeAtPosition_base (hh : Holds h b) (hi : Intact b base (row :: rows₂))
    (hrow : row.regions = rs ++ tr :: rest) : removeAtPosition h tr = .ok (false, h) := by
  have hc := hi.chained row List.mem_cons_self
  have hprevLine : h.field row.first .prevLine = 0#32 := by
    rw [hh.field_eq (hi.listed.sized row.first List.mem_cons_self) .prevLine (by decide)]
    exact hi.listed.linked.1
  rw [hrow] at hc
  rw [removeAtPosition, firstRegion_eq hh hc, (exists_front hrow).1]
  show (if _ then _ else _) = _
  rw [hprevLine, if_neg (not_not_intro rfl)]
  rfl

end Operations

end Akos.Tedit.InMemory
