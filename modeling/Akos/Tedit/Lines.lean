import Akos.Tedit.Editor
import Mathlib.Data.List.ModifyLast

/-!
# What the edits do to the regions of a line

Every change of a line leaves all regions but the last full. What a region holds then follows from the
length of the line and the number of the region.
-/

namespace Akos.Tedit

/-- All regions but the last are full. -/
abbrev FilledRegions (rs : List Region) : Prop := Filled bufferSize (regionSizes rs)

variable {rs rs' init next : List Region} {r last : Region} {k : Nat} {c : UInt8}

@[simp] theorem length_regionSizes (rs : List Region) : (regionSizes rs).length = rs.length := List.length_map _

@[simp] theorem regionSizes_append (rs rs' : List Region) :
    regionSizes (rs ++ rs') = regionSizes rs ++ regionSizes rs' := List.map_append

@[simp] theorem regionSizes_cons (r : Region) (rs : List Region) : regionSizes (r :: rs) = r.pos :: regionSizes rs :=
  rfl

@[simp] theorem regionSizes_nil : regionSizes [] = [] := rfl

theorem forall_mem_regionSizes {p : Nat → Prop} : (∀ n ∈ regionSizes rs, p n) ↔ ∀ r ∈ rs, p r.pos :=
  List.forall_mem_map

/-! ### Positions in a filled line -/

theorem filledRegions_concat_iff :
    FilledRegions (init ++ [last]) ↔ (∀ r ∈ init, r.pos = bufferSize) ∧ last.pos ≤ bufferSize := by
  rw [FilledRegions, regionSizes_append, regionSizes_cons, regionSizes_nil, Filled.concat_iff, forall_mem_regionSizes]

theorem filledRegions_append_iff {before : List Region} (h : rs ≠ []) :
    FilledRegions (before ++ rs) ↔ (∀ r' ∈ before, r'.pos = bufferSize) ∧ FilledRegions rs := by
  have hne : regionSizes rs ≠ [] := fun hnil => h (List.map_eq_nil_iff.mp hnil)
  rw [FilledRegions, regionSizes_append, Filled.append_iff hne, forall_mem_regionSizes]

theorem FilledRegions.ne_nil (h : FilledRegions rs) : rs ≠ [] := by
  rintro rfl
  exact Filled.ne_nil h rfl

theorem FilledRegions.concat_cases (h : FilledRegions rs) :
    ∃ init last, rs = init ++ [last] ∧ (∀ r ∈ init, r.pos = bufferSize) ∧ last.pos ≤ bufferSize := by
  obtain ⟨init, last, rfl⟩ := List.eq_nil_or_concat' rs |>.resolve_left h.ne_nil
  exact ⟨init, last, rfl, filledRegions_concat_iff.mp h⟩

theorem sum_regionSizes_concat (hinit : ∀ r ∈ init, r.pos = bufferSize) :
    (regionSizes (init ++ [last])).sum = bufferSize * init.length + last.pos := by
  rw [regionSizes_append, List.sum_append, Filled.sum_init (forall_mem_regionSizes.mpr hinit), length_regionSizes]
  rfl

theorem FilledRegions.bounds (h : FilledRegions rs) :
    bufferSize * (rs.length - 1) ≤ (regionSizes rs).sum ∧ (regionSizes rs).sum ≤ bufferSize * rs.length ∧
      0 < rs.length := by
  have hle := h.le_sum
  have hge := h.sum_le
  rw [length_regionSizes] at hle hge
  exact ⟨hle, hge, List.length_pos_of_ne_nil h.ne_nil⟩

theorem FilledRegions.pos_eq (h : FilledRegions rs) {i : Nat} (hr : rs[i]? = some r) :
    r.pos = min bufferSize ((regionSizes rs).sum - bufferSize * i) := by
  obtain ⟨hi, rfl⟩ := List.getElem?_eq_some_iff.mp hr
  have hsize := h.getElem_eq (i := i) (by rwa [length_regionSizes])
  exact (List.getElem_map Region.pos).symm.trans hsize

theorem length_regionBytes (rs : List Region) : (regionBytes rs).length = (regionSizes rs).sum := by
  rw [regionBytes, List.length_flatten, List.map_map]
  exact congrArg List.sum (List.map_congr_left fun r _ => r.length_bytes)

/-! ### Edits inside a line -/

theorem grow_concat (init : List Region) (r : Region) : grow (init ++ [r]) = init ++ grow [r] := by
  induction init with
  | nil => rfl
  | cons r' init ih =>
    have hcons : grow (r' :: (init ++ [r])) = r' :: grow (init ++ [r]) := by
      cases init <;> rfl
    rw [List.cons_append, hcons, ih, List.cons_append]

@[simp] theorem regionSizes_modifyHead_setByte (i : Nat) (c : UInt8) (rs : List Region) :
    regionSizes (rs.modifyHead (Region.setByte i c)) = regionSizes rs := by
  cases rs <;> rfl

@[simp] theorem regionSizes_shiftUp (k : Nat) (rs : List Region) : regionSizes (shiftUp k rs) = regionSizes rs := by
  induction rs generalizing k with
  | nil => rfl
  | cons r rs ih =>
    rw [shiftUp, regionSizes_cons, regionSizes_cons]
    refine congrArg (r.pos :: ·) ?_
    split
    · rw [regionSizes_modifyHead_setByte, ih]
    · exact ih 0

@[simp] theorem regionSizes_shiftDown (k : Nat) (rs : List Region) :
    regionSizes (shiftDown k rs) = regionSizes rs := by
  induction rs generalizing k with
  | nil => rfl
  | cons r rs ih =>
    rw [shiftDown, regionSizes_cons, regionSizes_cons, ih]
    rfl

theorem length_eq_of_regionSizes (h : regionSizes rs = regionSizes rs') : rs.length = rs'.length := by
  rw [← length_regionSizes, h, length_regionSizes]

/-- A filled line in which the fill count of the last region changes. -/
theorem modifyLast_concat_cases (h : regionSizes rs = regionSizes (init ++ [last])) :
    ∃ init' last', rs = init' ++ [last'] ∧ regionSizes init' = regionSizes init ∧ last'.pos = last.pos := by
  obtain ⟨init', last', rfl⟩ := List.eq_nil_or_concat' rs |>.resolve_left (by
    rintro rfl
    simp at h)
  rw [regionSizes_append, regionSizes_append] at h
  obtain ⟨hinit, hlast⟩ := List.append_inj' h rfl
  exact ⟨init', last', rfl, hinit, List.singleton_inj.mp hlast⟩

/-- The line stays filled and is one byte longer. -/
theorem insertByte_spec (h : FilledRegions rs) (k : Nat) (c : UInt8) :
    FilledRegions (insertByte k c rs) ∧ (regionSizes (insertByte k c rs)).sum = (regionSizes rs).sum + 1 ∧
      rs.length ≤ (insertByte k c rs).length := by
  obtain ⟨init, last, rfl, hinit, hlast⟩ := h.concat_cases
  -- behind the shift there is room in the last region
  obtain ⟨front, back, hgrow, hfront, hback, hsum, hlength⟩ : ∃ front back, grow (init ++ [last]) = front ++ [back] ∧
      (∀ r ∈ front, r.pos = bufferSize) ∧ back.pos < bufferSize ∧
      bufferSize * front.length + back.pos = bufferSize * init.length + last.pos ∧ init.length ≤ front.length := by
    rw [grow_concat, grow]
    split
    · next hfull =>
      refine ⟨init ++ [last], Region.empty, by simp, List.forall_mem_append.mpr ⟨hinit, by simpa using hfull⟩,
        by decide, ?_, by simp⟩
      rw [List.length_append, List.length_singleton, Nat.mul_add_one, hfull]
      rfl
    · next hfull => exact ⟨init, last, rfl, hinit, Nat.lt_of_le_of_ne hlast hfull, rfl, Nat.le_refl _⟩
  obtain ⟨init', last', heq, hinit', hlast'⟩ : ∃ init' last',
      (shiftUp k (grow (init ++ [last]))).modifyHead (Region.setByte k c) = init' ++ [last'] ∧
      regionSizes init' = regionSizes front ∧ last'.pos = back.pos :=
    modifyLast_concat_cases (by rw [regionSizes_modifyHead_setByte, regionSizes_shiftUp, hgrow])
  have hfull : ∀ r ∈ init', r.pos = bufferSize := by
    rw [← forall_mem_regionSizes (p := (· = bufferSize)), hinit']
    exact forall_mem_regionSizes.mpr hfront
  rw [insertByte, heq, List.modifyLast_concat, sum_regionSizes_concat hfull, sum_regionSizes_concat hinit,
    filledRegions_concat_iff, List.length_append, List.length_append, length_eq_of_regionSizes hinit']
  refine ⟨⟨hfull, ?_⟩, ?_, ?_⟩
  · exact hlast' ▸ hback
  · rw [← hsum, ← hlast']
    rfl
  · exact Nat.add_le_add_right hlength 1

/-- The line stays filled; it loses a byte, or an empty region at its end. -/
theorem dropByte_spec (h : FilledRegions rs) (hpos : 0 < (regionSizes rs).sum) : ∃ rs', dropByte rs = (true, rs') ∧
    FilledRegions rs' ∧
    (((regionSizes rs').sum + 1 = (regionSizes rs).sum ∧ rs'.length = rs.length) ∨
      ((regionSizes rs').sum = (regionSizes rs).sum ∧ rs'.length + 1 = rs.length)) := by
  obtain ⟨init, last, rfl, hinit, hlast⟩ := h.concat_cases
  have hsum : (regionSizes (init ++ [last])).sum = _ := sum_regionSizes_concat hinit
  rw [dropByte, List.getLast?_append_cons, List.getLast?_singleton]
  dsimp only
  by_cases hempty : last.pos = 0
  · have hne : init ≠ [] := by
      rintro rfl
      rw [hsum, hempty] at hpos
      exact Nat.lt_irrefl 0 hpos
    rw [if_pos hempty, if_pos (by simpa using List.length_pos_of_ne_nil hne), List.dropLast_concat]
    refine ⟨init, rfl, ?_, .inr ⟨?_, by simp⟩⟩
    · obtain ⟨init', last', rfl⟩ := List.eq_nil_or_concat' init |>.resolve_left hne
      exact filledRegions_concat_iff.mpr ⟨fun r hr => hinit r (List.mem_append_left _ hr),
        Nat.le_of_eq (hinit last' (List.mem_append_right _ (List.mem_singleton_self _)))⟩
    · rw [hsum, hempty, Filled.sum_init (forall_mem_regionSizes.mpr hinit), length_regionSizes]
      rfl
  · rw [if_neg hempty, List.modifyLast_concat]
    refine ⟨_, rfl, filledRegions_concat_iff.mpr ⟨hinit, Nat.le_trans (Nat.sub_le _ _) hlast⟩, .inl ⟨?_, by simp⟩⟩
    rw [hsum, sum_regionSizes_concat hinit]
    dsimp only
    omega

/-! ### Lines divided and joined -/

theorem HasRoom.length_eq (h : HasRoom rs) : rs.length = (regionSizes rs).sum / bufferSize + 1 := by
  obtain ⟨init, r, rfl, hinit, hr⟩ := h
  rw [sum_regionSizes_concat hinit, List.length_append, List.length_singleton, Nat.mul_add_div (by decide),
    Nat.div_eq_of_lt hr, Nat.add_zero]

theorem HasRoom.last_pos (h : HasRoom rs) (hlast : rs.getLast? = some last) :
    last.pos = (regionSizes rs).sum % bufferSize := by
  obtain ⟨init, r, rfl, hinit, hr⟩ := h
  rw [List.getLast?_append_cons, List.getLast?_singleton, Option.some.injEq] at hlast
  rw [sum_regionSizes_concat hinit, Nat.mul_add_mod, Nat.mod_eq_of_lt (hlast ▸ hr), hlast]

/-- The bytes of a line go in behind those of another. -/
theorem pushBytes_spec (h : HasRoom rs) (bs : List UInt8) : ∃ rs', pushBytes bs rs = some rs' ∧ HasRoom rs' ∧
    (regionSizes rs').sum = (regionSizes rs).sum + bs.length := by
  obtain ⟨rs', hpush, hroom, hbytes⟩ : ∃ rs', pushBytes bs rs = some rs' ∧ HasRoom rs' ∧ _ := pushBytes_of_hasRoom h
  refine ⟨rs', hpush, hroom, ?_⟩
  rw [← length_regionBytes, hbytes, List.length_append, length_regionBytes]

theorem dropLineEnd_spec (h : FilledRegions rs) (hlast : ∀ last ∈ rs.getLast?, 2 ≤ last.pos) :
    ∃ rs', dropLineEnd rs = some rs' ∧ HasRoom rs' ∧ (regionSizes rs').sum + 2 = (regionSizes rs).sum := by
  obtain ⟨init, last, rfl, hinit, hle⟩ := h.concat_cases
  have hget : (init ++ [last]).getLast? = some last := by simp
  have htwo : 2 ≤ last.pos := hlast last hget
  rw [dropLineEnd, hget]
  dsimp only
  rw [if_pos htwo, List.modifyLast_concat]
  refine ⟨_, rfl, ⟨init, _, rfl, hinit, ?_⟩, ?_⟩
  · dsimp only
    omega
  · rw [sum_regionSizes_concat hinit, sum_regionSizes_concat hinit]
    dsimp only
    omega

/-- The joined line, unless memory is allocated behind the first region of the line that goes. -/
theorem joinRegions_spec {prev : List Region} (hroom : HasRoom prev)
    (hkept : ((regionSizes prev).sum + r.pos) / bufferSize
      = ((regionSizes prev).sum + (regionSizes (r :: next)).sum) / bufferSize) :
    ∃ joined, joinRegions prev (r :: next) = some joined ∧ HasRoom joined ∧
      (regionSizes joined).sum = (regionSizes prev).sum + (regionSizes (r :: next)).sum := by
  obtain ⟨copied, hcopied, hroom₁, hsum₁⟩ := pushBytes_spec hroom r.bytes
  obtain ⟨joined, hjoined, hroom₂, hsum₂⟩ := pushBytes_spec hroom₁ (regionBytes next)
  rw [r.length_bytes] at hsum₁
  rw [length_regionBytes, hsum₁, Nat.add_assoc] at hsum₂
  have hlength : joined.length = copied.length := by
    rw [hroom₁.length_eq, hroom₂.length_eq, hsum₁, hsum₂, hkept, regionSizes_cons, List.sum_cons]
  refine ⟨joined, ?_, hroom₂, hsum₂⟩
  rw [joinRegions, hcopied]
  show (pushBytes (regionBytes next) copied >>= fun joined =>
    if joined.length = copied.length then some joined else none) = _
  rw [hjoined]
  exact if_pos hlength

/-- What stands behind a new end of line is a filled line, unless bytes follow a full region. -/
theorem splitOff_spec (hk : k ≤ r.pos) (hr : r.pos ≤ bufferSize)
    (hfits : r.pos - k < bufferSize ∨ (regionSizes next).sum = 0) :
    ∃ rs, splitOff k r next = some rs ∧ FilledRegions rs := by
  have hpos : sub32 r.pos k = r.pos - k := if_pos hk
  cases hfits with
  | inl hlt =>
    have hmoved : HasRoom [⟨fun j => if k + j < r.pos then r.buffer (k + j) else 0, sub32 r.pos k⟩] :=
      ⟨[], _, rfl, (fun _ h => by cases h), by rwa [hpos]⟩
    obtain ⟨rs, hpush, hroom, -⟩ := pushBytes_spec hmoved (regionBytes next)
    exact ⟨rs, hpush, hroom.filled⟩
  | inr hnone =>
    have hbytes : regionBytes next = [] := List.length_eq_zero_iff.mp (by rw [length_regionBytes, hnone])
    rw [splitOff, hbytes]
    refine ⟨_, rfl, Filled.singleton_iff.mpr ?_⟩
    rw [hpos]
    exact Nat.le_trans (Nat.sub_le _ _) hr

end Akos.Tedit
