import Akos.Tedit.Deletion
import Mathlib.Order.Lattice.Nat

/-!
# What is removed

A line behind another, whose end of line goes; and of both cases of `remove_at_position`, when they leave the text
without what is in front of the cursor.
-/

namespace Akos.Tedit

/-! ### The lines joined -/

section Joined

variable {a : Allocator} {s : Memory} {line prev : NodeLine} {ltr : Nat} {rs rs' init : List Region} {r : Region}
  {bs p t : List UInt8}

theorem withoutEnd_crlf (p : List UInt8) : withoutEnd (p ++ [carriageReturn, newline]) = p := by
  have hsplit : p ++ [carriageReturn, newline] = p ++ [carriageReturn] ++ [newline] := by
    rw [List.append_assoc, List.singleton_append]
  rw [withoutEnd, hsplit, List.getLast?_concat, if_pos rfl, List.dropLast_concat, List.getLast?_concat, if_pos rfl,
    List.dropLast_concat]

theorem withoutEnd_lf (h : t.getLast? ≠ some carriageReturn) : withoutEnd (t ++ [newline]) = t := by
  rw [withoutEnd, List.getLast?_concat, if_pos rfl, List.dropLast_concat, if_neg h]

/-- Two bytes less are the end of line where that is CR LF. -/
theorem take_eq_withoutEnd_iff (hlength : 2 ≤ (t ++ [newline]).length) :
    (t ++ [newline]).take ((t ++ [newline]).length - 2) = withoutEnd (t ++ [newline]) ↔
      ∃ p, t ++ [newline] = p ++ [carriageReturn, newline] := by
  by_cases hlast : t.getLast? = some carriageReturn
  · obtain ⟨p, rfl⟩ := List.getLast?_eq_some_iff.mp hlast
    have hsplit : p ++ [carriageReturn] ++ [newline] = p ++ [carriageReturn, newline] := by
      rw [List.append_assoc, List.singleton_append]
    refine iff_of_true ?_ ⟨p, hsplit⟩
    rw [hsplit, withoutEnd_crlf, List.length_append, List.take_left']
    rfl
  · refine iff_of_false (fun h => ?_) ?_
    · rw [withoutEnd_lf hlast] at h
      have hcount := congrArg List.length h
      rw [List.length_take, List.length_append, List.length_singleton] at hcount
      rw [List.length_append, List.length_singleton] at hlength
      omega
    · rintro ⟨p, h⟩
      have hsplit : t ++ [newline] = p ++ [carriageReturn] ++ [newline] := by
        rw [h, List.append_assoc, List.singleton_append]
      rw [List.append_cancel_right hsplit, List.getLast?_concat] at hlast
      exact hlast rfl

/-- Two bytes less in the last region, which holds them. -/
theorem regionBytes_cut (h : HasRoom rs) (hlast : 2 ≤ (regionBytes rs).length % bufferSize) :
    HasRoom (rs.modifyLast fun r => { r with pos := sub32 r.pos 2 }) ∧
      regionBytes (rs.modifyLast fun r => { r with pos := sub32 r.pos 2 })
        = (regionBytes rs).take ((regionBytes rs).length - 2) := by
  obtain ⟨init, r, rfl, hinit, hr⟩ := h
  have hlength : (regionBytes (init ++ [r])).length = (regionBytes init).length + r.pos := by
    rw [regionBytes_append, List.length_append, regionBytes_cons, regionBytes_nil, List.append_nil, r.length_bytes]
  have hpos : 2 ≤ r.pos := by
    rwa [length_regionBytes, sum_regionSizes_concat hinit, Nat.mul_add_mod, Nat.mod_eq_of_lt hr] at hlast
  rw [List.modifyLast_concat, sub32, if_pos hpos]
  refine ⟨⟨init, _, rfl, hinit, Nat.lt_of_le_of_lt (Nat.sub_le _ _) hr⟩, ?_⟩
  have hcut : Region.bytes { r with pos := r.pos - 2 } = r.bytes.take (r.pos - 2) := by
    rw [Region.bytes, Region.bytes, ← List.map_take, List.take_range, Nat.min_eq_left (Nat.sub_le _ _)]
  rw [hlength, Nat.add_sub_assoc hpos, regionBytes_append, regionBytes_append, regionBytes_cons, regionBytes_cons,
    regionBytes_nil, List.append_nil, List.append_nil, hcut, List.take_length_add_append]

/-- Behind a fill count below zero there is no place for a byte. -/
theorem not_hasRoom_of_short (h : HasRoom rs) (hlast : (regionBytes rs).length % bufferSize < 2)
    (hpush : pushBytes bs (rs.modifyLast fun r => { r with pos := sub32 r.pos 2 }) = some rs') : ¬ HasRoom rs' := by
  obtain ⟨init, r, rfl, hinit, hr⟩ := h
  have hpos : r.pos < 2 := by
    rwa [length_regionBytes, sum_regionSizes_concat hinit, Nat.mul_add_mod, Nat.mod_eq_of_lt hr] at hlast
  rw [List.modifyLast_concat, sub32, if_neg (Nat.not_le_of_lt hpos)] at hpush
  cases bs with
  | nil =>
    obtain rfl := Option.some.inj hpush
    intro hroom
    have hsize := hroom.last_pos List.getLast?_concat
    have hmod : (regionSizes (init ++ [{ r with pos := r.pos + 2 ^ 32 - 2 }])).sum % bufferSize < bufferSize :=
      Nat.mod_lt _ (by decide)
    rw [← hsize, bufferSize] at hmod
    dsimp only at hmod
    omega
  | cons c bs =>
    have hbehind : ¬ r.pos + 2 ^ 32 - 2 < 128 := by omega
    rw [pushBytes, List.foldlM_cons, pushByte_concat, pushByte, if_neg hbehind] at hpush
    cases hpush

theorem removeAtPosition_join (a : Allocator) (hline : s.text[ltr]? = some line) (hprev : s.text[ltr - 1]? = some prev)
    (hltr : ltr ≠ 0) (hne : line.nodes ≠ []) : removeAtPosition a s ltr 0 0
      = (joinNodes a s.live (cutLast 2 prev.nodes) line.nodes).map fun joined =>
        (true, ⟨s.text.take (ltr - 1) ++ { prev with nodes := joined.1 } ::
          (s.text.drop (ltr + 1)).map fun l => { l with line := sub32 l.line 1 }, joined.2⟩) := by
  rw [removeAtPosition, hline]
  show (if line.nodes.length ≤ 0 then none else _) = _
  rw [if_neg (Nat.not_le_of_lt (List.length_pos_of_ne_nil hne)), if_pos rfl, if_neg hltr, hprev, Option.map_eq_bind]
  rfl

theorem regions_of_join {joined : List Node × Finset Nat} {live : Finset Nat}
    (hjoin : joinNodes a live (cutLast 2 prev.nodes) line.nodes = some joined) :
    pushBytes (regionBytes line.regions) (prev.regions.modifyLast fun r => { r with pos := sub32 r.pos 2 })
      = some (joined.1.map Node.region) := by
  have hregions := @joinNodes_regions a live line.nodes (cutLast 2 prev.nodes)
  rw [hjoin, regions_cutLast] at hregions
  exact hregions.symm

/-- The lines in front of the two, the two, and those behind. -/
theorem text_eq (hline : s.text[ltr]? = some line) (hprev : s.text[ltr - 1]? = some prev) (hltr : ltr ≠ 0) :
    s.text = s.text.take (ltr - 1) ++ prev :: line :: s.text.drop (ltr + 1) := by
  obtain ⟨i, rfl⟩ := Nat.exists_eq_succ_of_ne_zero hltr
  rw [Nat.succ_sub_one] at hprev ⊢
  obtain ⟨hi, rfl⟩ := List.getElem?_eq_some_iff.mp hline
  obtain ⟨hi', rfl⟩ := List.getElem?_eq_some_iff.mp hprev
  rw [← List.drop_eq_getElem_cons hi, ← List.drop_eq_getElem_cons hi', List.take_append_drop]

end Joined

/-! ### Removal -/

section Removal

variable {a : Allocator} {s : Memory} {line : NodeLine} {ltr cursorCol : Nat}

theorem set_eq_set_iff {α : Type*} {l : List α} {i : Nat} {x y : α} (hi : i < l.length) :
    l.set i x = l.set i y ↔ x = y := by
  refine ⟨fun h => ?_, congrArg (l.set i)⟩
  have hget := congrArg (·[i]?) h
  simpa [hi] using hget

theorem texts_set (nodes : List Node) (live : Finset Nat) :
    Memory.texts ⟨s.text.set ltr { line with nodes }, live⟩
      = s.texts.set ltr (regionBytes (nodes.map Node.region)) := by
  rw [Memory.texts, Memory.texts, List.map_set]
  rfl

theorem getD_texts (hline : s.text[ltr]? = some line) : s.texts.getD ltr [] = regionBytes line.regions := by
  rw [List.getD_eq_getElem?_getD, Memory.texts, List.getElem?_map, hline]
  rfl

theorem Memory.Allocated.set (h : s.Allocated) (hline : s.text[ltr]? = some line) {nodes : List Node}
    (haddresses : nodes.map Node.address = line.addresses) :
    Memory.Allocated ⟨s.text.set ltr { line with nodes }, s.live⟩ := by
  obtain ⟨hltr, rfl⟩ := List.getElem?_eq_some_iff.mp hline
  have hmap : (s.text.set ltr { s.text[ltr] with nodes }).map NodeLine.addresses = s.text.map NodeLine.addresses := by
    rw [List.map_set, show NodeLine.addresses { s.text[ltr] with nodes } = _ from haddresses,
      ← List.getElem_map NodeLine.addresses (h := by rwa [List.length_map]), List.set_getElem_self]
  rw [Memory.Allocated, List.flatMap_def, hmap, ← List.flatMap_def]
  exact h

/-- The line without the byte in front of the cursor, where another one may have been erased in its place. -/
theorem eraseIdx_erasedIndex_iff {t : List UInt8} (hcol : cursorCol ≤ t.length) (hpos : 0 < cursorCol) :
    t.eraseIdx (erasedIndex t.length cursorCol) = t.take (cursorCol - 1) ++ t.drop cursorCol ↔
      (cursorCol % bufferSize = 0 → ∀ c ∈ (t.drop cursorCol).take bufferSize, t[cursorCol - 1]? = some c) := by
  have herase : t.eraseIdx (cursorCol - 1) = t.take (cursorCol - 1) ++ t.drop cursorCol := by
    rw [List.eraseIdx_eq_take_drop_succ, Nat.sub_add_cancel hpos]
  rw [← herase, erasedIndex]
  by_cases hzero : cursorCol % bufferSize = 0
  · rw [if_pos hzero, eq_comm, eraseIdx_eq_iff (by omega) (by omega), Nat.sub_add_cancel hpos]
    have hwindow : (t.drop cursorCol).take (min (cursorCol + 127) (t.length - 1) - (cursorCol - 1))
        = (t.drop cursorCol).take bufferSize := by
      rw [List.take_eq_take_iff, List.length_drop, bufferSize]
      omega
    rw [hwindow]
    exact ⟨fun h _ => h, fun h => h hzero⟩
  · rw [if_neg hzero]
    exact iff_of_true rfl fun h => absurd h hzero

theorem removes_inside_iff (a : Allocator) (hroom : ∀ l ∈ s.text, HasRoom l.regions) (hallocated : s.Allocated)
    (hline : s.text[ltr]? = some line) (hcol : cursorCol ≤ (regionBytes line.regions).length) (hpos : 0 < cursorCol) :
    Removes a s ltr cursorCol ↔ (regionBytes line.regions).length % bufferSize ≠ 0 ∧
      (cursorCol % bufferSize = 0 → ∀ c ∈ ((regionBytes line.regions).drop cursorCol).take bufferSize,
        (regionBytes line.regions)[cursorCol - 1]? = some c) := by
  have hltr : ltr < s.texts.length := by
    rw [Memory.texts, List.length_map]
    exact (List.getElem?_eq_some_iff.mp hline).1
  have hline' := hroom line (List.mem_of_getElem? hline)
  rw [← eraseIdx_erasedIndex_iff hcol hpos]
  by_cases hlast : (regionBytes line.regions).length % bufferSize = 0
  · refine iff_of_false ?_ fun h => h.1 hlast
    rintro ⟨action, t, hrun, htexts, -⟩
    obtain ⟨action', nodes, live, hrun', hlength⟩ := removeAtPosition_empty a hline hline' hcol hpos hlast
    obtain ⟨-, rfl⟩ := Prod.mk.inj (Option.some.inj (hrun.symm.trans hrun'))
    rw [texts_set, removed, if_neg (Nat.ne_of_gt hpos), getD_texts hline, set_eq_set_iff hltr] at htexts
    rw [htexts, List.length_append, List.length_take, List.length_drop] at hlength
    omega
  · rw [and_iff_right hlast]
    obtain ⟨nodes, hrun, haddresses, hnodes, hbytes⟩ := removeAtPosition_inside a hline hline' hcol hpos hlast
    rw [← hbytes, ← set_eq_set_iff hltr, ← texts_set nodes s.live]
    constructor
    · rintro ⟨action, t, hrun', htexts, -⟩
      obtain ⟨-, rfl⟩ := Prod.mk.inj (Option.some.inj (hrun.symm.trans hrun'))
      rwa [removed, if_neg (Nat.ne_of_gt hpos), getD_texts hline] at htexts
    · intro htexts
      refine ⟨true, _, hrun, ?_, fun l hl => ?_, hallocated.set hline haddresses,
        fun hzero => absurd hzero (Nat.ne_of_gt hpos)⟩
      · rw [removed, if_neg (Nat.ne_of_gt hpos), getD_texts hline]
        exact htexts
      · obtain hmem | rfl := List.mem_or_eq_of_mem_set hl
        · exact hroom l hmem
        · exact hnodes

theorem Loaded.ended_of_getElem? {prev : NodeLine} (h : Loaded (s.text.map NodeLine.toLine))
    (hline : s.text[ltr]? = some line) (hprev : s.text[ltr - 1]? = some prev) (hltr : ltr ≠ 0) :
    ∃ t, regionBytes prev.regions = t ++ [newline] ∧ newline ∉ t := by
  refine h.ended prev.toLine (List.mem_of_getElem? (i := ltr - 1) ?_)
  have hlt := (List.getElem?_eq_some_iff.mp hline).1
  rw [List.getElem?_dropLast, List.length_map, if_pos (by omega), List.getElem?_map, hprev, Option.map_some]

theorem Memory.Allocated.join {prev : NodeLine} {joined : List Node × Finset Nat} (h : s.Allocated)
    (hline : s.text[ltr]? = some line) (hprev : s.text[ltr - 1]? = some prev) (hltr : ltr ≠ 0)
    (hjoin : joinNodes a s.live (cutLast 2 prev.nodes) line.nodes = some joined) :
    Memory.Allocated ⟨s.text.take (ltr - 1) ++ { prev with nodes := joined.1 } ::
      (s.text.drop (ltr + 1)).map fun l => { l with line := sub32 l.line 1 }, joined.2⟩ := by
  rw [Memory.Allocated, text_eq hline hprev hltr, List.flatMap_append, List.flatMap_cons, List.flatMap_cons] at h
  rw [Memory.Allocated, List.flatMap_append, List.flatMap_cons, List.flatMap_map]
  have hpair : Owns s.live ((cutLast 2 prev.nodes).map Node.address ++ (line.nodes.map Node.address ++
      ((s.text.take (ltr - 1)).flatMap NodeLine.addresses ++ (s.text.drop (ltr + 1)).flatMap NodeLine.addresses))) := by
    rw [addresses_cutLast]
    refine h.perm (List.perm_append_comm_assoc _ _ _ |>.trans (List.Perm.append_left _ ?_))
    exact List.perm_append_comm_assoc _ _ _
  exact (joinNodes_owns hpair hjoin).perm (List.perm_append_comm_assoc _ _ _)

theorem removes_join_iff (a : Allocator) {prev : NodeLine} (hloaded : Loaded (s.text.map NodeLine.toLine))
    (hallocated : s.Allocated) (hline : s.text[ltr]? = some line) (hprev : s.text[ltr - 1]? = some prev)
    (hltr : ltr ≠ 0) : Removes a s ltr 0 ↔
      ∃ p, regionBytes prev.regions = p ++ [carriageReturn, newline] ∧ 2 ≤ (p.length + 2) % bufferSize := by
  have hroom : ∀ l ∈ s.text, HasRoom l.regions := fun l hl => hloaded.room _ (List.mem_map_of_mem hl)
  have hroomPrev := hroom prev (List.mem_of_getElem? hprev)
  have htext := text_eq hline hprev hltr
  have hne : line.nodes ≠ [] := fun hnil => by
    refine (hroom line (List.mem_of_getElem? hline)).filled.ne_nil ?_
    rw [NodeLine.regions, hnil]
    rfl
  have hrun := removeAtPosition_join a hline hprev hltr hne
  have hremoved : removed s.texts ltr 0 = s.texts.take (ltr - 1) ++
      (withoutEnd (regionBytes prev.regions) ++ regionBytes line.regions) :: s.texts.drop (ltr + 1) := by
    rw [removed, if_pos rfl, if_neg hltr, getD_texts hline, getD_texts hprev]
  -- what a joined line leaves
  have htexts : ∀ joined : List Node × Finset Nat, Memory.texts ⟨s.text.take (ltr - 1) ++
        { prev with nodes := joined.1 } :: (s.text.drop (ltr + 1)).map fun l => { l with line := sub32 l.line 1 },
        joined.2⟩
      = s.texts.take (ltr - 1) ++ regionBytes (joined.1.map Node.region) :: s.texts.drop (ltr + 1) := fun joined => by
    rw [Memory.texts, Memory.texts, List.map_append, List.map_cons, List.map_take, List.map_map, List.map_drop]
    rfl
  have hltr' : ltr - 1 < s.texts.length := by
    rw [Memory.texts, List.length_map]
    exact (List.getElem?_eq_some_iff.mp hprev).1
  by_cases hlast : 2 ≤ (regionBytes prev.regions).length % bufferSize
  · obtain ⟨hcutRoom, hcutBytes⟩ := regionBytes_cut hroomPrev hlast
    obtain ⟨rs, hpush, hrs, hbytes⟩ := @pushBytes_of_hasRoom _ (regionBytes line.regions) hcutRoom
    obtain ⟨joined, hjoin, hjoined⟩ : ∃ joined, joinNodes a s.live (cutLast 2 prev.nodes) line.nodes = some joined ∧
        joined.1.map Node.region = rs := by
      refine Option.map_eq_some_iff.mp ?_
      rw [joinNodes_regions, regions_cutLast]
      exact hpush
    obtain ⟨q, hq, -⟩ := hloaded.ended_of_getElem? hline hprev hltr
    have hlength : 2 ≤ (q ++ [newline]).length := by
      rw [← hq]
      exact Nat.le_trans hlast (Nat.mod_le _ _)
    have hiff : Removes a s ltr 0 ↔
        regionBytes rs = withoutEnd (regionBytes prev.regions) ++ regionBytes line.regions := by
      constructor
      · rintro ⟨action, t, hrun', htexts', -⟩
        rw [Nat.zero_div, hrun, hjoin] at hrun'
        obtain ⟨-, rfl⟩ := Prod.mk.inj (Option.some.inj hrun')
        rw [htexts, hremoved, hjoined] at htexts'
        exact (List.cons.inj (List.append_cancel_left htexts')).1
      · intro heq
        refine ⟨true, _, ?_, (htexts joined).trans ?_, ?_, ?_, fun _ hzero => absurd hzero hltr⟩
        · rw [Nat.zero_div, hrun, hjoin]
          rfl
        · rw [hremoved, hjoined, heq]
        · refine List.forall_mem_append.mpr ⟨fun l hl => hroom l (List.mem_of_mem_take hl),
            List.forall_mem_cons.mpr ⟨?_, List.forall_mem_map.mpr fun l hl => hroom l (List.mem_of_mem_drop hl)⟩⟩
          show HasRoom (joined.1.map Node.region)
          rwa [hjoined]
        · exact hallocated.join hline hprev hltr hjoin
    rw [hiff, hbytes, hcutBytes, List.append_left_inj, hq, take_eq_withoutEnd_iff hlength]
    refine exists_congr fun p => (and_iff_left_of_imp fun hp => ?_).symm
    rw [hq, hp, List.length_append] at hlast
    exact hlast
  · refine iff_of_false ?_ ?_
    · rintro ⟨action, t, hrun', -, hrooms, -⟩
      rw [Nat.zero_div, hrun] at hrun'
      obtain ⟨joined, hjoin, heq⟩ := Option.map_eq_some_iff.mp hrun'
      obtain ⟨-, rfl⟩ := Prod.mk.inj heq
      refine not_hasRoom_of_short hroomPrev (Nat.lt_of_not_le hlast) (regions_of_join hjoin) ?_
      exact hrooms { prev with nodes := joined.1 } (List.mem_append_right _ List.mem_cons_self)
    · rintro ⟨p, hp, hlength⟩
      rw [hp, List.length_append] at hlast
      exact hlast hlength

end Removal

/-! ### A text of two lines -/

/-- The address behind all those in use. -/
def behindAll : Allocator where
  alloc live := live.sup id + 1
  fresh _ hmem := Nat.not_succ_le_self _ (Finset.le_sup (f := id) hmem)

/-- The text `a` LF `b`. -/
def twoLines : Memory :=
  ⟨[⟨[⟨0, (Region.empty.put 97).put 10⟩], 0⟩, ⟨[⟨1, Region.empty.put 98⟩], 1⟩], {0, 1}⟩

theorem loadFile_twoLines : loadFile [97, 10, 98] = some (twoLines.text.map NodeLine.toLine) := rfl

theorem allocated_twoLines : twoLines.Allocated :=
  ⟨show [0, 1].Nodup by decide, show ∀ x ∈ [0, 1], x ∈ ({0, 1} : Finset Nat) by decide⟩

end Akos.Tedit
