import Akos.Tedit.Lines

/-!
# The cursor after a move

The cursor is right when its line is the one its number says, its region the one its column says, and its
column at most the length of the line. Each key gets the condition under which it leaves the cursor right.
-/

namespace Akos.Tedit

namespace Editor

/-- The line and the region at the cursor's numbers. -/
def At (s : Editor) (line : Line) (r : Region) : Prop :=
  s.text[s.cursorLine]? = some line ∧ line.regions[s.cursorCol / bufferSize]? = some r

/-- The current line is node number `cursor_line` of the list, the current region is not null and is the one of
the column, and the column is at most the length of the line. -/
def CursorOk (s : Editor) : Prop :=
  s.ltr = s.cursorLine ∧ s.tr = some (s.cursorCol / bufferSize) ∧
    ∃ line r, s.At line r ∧ line.line = s.cursorLine ∧ s.cursorCol ≤ line.length

/-- The invariant: the lines are filled and numbered, too. -/
structure Inv (s : Editor) : Prop where
  numbered : Numbered s.text
  filled : ∀ line ∈ s.text, line.Filled
  ltr : s.ltr = s.cursorLine
  tr : s.tr = some (s.cursorCol / bufferSize)
  here : ∃ line r, s.At line r ∧ s.cursorCol ≤ line.length

end Editor

/-! ### Conditions -/

/-- The region of the column is the last one of the line. -/
def Line.IsLast (line : Line) (col : Nat) : Prop := line.regions.length = col / bufferSize + 1

instance (line : Line) (col : Nat) : Decidable (line.IsLast col) := inferInstanceAs (Decidable (_ = _))

/-- Into the line from the start of the next: its last region holds the two bytes stepped over. -/
def Line.LeftKeeps (prev : Line) : Prop := ∀ last ∈ prev.regions.getLast?, 2 ≤ last.pos

/-- On in the line: the cursor is neither on the last byte of a full last region nor behind the newline. -/
def Line.RightKeeps (line : Line) (r : Region) (col : Nat) : Prop := line.IsLast col →
  ¬ (col % bufferSize = 127 ∧ r.pos = bufferSize ∧ r.lastByte ≠ newline) ∧
  ¬ (col % bufferSize = r.pos ∧ r.lastByte = newline)

/-- Up or down into the line: the column is behind its full regions, or at the start of a region. -/
def Line.WalkKeeps (line : Line) (col : Nat) : Prop := ∀ last ∈ line.regions.getLast?,
  (bufferSize * (line.regions.length - 1) < col →
    ¬ (line.length < col ∧ last.pos = bufferSize ∧ last.lastByte ≠ newline)) ∧
  (col ≤ bufferSize * (line.regions.length - 1) → col % bufferSize = 0 ∧
    ¬ (col = bufferSize * (line.regions.length - 1) ∧ col ≠ 0 ∧ last.pos = 0))

instance (prev : Line) : Decidable prev.LeftKeeps :=
  inferInstanceAs (Decidable (∀ last ∈ prev.regions.getLast?, 2 ≤ last.pos))

instance (line : Line) (r : Region) (col : Nat) : Decidable (line.RightKeeps r col) :=
  inferInstanceAs (Decidable (_ → _))

instance (line : Line) (col : Nat) : Decidable (line.WalkKeeps col) :=
  inferInstanceAs (Decidable (∀ last ∈ line.regions.getLast?, _))

/-! ### Where the cursor stands in its line -/

section Place

variable {line : Line} {r : Region} {col : Nat}

/-- The region of a column holds the bytes of the line from its start on. -/
theorem Line.Filled.region (h : line.Filled) (hr : line.regions[col / bufferSize]? = some r) :
    r.pos = min bufferSize (line.length - bufferSize * (col / bufferSize)) ∧
      col / bufferSize < line.regions.length ∧
      bufferSize * (line.regions.length - 1) ≤ line.length ∧
      line.length ≤ bufferSize * line.regions.length := by
  have hbounds := FilledRegions.bounds h
  exact ⟨FilledRegions.pos_eq h hr, (List.getElem?_eq_some_iff.mp hr).1, hbounds.1, hbounds.2.1⟩

theorem Line.Filled.last_region {last : Region} (h : line.Filled) (hlast : line.regions.getLast? = some last) :
    line.length = bufferSize * (line.regions.length - 1) + last.pos ∧ last.pos ≤ bufferSize ∧
      0 < line.regions.length := by
  obtain ⟨init, last', heq, hinit, hle⟩ := FilledRegions.concat_cases h
  rw [heq, List.getLast?_append_cons, List.getLast?_singleton, Option.some.injEq] at hlast
  rw [Line.length, heq, sum_regionSizes_concat hinit, List.length_append, List.length_singleton]
  exact ⟨by rw [← hlast]; rfl, hlast ▸ hle, Nat.succ_pos _⟩

/-- The region `advance_cursor_up` and `advance_cursor_down` stop at: the first that starts at the column or
behind it, or the last. -/
theorem walk_spec {rs : List Region} (h : FilledRegions rs) (col i : Nat) :
    ∃ j r, Editor.walk col (bufferSize * i) i rs = some (bufferSize * (i + j) + r.pos, i + j, r) ∧ rs[j]? = some r ∧
      (j + 1 = rs.length ∨ col ≤ bufferSize * (i + j)) ∧ (j = 0 ∨ bufferSize * (i + j - 1) < col) := by
  induction rs generalizing i with
  | nil => exact absurd rfl h.ne_nil
  | cons r rs ih =>
    cases rs with
    | nil => exact ⟨0, r, rfl, rfl, .inl rfl, .inl rfl⟩
    | cons r' rs =>
      obtain ⟨hfull, hrest⟩ := (filledRegions_append_iff (List.cons_ne_nil r' rs)).mp (show FilledRegions ([r] ++ _) from h)
      have hpos : r.pos = bufferSize := hfull r (List.mem_singleton_self r)
      rw [Editor.walk]
      by_cases hlt : bufferSize * i < col
      · rw [if_pos hlt, hpos, ← Nat.mul_add_one]
        obtain ⟨j, r'', hwalk, hget, hstop, hbehind⟩ := ih hrest (i + 1)
        rw [Nat.add_right_comm] at hwalk hstop hbehind
        refine ⟨j + 1, r'', hwalk, hget, ?_, .inr ?_⟩
        · exact hstop.imp (congrArg (· + 1)) id
        · obtain rfl | hlt' := hbehind
          · exact hlt
          · exact hlt'
      · rw [if_neg hlt]
        exact ⟨0, r, rfl, rfl, .inr (Nat.le_of_not_lt hlt), .inl rfl⟩

theorem pos_of_lastByte (h : r.lastByte = newline) : 0 < r.pos := by
  refine Nat.pos_of_ne_zero fun hzero => ?_
  rw [Region.lastByte, if_pos hzero] at h
  exact absurd h (by decide)

/-- The columns `advance_cursor_up` and `advance_cursor_down` choose from. -/
theorem clampCol_cases (col : Nat) {posRead : Nat} (hpos : r.pos ≤ posRead) :
    (posRead < col ∧ 0 < r.pos ∧ Editor.clampCol col posRead r = posRead - 1) ∨
    (posRead < col ∧ r.lastByte ≠ newline ∧ Editor.clampCol col posRead r = posRead) ∨
    (col ≤ posRead ∧ 2 ≤ posRead ∧ posRead < col + 2 ∧ Editor.clampCol col posRead r = posRead - 1) ∨
    (col ≤ posRead ∧ (posRead < 2 ∨ col + 2 ≤ posRead) ∧ Editor.clampCol col posRead r = col) := by
  rw [Editor.clampCol]
  by_cases hlt : posRead < col
  · rw [if_pos hlt]
    by_cases hnewline : r.lastByte = newline
    · have hone : 0 < r.pos := pos_of_lastByte hnewline
      rw [if_pos hnewline, sub32, if_pos (Nat.le_trans hone hpos)]
      exact .inl ⟨hlt, hone, rfl⟩
    · rw [if_neg hnewline]
      exact .inr (.inl ⟨hlt, hnewline, rfl⟩)
  · rw [if_neg hlt]
    by_cases htwo : 2 ≤ posRead
    · rw [sub32, sub32, if_pos htwo, if_pos (Nat.le_of_succ_le htwo)]
      split_ifs <;> omega
    · rw [sub32, if_neg htwo, if_neg (by omega)]
      exact .inr (.inr (.inr ⟨Nat.le_of_not_lt hlt, .inl (Nat.lt_of_not_le htwo), rfl⟩))

theorem walk_column {n j : Nat} (hwithin : col ≤ 128 * (n - 1)) (hstart : col % 128 = 0)
    (hstop : j + 1 = n ∨ col ≤ 128 * j) (hbehind : j = 0 ∨ 128 * (j - 1) < col) : col = 128 * j := by
  omega

/-- Under the condition the loop stops at the region of the column it leaves the cursor at. -/
theorem clampCol_spec (h : line.Filled) (hkeeps : line.WalkKeeps col) :
    ∃ posRead j r, Editor.walk col 0 0 line.regions = some (posRead, j, r) ∧
      j = Editor.clampCol col posRead r / bufferSize ∧ line.regions[j]? = some r ∧
      Editor.clampCol col posRead r ≤ line.length := by
  obtain ⟨j, r, hwalk, hget, hstop, hbehind⟩ := walk_spec h col 0
  rw [Nat.zero_add] at hwalk hstop hbehind
  refine ⟨_, j, r, hwalk, ?_⟩
  obtain ⟨hj, -⟩ := List.getElem?_eq_some_iff.mp hget
  have hpos : r.pos = min 128 (line.length - 128 * j) := FilledRegions.pos_eq h hget
  obtain ⟨hfull, hupper, -⟩ : 128 * (line.regions.length - 1) ≤ line.length ∧
    line.length ≤ 128 * line.regions.length ∧ _ := FilledRegions.bounds h
  obtain ⟨last, hlast⟩ : ∃ last, line.regions.getLast? = some last :=
    ⟨_, List.getLast?_eq_some_getLast (FilledRegions.ne_nil h)⟩
  obtain ⟨hpast, hwithin⟩ := hkeeps last hlast
  have hsame : j + 1 = line.regions.length → r = last := by
    intro hlastIndex
    rw [List.getLast?_eq_getElem?, ← hlastIndex, Nat.add_sub_cancel, hget] at hlast
    exact Option.some.inj hlast
  have hsize : j + 1 = line.regions.length → last.pos = r.pos := fun heq => by rw [hsame heq]
  have hlastIndex : 128 * (line.regions.length - 1) < col → j + 1 = line.regions.length := by
    intro hcol
    clear hpast hwithin hbehind hsize hpos
    simp only [bufferSize] at hstop
    omega
  have hcases := clampCol_cases (r := r) col (Nat.le_add_left r.pos (bufferSize * j))
  generalize Editor.clampCol col (bufferSize * j + r.pos) r = newCol at hcases ⊢
  suffices hplace : j = newCol / bufferSize ∧ newCol ≤ line.length from ⟨hplace.1, hget, hplace.2⟩
  simp only [bufferSize] at hstop hbehind hpast hwithin hcases ⊢
  by_cases hcol : 128 * (line.regions.length - 1) < col
  · -- the loop runs to the last region
    have hroom := hpast hcol
    rw [← hsame (hlastIndex hcol)] at hroom
    have hlastIndex := hlastIndex hcol
    clear hpast hwithin hsame hbehind hsize
    obtain ⟨_, _, _⟩ | ⟨hlong, hnewline, _⟩ | ⟨_, _, _, _⟩ | ⟨_, _, _⟩ := hcases
    · omega
    · have hne : r.pos ≠ 128 := fun hfull => hroom ⟨by omega, hfull, hnewline⟩
      omega
    · omega
    · omega
  · -- the column is the start of the region
    obtain ⟨hstart, hempty⟩ := hwithin (Nat.le_of_not_lt hcol)
    have hcolumn : col = 128 * j := walk_column (Nat.le_of_not_lt hcol) hstart hstop hbehind
    have hsome : r.pos = 0 → j = 0 := by
      intro hzero
      by_cases hlastIndex : j + 1 = line.regions.length
      · rw [← hsame hlastIndex] at hempty
        by_contra hj'
        exact hempty ⟨by omega, by omega, hzero⟩
      · clear hcases hempty hpast hwithin
        omega
    clear hpast hwithin hempty hsize hstop hbehind hstart hcol hlastIndex
    obtain ⟨_, _, _⟩ | ⟨_, _, _⟩ | ⟨_, _, _, _⟩ | ⟨_, _, _⟩ := hcases
    · omega
    · omega
    · omega
    · omega

end Place

namespace Editor

variable {s t : Editor} {line prev : Line} {r : Region}

/-! ### Moves -/

/-- The invariant of a state with the cursor at a column inside a line. -/
theorem inv_of_cursor (hnumbered : Numbered t.text) (hfilled : ∀ line ∈ t.text, line.Filled)
    (hltr : t.ltr = t.cursorLine) (hline : t.text[t.cursorLine]? = some line)
    (htr : t.tr = some (t.cursorCol / bufferSize)) (hregion : t.cursorCol / bufferSize < line.regions.length)
    (hcol : t.cursorCol ≤ line.length) : Inv t :=
  ⟨hnumbered, hfilled, hltr, htr, line, _, ⟨hline, List.getElem?_eq_getElem hregion⟩, hcol⟩

theorem Inv.cursorOk (h : Inv s) : s.CursorOk := by
  obtain ⟨line, r, hat, hcol⟩ := h.here
  refine ⟨h.ltr, h.tr, line, r, hat, ?_, hcol⟩
  obtain ⟨hlt, rfl⟩ := List.getElem?_eq_some_iff.mp hat.1
  exact h.numbered _ hlt

theorem mem_of_at (hat : s.At line r) : line ∈ s.text := List.mem_of_getElem? hat.1

/-- From the start of a line to the end of the one above. The node the cursor is in need not be in the text. -/
theorem advanceCursorLeft_start (hnumbered : Numbered s.text) (hfilled : ∀ line ∈ s.text, line.Filled)
    (hltr : s.ltr = s.cursorLine) (hcol : s.cursorCol = 0) (hpos : 0 < s.cursorLine)
    (hprev : s.text[s.cursorLine - 1]? = some prev) (hkeeps : prev.LeftKeeps) :
    ∃ t, s.advanceCursorLeft = some (true, t) ∧ Inv t := by
  have hprev' : s.text[s.ltr - 1]? = some prev := by rw [hltr, hprev]
  rw [advanceCursorLeft, if_pos hcol, if_neg (by omega), hprev', Option.map_some]
  refine ⟨_, rfl, ?_⟩
  have hmem := List.mem_of_getElem? hprev
  obtain ⟨last, hlast⟩ : ∃ last, prev.regions.getLast? = some last :=
    ⟨_, List.getLast?_eq_some_getLast (FilledRegions.ne_nil (hfilled prev hmem))⟩
  obtain ⟨hlength, hle, hregions⟩ := (hfilled prev hmem).last_region hlast
  have htwo : 2 ≤ last.pos := hkeeps last hlast
  have hcolumn : sub32 prev.length 2 = prev.length - 2 := if_pos (by omega)
  have hline : sub32 s.cursorLine 1 = s.cursorLine - 1 := if_pos hpos
  simp only [bufferSize] at hlength hle
  refine inv_of_cursor hnumbered hfilled ?_ (show _ = some prev from ?_) ?_ ?_ ?_
  · dsimp only
    rw [hline, hltr]
  · dsimp only
    rw [hline, hprev]
  · dsimp only
    simp only [bufferSize]
    rw [hcolumn, Option.some.injEq]
    omega
  · dsimp only
    simp only [bufferSize]
    rw [hcolumn]
    omega
  · dsimp only
    rw [hcolumn]
    exact Nat.sub_le _ _

/-- To the left inside a line. The region the cursor is in need not be in the line any more. -/
theorem advanceCursorLeft_inside (hnumbered : Numbered s.text) (hfilled : ∀ line ∈ s.text, line.Filled)
    (hltr : s.ltr = s.cursorLine) (htr : s.tr = some (s.cursorCol / bufferSize)) (hcol : s.cursorCol ≠ 0)
    (hline : s.text[s.cursorLine]? = some line)
    (hregion : (s.cursorCol - 1) / bufferSize < line.regions.length) (hlength : s.cursorCol - 1 ≤ line.length) :
    ∃ t, s.advanceCursorLeft = some (true, t) ∧ Inv t := by
  rw [advanceCursorLeft, if_neg hcol]
  by_cases hboundary : s.cursorCol % bufferSize = 0
  · rw [if_pos hboundary, htr, Option.map_some]
    refine ⟨_, rfl, inv_of_cursor hnumbered hfilled hltr hline ?_ hregion hlength⟩
    simp only [bufferSize] at hboundary ⊢
    rw [if_neg (by omega), Option.some.injEq]
    omega
  · rw [if_neg hboundary]
    refine ⟨_, rfl, inv_of_cursor hnumbered hfilled hltr hline ?_ hregion hlength⟩
    dsimp only
    rw [htr, Option.some.injEq]
    simp only [bufferSize] at hboundary ⊢
    omega

theorem Inv.left (h : Inv s) (hkeeps : s.cursorCol = 0 → 0 < s.cursorLine →
    ∀ prev ∈ s.text[s.cursorLine - 1]?, prev.LeftKeeps) :
    ∃ action t, s.advanceCursorLeft = some (action, t) ∧ Inv t := by
  obtain ⟨line, r, hat, hcol⟩ := h.here
  by_cases hzero : s.cursorCol = 0
  · by_cases hfirst : s.cursorLine = 0
    · refine ⟨false, s, ?_, h⟩
      rw [advanceCursorLeft, if_pos hzero, if_pos (h.ltr.trans hfirst)]
    · have hlt : s.cursorLine < s.text.length := (List.getElem?_eq_some_iff.mp hat.1).1
      have hprev := List.getElem?_eq_getElem (show s.cursorLine - 1 < s.text.length by omega)
      have hpos := Nat.pos_of_ne_zero hfirst
      obtain ⟨t, hleft, ht⟩ := advanceCursorLeft_start h.numbered h.filled h.ltr hzero hpos hprev
        (hkeeps hzero hpos _ hprev)
      exact ⟨true, t, hleft, ht⟩
  · obtain ⟨-, hlt, -, -⟩ := (h.filled line (mem_of_at hat)).region hat.2
    obtain ⟨t, hleft, ht⟩ := advanceCursorLeft_inside h.numbered h.filled h.ltr h.tr hzero hat.1
      (Nat.lt_of_le_of_lt (Nat.div_le_div_right (Nat.sub_le _ _)) hlt) (Nat.le_trans (Nat.sub_le _ _) hcol)
    exact ⟨true, t, hleft, ht⟩

theorem endsAt_iff {col : Nat} : r.endsAt col = true ↔
    (col % bufferSize = sub32 r.pos 1 ∧ r.lastByte = newline) ∨ (col % bufferSize = r.pos ∧ r.lastByte ≠ newline) := by
  simp [Region.endsAt]

/-- A cursor that goes on in its line has a byte under it, and a region behind it at the end of its own. -/
theorem go_on (h : line.Filled) {col : Nat} (hr : line.regions[col / bufferSize]? = some r) (hcol : col ≤ line.length)
    (hkeeps : line.RightKeeps r col) (hends : ¬ r.endsAt col) :
    col + 1 ≤ line.length ∧ ((col + 1) % bufferSize = 0 → col / bufferSize + 1 < line.regions.length) := by
  obtain ⟨hpos, hlt, hlower, hupper⟩ := h.region hr
  rw [endsAt_iff, not_or, not_and, not_and, not_not] at hends
  simp only [Line.RightKeeps, Line.IsLast, bufferSize] at hpos hlt hlower hupper hkeeps hends ⊢
  have hinside : col + 1 ≤ line.length := by
    by_contra hlong
    have hend : col % 128 = r.pos := by omega
    exact (hkeeps (by omega)).2 ⟨hend, hends.2 hend⟩
  refine ⟨hinside, fun hboundary => ?_⟩
  by_contra hlast
  have hfull : r.pos = 128 := by omega
  have hcolumn : col % 128 = 127 := by omega
  by_cases hnewline : r.lastByte = newline
  · refine hends.1 ?_ hnewline
    rw [hfull, hcolumn]
    decide
  · exact (hkeeps (by omega)).1 ⟨hcolumn, hfull, hnewline⟩

theorem Inv.right (h : Inv s) (hat : s.At line r) (hcol : s.cursorCol ≤ line.length)
    (hkeeps : line.RightKeeps r s.cursorCol) :
    ∃ action t, s.advanceCursorRight = some (action, t) ∧ Inv t := by
  obtain ⟨hpos, hlt, hlower, hupper⟩ := (h.filled line (mem_of_at hat)).region hat.2
  have hline : s.text[s.ltr]? = some line := by rw [h.ltr, hat.1]
  have hright : s.advanceCursorRight = if r.endsAt s.cursorCol then
      if s.ltr + 1 < s.text.length then
        some (true, { s with ltr := s.ltr + 1, tr := some 0, cursorCol := 0, cursorLine := s.cursorLine + 1 })
      else some (false, s)
    else some (true, { s with
      cursorCol := s.cursorCol + 1
      tr := if (s.cursorCol + 1) % bufferSize = 0 then
          if s.cursorCol / bufferSize + 1 < line.regions.length then some (s.cursorCol / bufferSize + 1) else none
        else some (s.cursorCol / bufferSize) }) := by
    rw [advanceCursorRight, hline, h.tr]
    show (line.regions[s.cursorCol / bufferSize]? >>= fun region => _) = _
    rw [hat.2]
    rfl
  rw [hright]
  by_cases hends : r.endsAt s.cursorCol
  · rw [if_pos hends]
    by_cases hnext : s.ltr + 1 < s.text.length
    · rw [if_pos hnext]
      rw [h.ltr] at hnext
      have hmem : s.text[s.cursorLine + 1] ∈ s.text := List.getElem_mem hnext
      refine ⟨_, _, rfl, inv_of_cursor h.numbered h.filled (congrArg (· + 1) h.ltr)
        (List.getElem?_eq_getElem hnext) (by simp) ?_ (Nat.zero_le _)⟩
      show 0 / bufferSize < _
      rw [Nat.zero_div]
      exact List.length_pos_of_ne_nil (FilledRegions.ne_nil (h.filled _ hmem))
    · rw [if_neg hnext]
      exact ⟨_, _, rfl, h⟩
  · rw [if_neg hends]
    obtain ⟨hinside, hbehind⟩ := go_on (h.filled line (mem_of_at hat)) hat.2 hcol hkeeps hends
    refine ⟨_, _, rfl, inv_of_cursor h.numbered h.filled h.ltr hat.1 ?_ ?_ hinside⟩
    · dsimp only
      split
      · next hboundary =>
        rw [if_pos (hbehind hboundary), Option.some.injEq]
        simp only [bufferSize] at hboundary ⊢
        omega
      · next hboundary =>
        rw [Option.some.injEq]
        simp only [bufferSize] at hboundary ⊢
        omega
    · dsimp only
      simp only [bufferSize] at hbehind hlt ⊢
      omega

theorem Inv.up (h : Inv s) (hkeeps : 0 < s.cursorLine →
    ∀ line ∈ s.text[s.cursorLine - 1]?, line.WalkKeeps s.cursorCol) :
    ∃ action t, s.advanceCursorUp = some (action, t) ∧ Inv t := by
  obtain ⟨line, r, hat, -⟩ := h.here
  by_cases hfirst : s.cursorLine = 0
  · refine ⟨false, s, ?_, h⟩
    rw [advanceCursorUp, if_pos (h.ltr.trans hfirst)]
  · have hpos := Nat.pos_of_ne_zero hfirst
    have hlt : s.cursorLine < s.text.length := (List.getElem?_eq_some_iff.mp hat.1).1
    have hprev := List.getElem?_eq_getElem (show s.cursorLine - 1 < s.text.length by omega)
    have hfilled := h.filled _ (List.mem_of_getElem? hprev)
    obtain ⟨posRead, j, r', hwalk, hj, hget, hle⟩ := clampCol_spec hfilled (hkeeps hpos _ hprev)
    have hline : sub32 s.cursorLine 1 = s.cursorLine - 1 := if_pos hpos
    rw [advanceCursorUp, if_neg (by rw [h.ltr]; exact hfirst), h.ltr, hprev]
    show ∃ action t, (walk s.cursorCol 0 0 _ >>= _) = _ ∧ _
    rw [hwalk, hline]
    exact ⟨_, _, rfl, inv_of_cursor h.numbered h.filled rfl hprev (congrArg some hj)
      (hj ▸ (List.getElem?_eq_some_iff.mp hget).1) hle⟩

theorem Inv.down (h : Inv s) (hkeeps : ∀ line ∈ s.text[s.cursorLine + 1]?, line.WalkKeeps s.cursorCol) :
    ∃ action t, s.advanceCursorDown = some (action, t) ∧ Inv t := by
  by_cases hnext : s.cursorLine + 1 < s.text.length
  · have hline := List.getElem?_eq_getElem hnext
    have hfilled := h.filled _ (List.mem_of_getElem? hline)
    obtain ⟨posRead, j, r', hwalk, hj, hget, hle⟩ := clampCol_spec hfilled (hkeeps _ hline)
    rw [advanceCursorDown, if_pos (by rw [h.ltr]; exact hnext), h.ltr, hline]
    show ∃ action t, (walk s.cursorCol 0 0 _ >>= _) = _ ∧ _
    rw [hwalk]
    exact ⟨_, _, rfl, inv_of_cursor h.numbered h.filled rfl hline (congrArg some hj)
      (hj ▸ (List.getElem?_eq_some_iff.mp hget).1) hle⟩
  · refine ⟨false, s, ?_, h⟩
    rw [advanceCursorDown, if_neg (by rw [h.ltr]; exact hnext)]

end Editor

end Akos.Tedit
