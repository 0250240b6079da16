import Akos.Lib.Transition
import Akos.Tedit.Cursor

/-!
# The cursor over whole sessions

An edit followed by its move leaves the cursor right under a condition on the line, the column and the region
in front of the edit. In a session whose keys all meet their conditions the cursor is right in every state.
-/

namespace Akos.Tedit

/-! ### Conditions -/

/-- Backspace at the start of a line: the line above ends in the two bytes taken off, the line that results ends
in a region with two bytes or more, and nothing is allocated once the line's own node is freed. -/
def Line.JoinKeeps (prev line : Line) : Prop :=
  prev.LeftKeeps ∧ 2 ≤ (prev.length - 2 + line.length) % bufferSize ∧
    ∀ first ∈ line.regions.head?,
      (prev.length - 2 + first.pos) / bufferSize = (prev.length - 2 + line.length) / bufferSize

/-- Enter: the end of line fits into the region, and the bytes behind a full region are not copied behind it. -/
def Line.SplitKeeps (line : Line) (r : Region) (col : Nat) : Prop :=
  col % bufferSize ≠ 127 ∧ ¬ (col % bufferSize = 0 ∧ r.pos = bufferSize ∧ col + bufferSize < line.length)

/-- A byte put in: it does not fill the last region at the cursor. -/
def Line.AppendKeeps (line : Line) (r : Region) (col : Nat) : Prop :=
  ¬ (line.IsLast col ∧ col % bufferSize = 127 ∧ r.pos = 127)

/-- A byte written over another: the cursor is neither on the last byte of a full last region nor behind the
newline. -/
def Line.OverwriteKeeps (line : Line) (r : Region) (col : Nat) : Prop := line.IsLast col →
  ¬ (col % bufferSize = 127 ∧ r.pos = bufferSize) ∧ ¬ (col % bufferSize = r.pos ∧ r.lastByte = newline)

instance (prev line : Line) : Decidable (prev.JoinKeeps line) :=
  inferInstanceAs (Decidable (_ ∧ _ ∧ ∀ first ∈ line.regions.head?, _))

instance (line : Line) (r : Region) (col : Nat) : Decidable (line.SplitKeeps r col) :=
  inferInstanceAs (Decidable (_ ∧ _))

instance (line : Line) (r : Region) (col : Nat) : Decidable (line.AppendKeeps r col) :=
  inferInstanceAs (Decidable (¬ _))

instance (line : Line) (r : Region) (col : Nat) : Decidable (line.OverwriteKeeps r col) :=
  inferInstanceAs (Decidable (_ → _))

namespace Editor

/-- The condition on a typed character. -/
def TypedKeeps (s : Editor) (line : Line) (r : Region) (c : UInt8) : Prop :=
  if c = backspace then s.cursorCol = 0 → 0 < s.cursorLine →
    ∀ prev ∈ s.text[s.cursorLine - 1]?, prev.JoinKeeps line
  else if c = newline then line.SplitKeeps r s.cursorCol
  else if s.isInsert ∧ ¬ r.appendsAt s.cursorCol then line.OverwriteKeeps r s.cursorCol
  else line.AppendKeeps r s.cursorCol

/-- The condition on a key. -/
def KeepsCursor (s : Editor) : Key → Prop
  | .left => s.cursorCol = 0 → 0 < s.cursorLine → ∀ prev ∈ s.text[s.cursorLine - 1]?, prev.LeftKeeps
  | .right => ∀ line ∈ s.text[s.cursorLine]?, ∀ r ∈ line.regions[s.cursorCol / bufferSize]?,
    line.RightKeeps r s.cursorCol
  | .up => 0 < s.cursorLine → ∀ line ∈ s.text[s.cursorLine - 1]?, line.WalkKeeps s.cursorCol
  | .down => ∀ line ∈ s.text[s.cursorLine + 1]?, line.WalkKeeps s.cursorCol
  | .toggleInsert => True
  | .typed c => c ≠ 0 → ∀ line ∈ s.text[s.cursorLine]?, ∀ r ∈ line.regions[s.cursorCol / bufferSize]?,
    s.TypedKeeps line r c

instance (s : Editor) (line : Line) (r : Region) (c : UInt8) : Decidable (s.TypedKeeps line r c) :=
  inferInstanceAs (Decidable (if c = backspace then s.cursorCol = 0 → 0 < s.cursorLine →
    ∀ prev ∈ s.text[s.cursorLine - 1]?, prev.JoinKeeps line else _))

instance (s : Editor) : (key : Key) → Decidable (s.KeepsCursor key)
  | .left => inferInstanceAs (Decidable (_ → _ → ∀ prev ∈ s.text[s.cursorLine - 1]?, prev.LeftKeeps))
  | .right => inferInstanceAs (Decidable (∀ line ∈ s.text[s.cursorLine]?,
      ∀ r ∈ line.regions[s.cursorCol / bufferSize]?, line.RightKeeps r s.cursorCol))
  | .up => inferInstanceAs (Decidable (_ → ∀ line ∈ s.text[s.cursorLine - 1]?, line.WalkKeeps s.cursorCol))
  | .down => inferInstanceAs (Decidable (∀ line ∈ s.text[s.cursorLine + 1]?, line.WalkKeeps s.cursorCol))
  | .toggleInsert => .isTrue trivial
  | .typed c => inferInstanceAs (Decidable (_ → ∀ line ∈ s.text[s.cursorLine]?,
      ∀ r ∈ line.regions[s.cursorCol / bufferSize]?, s.TypedKeeps line r c))

/-- A key that meets its condition. -/
def KeptStep (s : Editor) (key : Key) (t : Editor) : Prop := s.KeepsCursor key ∧ s.press key = some t

end Editor

/-! ### Line numbers -/

/-- The lines carry the numbers from `k` on. -/
def NumberedFrom (k : Nat) : List Line → Prop
  | [] => True
  | line :: text => line.line = k ∧ NumberedFrom (k + 1) text

section Numbers

variable {k : Nat} {text above : List Line} {line : Line}

theorem numberedFrom_iff : NumberedFrom k text ↔ ∀ i (h : i < text.length), text[i].line = k + i := by
  induction text generalizing k with
  | nil => exact iff_of_true trivial fun i hi => absurd hi (Nat.not_lt_zero i)
  | cons line text ih =>
    rw [NumberedFrom, ih]
    refine ⟨fun h i hi => ?_, fun h => ⟨h 0 (Nat.succ_pos _), fun i hi => ?_⟩⟩
    · obtain ⟨hline, hrest⟩ := h
      cases i with
      | zero => exact hline
      | succ i => exact (hrest i (Nat.lt_of_succ_lt_succ hi)).trans (Nat.add_right_comm k 1 i)
    · exact (h (i + 1) (Nat.succ_lt_succ hi)).trans (Nat.add_right_comm k i 1)

theorem numbered_iff : Numbered text ↔ NumberedFrom 0 text := by
  rw [numberedFrom_iff, Numbered]
  simp only [Nat.zero_add]

theorem numberedFrom_append : NumberedFrom k (above ++ text) ↔
    NumberedFrom k above ∧ NumberedFrom (k + above.length) text := by
  induction above generalizing k with
  | nil => exact ⟨fun h => ⟨trivial, h⟩, fun h => h.2⟩
  | cons line above ih =>
    rw [List.cons_append, NumberedFrom, NumberedFrom, ih, and_assoc, List.length_cons, Nat.add_right_comm k 1, Nat.add_assoc]

/-- Lines that move down by one. -/
theorem NumberedFrom.up (h : NumberedFrom k text) :
    NumberedFrom (k + 1) (text.map fun l => { l with line := l.line + 1 }) := by
  induction text generalizing k with
  | nil => trivial
  | cons line text ih => exact ⟨congrArg (· + 1) h.1, ih h.2⟩

/-- Lines that move up by one. -/
theorem NumberedFrom.down (h : NumberedFrom (k + 1) text) :
    NumberedFrom k (text.map fun l => { l with line := l.line - 1 }) := by
  induction text generalizing k with
  | nil => trivial
  | cons line text ih => exact ⟨congrArg (· - 1) h.1, ih h.2⟩

theorem eq_take_cons_drop {α : Type*} {xs : List α} {i : Nat} {x : α} (h : xs[i]? = some x) :
    xs = xs.take i ++ x :: xs.drop (i + 1) := by
  obtain ⟨hi, rfl⟩ := List.getElem?_eq_some_iff.mp h
  rw [List.getElem_cons_drop, List.take_append_drop]

end Numbers

namespace Editor

variable {s t : Editor} {line prev : Line} {r : Region} {c : UInt8}

/-! ### Edits inside the line -/

theorem Inv.atRegion_eq (h : Inv s) (hat : s.At line r) : s.atRegion =
    some (line, line.regions.take (s.cursorCol / bufferSize), r, line.regions.drop (s.cursorCol / bufferSize + 1)) := by
  obtain ⟨hi, hr⟩ := List.getElem?_eq_some_iff.mp hat.2
  have hdrop : line.regions.drop (s.cursorCol / bufferSize)
      = r :: line.regions.drop (s.cursorCol / bufferSize + 1) := by
    rw [← hr, List.getElem_cons_drop]
  rw [atRegion, h.ltr, hat.1, h.tr]
  simp only [Option.bind_eq_bind, Option.bind_some, hdrop]

/-- The line with other regions in place of its own. -/
theorem Inv.setRegions_text (h : Inv s) (hat : s.At line r) {regions : List Region} (hregions : FilledRegions regions) :
    Numbered (s.setRegions line regions).text ∧ (∀ l ∈ (s.setRegions line regions).text, l.Filled) ∧
      (s.setRegions line regions).text[s.cursorLine]? = some { line with regions } := by
  have hlt : s.cursorLine < s.text.length := (List.getElem?_eq_some_iff.mp hat.1).1
  have htext : (s.setRegions line regions).text = s.text.set s.cursorLine { line with regions } := by
    rw [← h.ltr]
    rfl
  rw [htext]
  refine ⟨fun i hi => ?_, fun l hl => ?_, ?_⟩
  · rw [List.length_set] at hi
    rw [List.getElem_set]
    split
    · next heq =>
      subst heq
      rw [← h.numbered _ hlt, (List.getElem?_eq_some_iff.mp hat.1).2]
    · exact h.numbered i hi
  · obtain hmem | rfl := List.mem_or_eq_of_mem_set hl
    · exact h.filled l hmem
    · exact hregions
  · rw [List.getElem?_set_self hlt]

theorem Inv.setRegions (h : Inv s) (hat : s.At line r) {regions : List Region} (hregions : FilledRegions regions)
    (hi : s.cursorCol / bufferSize < regions.length) (hcol : s.cursorCol ≤ (regionSizes regions).sum) :
    Inv (s.setRegions line regions) ∧
      (s.setRegions line regions).At { line with regions } regions[s.cursorCol / bufferSize] := by
  obtain ⟨hnumbered, hfilled, hline⟩ := h.setRegions_text hat hregions
  exact ⟨inv_of_cursor hnumbered hfilled h.ltr hline h.tr hi hcol, hline, List.getElem?_eq_getElem hi⟩

/-- The regions of a line from the cursor's on. -/
theorem Inv.filled_split (h : Inv s) (hat : s.At line r) :
    (∀ r' ∈ line.regions.take (s.cursorCol / bufferSize), r'.pos = bufferSize) ∧
      FilledRegions (r :: line.regions.drop (s.cursorCol / bufferSize + 1)) ∧
      (line.regions.take (s.cursorCol / bufferSize)).length = s.cursorCol / bufferSize ∧
      line.length = bufferSize * (s.cursorCol / bufferSize)
        + (regionSizes (r :: line.regions.drop (s.cursorCol / bufferSize + 1))).sum := by
  have hfilled : FilledRegions line.regions := h.filled line (mem_of_at hat)
  have hsplit := eq_take_cons_drop hat.2
  have hlt := (List.getElem?_eq_some_iff.mp hat.2).1
  have hlength : (line.regions.take (s.cursorCol / bufferSize)).length = s.cursorCol / bufferSize :=
    List.length_take_of_le (Nat.le_of_lt hlt)
  rw [hsplit, filledRegions_append_iff (List.cons_ne_nil _ _)] at hfilled
  refine ⟨hfilled.1, hfilled.2, hlength, ?_⟩
  have hsum := Filled.sum_init (forall_mem_regionSizes.mpr hfilled.1)
  rw [length_regionSizes, hlength] at hsum
  have htotal : line.length = (regionSizes (line.regions.take (s.cursorCol / bufferSize)
      ++ r :: line.regions.drop (s.cursorCol / bufferSize + 1))).sum := by rw [← hsplit]; rfl
  rw [htotal, regionSizes_append, List.sum_append, hsum]

/-- A byte put in, and the cursor behind it. -/
theorem Inv.append (h : Inv s) (hat : s.At line r) (hcol : s.cursorCol ≤ line.length) (hback : c ≠ backspace)
    (hnewline : c ≠ newline) (hkeeps : line.AppendKeeps r s.cursorCol) :
    ∃ t, s.appendAtPosition c = some (true, t) ∧ ∃ action u, t.advanceCursorRight = some (action, u) ∧ Inv u := by
  obtain ⟨hbefore, hbehind, hlength, htotal⟩ := h.filled_split hat
  obtain ⟨hpos, hlt, hlower, hupper⟩ := (h.filled line (mem_of_at hat)).region hat.2
  obtain ⟨hinserted, hsum, hmore⟩ := insertByte_spec hbehind (s.cursorCol % bufferSize) c
  rw [appendAtPosition, if_neg hback, h.atRegion_eq hat]
  refine ⟨_, if_pos hnewline, ?_⟩
  generalize hregions : line.regions.take (s.cursorCol / bufferSize)
    ++ insertByte (s.cursorCol % bufferSize) c (r :: line.regions.drop (s.cursorCol / bufferSize + 1)) = regions
  have hfilled : FilledRegions regions := hregions ▸ (filledRegions_append_iff hinserted.ne_nil).mpr ⟨hbefore, hinserted⟩
  have hlonger : (regionSizes regions).sum = line.length + 1 := by
    rw [← hregions, regionSizes_append, List.sum_append, hsum, htotal,
      Filled.sum_init (forall_mem_regionSizes.mpr hbefore), length_regionSizes, hlength, Nat.add_assoc]
  have hcount : line.regions.length ≤ regions.length := by
    have hsplit := congrArg List.length (eq_take_cons_drop hat.2)
    rw [← hregions]
    rw [List.length_append] at hsplit ⊢
    omega
  obtain ⟨hinv, hat'⟩ := h.setRegions hat hfilled (Nat.lt_of_lt_of_le hlt hcount) (by omega)
  refine hinv.right hat' (by show s.cursorCol ≤ (regionSizes regions).sum; omega) ?_
  -- only a last region that the byte fills lets the cursor run out of the line
  obtain ⟨hpos', -, -, hupper'⟩ := (hinv.filled _ (mem_of_at hat')).region hat'.2
  have hlonger' : ({ line with regions } : Line).length = line.length + 1 := hlonger
  have hsame : (s.setRegions line regions).cursorCol = s.cursorCol := rfl
  intro hlast
  replace hlast : regions.length = s.cursorCol / bufferSize + 1 := hlast
  rw [hlonger', hsame] at hpos'
  rw [hlonger'] at hupper'
  simp only [Line.AppendKeeps, Line.IsLast, bufferSize] at hpos hlt hpos' hupper' hkeeps hlast hsame ⊢
  refine ⟨fun h => hkeeps ⟨?_, ?_, ?_⟩, fun h => ?_⟩ <;> omega

/-- A byte written over another, and the cursor behind it. -/
theorem Inv.overwrite (h : Inv s) (hat : s.At line r) (hcol : s.cursorCol ≤ line.length) (hback : c ≠ backspace)
    (hnewline : c ≠ newline) (hover : ¬ r.appendsAt s.cursorCol) (hkeeps : line.OverwriteKeeps r s.cursorCol) :
    ∃ t, s.insertAtPosition c = some (true, t) ∧ ∃ action u, t.advanceCursorRight = some (action, u) ∧ Inv u := by
  obtain ⟨hbefore, hbehind, hlength, htotal⟩ := h.filled_split hat
  rw [insertAtPosition, if_neg (not_or.mpr ⟨hnewline, hback⟩), h.atRegion_eq hat]
  refine ⟨_, if_neg hover, ?_⟩
  generalize hregions : line.regions.take (s.cursorCol / bufferSize)
    ++ r.setByte (s.cursorCol % bufferSize) c :: line.regions.drop (s.cursorCol / bufferSize + 1) = regions
  have hsizes : regionSizes regions = regionSizes line.regions := by
    rw [← hregions]
    conv_rhs => rw [eq_take_cons_drop hat.2]
    rw [regionSizes_append, regionSizes_append]
    rfl
  have hcount := length_eq_of_regionSizes hsizes
  have hfilled : FilledRegions regions := by
    rw [FilledRegions, hsizes]
    exact h.filled line (mem_of_at hat)
  have hlt : s.cursorCol / bufferSize < regions.length := by
    rw [hcount]
    exact (List.getElem?_eq_some_iff.mp hat.2).1
  have hsame : (regionSizes regions).sum = line.length := by rw [hsizes]; rfl
  obtain ⟨hinv, hat'⟩ := h.setRegions hat hfilled hlt (by rw [hsame]; exact hcol)
  have hregion : regions[s.cursorCol / bufferSize] = r.setByte (s.cursorCol % bufferSize) c := by
    have hget : regions[s.cursorCol / bufferSize]? = some (r.setByte (s.cursorCol % bufferSize) c) := by
      rw [← hregions, List.getElem?_append_right (Nat.le_of_eq hlength), hlength, Nat.sub_self]
      rfl
    exact (List.getElem?_eq_some_iff.mp hget).2
  refine hinv.right hat' (by rw [show ({ line with regions } : Line).length = line.length from hsame]; exact hcol) ?_
  intro hlast
  obtain ⟨hfull, hend⟩ := hkeeps (hcount.symm.trans hlast)
  rw [hregion]
  refine ⟨fun hboth => hfull ⟨hboth.1, hboth.2.1⟩, fun hboth => hend ⟨hboth.1, ?_⟩⟩
  -- the byte behind the end is not the one the test looks at
  have hpos : s.cursorCol % bufferSize = r.pos := hboth.1
  have hlastByte := hboth.2
  have hone : 0 < (r.setByte (s.cursorCol % bufferSize) c).pos := pos_of_lastByte hlastByte
  replace hone : 0 < r.pos := hone
  have hkept : (r.setByte (s.cursorCol % bufferSize) c).lastByte = r.lastByte := by
    rw [Region.lastByte, Region.lastByte]
    refine if_congr Iff.rfl rfl (Function.update_of_ne ?_ _ _)
    show r.pos - 1 ≠ _
    rw [hpos]
    omega
  rw [← hkept, hlastByte]

/-- A byte taken out in front of the cursor. -/
theorem Inv.remove_inside (h : Inv s) (hat : s.At line r) (hcol : s.cursorCol ≤ line.length) (hpos : s.cursorCol ≠ 0) :
    ∃ t, s.removeAtPosition = some (true, t) ∧ ∃ action u, t.advanceCursorLeft = some (action, u) ∧ Inv u := by
  generalize hregions : line.regions.take (s.cursorCol / bufferSize) ++ shiftDown ((s.cursorCol - 1) % bufferSize)
    (r :: line.regions.drop (s.cursorCol / bufferSize + 1)) = regions
  have hsizes : regionSizes regions = regionSizes line.regions := by
    rw [← hregions, regionSizes_append, regionSizes_shiftDown, ← regionSizes_append, ← eq_take_cons_drop hat.2]
  have hcount := length_eq_of_regionSizes hsizes
  have hfilled : FilledRegions regions := by
    rw [FilledRegions, hsizes]
    exact h.filled line (mem_of_at hat)
  have hsame : (regionSizes regions).sum = line.length := by rw [hsizes]; rfl
  obtain ⟨regions', hdrop, hfilled', hshorter⟩ := dropByte_spec hfilled (by omega)
  obtain ⟨hnumbered, hfilledText, hline⟩ := h.setRegions_text hat hfilled'
  have hbounds := hfilled'.bounds
  have hlt := (List.getElem?_eq_some_iff.mp hat.2).1
  refine ⟨s.setRegions line regions', ?_, ?_⟩
  · rw [removeAtPosition, h.atRegion_eq hat]
    show (if s.cursorCol = 0 then _ else _) = _
    rw [if_neg hpos]
    show some ((dropByte _).1, s.setRegions line (dropByte _).2) = _
    rw [hregions, hdrop]
  · have hregion : (s.cursorCol - 1) / bufferSize < ({ line with regions := regions' } : Line).regions.length := by
      show (s.cursorCol - 1) / bufferSize < regions'.length
      simp only [bufferSize] at hbounds hlt ⊢
      omega
    have hlength : s.cursorCol - 1 ≤ ({ line with regions := regions' } : Line).length := by
      show s.cursorCol - 1 ≤ (regionSizes regions').sum
      omega
    obtain ⟨u, hleft, hu⟩ := advanceCursorLeft_inside hnumbered hfilledText h.ltr h.tr hpos hline hregion hlength
    exact ⟨true, u, hleft, hu⟩

/-- The lines around two that follow each other. -/
theorem text_split (hprev : s.text[s.cursorLine - 1]? = some prev) (hpos : 0 < s.cursorLine)
    (hline : s.text[s.cursorLine]? = some line) :
    s.text = s.text.take (s.cursorLine - 1) ++ prev :: line :: s.text.drop (s.cursorLine + 1) := by
  conv_lhs => rw [eq_take_cons_drop hprev]
  have hnext : s.cursorLine - 1 + 1 = s.cursorLine := Nat.sub_add_cancel hpos
  obtain ⟨hlt, hget⟩ := List.getElem?_eq_some_iff.mp hline
  rw [hnext, List.drop_eq_getElem_cons hlt, hget]

/-- A line joined to the one above, and the cursor in that one. -/
theorem Inv.remove_join (h : Inv s) (hat : s.At line r) (hzero : s.cursorCol = 0) (hpos : 0 < s.cursorLine)
    (hprev : s.text[s.cursorLine - 1]? = some prev) (hkeeps : prev.JoinKeeps line) :
    ∃ t, s.removeAtPosition = some (true, t) ∧ ∃ action u, t.advanceCursorLeft = some (action, u) ∧ Inv u := by
  obtain ⟨hend, htwo, hkept⟩ := hkeeps
  have hmem := List.mem_of_getElem? hprev
  obtain ⟨dropped, hdropped, hroom, hshorter⟩ := dropLineEnd_spec (h.filled prev hmem) hend
  have hshorter' : (regionSizes dropped).sum = prev.length - 2 := by
    rw [Line.length, ← hshorter, Nat.add_sub_cancel]
  obtain ⟨first, rest, hregions⟩ := List.exists_cons_of_ne_nil (FilledRegions.ne_nil (h.filled line (mem_of_at hat)))
  have hfirst := hkept first (by rw [hregions]; rfl)
  obtain ⟨joined, hjoined, hroom', hsum⟩ :=
    joinRegions_spec hroom (show _ = (_ + (regionSizes (first :: rest)).sum) / bufferSize by
    rw [← hregions, hshorter']
    exact hfirst)
  rw [← hregions] at hjoined hsum
  rw [hshorter'] at hsum
  generalize hbehind : (s.text.drop (s.cursorLine + 1)).map (fun l => { l with line := l.line - 1 }) = behind
  have htext := text_split hprev hpos hat.1
  have hnumbered := numbered_iff.mp h.numbered
  rw [htext, numberedFrom_append] at hnumbered
  obtain ⟨habove, hprevLine, hlineLine, hbelow⟩ := hnumbered
  have hlt : s.cursorLine < s.text.length := (List.getElem?_eq_some_iff.mp hat.1).1
  have hlength : (s.text.take (s.cursorLine - 1)).length = s.cursorLine - 1 := List.length_take_of_le (by omega)
  have hnumbered' : Numbered (s.text.take (s.cursorLine - 1) ++ { prev with regions := joined } :: behind) :=
    numbered_iff.mpr (numberedFrom_append.mpr ⟨habove, hprevLine, hbehind ▸ hbelow.down⟩)
  have hfilled' : ∀ l ∈ s.text.take (s.cursorLine - 1) ++ { prev with regions := joined } :: behind, l.Filled := by
    intro l hl
    rw [List.mem_append, List.mem_cons, ← hbehind, List.mem_map] at hl
    obtain hl | rfl | ⟨l', hl', rfl⟩ := hl
    · exact h.filled l (List.mem_of_mem_take hl)
    · exact hroom'.filled
    · exact h.filled l' (List.mem_of_mem_drop hl')
  have hget : (s.text.take (s.cursorLine - 1) ++ { prev with regions := joined } :: behind)[s.cursorLine - 1]?
      = some { prev with regions := joined } := by
    rw [List.getElem?_append_right (Nat.le_of_eq hlength), hlength, Nat.sub_self, List.getElem?_cons_zero]
  have hleftKeeps : ({ prev with regions := joined } : Line).LeftKeeps := by
    intro last hlast
    rw [hroom'.last_pos hlast, hsum]
    exact htwo
  obtain ⟨u, hleft, hu⟩ := advanceCursorLeft_start
    (s := { s with text := s.text.take (s.cursorLine - 1) ++ { prev with regions := joined } :: behind })
    hnumbered' hfilled' h.ltr hzero hpos hget hleftKeeps
  refine ⟨_, ?_, true, u, hleft, hu⟩
  rw [removeAtPosition, h.atRegion_eq hat]
  show (if s.cursorCol = 0 then if s.ltr = 0 then _ else _ else _) = _
  rw [if_pos hzero, if_neg (by rw [h.ltr]; omega), h.ltr, hprev]
  show (dropLineEnd prev.regions >>= fun dropped => _) = _
  rw [hdropped]
  show (joinRegions dropped (line.regions.take _ ++ r :: line.regions.drop _) >>= fun joined => _) = _
  rw [← eq_take_cons_drop hat.2, hjoined, hbehind]
  rfl

theorem endLine_eq {k : Nat} (hk : k < bufferSize) (hroom : k ≠ 127) :
    ∃ r', endLine k r = some r' ∧ r'.pos = k + 2 := by
  rw [endLine, if_pos (by simp only [bufferSize] at hk ⊢; omega)]
  exact ⟨_, rfl, rfl⟩

/-- A line divided, and the cursor on its new end. -/
theorem Inv.split (h : Inv s) (hat : s.At line r) (hcol : s.cursorCol ≤ line.length)
    (hkeeps : line.SplitKeeps r s.cursorCol) :
    ∃ t, s.appendAtPosition newline = some (true, t) ∧ ∃ action u, t.advanceCursorRight = some (action, u) ∧ Inv u := by
  obtain ⟨hroom, hfits⟩ := hkeeps
  obtain ⟨hbefore, hbehind, hlength, htotal⟩ := h.filled_split hat
  obtain ⟨hpos, hlt, -, -⟩ := (h.filled line (mem_of_at hat)).region hat.2
  have hk : s.cursorCol % bufferSize < bufferSize := Nat.mod_lt _ (by decide)
  obtain ⟨r', hend, hpos'⟩ := endLine_eq (r := r) hk hroom
  obtain ⟨below, hsplit, hbelow⟩ : ∃ below, splitOff (s.cursorCol % bufferSize) r
      (line.regions.drop (s.cursorCol / bufferSize + 1)) = some below ∧ FilledRegions below := by
    rw [regionSizes_cons, List.sum_cons] at htotal
    simp only [bufferSize] at hfits hpos hlt htotal
    apply splitOff_spec <;> simp only [bufferSize] <;> omega
  have hregions : FilledRegions (line.regions.take (s.cursorCol / bufferSize) ++ [r']) :=
    filledRegions_concat_iff.mpr ⟨hbefore, by simp only [bufferSize] at hk hroom hpos' ⊢; omega⟩
  have hsum : (regionSizes (_ ++ [r'])).sum = _ := sum_regionSizes_concat hbefore
  rw [hlength, hpos'] at hsum
  generalize hline' : ({ line with regions := line.regions.take (s.cursorCol / bufferSize) ++ [r'] } : Line) = line'
  generalize hlines : (s.text.drop (s.cursorLine + 1)).map (fun l => { l with line := l.line + 1 }) = lines
  have hlines' : line'.line = line.line := by rw [← hline']
  have hline'' : line'.regions = line.regions.take (s.cursorCol / bufferSize) ++ [r'] := by rw [← hline']
  have hlen : line'.length = bufferSize * (s.cursorCol / bufferSize) + (s.cursorCol % bufferSize + 2) := by
    rw [Line.length, hline'', hsum]
  generalize ht : ({ s with
    text := s.text.take s.cursorLine ++ line' :: ⟨below, line.line + 1⟩ :: lines } : Editor) = t
  have hnumbered := numbered_iff.mp h.numbered
  rw [eq_take_cons_drop hat.1, numberedFrom_append] at hnumbered
  obtain ⟨habove, hnumber, hrest⟩ := hnumbered
  have hcount : (s.text.take s.cursorLine).length = s.cursorLine :=
    List.length_take_of_le (Nat.le_of_lt (List.getElem?_eq_some_iff.mp hat.1).1)
  have hat' : t.At line' r' := by
    rw [← ht]
    refine ⟨?_, ?_⟩
    · show (s.text.take s.cursorLine ++ _)[s.cursorLine]? = _
      rw [List.getElem?_append_right (Nat.le_of_eq hcount), hcount, Nat.sub_self, List.getElem?_cons_zero]
    · show line'.regions[s.cursorCol / bufferSize]? = _
      rw [hline'', List.getElem?_append_right (Nat.le_of_eq hlength), hlength, Nat.sub_self, List.getElem?_cons_zero]
  have hcol' : t.cursorCol = s.cursorCol := by rw [← ht]
  have hinside : t.cursorCol ≤ line'.length := by
    rw [hcol', hlen]
    simp only [bufferSize]
    omega
  have hinv : Inv t := by
    refine ⟨numbered_iff.mpr ?_, fun l hl => ?_, ?_, ?_, line', r', hat', hinside⟩
    · rw [← ht]
      exact numberedFrom_append.mpr ⟨habove, hlines'.trans hnumber, congrArg (· + 1) hnumber, hlines ▸ hrest.up⟩
    · rw [← ht] at hl
      simp only [List.mem_append, List.mem_cons, ← hlines, List.mem_map] at hl
      obtain hl | rfl | rfl | ⟨l', hl', rfl⟩ := hl
      · exact h.filled l (List.mem_of_mem_take hl)
      · rw [Line.Filled, hline'']
        exact hregions
      · exact hbelow
      · exact h.filled l' (List.mem_of_mem_drop hl')
    · rw [← ht]
      exact h.ltr
    · rw [← ht]
      exact h.tr
  refine ⟨t, ?_, hinv.right hat' hinside fun _ => ⟨fun hfull => ?_, fun hbehind' => ?_⟩⟩
  · rw [appendAtPosition, if_neg (by decide), h.atRegion_eq hat, ← ht, ← hline', ← hlines, ← h.ltr]
    simp only [Option.bind_eq_bind, Option.bind_some, ne_eq, not_true_eq_false, if_false, hsplit, hend]
  · exact hroom (hcol' ▸ hfull.1)
  · have hbelowEnd := hbehind'.1
    rw [hcol', hpos'] at hbelowEnd
    omega

/-! ### Keys -/

/-- A typed character: the edit and the move behind it. -/
theorem Inv.typed (h : Inv s) (hat : s.At line r) (hcol : s.cursorCol ≤ line.length) (hc : c ≠ 0)
    (hkeeps : s.TypedKeeps line r c) : ∃ t, s.press (.typed c) = some t ∧ Inv t := by
  have happend : s.isInsert = true → c ≠ newline → c ≠ backspace → r.appendsAt s.cursorCol = true →
      s.insertAtPosition c = s.appendAtPosition c := by
    intro _ hnewline hback hends
    rw [insertAtPosition, if_neg (not_or.mpr ⟨hnewline, hback⟩), h.atRegion_eq hat]
    exact if_pos hends
  have hsame : c = newline ∨ c = backspace → s.insertAtPosition c = s.appendAtPosition c := fun hspecial => by
    rw [insertAtPosition, if_pos hspecial]
  rw [press, if_neg hc]
  rw [TypedKeeps] at hkeeps
  by_cases hback : c = backspace
  · rw [if_pos hback] at hkeeps
    have hedit : s.edit c = s.removeAtPosition := by
      rw [edit, hsame (.inr hback), ite_self, appendAtPosition, if_pos hback]
    rw [hedit]
    obtain ⟨t, hremove, action, u, hleft, hu⟩ | hfirst : (∃ t, s.removeAtPosition = some (true, t) ∧
        ∃ action u, t.advanceCursorLeft = some (action, u) ∧ Inv u) ∨ s.removeAtPosition = some (false, s) := by
      by_cases hzero : s.cursorCol = 0
      · by_cases hline : s.cursorLine = 0
        · refine .inr ?_
          rw [removeAtPosition, h.atRegion_eq hat]
          show (if s.cursorCol = 0 then if s.ltr = 0 then _ else _ else _) = _
          rw [if_pos hzero, if_pos (h.ltr.trans hline)]
        · have hlt : s.cursorLine < s.text.length := (List.getElem?_eq_some_iff.mp hat.1).1
          have hprev := List.getElem?_eq_getElem (show s.cursorLine - 1 < s.text.length by omega)
          have hpos := Nat.pos_of_ne_zero hline
          exact .inl (h.remove_join hat hzero hpos hprev (hkeeps hzero hpos _ hprev))
      · exact .inl (h.remove_inside hat hcol hzero)
    · refine ⟨u, ?_, hu⟩
      rw [hremove]
      show (if c = backspace then t.advanceCursorLeft.map Prod.snd else _) = _
      rw [if_pos hback, hleft, Option.map_some]
    · refine ⟨s, ?_, h⟩
      rw [hfirst]
      rfl
  · rw [if_neg hback] at hkeeps
    obtain ⟨t, hedit, action, u, hright, hu⟩ : ∃ t, s.edit c = some (true, t) ∧
        ∃ action u, t.advanceCursorRight = some (action, u) ∧ Inv u := by
      by_cases hnewline : c = newline
      · rw [if_pos hnewline] at hkeeps
        rw [edit, hsame (.inl hnewline), ite_self, hnewline]
        exact h.split hat hcol hkeeps
      · rw [if_neg hnewline] at hkeeps
        by_cases hover : s.isInsert ∧ ¬ r.appendsAt s.cursorCol
        · rw [if_pos hover] at hkeeps
          rw [edit, if_pos hover.1]
          exact h.overwrite hat hcol hback hnewline hover.2 hkeeps
        · rw [if_neg hover] at hkeeps
          have hedit : s.edit c = s.appendAtPosition c := by
            rw [edit]
            split
            · next hinsert => exact happend hinsert hnewline hback (by_contra fun hends => hover ⟨hinsert, hends⟩)
            · rfl
          rw [hedit]
          exact h.append hat hcol hback hnewline hkeeps
    refine ⟨u, ?_, hu⟩
    rw [hedit]
    show (if c = backspace then _ else t.advanceCursorRight.map Prod.snd) = _
    rw [if_neg hback, hright, Option.map_some]

/-- A key that meets its condition has a next state, and the invariant holds there. -/
theorem Inv.press (h : Inv s) {key : Key} (hkeeps : s.KeepsCursor key) : ∃ t, s.press key = some t ∧ Inv t := by
  obtain ⟨line, r, hat, hcol⟩ := h.here
  cases key with
  | left =>
    obtain ⟨action, t, hleft, ht⟩ := h.left hkeeps
    exact ⟨t, by rw [Editor.press, hleft, Option.map_some], ht⟩
  | right =>
    obtain ⟨action, t, hright, ht⟩ := h.right hat hcol (hkeeps line hat.1 r hat.2)
    exact ⟨t, by rw [Editor.press, hright, Option.map_some], ht⟩
  | up =>
    obtain ⟨action, t, hup, ht⟩ := h.up hkeeps
    exact ⟨t, by rw [Editor.press, hup, Option.map_some], ht⟩
  | down =>
    obtain ⟨action, t, hdown, ht⟩ := h.down hkeeps
    exact ⟨t, by rw [Editor.press, hdown, Option.map_some], ht⟩
  | toggleInsert => exact ⟨_, rfl, h.numbered, h.filled, h.ltr, h.tr, line, r, hat, hcol⟩
  | typed c =>
    by_cases hc : c = 0
    · exact ⟨s, by rw [Editor.press, if_pos hc], h⟩
    · exact h.typed hat hcol hc (hkeeps hc line hat.1 r hat.2)

/-! ### Sessions -/

theorem inv_start {b : List UInt8} {text : List Line} (hload : loadFile b = some text) : Inv (start text) := by
  obtain ⟨text', hload', -, hfilled, hnumbered, hne⟩ := loadFile_spec b
  obtain rfl := Option.some.inj (hload.symm.trans hload')
  obtain ⟨line, lines, rfl⟩ := List.exists_cons_of_ne_nil hne
  have hfirst : (start (line :: lines)).text[(start (line :: lines)).cursorLine]? = some line := rfl
  refine inv_of_cursor hnumbered hfilled rfl hfirst (by simp [start]) ?_ (Nat.zero_le _)
  show 0 / bufferSize < _
  rw [Nat.zero_div]
  exact List.length_pos_of_ne_nil (FilledRegions.ne_nil (hfilled line List.mem_cons_self))

/-- In a session on a loaded file whose keys all meet their conditions the cursor is right in every state, and
the next key that meets its condition leads to a state in which it is right again. -/
theorem cursorOk_of_run {b : List UInt8} {text : List Line} {keys : List Key} (hload : loadFile b = some text)
    (hrun : Transition.Run KeptStep (start text) keys s) :
    s.CursorOk ∧ ∀ key, s.KeepsCursor key → ∃ t, s.press key = some t ∧ t.CursorOk := by
  have hinv : Inv s := by
    refine hrun.invariant Inv (fun s key t hs hstep => ?_) (inv_start hload)
    obtain ⟨t', hpress, ht⟩ := hs.press hstep.1
    exact Option.some.inj (hpress.symm.trans hstep.2) ▸ ht
  refine ⟨hinv.cursorOk, fun key hkeeps => ?_⟩
  obtain ⟨t, hpress, ht⟩ := hinv.press hkeeps
  exact ⟨t, hpress, ht.cursorOk⟩

/-- A session on two lines: a byte goes in, the line is divided and another joined, and the cursor moves around. -/
theorem cursorOk_of_run_two_lines : ∃ text s, loadFile [97, 98, 13, 10, 99, 100, 101] = some text ∧
    Transition.exec press (fun s key => decide (s.KeepsCursor key)) (start text)
      [.right, .typed 120, .typed newline, .down, .right, .typed backspace, .toggleInsert, .typed 121, .up] = some s ∧
    s.text.length = 2 ∧ s.CursorOk := by
  have hfinal : ((loadFile [97, 98, 13, 10, 99, 100, 101]).bind fun text =>
      Transition.exec press (fun s key => decide (s.KeepsCursor key)) (start text)
        [.right, .typed 120, .typed newline, .down, .right, .typed backspace, .toggleInsert, .typed 121, .up]).map
      (fun s => s.text.length) = some 2 := by decide +kernel
  obtain ⟨s, hs, hlines⟩ := Option.map_eq_some_iff.mp hfinal
  obtain ⟨text, hload, hexec⟩ := Option.bind_eq_some_iff.mp hs
  have hrun := Transition.run_of_exec (fun s key t htest hstep =>
    (⟨of_decide_eq_true htest, hstep⟩ : KeptStep s key t)) hexec
  exact ⟨text, s, hload, hexec, hlines, (cursorOk_of_run hload hrun).1⟩

/-- From the second line of a file that is a newline alone, the key to the left goes two bytes in front of the
end of a line of one byte. -/
theorem left_of_short_line : ∃ text s, loadFile [newline] = some text ∧
    Transition.Run (fun s key t => s.press key = some t) (start text) [.right, .left] s ∧
    s.cursorCol = 2 ^ 32 - 1 ∧ ¬ s.CursorOk := by
  have hfinal : ((loadFile [newline]).bind fun text =>
      Transition.exec press (fun _ _ => true) (start text) [.right, .left]).map
      (fun s => (s.cursorCol, s.text[s.cursorLine]?.map Line.length)) = some (2 ^ 32 - 1, some 1) := by decide +kernel
  obtain ⟨s, hs, hparts⟩ := Option.map_eq_some_iff.mp hfinal
  obtain ⟨text, hload, hexec⟩ := Option.bind_eq_some_iff.mp hs
  obtain ⟨hcol, hlength⟩ := Prod.mk.inj hparts
  refine ⟨text, s, hload, Transition.run_of_exec (fun _ _ _ _ h => h) hexec, hcol, ?_⟩
  rintro ⟨-, -, line, r, hat, -, hle⟩
  rw [hat.1, Option.map_some, Option.some.injEq] at hlength
  omega

end Editor

end Akos.Tedit
