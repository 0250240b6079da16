import Akos.Tedit.Lines

/-!
# A character goes into a line

The loops of `append_at_position` on a character that is no end of line, one byte after the other, with a check on
every write. A byte goes one place up in its region, and the last one of a full region to the start of the next.
-/

namespace Akos.Tedit

/-- `buffer[i] = c`, unless that is behind the buffer. -/
def Region.store (i : Nat) (c : UInt8) (r : Region) : Option Region :=
  if i < bufferSize then some (r.setByte i c) else none

/-- The body of the loops: byte `i` of the region in front goes one place up. -/
def moveByte (i : Nat) : List Region → Option (List Region)
  | [] => none
  | [r] => if i + 1 ≠ bufferSize then (r.store (i + 1) (r.buffer i)).map ([·]) else none
  | r :: r' :: rs =>
    if i + 1 ≠ bufferSize then (r.store (i + 1) (r.buffer i)).map (· :: r' :: rs)
    else (r'.store 0 (r.buffer i)).map (r :: · :: rs)

/-- `for (int i = n - 1; i >= k; i--)` -/
def moveBytes (k : Nat) : Nat → List Region → Option (List Region)
  | 0, rs => some rs
  | n + 1, rs => if n < k then some rs else (moveByte n rs).bind (moveBytes k n)

/-- The loop over the regions, from the last one to the one at the cursor. -/
def moveRegions (k : Nat) : List Region → Option (List Region)
  | [] => some []
  | r :: rs => (moveRegions 0 rs).bind fun rs => moveBytes k r.pos (r :: rs)

/-- `append_at_position` on the regions of a line, of which number `tr` is the one at the cursor. -/
def appendCharacter (line : List Region) (tr cursorCol : Nat) (c : UInt8) : Option (List Region) := do
  let moved ← moveRegions (cursorCol % bufferSize) (grow (line.drop tr))
  match moved with
  | [] => none
  | r :: rs =>
    let r ← r.store (cursorCol % bufferSize) c
    some (line.take tr ++ (r :: rs).modifyLast fun r => { r with pos := r.pos + 1 })

variable {rs : List Region} {r : Region} {k n : Nat} {c : UInt8}

/-! ### The loops stay in the buffers -/

theorem moveByte_of_lt (hn : n + 1 < bufferSize) :
    moveByte n (r :: rs) = some (r.setByte (n + 1) (r.buffer n) :: rs) := by
  have hne : n + 1 ≠ bufferSize := Nat.ne_of_lt hn
  cases rs <;> rw [moveByte, if_pos hne, Region.store, if_pos hn] <;> rfl

/-- What the loop over a region has done when it comes down to byte `k`. -/
theorem moveBytes_cons (hn : n ≤ bufferSize) (hrs : n = bufferSize → rs ≠ []) (hk : k < bufferSize) :
    moveBytes k n (r :: rs) = some
      ({ r with buffer := fun i => if k < i ∧ i ≤ n ∧ i < bufferSize then r.buffer (i - 1) else r.buffer i } ::
        if n = bufferSize then rs.modifyHead (Region.setByte 0 (r.buffer (bufferSize - 1))) else rs) := by
  induction n generalizing r rs with
  | zero =>
    have hnone : ∀ i, ¬ (k < i ∧ i ≤ 0 ∧ i < bufferSize) := by omega
    simp only [moveBytes, hnone, if_false]
    rfl
  | succ n ih =>
    rw [moveBytes]
    by_cases hdone : n < k
    · have hnone : ∀ i, ¬ (k < i ∧ i ≤ n + 1 ∧ i < bufferSize) := by omega
      rw [if_pos hdone, if_neg (show ¬ n + 1 = bufferSize by omega)]
      simp only [hnone, if_false]
    rw [if_neg hdone]
    obtain hlt | hlast := Nat.lt_or_eq_of_le hn
    · rw [moveByte_of_lt hlt, Option.bind_some, ih (Nat.le_of_lt (Nat.lt_of_succ_lt hlt)) (by omega),
        if_neg (show ¬ n = bufferSize by omega), if_neg (Nat.ne_of_lt hlt)]
      refine congrArg (fun buffer => some (({ r with buffer } : Region) :: rs)) (funext fun i => ?_)
      rw [Region.setByte]
      dsimp only
      by_cases hi : i = n + 1
      · subst hi
        rw [if_neg (by omega), if_pos (by omega), Function.update_self]
        rfl
      · rw [Function.update_of_ne hi]
        by_cases hin : k < i ∧ i ≤ n ∧ i < bufferSize
        · rw [if_pos hin, if_pos (by omega), Function.update_of_ne (by omega)]
        · rw [if_neg hin, if_neg (by omega)]
    · -- the last byte of a full region
      obtain ⟨r', rs, rfl⟩ := List.exists_cons_of_ne_nil (hrs hlast)
      have hn' : n = bufferSize - 1 := by omega
      rw [moveByte, if_neg (not_not_intro hlast), Region.store, if_pos (by decide), Option.map_some, Option.bind_some,
        ih (by omega) (by omega), if_neg (show ¬ n = bufferSize by omega), if_pos hlast, hn']
      refine congrArg (fun buffer => some (({ r with buffer } : Region) :: _)) (funext fun i => ?_)
      exact if_congr (by omega) rfl rfl

theorem FilledRegions.tail (h : FilledRegions (r :: rs)) (hne : rs ≠ []) : r.pos = bufferSize ∧ FilledRegions rs := by
  obtain ⟨hfull, hrest⟩ := (@filledRegions_append_iff rs [r] hne).mp h
  exact ⟨hfull r (List.mem_singleton_self r), hrest⟩

theorem FilledRegions.pos_le (h : FilledRegions (r :: rs)) : r.pos ≤ bufferSize := by
  by_cases hne : rs = []
  · subst hne
    exact Filled.singleton_iff.mp h
  · exact Nat.le_of_eq (h.tail hne).1

/-- The loops over the regions do what `shiftUp` says, and write no byte behind a buffer. -/
theorem moveRegions_eq (hfilled : FilledRegions rs) (hroom : ∀ last ∈ rs.getLast?, last.pos < bufferSize)
    (hk : k < bufferSize) : moveRegions k rs = some (shiftUp k rs) := by
  induction rs generalizing k with
  | nil => rfl
  | cons r rs ih =>
    have hrest : moveRegions 0 rs = some (shiftUp 0 rs) := by
      by_cases hne : rs = []
      · rw [hne]
        rfl
      · refine ih (hfilled.tail hne).2 (fun last hlast => hroom last ?_) (by decide)
        rw [List.getLast?_cons_of_ne_nil hne]
        exact hlast
    have hbehind : r.pos = bufferSize → shiftUp 0 rs ≠ [] := by
      intro hfull hnil
      have hlength := length_eq_of_regionSizes (regionSizes_shiftUp 0 rs)
      rw [hnil, List.length_nil] at hlength
      obtain rfl := List.length_eq_zero_iff.mp hlength.symm
      exact absurd (hroom r rfl) (by omega)
    rw [moveRegions, hrest, Option.bind_some, moveBytes_cons hfilled.pos_le hbehind hk]
    rfl

/-! ### The text -/

/-- A byte put in front of place `k`, with those behind it one place up. -/
theorem map_range_insert (f : Nat → UInt8) (hk : k ≤ n) :
    (List.range (n + 1)).map (fun i => if i < k then f i else if i = k then c else f (i - 1))
      = ((List.range n).map f).take k ++ c :: ((List.range n).map f).drop k := by
  refine List.ext_getElem (by simp; omega) fun i hi hi' => ?_
  rw [List.length_map, List.length_range] at hi
  rw [List.getElem_map, List.getElem_range]
  have hfront : (((List.range n).map f).take k).length = k := by
    rw [List.length_take, List.length_map, List.length_range, Nat.min_eq_left hk]
  obtain hlt | rfl | hgt := Nat.lt_trichotomy i k
  · rw [if_pos hlt, List.getElem_append_left (by omega), List.getElem_take, List.getElem_map,
      List.getElem_range]
  · rw [if_neg (Nat.lt_irrefl i), if_pos rfl, List.getElem_append_right (by omega)]
    simp [Nat.min_eq_left hk]
  · rw [if_neg (by omega), if_neg (by omega), List.getElem_append_right (by omega)]
    simp only [List.length_take, List.length_map, List.length_range, Nat.min_eq_left hk]
    rw [List.getElem_cons, dif_neg (by omega), List.getElem_drop, List.getElem_map, List.getElem_range]
    exact congrArg f (by omega)

theorem grow_cons (hne : rs ≠ []) : grow (r :: rs) = r :: grow rs := by
  cases rs with
  | nil => exact absurd rfl hne
  | cons r' rs => rfl

theorem grow_ne_nil (hne : rs ≠ []) : grow rs ≠ [] := by
  obtain ⟨init, last, rfl⟩ := List.eq_nil_or_concat' rs |>.resolve_left hne
  rw [grow_concat, grow]
  split <;> simp

/-- A full region hands its last byte to the next one. -/
theorem insertByte_cons (hfull : r.pos = bufferSize) (hne : rs ≠ []) :
    insertByte k c (r :: rs) = (r.shiftUp k).setByte k c :: insertByte 0 (r.buffer (bufferSize - 1)) rs := by
  have hmoved : (shiftUp 0 (grow rs)).modifyHead (Region.setByte 0 (r.buffer (bufferSize - 1))) ≠ [] := by
    intro hnil
    have hlength := congrArg List.length hnil
    rw [List.length_modifyHead, length_eq_of_regionSizes (regionSizes_shiftUp 0 _)] at hlength
    exact grow_ne_nil hne (List.length_eq_zero_iff.mp hlength)
  rw [insertByte, grow_cons hne, shiftUp, if_pos hfull, List.modifyHead_cons, insertByte]
  exact List.modifyLast_append_of_right_ne_nil _ [_] _ hmoved

@[simp] theorem regionBytes_cons (r : Region) (rs : List Region) : regionBytes (r :: rs) = r.bytes ++ regionBytes rs :=
  rfl

@[simp] theorem regionBytes_nil : regionBytes [] = [] := rfl

theorem buffer_insert {i : Nat} (hpos : i ≤ r.pos) (hi : i < bufferSize) :
    ((r.shiftUp k).setByte k c).buffer i = if i < k then r.buffer i else if i = k then c else r.buffer (i - 1) := by
  rw [Region.setByte, Region.shiftUp]
  dsimp only
  by_cases hik : i = k
  · rw [hik, Function.update_self, if_neg (Nat.lt_irrefl k), if_pos rfl]
  · rw [Function.update_of_ne hik, if_neg hik]
    by_cases hbelow : i < k
    · rw [if_neg (by omega), if_pos hbelow]
    · rw [if_pos (by omega), if_neg hbelow]

/-- The bytes of a region and the byte it hands on. -/
theorem bytes_insert_full (hfull : r.pos = bufferSize) (hk : k < bufferSize) :
    ((r.shiftUp k).setByte k c).bytes ++ [r.buffer (bufferSize - 1)] = r.bytes.take k ++ c :: r.bytes.drop k := by
  rw [Region.bytes, Region.bytes, hfull, ← map_range_insert r.buffer (Nat.le_of_lt hk), List.range_succ,
    List.map_append, List.map_singleton, if_neg (by omega), if_neg (by omega),
    show ((r.shiftUp k).setByte k c).pos = bufferSize from hfull]
  refine congrArg (· ++ _) (List.map_congr_left fun i hi => ?_)
  have hlt := List.mem_range.mp hi
  exact buffer_insert (by omega) hlt

theorem regionBytes_insertByte_last (hr : r.pos < bufferSize) (hk : k ≤ r.pos) :
    regionBytes (insertByte k c [r]) = r.bytes.take k ++ c :: r.bytes.drop k := by
  rw [insertByte, grow, if_neg (Nat.ne_of_lt hr), shiftUp, if_neg (Nat.ne_of_lt hr), shiftUp, List.modifyHead_cons,
    ← List.nil_append [_], List.modifyLast_concat, List.nil_append, regionBytes_cons, regionBytes_nil,
    List.append_nil, Region.bytes, Region.bytes, ← map_range_insert r.buffer hk]
  refine List.map_congr_left fun i hi => ?_
  have hlt : i < r.pos + 1 := List.mem_range.mp hi
  exact buffer_insert (by omega) (by omega)

theorem regionBytes_insertByte_full (hfull : r.pos = bufferSize) (hk : k < bufferSize) (hne : rs ≠ [])
    (hrest : ∀ b, regionBytes (insertByte 0 b rs) = b :: regionBytes rs) :
    regionBytes (insertByte k c (r :: rs)) = (regionBytes (r :: rs)).take k ++ c :: (regionBytes (r :: rs)).drop k := by
  have hlength : r.bytes.length = bufferSize := r.length_bytes.trans hfull
  rw [insertByte_cons hfull hne, regionBytes_cons, regionBytes_cons, hrest, ← List.singleton_append,
    ← List.append_assoc, bytes_insert_full hfull hk, List.take_append_of_le_length (by omega),
    List.drop_append_of_le_length (by omega), List.append_assoc, List.cons_append]

/-- The byte goes in in front of place `k` of the regions' text. -/
theorem regionBytes_insertByte (h : FilledRegions rs) (hk : k < bufferSize) (hle : k ≤ (regionBytes rs).length) :
    regionBytes (insertByte k c rs) = (regionBytes rs).take k ++ c :: (regionBytes rs).drop k := by
  induction rs generalizing k c with
  | nil => exact absurd rfl h.ne_nil
  | cons r rs ih =>
    by_cases hne : rs = []
    · subst hne
      rw [regionBytes_cons, regionBytes_nil, List.append_nil] at hle ⊢
      obtain hlt | hfull := Nat.lt_or_eq_of_le h.pos_le
      · exact regionBytes_insertByte_last hlt (r.length_bytes ▸ hle)
      · -- a full last region gets an empty one behind it first
        have hgrown : insertByte k c [r] = insertByte k c [r, Region.empty] := by
          rw [insertByte, insertByte, grow, if_pos hfull]
          rfl
        rw [hgrown, regionBytes_insertByte_full hfull hk (List.cons_ne_nil _ _) fun b =>
          regionBytes_insertByte_last (by decide) (Nat.zero_le _)]
        have hbytes : regionBytes [r, Region.empty] = r.bytes := List.append_nil r.bytes
        rw [hbytes]
    · obtain ⟨hfull, hrest⟩ := h.tail hne
      refine regionBytes_insertByte_full hfull hk hne fun b => ?_
      exact ih hrest (by decide) (Nat.zero_le _)

/-! ### The line -/

theorem grow_hasRoom (h : FilledRegions rs) :
    FilledRegions (grow rs) ∧ ∀ last ∈ (grow rs).getLast?, last.pos < bufferSize := by
  obtain ⟨init, last, rfl, hinit, hlast⟩ := h.concat_cases
  rw [grow_concat, grow]
  by_cases hfull : last.pos = bufferSize
  · rw [if_pos hfull, ← List.singleton_append, ← List.append_assoc]
    refine ⟨filledRegions_concat_iff.mpr ⟨List.forall_mem_append.mpr ⟨hinit, ?_⟩, Nat.zero_le _⟩, ?_⟩
    · exact List.forall_mem_singleton.mpr hfull
    · rw [List.getLast?_concat]
      rintro _ ⟨⟩
      decide
  · rw [if_neg hfull, List.getLast?_concat]
    refine ⟨filledRegions_concat_iff.mpr ⟨hinit, hlast⟩, ?_⟩
    rintro _ ⟨⟩
    exact Nat.lt_of_le_of_ne hlast hfull

/-- Every write of the loops is in a buffer, and they put the byte in. -/
theorem appendCharacter_eq {line : List Region} {tr cursorCol : Nat} (h : FilledRegions (line.drop tr)) :
    appendCharacter line tr cursorCol c
      = some (line.take tr ++ insertByte (cursorCol % bufferSize) c (line.drop tr)) := by
  have hk : cursorCol % bufferSize < bufferSize := Nat.mod_lt _ (by decide)
  obtain ⟨hgrown, hroom⟩ := grow_hasRoom h
  rw [appendCharacter, moveRegions_eq hgrown hroom hk, insertByte]
  cases hmoved : shiftUp (cursorCol % bufferSize) (grow (line.drop tr)) with
  | nil =>
    have hlength := length_eq_of_regionSizes (regionSizes_shiftUp (cursorCol % bufferSize) (grow (line.drop tr)))
    rw [hmoved] at hlength
    exact absurd (List.length_eq_zero_iff.mp hlength.symm) (grow_ne_nil h.ne_nil)
  | cons r rs =>
    show (Region.store _ c r >>= _) = _
    rw [Region.store, if_pos hk]
    rfl

@[simp] theorem regionBytes_append (rs rs' : List Region) :
    regionBytes (rs ++ rs') = regionBytes rs ++ regionBytes rs' := by
  rw [regionBytes, List.map_append, List.flatten_append]
  rfl

/-- The region of a column is in the line, with full regions in front of it. -/
theorem FilledRegions.at_column {line : List Region} {cursorCol : Nat} (h : FilledRegions line)
    (hcol : cursorCol ≤ (regionBytes line).length) (htr : cursorCol / bufferSize < line.length) :
    ∃ before r next, line = before ++ r :: next ∧ line.take (cursorCol / bufferSize) = before ∧
      line.drop (cursorCol / bufferSize) = r :: next ∧ (∀ r' ∈ before, r'.pos = bufferSize) ∧
      FilledRegions (r :: next) ∧ (regionBytes before).length + cursorCol % bufferSize = cursorCol ∧
      cursorCol % bufferSize ≤ r.pos := by
  obtain ⟨r, next, hdrop⟩ := List.exists_cons_of_ne_nil (fun hnil =>
    Nat.not_le_of_lt htr (List.drop_eq_nil_iff.mp hnil))
  have hline : line = line.take (cursorCol / bufferSize) ++ r :: next := by rw [← hdrop, List.take_append_drop]
  have hlength : (line.take (cursorCol / bufferSize)).length = cursorCol / bufferSize := by
    rw [List.length_take, Nat.min_eq_left (Nat.le_of_lt htr)]
  generalize line.take (cursorCol / bufferSize) = before at hline hlength
  subst hline
  obtain ⟨hfull, hrest⟩ := (filledRegions_append_iff (List.cons_ne_nil r next)).mp h
  have hsplit : (regionBytes before).length + cursorCol % bufferSize = cursorCol := by
    rw [length_regionBytes, Filled.sum_init (forall_mem_regionSizes.mpr hfull), length_regionSizes, hlength]
    exact Nat.div_add_mod _ _
  refine ⟨before, r, next, rfl, rfl, hdrop, hfull, hrest, hsplit, ?_⟩
  by_cases hne : next = []
  · subst hne
    rw [regionBytes_append, List.length_append, regionBytes_cons, regionBytes_nil, List.append_nil, r.length_bytes]
      at hcol
    omega
  · rw [(hrest.tail hne).1]
    exact Nat.le_of_lt (Nat.mod_lt _ (by decide))

/-- The line that has the byte in front of a column of its text. -/
theorem insertByte_line {line : List Region} {cursorCol : Nat} (h : FilledRegions line)
    (hcol : cursorCol ≤ (regionBytes line).length) (htr : cursorCol / bufferSize < line.length) :
    FilledRegions (line.drop (cursorCol / bufferSize)) ∧
    FilledRegions (line.take (cursorCol / bufferSize) ++
      insertByte (cursorCol % bufferSize) c (line.drop (cursorCol / bufferSize))) ∧
    regionBytes (line.take (cursorCol / bufferSize) ++
        insertByte (cursorCol % bufferSize) c (line.drop (cursorCol / bufferSize)))
      = (regionBytes line).take cursorCol ++ [c] ++ (regionBytes line).drop cursorCol := by
  have hk : cursorCol % bufferSize < bufferSize := Nat.mod_lt _ (by decide)
  obtain ⟨before, r, next, rfl, htake, hdrop, hfull, hrest, hsplit, -⟩ := h.at_column hcol htr
  obtain ⟨hinserted, -⟩ := insertByte_spec hrest (cursorCol % bufferSize) c
  rw [htake, hdrop]
  refine ⟨hrest, (filledRegions_append_iff hinserted.ne_nil).mpr ⟨hfull, hinserted⟩, ?_⟩
  have hbelow : (regionBytes before).length ≤ cursorCol := by omega
  have hoffset : cursorCol - (regionBytes before).length = cursorCol % bufferSize := by omega
  rw [regionBytes_append, List.length_append] at hcol
  rw [regionBytes_append, regionBytes_append, regionBytes_insertByte hrest hk (by omega), List.take_append,
    List.drop_append, hoffset, List.take_of_length_le hbelow, List.drop_of_length_le hbelow, List.nil_append]
  simp only [List.append_assoc, List.singleton_append]

/-- A text of the one line `ab`, with the cursor in front of the `b`. -/
def shortText : Editor :=
  { Editor.start [⟨[(Region.empty.put 97).put 98], 0⟩] with cursorCol := 1 }

end Akos.Tedit
