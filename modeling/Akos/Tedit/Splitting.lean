import Akos.Tedit.Insertion

/-!
# A line is split

An end of line typed into a line of the text `load_file` builds: the bytes from the cursor on go into a line of
their own, and CR LF is put behind those in front of it.
-/

namespace Akos.Tedit

/-- The shape of a text that `load_file` builds. -/
structure Loaded (text : List Line) : Prop where
  room : ∀ line ∈ text, HasRoom line.regions
  numbered : Numbered text
  ended : ∀ line ∈ text.dropLast, ∃ t, regionBytes line.regions = t ++ [newline] ∧ newline ∉ t
  unended : ∀ line ∈ text.getLast?, newline ∉ regionBytes line.regions

/-- A line's text without CR LF or LF at its end. -/
def withoutEnd (t : List UInt8) : List UInt8 :=
  if t.getLast? = some newline then
    if t.dropLast.getLast? = some carriageReturn then t.dropLast.dropLast else t.dropLast
  else t

/-- The loop that copies the bytes from `k` on to the start of a new region. -/
def copyTail (k : Nat) (r : Region) : Option Region :=
  ((List.range (r.pos - k)).foldlM (fun new j => Region.store j (r.buffer (k + j)) new) Region.empty).map fun new =>
    { new with pos := sub32 r.pos k }

/-- `append_at_position` on an end of line: the line of the region at the cursor and the new one behind it. -/
def splitLine (line : List Region) (tr cursorCol : Nat) : Option (List Region × List Region) :=
  match line.drop tr with
  | [] => none
  | r :: next => do
    let new ← copyTail (cursorCol % bufferSize) r
    let new ← pushBytes (regionBytes next) [new]
    let r ← endLine (cursorCol % bufferSize) r
    some (line.take tr ++ [r], new)

/-- The line at the cursor becomes two, the other lines only get their numbers, and no byte is written behind a
buffer. -/
def SplitsLine (s : Editor) (line : Line) : Prop :=
  ∃ front back, splitLine line.regions (s.cursorCol / bufferSize) s.cursorCol = some (front, back) ∧
    s.appendAtPosition newline = some (true, { s with
      text := s.text.take s.ltr ++ { line with regions := front } :: ⟨back, line.line + 1⟩ ::
        (s.text.drop (s.ltr + 1)).map fun l => { l with line := l.line + 1 } }) ∧
    regionBytes front = (regionBytes line.regions).take s.cursorCol ++ [carriageReturn, newline] ∧
    regionBytes back = (regionBytes line.regions).drop s.cursorCol ∧ FilledRegions front ∧ FilledRegions back

/-! ### What `load_file` builds -/

section Load

variable {s t : Loading} {b : List UInt8} {text : List Line}

/-- The lines behind `load_file` are ended, and the one it is in is not. -/
structure Loading.Shape (s : Loading) : Prop where
  room : ∀ line ∈ s.before, HasRoom line.regions
  ended : ∀ line ∈ s.before, ∃ t, regionBytes line.regions = t ++ [newline] ∧ newline ∉ t
  current : HasRoom s.current.regions
  unended : newline ∉ regionBytes s.current.regions

theorem Loading.Shape.loadByte (h : s.Shape) {c : UInt8} (hload : loadByte s c = some t) : t.Shape := by
  obtain ⟨regions, hpush, hroom, hbytes⟩ := pushByte_of_hasRoom c h.current
  rw [Tedit.loadByte, hpush, Option.map_some, Option.some.injEq] at hload
  subst hload
  by_cases hnewline : c = newline
  · rw [if_pos hnewline]
    refine ⟨List.forall_mem_append.mpr ⟨h.room, List.forall_mem_singleton.mpr hroom⟩,
      List.forall_mem_append.mpr ⟨h.ended, List.forall_mem_singleton.mpr ?_⟩, hasRoom_empty, by simp [Line.empty]⟩
    exact ⟨_, hnewline ▸ hbytes, h.unended⟩
  · rw [if_neg hnewline]
    refine ⟨h.room, h.ended, hroom, ?_⟩
    rw [hbytes, List.mem_append, List.mem_singleton, not_or]
    exact ⟨h.unended, Ne.symm hnewline⟩

theorem Loading.Shape.foldlM (h : s.Shape) (hload : b.foldlM Tedit.loadByte s = some t) : t.Shape := by
  induction b generalizing s with
  | nil =>
    obtain rfl := Option.some.inj hload
    exact h
  | cons c b ih =>
    rw [List.foldlM_cons] at hload
    obtain ⟨u, hbyte, hrest⟩ := Option.bind_eq_some_iff.mp hload
    exact ih (h.loadByte hbyte) hrest

theorem loaded_of_loadFile (hload : loadFile b = some text) : Loaded text := by
  obtain ⟨text', hload', -, -, hnumbered, -⟩ := loadFile_spec b
  obtain rfl := Option.some.inj (hload'.symm.trans hload)
  obtain ⟨s, hfold, rfl⟩ := Option.map_eq_some_iff.mp hload
  have hstart : (⟨[], Line.empty 0⟩ : Loading).Shape :=
    ⟨(fun _ h => by cases h), (fun _ h => by cases h), hasRoom_empty, by simp [Line.empty]⟩
  have hshape := hstart.foldlM hfold
  refine ⟨List.forall_mem_append.mpr ⟨hshape.room, List.forall_mem_singleton.mpr hshape.current⟩, hnumbered, ?_, ?_⟩
  · rw [List.dropLast_concat]
    exact hshape.ended
  · rw [List.getLast?_concat]
    rintro _ ⟨⟩
    exact hshape.unended

end Load

/-! ### The two lines -/

variable {line : List Region} {rs next : List Region} {r : Region} {k n : Nat}

theorem length_withoutEnd_le (t : List UInt8) : (withoutEnd t).length ≤ t.length := by
  rw [withoutEnd]
  split_ifs <;> (simp; try omega)

/-- The bytes copied one after the other to the start of a new region. -/
theorem foldlM_store (f : Nat → UInt8) (hn : n ≤ bufferSize) :
    (List.range n).foldlM (fun new j => Region.store j (f j) new) Region.empty
      = some ⟨fun j => if j < n then f j else 0, 0⟩ := by
  induction n with
  | zero =>
    simp only [Nat.not_lt_zero, if_false]
    rfl
  | succ n ih =>
    have hlt : n < bufferSize := hn
    rw [List.range_succ, List.foldlM_append, ih (Nat.le_of_succ_le hn), Option.bind_eq_bind, Option.bind_some,
      List.foldlM_cons, Region.store, if_pos hlt]
    refine congrArg (fun buffer => some (⟨buffer, 0⟩ : Region)) (funext fun j => ?_)
    by_cases hj : j = n
    · rw [hj, Function.update_self, if_pos (Nat.lt_succ_self n)]
    · rw [Function.update_of_ne hj]
      exact if_congr (by omega) rfl rfl

theorem copyTail_eq (hk : k ≤ r.pos) (hr : r.pos ≤ bufferSize) :
    copyTail k r = some ⟨fun j => if k + j < r.pos then r.buffer (k + j) else 0, sub32 r.pos k⟩ := by
  rw [copyTail, foldlM_store _ (Nat.le_trans (Nat.sub_le _ _) hr), Option.map_some]
  refine congrArg (fun buffer => some (⟨buffer, sub32 r.pos k⟩ : Region)) (funext fun j => ?_)
  exact if_congr (by omega) rfl rfl

/-- What is copied are the bytes of the region from `k` on. -/
theorem bytes_copyTail (hk : k ≤ r.pos) :
    Region.bytes ⟨fun j => if k + j < r.pos then r.buffer (k + j) else 0, sub32 r.pos k⟩ = r.bytes.drop k := by
  rw [Region.bytes, Region.bytes, sub32, if_pos hk]
  dsimp only
  refine List.ext_getElem (by simp) fun i hi hi' => ?_
  rw [List.length_map, List.length_range] at hi
  rw [List.getElem_map, List.getElem_range, List.getElem_drop, List.getElem_map, List.getElem_range]
  exact if_pos (by omega)

/-- The new line, unless bytes follow a full region that is copied as a whole. -/
theorem splitOff_eq_some (hk : k ≤ r.pos) (hfits : r.pos - k < bufferSize ∨ regionBytes next = [])
    (hr : r.pos ≤ bufferSize) :
    ∃ rs, splitOff k r next = some rs ∧ FilledRegions rs ∧ regionBytes rs = r.bytes.drop k ++ regionBytes next := by
  have hbytes := bytes_copyTail hk
  have hpos : sub32 r.pos k = r.pos - k := if_pos hk
  rw [splitOff]
  generalize hnew : (⟨fun j => if k + j < r.pos then r.buffer (k + j) else 0, sub32 r.pos k⟩ : Region) = new at *
  have hnewpos : new.pos = r.pos - k := by rw [← hnew, hpos]
  obtain hlt | hnone := hfits
  · have hroom : HasRoom [new] := ⟨[], new, rfl, (fun _ h => by cases h), by rwa [hnewpos]⟩
    obtain ⟨rs, hpush, hrs, hrest⟩ := @pushBytes_of_hasRoom _ (regionBytes next) hroom
    refine ⟨rs, hpush, hrs.filled, ?_⟩
    rw [hrest, regionBytes_cons, regionBytes_nil, List.append_nil, hbytes]
  · rw [hnone]
    refine ⟨[new], rfl, Filled.singleton_iff.mpr (hnewpos ▸ Nat.le_trans (Nat.sub_le _ _) hr), ?_⟩
    rw [regionBytes_cons, regionBytes_nil, hbytes]

/-- The first byte behind a region copied as a whole would go behind the new buffer. -/
theorem splitOff_eq_none (hfull : r.pos = bufferSize) (hbytes : regionBytes next ≠ []) : splitOff 0 r next = none := by
  obtain ⟨b, bs, hb⟩ := List.exists_cons_of_ne_nil hbytes
  rw [splitOff, hb, hfull]
  rfl

theorem bytes_endLine (hk : k + 1 < bufferSize) (hle : k ≤ r.pos) :
    ∃ r', endLine k r = some r' ∧ r'.pos = k + 2 ∧ r'.bytes = r.bytes.take k ++ [carriageReturn, newline] := by
  have hkept : (List.range k).map (Function.update (Function.update r.buffer k carriageReturn) (k + 1) newline)
      = r.bytes.take k := by
    rw [Region.bytes, ← List.map_take, List.take_range, Nat.min_eq_left hle]
    refine List.map_congr_left fun i hi => ?_
    have hlt := List.mem_range.mp hi
    rw [Function.update_of_ne (by omega), Function.update_of_ne (by omega)]
  refine ⟨_, if_pos hk, rfl, ?_⟩
  rw [← hkept, Region.bytes, List.range_succ, List.range_succ, List.map_append, List.map_append, List.append_assoc]
  refine congrArg (_ ++ ·) ?_
  rw [List.map_singleton, List.map_singleton, List.singleton_append]
  dsimp only [Region.setByte]
  rw [Function.update_self, Function.update_of_ne (Nat.ne_of_lt (Nat.lt_succ_self k)), Function.update_self]

/-- The loops of the code, on a line whose regions are filled, are those of the editor's model. -/
theorem splitLine_eq {before : List Region} {tr cursorCol : Nat} (htake : line.take tr = before)
    (hdrop : line.drop tr = r :: next) (hk : cursorCol % bufferSize ≤ r.pos) (hr : r.pos ≤ bufferSize) :
    splitLine line tr cursorCol = (splitOff (cursorCol % bufferSize) r next).bind fun new =>
      (endLine (cursorCol % bufferSize) r).map fun r => (before ++ [r], new) := by
  rw [splitLine, hdrop, htake]
  dsimp only
  rw [copyTail_eq hk hr]
  show (pushBytes _ _ >>= _) = (pushBytes _ _).bind _
  refine bind_congr fun new => ?_
  rw [Option.bind_eq_bind, Option.map_eq_bind]
  rfl

/-! ### The text -/

theorem Editor.atRegion_eq {s : Editor} {line : Line} {before : List Region} {tr : Nat}
    (hline : s.text[s.ltr]? = some line) (htr : s.tr = some tr) (htake : line.regions.take tr = before)
    (hdrop : line.regions.drop tr = r :: next) : s.atRegion = some (line, before, r, next) := by
  rw [Editor.atRegion, hline, htr]
  show (match line.regions.drop tr with
    | [] => none
    | r :: next => some (line, line.regions.take tr, r, next)) = _
  rw [hdrop, htake]

/-- CR LF at the last place of a buffer ends behind it. -/
theorem splitLine_eq_none {tr cursorCol : Nat} (hlast : cursorCol % bufferSize = 127) :
    splitLine line tr cursorCol = none := by
  rw [splitLine]
  cases line.drop tr with
  | nil => rfl
  | cons r next =>
    dsimp only
    rw [hlast, endLine, if_neg (by decide)]
    cases copyTail 127 r with
    | none => rfl
    | some new =>
      show (pushBytes _ [new] >>= _) = none
      cases pushBytes (regionBytes next) [new] <;> rfl

variable {s : Editor} {line : Line} {before : List Region}

theorem splitsLine_of_fits (hline : s.text[s.ltr]? = some line) (htr : s.tr = some (s.cursorCol / bufferSize))
    (hregions : line.regions = before ++ r :: next) (htake : line.regions.take (s.cursorCol / bufferSize) = before)
    (hdrop : line.regions.drop (s.cursorCol / bufferSize) = r :: next) (hfull : ∀ r' ∈ before, r'.pos = bufferSize)
    (hsplit : (regionBytes before).length + s.cursorCol % bufferSize = s.cursorCol)
    (hk : s.cursorCol % bufferSize ≤ r.pos) (hpos : r.pos ≤ bufferSize)
    (hroom : s.cursorCol % bufferSize + 1 < bufferSize)
    (hfits : r.pos - s.cursorCol % bufferSize < bufferSize ∨ regionBytes next = []) : SplitsLine s line := by
  obtain ⟨back, hback, hbackFilled, hbackBytes⟩ := splitOff_eq_some hk hfits hpos
  obtain ⟨r', hend, hpos', hbytes'⟩ := bytes_endLine hroom hk
  have hbelow : (regionBytes before).length ≤ s.cursorCol := by omega
  have hoffset : s.cursorCol - (regionBytes before).length = s.cursorCol % bufferSize := by omega
  refine ⟨before ++ [r'], back, ?_, ?_, ?_, ?_, filledRegions_concat_iff.mpr ⟨hfull, by omega⟩, hbackFilled⟩
  · rw [splitLine_eq htake hdrop hk hpos, hback, hend]
    rfl
  · rw [Editor.appendAtPosition, if_neg (by decide), Editor.atRegion_eq hline htr htake hdrop]
    show (splitOff _ r next >>= fun regions => endLine _ r >>= _) = _
    rw [hback, hend]
    rfl
  · rw [hregions, regionBytes_append, regionBytes_append, regionBytes_cons, regionBytes_cons, regionBytes_nil,
      List.append_nil, hbytes', List.take_append, List.take_of_length_le hbelow, hoffset,
      List.take_append_of_le_length (by rwa [r.length_bytes]), List.append_assoc]
  · rw [hregions, regionBytes_append, regionBytes_cons, hbackBytes, List.drop_append, hoffset,
      List.drop_of_length_le hbelow, List.nil_append, List.drop_append_of_le_length (by rwa [r.length_bytes])]

/-- The text `ab` CR LF, with the cursor in front of the `b`. -/
def endedText : Editor :=
  { Editor.start [⟨[(((Region.empty.put 97).put 98).put 13).put 10], 0⟩, Line.empty 1] with cursorCol := 1 }

end Akos.Tedit
