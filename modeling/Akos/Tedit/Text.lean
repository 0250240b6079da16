import Akos.Lib.Filled

/-!
# The text of the editor

`tedit.c` keeps a file as a list of lines, each a list of regions of 128 bytes. `load_file` puts the bytes of
the file in one by one and `write_file` hands the regions out again.
-/

namespace Akos.Tedit

/-- `TEXT_REGION_BUFFER_SIZE` -/
abbrev bufferSize : Nat := 128

/-- `'\n'` -/
abbrev newline : UInt8 := 10

/-- `TextRegion`; the list it stands in is its `prev` and `next`. -/
structure Region where
  buffer : Nat → UInt8
  pos : Nat

/-- `LineTextRegion`: the region `r` in front and the regions behind it. -/
structure Line where
  regions : List Region
  line : Nat

namespace Region

/-- `alloc_text_region` -/
def empty : Region := ⟨fun _ => 0, 0⟩

/-- The bytes a region holds. -/
def bytes (r : Region) : List UInt8 := (List.range r.pos).map r.buffer

/-- `buffer[pos++] = c` -/
def put (r : Region) (c : UInt8) : Region := ⟨Function.update r.buffer r.pos c, r.pos + 1⟩

theorem length_bytes (r : Region) : r.bytes.length = r.pos := by
  rw [bytes, List.length_map, List.length_range]

theorem bytes_put (r : Region) (c : UInt8) : (r.put c).bytes = r.bytes ++ [c] := by
  have hkept : (List.range r.pos).map (Function.update r.buffer r.pos c) = (List.range r.pos).map r.buffer :=
    List.map_congr_left fun i hi => Function.update_of_ne (Nat.ne_of_lt (List.mem_range.mp hi)) _ _
  rw [put, bytes, bytes]
  dsimp only
  rw [List.range_succ, List.map_append, List.map_singleton, Function.update_self, hkept]

end Region

/-- Puts a byte into the last region and a new region behind one that is full. A byte behind the end of the
buffer is not the text's. -/
def pushByte (c : UInt8) : List Region → Option (List Region)
  | [] => none
  | [r] =>
    if r.pos < bufferSize then
      some (if (r.put c).pos = bufferSize then [r.put c, Region.empty] else [r.put c])
    else none
  | r :: r' :: rs => (pushByte c (r' :: rs)).map (r :: ·)

def pushBytes (bs : List UInt8) (rs : List Region) : Option (List Region) := bs.foldlM (fun rs c => pushByte c rs) rs

/-- `alloc_line_text_region` -/
def Line.empty (line : Nat) : Line := ⟨[Region.empty], line⟩

/-- The lines behind `load_file` and the one it is in. -/
structure Loading where
  before : List Line
  current : Line

/-- The body of the loop of `load_file`. -/
def loadByte (s : Loading) (c : UInt8) : Option Loading :=
  (pushByte c s.current.regions).map fun regions =>
    if c = newline then ⟨s.before ++ [{ s.current with regions }], Line.empty (s.current.line + 1)⟩
    else { s with current := { s.current with regions } }

/-- `load_file` on the bytes `fread` delivers. `calloc` has memory for the text. -/
def loadFile (b : List UInt8) : Option (List Line) :=
  (b.foldlM loadByte ⟨[], Line.empty 0⟩).map fun s => s.before ++ [s.current]

/-- The bytes of each `fwrite` of `write_file`. -/
def writeFile (text : List Line) : List (List UInt8) :=
  text.flatMap fun line => line.regions.map Region.bytes

def regionSizes (rs : List Region) : List Nat := rs.map Region.pos

def regionBytes (rs : List Region) : List UInt8 := (rs.map Region.bytes).flatten

/-- Every region except the last of its line is full. -/
def Line.Filled (line : Line) : Prop := Akos.Filled bufferSize (regionSizes line.regions)

/-- The lines carry the numbers 0, 1, 2, and so on. -/
def Numbered (text : List Line) : Prop := ∀ i (h : i < text.length), text[i].line = i

@[simp] theorem Region.pos_put (r : Region) (c : UInt8) : (r.put c).pos = r.pos + 1 := rfl

@[simp] theorem Region.bytes_empty : Region.empty.bytes = [] := rfl

/-! ### Pushing -/

section Push

variable {rs rs' : List Region} {r : Region} {c : UInt8} {bs : List UInt8}

theorem pushByte_concat (c : UInt8) (init : List Region) (r : Region) :
    pushByte c (init ++ [r]) = (pushByte c [r]).map (init ++ ·) := by
  induction init with
  | nil => simp
  | cons r' init ih =>
    have hcons : pushByte c (r' :: (init ++ [r])) = (pushByte c (init ++ [r])).map (r' :: ·) := by
      cases init <;> rfl
    rw [List.cons_append, hcons, ih, Option.map_map]
    rfl

/-- All regions but the last are full, and the last is not. -/
def HasRoom (rs : List Region) : Prop :=
  ∃ init r, rs = init ++ [r] ∧ (∀ r' ∈ init, r'.pos = bufferSize) ∧ r.pos < bufferSize

theorem hasRoom_empty : HasRoom [Region.empty] := ⟨[], Region.empty, rfl, (fun _ h => by cases h), by decide⟩

theorem filled_concat {init : List Region} (hinit : ∀ r' ∈ init, r'.pos = bufferSize) (hr : r.pos ≤ bufferSize) :
    Akos.Filled bufferSize (regionSizes (init ++ [r])) := by
  rw [regionSizes, List.map_append, List.map_singleton, Filled.concat_iff, List.forall_mem_map]
  exact ⟨hinit, hr⟩

/-- A region that is not the last one of a filled line is full. -/
theorem full_of_filled (h : Akos.Filled bufferSize (regionSizes rs)) {i : Nat} {hi : i < rs.length}
    (hlt : i + 1 < rs.length) : rs[i].pos = bufferSize := by
  have hsize := h.getElem_of_lt (i := i) (by rwa [regionSizes, List.length_map])
  exact (List.getElem_map Region.pos).symm.trans hsize

theorem HasRoom.filled (h : HasRoom rs) : Akos.Filled bufferSize (regionSizes rs) := by
  obtain ⟨init, r, rfl, hinit, hr⟩ := h
  exact filled_concat hinit (Nat.le_of_lt hr)

/-- A byte goes in behind the others, and there is room again. -/
theorem pushByte_of_hasRoom (c : UInt8) (h : HasRoom rs) :
    ∃ rs', pushByte c rs = some rs' ∧ HasRoom rs' ∧ regionBytes rs' = regionBytes rs ++ [c] := by
  obtain ⟨init, r, rfl, hinit, hr⟩ := h
  rw [pushByte_concat, pushByte, if_pos hr]
  by_cases hfull : (r.put c).pos = bufferSize
  · rw [if_pos hfull]
    refine ⟨_, rfl, ⟨init ++ [r.put c], Region.empty, by simp, ?_, by decide⟩, ?_⟩
    · exact List.forall_mem_append.mpr ⟨hinit, by simpa using hfull⟩
    · simp [regionBytes, Region.bytes_put]
  · rw [if_neg hfull]
    refine ⟨_, rfl, ⟨init, r.put c, rfl, hinit, ?_⟩, by simp [regionBytes, Region.bytes_put]⟩
    exact Nat.lt_of_le_of_ne hr hfull

theorem pushBytes_of_hasRoom (h : HasRoom rs) :
    ∃ rs', pushBytes bs rs = some rs' ∧ HasRoom rs' ∧ regionBytes rs' = regionBytes rs ++ bs := by
  induction bs generalizing rs with
  | nil => exact ⟨rs, rfl, h, by simp⟩
  | cons c bs ih =>
    obtain ⟨rs₁, hpush, hroom, hbytes⟩ := pushByte_of_hasRoom c h
    obtain ⟨rs₂, hrest, hroom', hbytes'⟩ := ih hroom
    refine ⟨rs₂, ?_, hroom', ?_⟩
    · rw [pushBytes, List.foldlM_cons, hpush]
      exact hrest
    · rw [hbytes', hbytes, List.append_assoc, List.singleton_append]

end Push

/-! ### Loading -/

/-- What holds of the text while it is loaded. -/
structure Loading.Inv (s : Loading) (b : List UInt8) : Prop where
  bytes : (writeFile (s.before ++ [s.current])).flatten = b
  filled : ∀ line ∈ s.before, line.Filled
  room : HasRoom s.current.regions
  numbered : Numbered (s.before ++ [s.current])

theorem writeFile_concat (text : List Line) (line : Line) :
    (writeFile (text ++ [line])).flatten = (writeFile text).flatten ++ regionBytes line.regions := by
  rw [writeFile, List.flatMap_append, List.flatten_append, List.flatMap_singleton]
  rfl

theorem numbered_concat {text : List Line} {line : Line} :
    Numbered (text ++ [line]) ↔ Numbered text ∧ line.line = text.length := by
  refine ⟨fun h => ⟨fun i hi => ?_, ?_⟩, fun h i hi => ?_⟩
  · have hnumber := h i (by rw [List.length_append]; omega)
    rwa [List.getElem_append_left hi] at hnumber
  · have hnumber := h text.length (by simp)
    simpa using hnumber
  · obtain ⟨htext, hline⟩ := h
    rw [List.length_append, List.length_singleton] at hi
    obtain hlt | rfl := Nat.lt_succ_iff_lt_or_eq.mp hi
    · rw [List.getElem_append_left hlt, htext i hlt]
    · simpa using hline

theorem loadByte_inv {s : Loading} {b : List UInt8} (h : s.Inv b) (c : UInt8) :
    ∃ t, loadByte s c = some t ∧ t.Inv (b ++ [c]) := by
  obtain ⟨regions, hpush, hroom, hbytes⟩ := pushByte_of_hasRoom c h.room
  obtain ⟨hbefore, hcurrent⟩ := numbered_concat.mp h.numbered
  have hwritten : (writeFile (s.before ++ [{ s.current with regions }])).flatten = b ++ [c] := by
    rw [writeFile_concat, hbytes, ← List.append_assoc, ← writeFile_concat, h.bytes]
  have hnumbered : Numbered (s.before ++ [{ s.current with regions }]) := numbered_concat.mpr ⟨hbefore, hcurrent⟩
  rw [loadByte, hpush, Option.map_some]
  by_cases hnewline : c = newline
  · rw [if_pos hnewline]
    refine ⟨_, rfl, ?_, ?_, hasRoom_empty, ?_⟩
    · rw [writeFile_concat, hwritten]
      exact List.append_nil _
    · exact List.forall_mem_append.mpr ⟨h.filled, List.forall_mem_singleton.mpr hroom.filled⟩
    · refine numbered_concat.mpr ⟨hnumbered, ?_⟩
      rw [List.length_append, List.length_singleton, ← hcurrent]
      rfl
  · rw [if_neg hnewline]
    exact ⟨_, rfl, hwritten, h.filled, hroom, hnumbered⟩

theorem inv_start : (⟨[], Line.empty 0⟩ : Loading).Inv [] := by
  refine ⟨rfl, (fun _ h => by cases h), hasRoom_empty,
    numbered_concat.mpr ⟨fun i hi => absurd hi (Nat.not_lt_zero i), rfl⟩⟩

theorem foldlM_loadByte {s : Loading} {b : List UInt8} (h : s.Inv b) (rest : List UInt8) :
    ∃ t, rest.foldlM loadByte s = some t ∧ t.Inv (b ++ rest) := by
  induction rest generalizing s b with
  | nil => exact ⟨s, rfl, by rwa [List.append_nil]⟩
  | cons c rest ih =>
    obtain ⟨t, hbyte, ht⟩ := loadByte_inv h c
    obtain ⟨u, hrest, hu⟩ := ih ht
    refine ⟨u, ?_, by rwa [List.append_assoc] at hu⟩
    rw [List.foldlM_cons, hbyte]
    exact hrest

/-- `load_file` leaves no byte outside a buffer; its text is filled and numbered, and holds the file. -/
theorem loadFile_spec (b : List UInt8) : ∃ text, loadFile b = some text ∧
    (writeFile text).flatten = b ∧ (∀ line ∈ text, line.Filled) ∧ Numbered text ∧ text ≠ [] := by
  obtain ⟨s, hload, hs⟩ := foldlM_loadByte inv_start b
  refine ⟨s.before ++ [s.current], ?_, hs.bytes, ?_, hs.numbered, by simp⟩
  · rw [loadFile, hload, Option.map_some]
  · exact List.forall_mem_append.mpr ⟨hs.filled, List.forall_mem_singleton.mpr hs.room.filled⟩

end Akos.Tedit
