import Akos.Tedit.Splitting
import Mathlib.Data.Finset.Lattice.Fold

/-!
# A character or an end of line is removed

`remove_at_position` on the text `load_file` builds, with the memory its regions are in: which regions are allocated,
and that none of those a line leads to has been freed.
-/

namespace Akos.Tedit

/-- `calloc`: a region of memory that is not in use. -/
structure Allocator where
  alloc : Finset Nat → Nat
  fresh : ∀ live, alloc live ∉ live

/-- A region and where it is in memory. -/
structure Node where
  address : Nat
  region : Region

/-- A line by its regions. -/
structure NodeLine where
  nodes : List Node
  line : Nat

/-- The text in memory: the lines the editor reaches, and the regions that are allocated. -/
structure Memory where
  text : List NodeLine
  live : Finset Nat

def NodeLine.regions (l : NodeLine) : List Region := l.nodes.map Node.region

def NodeLine.toLine (l : NodeLine) : Line := ⟨l.regions, l.line⟩

def NodeLine.addresses (l : NodeLine) : List Nat := l.nodes.map Node.address

/-- The bytes of each line. -/
def Memory.texts (s : Memory) : List (List UInt8) := s.text.map fun l => regionBytes l.regions

/-- The addresses are allocated, each once. -/
structure Owns (live : Finset Nat) (addresses : List Nat) : Prop where
  nodup : addresses.Nodup
  live : ∀ address ∈ addresses, address ∈ live

/-- The regions of the text are in allocated memory, each in its own. -/
def Memory.Allocated (s : Memory) : Prop := Owns s.live (s.text.flatMap NodeLine.addresses)

/-! ### The code -/

/-- The body of the loops on a character: byte `i` of a region is replaced by the one behind it. -/
def pullByte (i : Nat) (next : Option Region) (r : Region) : Option Region :=
  if i + 1 < bufferSize then r.store i (r.buffer (i + 1))
  else
    match next with
    | some r' => r.store i (r'.buffer 0)
    | none => some r

/-- `for (int i = k; i < tr->pos; i++)` -/
def pullBytes (k : Nat) (next : Option Region) (r : Region) : Option Region :=
  (List.range' k (r.pos - k)).foldlM (fun r i => pullByte i next r) r

/-- The loop over the regions from the one at the cursor on. -/
def pullNodes (k : Nat) : List Node → Option (List Node)
  | [] => some []
  | n :: ns => do
    let region ← pullBytes k (ns.head?.map Node.region) n.region
    let ns ← pullNodes 0 ns
    some ({ n with region } :: ns)

/-- A byte put behind the last one, and a new region behind one that is full. -/
def pushNode (a : Allocator) (c : UInt8) (live : Finset Nat) : List Node → Option (List Node × Finset Nat)
  | [] => none
  | [n] =>
    if n.region.pos < bufferSize then
      some (if (n.region.put c).pos = bufferSize then
        ([{ n with region := n.region.put c }, ⟨a.alloc live, Region.empty⟩], insert (a.alloc live) live)
      else ([{ n with region := n.region.put c }], live))
    else none
  | n :: n' :: ns => (pushNode a c live (n' :: ns)).map fun p => (n :: p.1, p.2)

def pushNodes (a : Allocator) (bs : List UInt8) (live : Finset Nat) (ns : List Node) :
    Option (List Node × Finset Nat) :=
  bs.foldlM (fun p c => pushNode a c p.2 p.1) (ns, live)

/-- The loop that copies the regions of a line behind those of the line in front and frees each. -/
def joinNodes (a : Allocator) (live : Finset Nat) (prev : List Node) : List Node → Option (List Node × Finset Nat)
  | [] => some (prev, live)
  | n :: ns => (pushNodes a n.region.bytes live prev).bind fun p => joinNodes a (p.2.erase n.address) p.1 ns

/-- `pos -= 2` and `pos--` on the last region, as `size_t`. -/
def cutLast (count : Nat) (ns : List Node) : List Node :=
  ns.modifyLast fun n => { n with region := { n.region with pos := sub32 n.region.pos count } }

/-- `remove_at_position` on region `tr` of line `ltr`. -/
def removeAtPosition (a : Allocator) (s : Memory) (ltr tr cursorCol : Nat) : Option (Bool × Memory) := do
  let line ← s.text[ltr]?
  if line.nodes.length ≤ tr then none
  else if cursorCol = 0 then
    if ltr = 0 then some (false, s)
    else do
      let prev ← s.text[ltr - 1]?
      let joined ← joinNodes a s.live (cutLast 2 prev.nodes) line.nodes
      let behind := (s.text.drop (ltr + 1)).map fun l => { l with line := sub32 l.line 1 }
      some (true, ⟨s.text.take (ltr - 1) ++ { prev with nodes := joined.1 } :: behind, joined.2⟩)
  else do
    let pulled ← pullNodes ((cursorCol - 1) % bufferSize) (line.nodes.drop tr)
    let nodes := line.nodes.take tr ++ pulled
    let last ← nodes.getLast?
    if last.region.pos = 0 then
      if 1 < nodes.length then
        some (true, ⟨s.text.set ltr { line with nodes := nodes.dropLast }, s.live.erase last.address⟩)
      else some (false, { s with text := s.text.set ltr { line with nodes } })
    else some (true, { s with text := s.text.set ltr { line with nodes := cutLast 1 nodes } })

/-! ### What it should do -/

/-- The lines without the character in front of the cursor, or without the end of the line in front. -/
def removed (texts : List (List UInt8)) (ltr cursorCol : Nat) : List (List UInt8) :=
  if cursorCol = 0 then
    if ltr = 0 then texts
    else texts.take (ltr - 1) ++ (withoutEnd (texts.getD (ltr - 1) []) ++ texts.getD ltr []) :: texts.drop (ltr + 1)
  else texts.set ltr ((texts.getD ltr []).take (cursorCol - 1) ++ (texts.getD ltr []).drop cursorCol)

/-- What is removed is the character in front of the cursor or the end of the line in front, no region that was
freed is left in the text, and no byte is written behind a buffer. -/
def Removes (a : Allocator) (s : Memory) (ltr cursorCol : Nat) : Prop :=
  ∃ action t, removeAtPosition a s ltr (cursorCol / bufferSize) cursorCol = some (action, t) ∧
    t.texts = removed s.texts ltr cursorCol ∧ (∀ line ∈ t.text, HasRoom line.regions) ∧ t.Allocated ∧
    (cursorCol = 0 → ltr = 0 → t = s)

/-- The condition on the line at the cursor and the one in front of it. -/
def RemovesKeeps (texts : List (List UInt8)) (ltr cursorCol : Nat) : Prop :=
  if cursorCol = 0 then
    ltr = 0 ∨ ∃ p, texts.getD (ltr - 1) [] = p ++ [carriageReturn, newline] ∧ 2 ≤ (p.length + 2) % bufferSize
  else
    (texts.getD ltr []).length % bufferSize ≠ 0 ∧
      (cursorCol % bufferSize = 0 → ∀ c ∈ ((texts.getD ltr []).drop cursorCol).take bufferSize,
        (texts.getD ltr [])[cursorCol - 1]? = some c)

/-! ### Bytes erased from a text -/

section Erase

variable {t : List UInt8} {i j : Nat}

theorem eraseIdx_zero_eq_iff {x : UInt8} {xs : List UInt8} (hj : j ≤ xs.length) :
    xs = (x :: xs).eraseIdx j ↔ ∀ c ∈ xs.take j, x = c := by
  induction j generalizing x xs with
  | zero => simp
  | succ j ih =>
    cases xs with
    | nil => simp at hj
    | cons y ys =>
      rw [List.eraseIdx_cons_succ, List.cons.injEq, ih (Nat.le_of_succ_le_succ hj), List.take_succ_cons,
        List.forall_mem_cons, eq_comm]
      refine and_congr_right fun hxy => ?_
      rw [hxy]

/-- Two bytes are erased to the same effect where all those from one to the other are the same. -/
theorem eraseIdx_eq_iff (hij : i ≤ j) (hj : j < t.length) :
    t.eraseIdx i = t.eraseIdx j ↔ ∀ c ∈ (t.drop (i + 1)).take (j - i), t[i]? = some c := by
  induction i generalizing t j with
  | zero =>
    cases t with
    | nil => simp at hj
    | cons x xs =>
      rw [List.eraseIdx_cons_zero, eraseIdx_zero_eq_iff (Nat.le_of_lt_succ hj)]
      simp
  | succ i ih =>
    cases t with
    | nil => simp at hj
    | cons x xs =>
      obtain ⟨j, rfl⟩ := Nat.exists_eq_succ_of_ne_zero (Nat.ne_of_gt (Nat.lt_of_lt_of_le (Nat.succ_pos i) hij))
      rw [List.eraseIdx_cons_succ, List.eraseIdx_cons_succ, List.cons.injEq, ih (Nat.le_of_succ_le_succ hij)
        (Nat.lt_of_succ_lt_succ hj), List.drop_succ_cons, List.getElem?_cons_succ, Nat.succ_sub_succ]
      exact and_iff_right rfl

end Erase

/-! ### The shift -/

section Shift

variable {rs next : List Region} {r : Region} {i k n : Nat} {ns : List Node}

/-- The byte behind byte `i`, which may be the first one of the next region. -/
def pulledByte (next : Option Region) (r : Region) (i : Nat) : UInt8 :=
  if i + 1 < bufferSize then r.buffer (i + 1) else (next.map fun r' => r'.buffer 0).getD (r.buffer i)

theorem pullByte_eq (next : Option Region) (hi : i < bufferSize) :
    pullByte i next r = some (r.setByte i (pulledByte next r i)) := by
  rw [pullByte.eq_def, pulledByte]
  by_cases hlast : i + 1 < bufferSize
  · rw [if_pos hlast, if_pos hlast, Region.store, if_pos hi]
  · rw [if_neg hlast, if_neg hlast]
    cases next with
    | none => exact congrArg (fun buffer => some ({ r with buffer } : Region)) (Function.update_eq_self i _).symm
    | some r' => exact if_pos hi

/-- What the loop over a region has done after `n` bytes. -/
theorem foldlM_pullByte (next : Option Region) (hn : k + n ≤ bufferSize) :
    (List.range' k n).foldlM (fun r i => pullByte i next r) r = some { r with
      buffer := fun i => if k ≤ i ∧ i < k + n then pulledByte next r i else r.buffer i } := by
  induction n with
  | zero =>
    have hnone : ∀ i, ¬ (k ≤ i ∧ i < k + 0) := by omega
    simp only [hnone, if_false]
    rfl
  | succ n ih =>
    have hlt : k + n < bufferSize := hn
    rw [List.range'_1_concat, List.foldlM_append, ih (Nat.le_of_lt hlt), Option.bind_eq_bind, Option.bind_some,
      List.foldlM_cons, pullByte_eq next hlt]
    refine congrArg (fun buffer => some ({ r with buffer } : Region)) (funext fun i => ?_)
    by_cases hi : i = k + n
    · rw [hi, Function.update_self, if_pos (by omega), pulledByte, pulledByte]
      dsimp only
      rw [if_neg (show ¬ (k ≤ k + n + 1 ∧ k + n + 1 < k + n) by omega),
        if_neg (show ¬ (k ≤ k + n ∧ k + n < k + n) by omega)]
    · rw [Function.update_of_ne hi]
      exact if_congr (by omega) rfl rfl

theorem pullBytes_eq (next : Option Region) (hr : r.pos ≤ bufferSize) (hk : k ≤ bufferSize) :
    pullBytes k next r = some (r.shiftDown k next) := by
  rw [pullBytes, foldlM_pullByte next (by omega), Region.shiftDown]
  refine congrArg (fun buffer => some ({ r with buffer } : Region)) (funext fun i => ?_)
  exact if_congr (by omega) rfl rfl

/-- The loops over the regions leave them where they are, and do to their bytes what `shiftDown` says. -/
theorem pullNodes_eq (hns : ∀ n ∈ ns, n.region.pos ≤ bufferSize) (hk : k ≤ bufferSize) :
    ∃ ns', pullNodes k ns = some ns' ∧ ns'.map Node.address = ns.map Node.address ∧
      ns'.map Node.region = shiftDown k (ns.map Node.region) := by
  induction ns generalizing k with
  | nil => exact ⟨[], rfl, rfl, rfl⟩
  | cons n ns ih =>
    obtain ⟨hn, hrest⟩ := List.forall_mem_cons.mp hns
    obtain ⟨ns', hpulled, haddresses, hregions⟩ := ih hrest (Nat.zero_le _)
    refine ⟨{ n with region := n.region.shiftDown k (ns.head?.map Node.region) } :: ns', ?_, ?_, ?_⟩
    · rw [pullNodes, pullBytes_eq _ hn hk, hpulled]
      rfl
    · rw [List.map_cons, List.map_cons, haddresses]
    · rw [List.map_cons, List.map_cons, hregions, shiftDown, List.head?_map]

/-! ### The text of a line that loses a byte -/

theorem bytes_shiftDown_last (hk : k < r.pos) (hr : r.pos ≤ bufferSize) :
    Region.bytes { r.shiftDown k none with pos := r.pos - 1 } = r.bytes.eraseIdx k := by
  refine List.ext_getElem ?_ fun i hi hi' => ?_
  · rw [Region.length_bytes, List.length_eraseIdx_of_lt (by rwa [Region.length_bytes]), Region.length_bytes]
  · rw [Region.length_bytes] at hi
    dsimp only at hi
    simp only [Region.bytes, Region.shiftDown, List.getElem_eraseIdx, List.getElem_map, List.getElem_range]
    by_cases hik : i < k
    · rw [if_neg (by omega), dif_pos hik]
    · rw [if_pos (by omega), if_pos (by omega), dif_neg hik]

/-- A full region loses a byte and gets the first one of the next region. -/
theorem bytes_shiftDown_full (hfull : r.pos = bufferSize) (hk : k < bufferSize) (r' : Region) :
    (r.shiftDown k (some r')).bytes = r.bytes.eraseIdx k ++ [r'.buffer 0] := by
  have hlength : (r.bytes.eraseIdx k).length = bufferSize - 1 := by
    rw [List.length_eraseIdx_of_lt (by rwa [Region.length_bytes, hfull]), Region.length_bytes, hfull]
  refine List.ext_getElem ?_ fun i hi hi' => ?_
  · rw [Region.length_bytes, List.length_append, hlength]
    exact hfull
  · rw [Region.length_bytes] at hi
    replace hi : i < bufferSize := hfull ▸ hi
    by_cases hlast : i < bufferSize - 1
    · rw [List.getElem_append_left (by rwa [hlength])]
      simp only [Region.bytes, Region.shiftDown, List.getElem_eraseIdx, List.getElem_map, List.getElem_range]
      by_cases hik : i < k
      · rw [if_neg (by omega), dif_pos hik]
      · rw [if_pos (by omega), if_pos (by omega), dif_neg hik]
    · rw [List.getElem_append_right (by omega)]
      simp only [Region.bytes, Region.shiftDown, List.getElem_map, List.getElem_range]
      rw [if_pos (by omega), if_neg (by omega)]
      simp

/-- The line's last region, which holds a byte, loses one. -/
def dropLastByte (rs : List Region) : List Region := rs.modifyLast fun r => { r with pos := r.pos - 1 }

theorem dropLastByte_cons (r : Region) (hne : rs ≠ []) : dropLastByte (r :: rs) = r :: dropLastByte rs := by
  rw [dropLastByte, ← List.singleton_append, List.modifyLast_append_of_right_ne_nil _ _ _ hne]
  rfl

theorem shiftDown_ne_nil (hne : rs ≠ []) : shiftDown k rs ≠ [] := by
  cases rs with
  | nil => exact absurd rfl hne
  | cons r rs => exact List.cons_ne_nil _ _

/-- The first byte of the regions is at the start of the first one. -/
theorem regionBytes_eq_cons (h : FilledRegions (r :: rs)) (hpos : 0 < (regionBytes (r :: rs)).length) :
    regionBytes (r :: rs) = r.buffer 0 :: (regionBytes (r :: rs)).tail := by
  have hr : 0 < r.pos := by
    by_cases hne : rs = []
    · rwa [hne, regionBytes_cons, regionBytes_nil, List.append_nil, r.length_bytes] at hpos
    · rw [(h.tail hne).1]
      decide
  obtain ⟨n, hn⟩ := Nat.exists_eq_succ_of_ne_zero (Nat.ne_of_gt hr)
  rw [regionBytes_cons, Region.bytes, hn, List.range_succ_eq_map, List.map_cons, List.cons_append, List.tail_cons]

theorem length_regionBytes_pos (h : FilledRegions rs) (hlast : ∀ last ∈ rs.getLast?, 0 < last.pos) :
    0 < (regionBytes rs).length := by
  obtain ⟨init, last, rfl, hinit, -⟩ := h.concat_cases
  have hpos : 0 < last.pos := hlast last (by simp)
  rw [length_regionBytes, sum_regionSizes_concat hinit]
  exact Nat.add_pos_right _ hpos

theorem bytes_shiftDown_short (hr : r.pos ≤ bufferSize) (hpos : 0 < r.pos) :
    Region.bytes { r.shiftDown k none with pos := r.pos - 1 } = r.bytes.eraseIdx (min k (r.pos - 1)) := by
  rw [← bytes_shiftDown_last (by omega) hr]
  refine List.map_congr_left fun i hi => ?_
  have hlt : i < r.pos - 1 := List.mem_range.mp hi
  exact if_congr (by omega) rfl rfl

/-- Byte `k` of the text goes, or the last one where the text ends in front of it. -/
theorem regionBytes_dropLastByte (h : FilledRegions rs) (hk : k < bufferSize)
    (hlast : ∀ last ∈ rs.getLast?, 0 < last.pos) :
    regionBytes (dropLastByte (shiftDown k rs)) = (regionBytes rs).eraseIdx (min k ((regionBytes rs).length - 1)) := by
  induction rs generalizing k with
  | nil => exact absurd rfl h.ne_nil
  | cons r rs ih =>
    cases rs with
    | nil =>
      rw [regionBytes_cons, regionBytes_nil, List.append_nil, r.length_bytes, ← bytes_shiftDown_short h.pos_le
        (hlast r rfl)]
      exact List.append_nil _
    | cons r' rs =>
      obtain ⟨hfull, hrest⟩ := h.tail (List.cons_ne_nil r' rs)
      have hlast' : ∀ last ∈ (r' :: rs).getLast?, 0 < last.pos := fun last hmem =>
        hlast last (by rwa [List.getLast?_cons_cons])
      have hpos := length_regionBytes_pos hrest hlast'
      have hlength : r.bytes.length = bufferSize := r.length_bytes.trans hfull
      have htail : r'.buffer 0 :: regionBytes (dropLastByte (shiftDown 0 (r' :: rs))) = regionBytes (r' :: rs) := by
        rw [ih hrest (by decide) hlast', Nat.zero_min, List.eraseIdx_zero]
        exact (regionBytes_eq_cons hrest hpos).symm
      rw [shiftDown, dropLastByte_cons _ (shiftDown_ne_nil (List.cons_ne_nil r' rs)), regionBytes_cons, List.head?_cons,
        bytes_shiftDown_full hfull hk, regionBytes_cons r, List.length_append, hlength, Nat.min_eq_left (by omega),
        List.eraseIdx_append_of_lt_length (by rwa [hlength]), List.append_assoc, List.singleton_append, htail]

end Shift

/-! ### A line behind another -/

section Join

variable {a : Allocator} {live : Finset Nat} {front back others : List Nat} {x : Nat} {ns prev : List Node}
  {bs : List UInt8} {c : UInt8} {p : List Node × Finset Nat}

theorem Owns.perm (h : Owns live front) (hperm : front.Perm back) : Owns live back :=
  ⟨hperm.nodup_iff.mp h.nodup, fun x hx => h.live x (hperm.mem_iff.mpr hx)⟩

theorem Owns.free (h : Owns live (x :: back)) : Owns (live.erase x) back := by
  obtain ⟨hx, hnodup⟩ := List.nodup_cons.mp h.nodup
  refine ⟨hnodup, fun y hy => Finset.mem_erase.mpr ⟨?_, h.live y (List.mem_cons_of_mem x hy)⟩⟩
  rintro rfl
  exact hx hy

theorem Owns.alloc (h : Owns live back) (hx : x ∉ live) : Owns (insert x live) (x :: back) := by
  refine ⟨List.nodup_cons.mpr ⟨fun hmem => hx (h.live x hmem), h.nodup⟩, List.forall_mem_cons.mpr ⟨?_, fun y hy => ?_⟩⟩
  · exact Finset.mem_insert_self x live
  · exact Finset.mem_insert_of_mem (h.live y hy)

/-- Apart from where they are, the regions change as in `pushByte`. -/
theorem pushNode_regions (a : Allocator) (live : Finset Nat) :
    (pushNode a c live ns).map (fun p => p.1.map Node.region) = pushByte c (ns.map Node.region) := by
  induction ns with
  | nil => rfl
  | cons n ns ih =>
    cases ns with
    | nil =>
      rw [pushNode, List.map_singleton, pushByte]
      split_ifs <;> rfl
    | cons n' ns =>
      rw [pushNode, List.map_cons, List.map_cons, pushByte, ← List.map_cons, ← ih, Option.map_map, Option.map_map]
      rfl

theorem pushNodes_regions (a : Allocator) (live : Finset Nat) :
    (pushNodes a bs live ns).map (fun p => p.1.map Node.region) = pushBytes bs (ns.map Node.region) := by
  induction bs generalizing live ns with
  | nil => rfl
  | cons c bs ih =>
    rw [pushNodes, pushBytes, List.foldlM_cons, List.foldlM_cons, ← pushNode_regions a live]
    cases pushNode a c live ns with
    | none => rfl
    | some p => exact ih p.2

theorem pushBytes_append (bs bs' : List UInt8) (rs : List Region) :
    pushBytes (bs ++ bs') rs = (pushBytes bs rs).bind (pushBytes bs') := List.foldlM_append

theorem joinNodes_regions : (joinNodes a live prev ns).map (fun p => p.1.map Node.region)
    = pushBytes (regionBytes (ns.map Node.region)) (prev.map Node.region) := by
  induction ns generalizing live prev with
  | nil => rfl
  | cons n ns ih =>
    rw [joinNodes, List.map_cons, regionBytes_cons, pushBytes_append, ← pushNodes_regions a live]
    cases pushNodes a n.region.bytes live prev with
    | none => rfl
    | some p => exact ih

theorem pushNode_owns (h : Owns live (ns.map Node.address ++ others)) (hpush : pushNode a c live ns = some p) :
    Owns p.2 (p.1.map Node.address ++ others) := by
  induction ns generalizing p others with
  | nil => cases hpush
  | cons n ns ih =>
    cases ns with
    | nil =>
      rw [pushNode] at hpush
      split_ifs at hpush
      · obtain rfl := Option.some.inj hpush
        exact (h.alloc (a.fresh live)).perm (List.Perm.swap _ _ _)
      · obtain rfl := Option.some.inj hpush
        exact h
    | cons n' ns =>
      rw [pushNode] at hpush
      obtain ⟨q, hq, rfl⟩ := Option.map_eq_some_iff.mp hpush
      have hq' : Owns q.2 (q.1.map Node.address ++ n.address :: others) := ih (h.perm List.perm_middle.symm) hq
      exact hq'.perm List.perm_middle

theorem pushNodes_owns (h : Owns live (ns.map Node.address ++ others)) (hpush : pushNodes a bs live ns = some p) :
    Owns p.2 (p.1.map Node.address ++ others) := by
  induction bs generalizing live ns with
  | nil =>
    obtain rfl := Option.some.inj hpush
    exact h
  | cons c bs ih =>
    rw [pushNodes, List.foldlM_cons] at hpush
    obtain ⟨q, hq, hrest⟩ := Option.bind_eq_some_iff.mp hpush
    exact ih (pushNode_owns h hq) hrest

/-- Every region of the line that goes is freed, and the joined line is in memory that is allocated. -/
theorem joinNodes_owns (h : Owns live (prev.map Node.address ++ (ns.map Node.address ++ others)))
    (hjoin : joinNodes a live prev ns = some p) : Owns p.2 (p.1.map Node.address ++ others) := by
  induction ns generalizing live prev with
  | nil =>
    obtain rfl := Option.some.inj hjoin
    exact h
  | cons n ns ih =>
    obtain ⟨q, hq, hrest⟩ := Option.bind_eq_some_iff.mp hjoin
    have hcopied := pushNodes_owns h hq
    exact ih (hcopied.perm List.perm_middle).free hrest

end Join

/-! ### The text with a byte less -/

section Inside

variable {a : Allocator} {s : Memory} {line : NodeLine} {ltr cursorCol : Nat}

/-- The end of `remove_at_position`, with the regions of the line behind the shift. -/
def removeLast (s : Memory) (ltr : Nat) (line : NodeLine) (nodes : List Node) (last : Node) : Bool × Memory :=
  if last.region.pos = 0 then
    if 1 < nodes.length then
      (true, ⟨s.text.set ltr { line with nodes := nodes.dropLast }, s.live.erase last.address⟩)
    else (false, { s with text := s.text.set ltr { line with nodes } })
  else (true, { s with text := s.text.set ltr { line with nodes := cutLast 1 nodes } })

theorem HasRoom.of_sizes {rs rs' : List Region} (h : HasRoom rs) (hsizes : regionSizes rs' = regionSizes rs) :
    HasRoom rs' := by
  obtain ⟨init, r, rfl, hinit, hr⟩ := h
  obtain ⟨init', r', rfl, hinit', hr'⟩ := modifyLast_concat_cases hsizes
  refine ⟨init', r', rfl, ?_, hr' ▸ hr⟩
  rw [← forall_mem_regionSizes (p := (· = bufferSize)), hinit']
  exact forall_mem_regionSizes.mpr hinit

/-- The regions of the line behind the shift, each where it was. -/
theorem removeAtPosition_eq (a : Allocator) (hline : s.text[ltr]? = some line) (hroom : HasRoom line.regions)
    (hcol : cursorCol ≤ (regionBytes line.regions).length) (hpos : 0 < cursorCol) : ∃ nodes last before r next,
      removeAtPosition a s ltr (cursorCol / bufferSize) cursorCol = some (removeLast s ltr line nodes last) ∧
      nodes.getLast? = some last ∧ last.region.pos = (regionBytes line.regions).length % bufferSize ∧
      nodes.map Node.address = line.addresses ∧
      nodes.map Node.region = before ++ shiftDown ((cursorCol - 1) % bufferSize) (r :: next) ∧
      line.regions = before ++ r :: next ∧ (∀ r' ∈ before, r'.pos = bufferSize) ∧ FilledRegions (r :: next) ∧
      (regionBytes before).length + cursorCol % bufferSize = cursorCol := by
  have hlength : line.regions.length = line.nodes.length := List.length_map _
  have hregion : cursorCol / bufferSize < line.regions.length := by
    rw [hroom.length_eq, ← length_regionBytes]
    exact Nat.lt_succ_of_le (Nat.div_le_div_right hcol)
  obtain ⟨before, r, next, hregions, htake, hdrop, hfull, hrest, hsplit, -⟩ :=
    FilledRegions.at_column hroom.filled hcol hregion
  rw [NodeLine.regions, ← List.map_drop] at hdrop
  rw [NodeLine.regions, ← List.map_take] at htake
  have hwithin : ∀ n ∈ line.nodes.drop (cursorCol / bufferSize), n.region.pos ≤ bufferSize := fun n hn => by
    have hmem : n.region ∈ r :: next := hdrop ▸ List.mem_map_of_mem hn
    obtain ⟨i, hi⟩ := List.getElem?_of_mem hmem
    rw [hrest.pos_eq hi]
    exact Nat.min_le_left _ _
  obtain ⟨ns, hpulled, haddresses, hshifted⟩ :=
    pullNodes_eq hwithin (Nat.le_of_lt (Nat.mod_lt (cursorCol - 1) (show 0 < bufferSize by decide)))
  rw [hdrop] at hshifted
  generalize hnodes : line.nodes.take (cursorCol / bufferSize) ++ ns = nodes
  have hmap : nodes.map Node.region = before ++ shiftDown ((cursorCol - 1) % bufferSize) (r :: next) := by
    rw [← hnodes, List.map_append, htake, hshifted]
  have hsizes : regionSizes (nodes.map Node.region) = regionSizes line.regions := by
    rw [hmap, hregions, regionSizes_append, regionSizes_append, regionSizes_shiftDown]
  have hroom' := hroom.of_sizes hsizes
  obtain ⟨last, hlast⟩ : ∃ last, nodes.getLast? = some last := by
    refine Option.ne_none_iff_exists'.mp fun hnone => ?_
    rw [List.getLast?_eq_none_iff.mp hnone] at hroom'
    exact hroom'.filled.ne_nil rfl
  refine ⟨nodes, last, before, r, next, ?_, hlast, ?_, ?_, hmap, hregions, hfull, hrest, hsplit⟩
  · rw [removeAtPosition, hline]
    show (if line.nodes.length ≤ cursorCol / bufferSize then none else _) = _
    rw [if_neg (Nat.not_le_of_lt (hlength ▸ hregion)), if_neg (Nat.ne_of_gt hpos), hpulled]
    show ((line.nodes.take (cursorCol / bufferSize) ++ ns).getLast? >>= _) = _
    rw [hnodes, hlast, removeLast]
    show (if last.region.pos = 0 then _ else _) = _
    split_ifs <;> rfl
  · rw [hroom'.last_pos (by rw [List.getLast?_map, hlast, Option.map_some]), hsizes, ← length_regionBytes]
  · rw [← hnodes, List.map_append, haddresses, ← List.map_append, List.take_append_drop]
    rfl

theorem regions_cutLast (count : Nat) (ns : List Node) : (cutLast count ns).map Node.region
    = (ns.map Node.region).modifyLast fun r => { r with pos := sub32 r.pos count } := by
  obtain rfl | ⟨init, last, rfl⟩ := List.eq_nil_or_concat' ns
  · rfl
  · rw [cutLast, List.modifyLast_concat, List.map_append, List.map_append, List.map_singleton, List.map_singleton,
      List.modifyLast_concat]

theorem addresses_cutLast (count : Nat) (ns : List Node) :
    (cutLast count ns).map Node.address = ns.map Node.address := by
  obtain rfl | ⟨init, last, rfl⟩ := List.eq_nil_or_concat' ns
  · rfl
  · rw [cutLast, List.modifyLast_concat, List.map_append, List.map_append, List.map_singleton, List.map_singleton]

/-- The line loses the byte at an index, which is not always the one in front of the cursor. -/
def erasedIndex (length cursorCol : Nat) : Nat :=
  if cursorCol % bufferSize = 0 then min (cursorCol + 127) (length - 1) else cursorCol - 1

theorem dropLastByte_eq {rs : List Region} (hlast : ∀ last ∈ rs.getLast?, 0 < last.pos) :
    (rs.modifyLast fun r => { r with pos := sub32 r.pos 1 }) = dropLastByte rs := by
  obtain rfl | ⟨init, last, rfl⟩ := List.eq_nil_or_concat' rs
  · rfl
  · rw [dropLastByte, List.modifyLast_concat, List.modifyLast_concat, sub32,
      if_pos (Nat.succ_le_of_lt (hlast last (by simp)))]

theorem HasRoom.dropLastByte {rs : List Region} (h : HasRoom rs) : HasRoom (dropLastByte rs) := by
  obtain ⟨init, r, rfl, hinit, hr⟩ := h
  rw [Tedit.dropLastByte, List.modifyLast_concat]
  exact ⟨init, _, rfl, hinit, Nat.lt_of_le_of_lt (Nat.sub_le _ _) hr⟩

theorem removeAtPosition_inside (a : Allocator) (hline : s.text[ltr]? = some line) (hroom : HasRoom line.regions)
    (hcol : cursorCol ≤ (regionBytes line.regions).length) (hpos : 0 < cursorCol)
    (hlast : (regionBytes line.regions).length % bufferSize ≠ 0) :
    ∃ nodes, removeAtPosition a s ltr (cursorCol / bufferSize) cursorCol
        = some (true, { s with text := s.text.set ltr { line with nodes } }) ∧
      nodes.map Node.address = line.addresses ∧ HasRoom (nodes.map Node.region) ∧
      regionBytes (nodes.map Node.region)
        = (regionBytes line.regions).eraseIdx (erasedIndex (regionBytes line.regions).length cursorCol) := by
  obtain ⟨nodes, last, before, r, next, heq, hget, hlastPos, haddresses, hmap, hregions, hfull, hrest, hsplit⟩ :=
    removeAtPosition_eq a hline hroom hcol hpos
  have hne : last.region.pos ≠ 0 := hlastPos ▸ hlast
  have hpos' : ∀ last' ∈ (nodes.map Node.region).getLast?, 0 < last'.pos := by
    rw [List.getLast?_map, hget]
    rintro _ ⟨⟩
    exact Nat.pos_of_ne_zero hne
  have hsizes : regionSizes (nodes.map Node.region) = regionSizes line.regions := by
    rw [hmap, hregions, regionSizes_append, regionSizes_append, regionSizes_shiftDown]
  have hshifted := shiftDown_ne_nil (k := (cursorCol - 1) % bufferSize) (List.cons_ne_nil r next)
  have hpos'' : ∀ last' ∈ (r :: next).getLast?, 0 < last'.pos := fun last' hlast' => by
    rw [hroom.last_pos (hregions ▸ List.mem_getLast?_append_of_mem_getLast? hlast'), ← length_regionBytes]
    exact Nat.pos_of_ne_zero hlast
  refine ⟨cutLast 1 nodes, ?_, ?_, ?_, ?_⟩
  · rw [heq, removeLast, if_neg hne]
  · rw [addresses_cutLast, haddresses]
  · rw [regions_cutLast, dropLastByte_eq hpos']
    exact (hroom.of_sizes hsizes).dropLastByte
  · have hindex : erasedIndex (regionBytes line.regions).length cursorCol = (regionBytes before).length
        + min ((cursorCol - 1) % bufferSize) ((regionBytes (r :: next)).length - 1) := by
      have hrestPos := length_regionBytes_pos hrest hpos''
      rw [hregions, regionBytes_append, List.length_append] at hcol ⊢
      rw [erasedIndex]
      by_cases hzero : cursorCol % bufferSize = 0
      · have hk : (cursorCol - 1) % bufferSize = 127 := by
          rw [bufferSize] at hzero ⊢
          omega
        rw [if_pos hzero, hk]
        omega
      · have hk : (cursorCol - 1) % bufferSize + 1 = cursorCol % bufferSize := by
          rw [bufferSize] at hzero ⊢
          omega
        rw [if_neg hzero]
        omega
    have hk : (cursorCol - 1) % bufferSize < bufferSize := Nat.mod_lt _ (by decide)
    rw [hindex, regions_cutLast, dropLastByte_eq hpos', hmap, hregions, dropLastByte,
      List.modifyLast_append_of_right_ne_nil _ _ _ hshifted, regionBytes_append, ← dropLastByte,
      regionBytes_dropLastByte hrest hk hpos'', regionBytes_append, List.eraseIdx_append_of_length_le (by omega),
      Nat.add_sub_cancel_left]

/-- An empty last region goes instead of a byte. -/
theorem removeAtPosition_empty (a : Allocator) (hline : s.text[ltr]? = some line) (hroom : HasRoom line.regions)
    (hcol : cursorCol ≤ (regionBytes line.regions).length) (hpos : 0 < cursorCol)
    (hlast : (regionBytes line.regions).length % bufferSize = 0) :
    ∃ action nodes live, removeAtPosition a s ltr (cursorCol / bufferSize) cursorCol
        = some (action, ⟨s.text.set ltr { line with nodes }, live⟩) ∧
      (regionBytes (nodes.map Node.region)).length = (regionBytes line.regions).length := by
  obtain ⟨nodes, last, before, r, next, heq, hget, hlastPos, -, hmap, hregions, -⟩ :=
    removeAtPosition_eq a hline hroom hcol hpos
  have hzero : last.region.pos = 0 := hlastPos.trans hlast
  have hsizes : regionSizes (nodes.map Node.region) = regionSizes line.regions := by
    rw [hmap, hregions, regionSizes_append, regionSizes_append, regionSizes_shiftDown]
  rw [length_regionBytes, ← hsizes, ← length_regionBytes]
  obtain ⟨init, rfl⟩ : ∃ init, nodes = init ++ [last] := List.getLast?_eq_some_iff.mp hget
  have hdropped : (regionBytes ((init ++ [last]).map Node.region)).length
      = (regionBytes (init.map Node.region)).length := by
    rw [List.map_append, regionBytes_append, List.length_append, List.map_singleton, regionBytes_cons,
      regionBytes_nil, List.append_nil, Region.length_bytes, hzero, Nat.add_zero]
  by_cases hmany : 1 < (init ++ [last]).length
  · refine ⟨true, (init ++ [last]).dropLast, s.live.erase last.address, ?_, ?_⟩
    · rw [heq, removeLast, if_pos hzero, if_pos hmany]
    · rw [List.dropLast_concat, hdropped]
  · refine ⟨false, init ++ [last], s.live, ?_, rfl⟩
    rw [heq, removeLast, if_pos hzero, if_neg hmany]

end Inside

end Akos.Tedit
