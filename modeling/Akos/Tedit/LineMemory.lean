import Akos.Cstdlib.HeapBlocks
import Akos.Lib.Doubly

/-!
# The lines of the editor in memory

A line of `tedit.c` is a `LineTextRegion` on the heap, which begins with its first `TextRegion`; the further regions
of the line and the lines before and behind it are found by pointers. Here the two operations that change the list of
lines are as the code has them, on the memory of the process: an end of line that is typed, and an end of line that is
removed. What they store outside of a buffer goes where it goes in memory.
-/

namespace Akos

namespace Tedit

/-- The words of a `TextRegion` behind its buffer, and those of a `LineTextRegion` behind its region. -/
inductive Field
  | pos
  | prev
  | next
  | prevLine
  | nextLine
  | line
deriving DecidableEq

def Field.offset : Field → BitVec 32
  | .pos => 128#32
  | .prev => 132#32
  | .next => 136#32
  | .prevLine => 140#32
  | .nextLine => 144#32
  | .line => 148#32

/-- `sizeof(TextRegion)` -/
abbrev sizeofTextRegion : BitVec 32 := 140#32

/-- `sizeof(LineTextRegion)` -/
abbrev sizeofLineTextRegion : BitVec 32 := 152#32

end Tedit

def UserHeap.field (h : UserHeap) (p : BitVec 32) (f : Tedit.Field) : BitVec 32 := h.word p f.offset

def UserHeap.setField (h : UserHeap) (p : BitVec 32) (f : Tedit.Field) (value : BitVec 32) : UserHeap :=
  h.setWord p f.offset value

def Blocks.field (b : Blocks) (p : BitVec 32) (f : Tedit.Field) : BitVec 32 := b.word p f.offset

def Blocks.setField (b : Blocks) (p : BitVec 32) (f : Tedit.Field) (value : BitVec 32) : Blocks :=
  b.setWord p f.offset value

namespace Tedit.InMemory

/-! ### The code -/

/-- Why an operation does not return: `calloc` finds no memory, or a loop does not end. -/
inductive Stop
  | noMemory
  | endless
deriving DecidableEq

abbrev Result := Except Stop

def orStop {α : Type} (stop : Stop) : Option α → Result α
  | some a => .ok a
  | none => .error stop

/-- A loop counts a 32-bit number up, or goes from pointer to pointer. -/
abbrev maxSteps : Nat := 2 ^ 32

/-- `dest->buffer[dest->pos++] = c`, and a new region behind one that is full. -/
def putByte (h : UserHeap) (dest : BitVec 32) (c : BitVec 8) : Result (UserHeap × BitVec 32) :=
  let pos := h.field dest .pos
  let h := (h.setField dest .pos (pos + 1#32)).setByte dest pos c
  if h.field dest .pos = 128#32 then do
    let new ← orStop .noMemory (h.calloc sizeofTextRegion)
    let h := new.2.setField dest .next new.1
    let h := h.setField (h.field dest .next) .prev dest
    pure (h, h.field dest .next)
  else pure (h, dest)

/-- `for (int i = 0; i < tr->pos; i++)`, from some `i` on. -/
def moveBytes (tr : BitVec 32) : Nat → UserHeap → BitVec 32 → BitVec 32 → Result (UserHeap × BitVec 32)
  | 0, _, _, _ => .error .endless
  | steps + 1, h, dest, i =>
    if i < h.field tr .pos then do
      let put ← putByte h dest (h.byte tr i)
      moveBytes tr steps put.1 put.2 (i + 1#32)
    else pure (h, dest)

/-- The loop that moves the bytes of a region and of those behind it, and frees each region. -/
def moveRegions : Nat → UserHeap → BitVec 32 → BitVec 32 → Result UserHeap
  | 0, _, _, _ => .error .endless
  | steps + 1, h, dest, tr =>
    if tr = 0#32 then pure h
    else do
      let moved ← moveBytes tr maxSteps h dest 0#32
      moveRegions steps (moved.1.free tr) moved.2 (moved.1.field tr .next)

/-- `new_tr->buffer[j] = tr->buffer[i]`, from some `i` and `j` on. -/
def copyTail (new tr : BitVec 32) : Nat → UserHeap → BitVec 32 → BitVec 32 → Result UserHeap
  | 0, _, _, _ => .error .endless
  | steps + 1, h, i, j =>
    if i < h.field tr .pos then copyTail new tr steps (h.setByte new j (h.byte tr i)) (i + 1#32) (j + 1#32)
    else pure h

/-- `while (ltr) { ltr->line += step; ltr = ltr->next_line; }` -/
def renumber (step : BitVec 32) : Nat → UserHeap → BitVec 32 → Result UserHeap
  | 0, _, _ => .error .endless
  | steps + 1, h, ltr =>
    if ltr = 0#32 then pure h
    else
      let h := h.setField ltr .line (h.field ltr .line + step)
      renumber step steps h (h.field ltr .nextLine)

/-- `while (tr->prev) tr = tr->prev;` -/
def firstRegion (h : UserHeap) (tr : BitVec 32) : Result (BitVec 32) :=
  orStop .endless (Doubly.follow (fun p => h.field p .prev) 0#32 maxSteps tr)

/-- `while (tr->next) tr = tr->next;` -/
def lastRegion (h : UserHeap) (tr : BitVec 32) : Result (BitVec 32) :=
  orStop .endless (Doubly.follow (fun p => h.field p .next) 0#32 maxSteps tr)

/-- A new line with the bytes from byte `k` of a region on. -/
def takeTail (h : UserHeap) (tr k : BitVec 32) : Result (BitVec 32 × UserHeap) := do
  let new ← orStop .noMemory (h.calloc sizeofLineTextRegion)
  let h ← copyTail new.1 tr maxSteps new.2 k 0#32
  let h := h.setField new.1 .pos (h.field tr .pos - k)
  let h ← moveRegions maxSteps h new.1 (h.field tr .next)
  pure (new.1, h)

/-- The line ends at byte `k` of a region, with CR LF. -/
def endLine (h : UserHeap) (tr k : BitVec 32) : UserHeap :=
  let h := h.setField tr .next 0#32
  let h := h.setField tr .pos (k + 2#32)
  (h.setByte tr k 0x0D#8).setByte tr (k + 1#32) 0x0A#8

/-- A new line is put behind another one. -/
def linkBehind (h : UserHeap) (ltr newLtr : BitVec 32) : UserHeap :=
  let h := h.setField newLtr .nextLine (h.field ltr .nextLine)
  let h := if h.field ltr .nextLine ≠ 0#32 then h.setField (h.field newLtr .nextLine) .prevLine newLtr else h
  let h := h.setField ltr .nextLine newLtr
  let h := h.setField newLtr .prevLine ltr
  h.setField newLtr .line (h.field ltr .line)

/-- A line is taken out of the list. -/
def unlink (h : UserHeap) (ltr prevLtr : BitVec 32) : UserHeap :=
  let h := h.setField prevLtr .nextLine (h.field ltr .nextLine)
  if h.field ltr .nextLine ≠ 0#32 then h.setField (h.field ltr .nextLine) .prevLine prevLtr else h

/-- `append_at_position (tr, cursor_col, '\n')` -/
def appendAtPosition (h : UserHeap) (tr cursorCol : BitVec 32) : Result (Bool × UserHeap) := do
  let new ← takeTail h tr (cursorCol % 128#32)
  let h := endLine new.2 tr (cursorCol % 128#32)
  let ltr ← firstRegion h tr
  let h ← renumber 1#32 maxSteps (linkBehind h ltr new.1) new.1
  pure (true, h)

/-- `remove_at_position (tr, 0)` -/
def removeAtPosition (h : UserHeap) (tr : BitVec 32) : Result (Bool × UserHeap) := do
  let ltr ← firstRegion h tr
  let prevLtr := h.field ltr .prevLine
  if prevLtr ≠ 0#32 then
    let h := unlink h ltr prevLtr
    let h ← renumber (-1#32) maxSteps h (h.field prevLtr .nextLine)
    let prevTr ← lastRegion h prevLtr
    let h := h.setField prevTr .pos (h.field prevTr .pos - 2#32)
    let h ← moveRegions maxSteps h prevTr ltr
    pure (true, h)
  else pure (false, h)

/-- The loop of `display_file` that looks for the line at the top of the screen. -/
def topLine (h : UserHeap) (target ltr : BitVec 32) : Option (BitVec 32) :=
  Doubly.seek (fun p => h.field p .nextLine) (fun p => h.field p .prevLine) (fun p => (h.field p .line).toNat)
    target.toNat maxSteps ltr

end Tedit.InMemory

/-! ### Fields of a block -/

namespace Blocks

open Tedit

section Fields

variable {i : BitVec 32} {f g : Field}

theorem offset_apart (hne : f ≠ g) :
    g.offset.toNat + 4 ≤ f.offset.toNat ∨ f.offset.toNat + 4 ≤ g.offset.toNat := by
  cases f <;> cases g <;> first | exact absurd rfl hne | decide

theorem offset_le (f : Field) : 128 ≤ f.offset.toNat ∧ f.offset.toNat + 4 ≤ 152 := by cases f <;> decide

/-- A field is what it was set to. -/
theorem field_setField (b : Blocks) (p : BitVec 32) (f : Field) (value q : BitVec 32) (g : Field) :
    (b.setField p f value).field q g = if q = p ∧ g = f then value else b.field q g := by
  have hf := offset_le f
  have hg := offset_le g
  by_cases hgf : g = f
  · subst hgf
    by_cases hqp : q = p
    · subst hqp
      rw [if_pos ⟨rfl, rfl⟩]
      exact word_setWord_self b q _ value
    · rw [if_neg fun h => hqp h.1, field, word, setField, cell_setWord_of_ne b hqp, field, word]
  · rw [if_neg fun h => hgf h.2]
    exact word_setWord_of_apart b p value (by omega) (by omega) (offset_apart (Ne.symm hgf))

theorem header_setField (b : Blocks) (p : BitVec 32) (f : Field) (value q : BitVec 32) :
    (b.setField p f value).word q header = b.word q header := by
  have hf := offset_le f
  have hheader := toNat_header
  exact word_setWord_of_apart b p value (by omega) (by omega) (.inr (by omega))

theorem field_setByte (b : Blocks) (p : BitVec 32) (hi : i.toNat < 128) (c : BitVec 8) (q : BitVec 32) (g : Field) :
    (b.setByte p i c).field q g = b.field q g := by
  have hg := offset_le g
  exact word_setByte_of_apart b p c (by omega) (.inl (by omega))

theorem header_setByte (b : Blocks) (p : BitVec 32) (hi : i.toNat ≤ 128) (c : BitVec 8) (q : BitVec 32) :
    (b.setByte p i c).word q header = b.word q header := by
  have hheader := toNat_header
  exact word_setByte_of_apart b p c (by omega) (.inl (by omega))

/-- A byte in the buffer or right behind it leaves the other fields. -/
theorem field_setByte_of_ne_pos (b : Blocks) (p : BitVec 32) (hi : i.toNat ≤ 128) (c : BitVec 8) {q : BitVec 32}
    (hne : q ≠ p ∨ g ≠ .pos) : (b.setByte p i c).field q g = b.field q g := by
  by_cases hqp : q = p
  · have hg : 132 ≤ g.offset.toNat ∧ g.offset.toNat + 4 ≤ 152 := by
      cases g with
      | pos => exact absurd rfl (hne.resolve_left (not_not_intro hqp))
      | _ => decide
    exact word_setByte_of_apart b p c (by omega) (.inl (by omega))
  · rw [field, word, cell_setByte_of_ne b hqp, field, word]

/-- The byte behind the buffer is the lowest one of `pos`. -/
theorem pos_setByte_behind (b : Blocks) (p : BitVec 32) (c : BitVec 8) :
    (b.setByte p 128#32 c).field p .pos = (b.field p .pos).extractLsb' 8 24 ++ c := by
  show ByteMemory.loadWord (Function.update b.cell p (Function.update (b.cell p) 128#32 c) p) 128#32 =
    (ByteMemory.loadWord (b.cell p) 128#32).extractLsb' 8 24 ++ c
  rw [Function.update_self, ByteMemory.loadWord, ByteMemory.loadWord, Function.update_self,
    Function.update_of_ne (by decide), Function.update_of_ne (by decide), Function.update_of_ne (by decide)]
  congr 1
  exact (BitVec.extractLsb'_append_eq_left ..).symm

theorem field_take_self (b : Blocks) (p size : BitVec 32) (f : Field) : (b.take p size).field p f = 0#32 := by
  have hf := offset_le f
  have hheader := toNat_header
  rw [field, word, cell_take_self,
    ByteMemory.loadWord_storeWord_of_apart _ _ (by omega) (by omega) (.inl (by omega)), ByteMemory.loadWord]
  rfl

end Fields

end Blocks

/-! ### Fields in memory -/

namespace UserHeap

open Tedit

section Fields

variable {h : UserHeap} {p q : BitVec 32} {f g : Field}

theorem toNat_offset (hp : p.toNat + 152 ≤ 2 ^ 32) (f : Field) :
    (p + f.offset).toNat = p.toNat + f.offset.toNat ∧ p.toNat + 128 ≤ (p + f.offset).toNat ∧
      (p + f.offset).toNat + 4 ≤ p.toNat + 152 := by
  have hf := Blocks.offset_le f
  have haddr : (p + f.offset).toNat = p.toNat + f.offset.toNat := by
    rw [BitVec.toNat_add]
    omega
  omega

/-- Records that have no byte in common, allocated or not. -/
theorem field_setField (hp : p.toNat + 152 ≤ 2 ^ 32) (hq : q.toNat + 152 ≤ 2 ^ 32)
    (hapart : q = p ∨ p.toNat + 152 ≤ q.toNat ∨ q.toNat + 152 ≤ p.toNat) (value : BitVec 32) :
    (h.setField p f value).field q g = if q = p ∧ g = f then value else h.field q g := by
  obtain ⟨hpf, hlo, hhi⟩ := toNat_offset hp f
  obtain ⟨hqg, hlo', hhi'⟩ := toNat_offset hq g
  by_cases hsame : q = p ∧ g = f
  · obtain ⟨rfl, rfl⟩ := hsame
    rw [if_pos ⟨rfl, rfl⟩]
    exact ByteMemory.loadWord_storeWord _ _ value
  · rw [if_neg hsame]
    refine ByteMemory.loadWord_storeWord_of_apart _ value (by omega) (by omega) ?_
    obtain rfl | hapart := hapart
    · have hoffsets := Blocks.offset_apart (Ne.symm fun heq : g = f => hsame ⟨rfl, heq⟩)
      omega
    · omega

theorem field_setByte (hp : p.toNat + 152 ≤ 2 ^ 32) (hq : q.toNat + 152 ≤ 2 ^ 32)
    (hapart : q = p ∨ p.toNat + 152 ≤ q.toNat ∨ q.toNat + 152 ≤ p.toNat) {i : BitVec 32} (hi : i.toNat < 128)
    (c : BitVec 8) : (h.setByte p i c).field q g = h.field q g := by
  obtain ⟨-, hlo, hhi⟩ := toNat_offset hq g
  have hpi : (p + i).toNat = p.toNat + i.toNat := by
    rw [BitVec.toNat_add]
    omega
  refine ByteMemory.loadWord_congr fun k hk => Function.update_of_ne (fun heq => ?_) _ _
  have haddr := ByteMemory.toNat_add_of_lt (show (q + g.offset).toNat + 4 ≤ 2 ^ 32 by omega) hk
  rw [heq, hpi] at haddr
  obtain rfl | hapart := hapart
  · omega
  · omega

/-- A record among the blocks is beside the bit map. -/
theorem Placed.words_setField (hx : Placed h) (hp : h.heapBase.toNat ≤ p.toNat) (hp' : p.toNat + 152 ≤ 2 ^ 32)
    (f : Field) (value : BitVec 32) : (h.setField p f value).words = h.words := by
  obtain ⟨-, hlo, hhi⟩ := toNat_offset hp' f
  refine hx.words_block _ fun b hb => ByteMemory.storeWord_of_outside _ _ (ByteMemory.outside_of_toNat ?_ (.inl ?_))
  · omega
  · omega

theorem Placed.words_setByte (hx : Placed h) (hp : h.heapBase.toNat ≤ p.toNat) (hp' : p.toNat + 152 ≤ 2 ^ 32)
    {i : BitVec 32} (hi : i.toNat < 128) (c : BitVec 8) : (h.setByte p i c).words = h.words := by
  have hpi : (p + i).toNat = p.toNat + i.toNat := by
    rw [BitVec.toNat_add]
    omega
  refine hx.words_block _ fun b hb => Function.update_of_ne (fun heq => ?_) _ _
  rw [heq, hpi] at hb
  omega

end Fields

end UserHeap

end Akos
