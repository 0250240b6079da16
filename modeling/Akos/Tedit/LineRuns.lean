import Akos.Lib.Transition
import Akos.Tedit.LineEdits

/-!
# The list of lines over whole runs

Ends of lines are typed and removed, at any region of any line and in any order. While each of the operations finds
room for the bytes it moves and the end of line it takes off, the list stays linked both ways and numbered, each line
is in memory of its own, and the display finds every line. A line of exactly one buffer shows the need for the
condition: its last region is empty, and the end of line is in the one before.
-/

namespace Akos.Tedit.InMemory

open UserHeap (Holds)
open Doubly (Reaches)

/-! ### Lists in memory -/

/-- A region of a line on the list. -/
def OnList (h : UserHeap) (base r : BitVec 32) : Prop :=
  ∃ ltr, Reaches (fun p => h.field p .nextLine) 0#32 base ltr ∧ Reaches (fun p => h.field p .next) 0#32 ltr r

/-- The lines are linked both ways and numbered, the memory of each one is in use and no other region's, and the
display ends at each of them from every other one. -/
structure SoundList (h : UserHeap) (base : BitVec 32) (l : List (BitVec 32)) : Prop where
  head : l.head? = some base
  linked : Doubly.Segment (fun p => h.field p .nextLine) (fun p => h.field p .prevLine) 0#32 l 0#32
  numbered : ∀ i (hi : i < l.length), (h.field l[i] .line).toNat = i
  inUse : ∀ a ∈ l, h.Used a sizeofLineTextRegion
  apart : ∀ a ∈ l, ∀ r, OnList h base r → a ≠ r →
    h.firstOf a + Heap.blocksFor sizeofLineTextRegion ≤ h.firstOf r ∨
      h.firstOf r + Heap.blocksFor sizeofTextRegion ≤ h.firstOf a
  shown : ∀ a ∈ l, ∀ (target : BitVec 32) (ht : target.toNat < l.length), topLine h target a = some l[target.toNat]

def Sound (h : UserHeap) (base : BitVec 32) : Prop := ∃ l, SoundList h base l

/-- A list of lines as the editor has it, in memory from `calloc`. -/
def Consistent (h : UserHeap) (base : BitVec 32) : Prop := ∃ b rows, Holds h b ∧ Intact b base rows

/-- The first region of a region's line. -/
def FirstOf (h : UserHeap) (r first : BitVec 32) : Prop :=
  Reaches (fun p => h.field p .prev) 0#32 r first ∧ h.field first .prev = 0#32

/-- The last region of a line. -/
def LastOf (h : UserHeap) (ltr last : BitVec 32) : Prop :=
  Reaches (fun p => h.field p .next) 0#32 ltr last ∧ h.field last .next = 0#32

/-- What is typed at a region: an end of line at some column, or a backspace at the start of its line. -/
inductive Op
  | newline (tr cursorCol : BitVec 32)
  | remove (tr : BitVec 32)

def Op.region : Op → BitVec 32
  | .newline tr _ => tr
  | .remove tr => tr

def exec (h : UserHeap) : Op → Result (Bool × UserHeap)
  | .newline tr cursorCol => appendAtPosition h tr cursorCol
  | .remove tr => removeAtPosition h tr

def Step (base : BitVec 32) (h : UserHeap) (op : Op) (h' : UserHeap) : Prop :=
  OnList h base op.region ∧ ∃ done, exec h op = .ok (done, h')

/-- An end of line is typed within the bytes of its region, of which fewer than a buffer's are behind the cursor
unless no region behind has any. One is removed where the line in front, if there is one, ends in a region with two
bytes or more. -/
def Careful (h : UserHeap) : Op → Prop
  | .newline tr cursorCol => (cursorCol % 128#32).toNat ≤ (h.field tr .pos).toNat ∧
      ((h.field tr .pos).toNat - (cursorCol % 128#32).toNat < 128 ∨
        ∀ r, Reaches (fun p => h.field p .next) 0#32 tr r → r ≠ tr → h.field r .pos = 0#32)
  | .remove tr => ∀ ltr last, FirstOf h tr ltr → h.field ltr .prevLine ≠ 0#32 →
      LastOf h (h.field ltr .prevLine) last → 2 ≤ (h.field last .pos).toNat

def CarefulStep (base : BitVec 32) (h : UserHeap) (op : Op) (h' : UserHeap) : Prop :=
  Careful h op ∧ Step base h op h'

section Memory

variable {h : UserHeap} {b : Blocks} {base r : BitVec 32} {rows : List Row} {row : Row}

theorem Intact.lines_memory (hh : Holds h b) (hi : Intact b base rows) :
    Doubly.Segment (fun p => h.field p .nextLine) (fun p => h.field p .prevLine) 0#32 (rows.map Row.first) 0#32 :=
  hi.listed.linked.congr (fun a ha => hh.field_eq (hi.listed.sized a ha) .nextLine (by decide)) fun a ha =>
    hh.field_eq (hi.listed.sized a ha) .prevLine (by decide)

theorem Chained.memory {rs : List (BitVec 32)} (hh : Holds h b) (hc : Chained b rs) :
    Doubly.Segment (fun p => h.field p .next) (fun p => h.field p .prev) 0#32 rs 0#32 :=
  hc.linked.congr (fun p hp => hh.field_eq (hc.sized p hp) .next (by decide)) fun p hp =>
    hh.field_eq (hc.sized p hp) .prev (by decide)

theorem Chained.firstOf {rs rest : List (BitVec 32)} {tr : BitVec 32} (hh : Holds h b)
    (hc : Chained b (rs ++ tr :: rest)) : FirstOf h tr (rs.headD tr) := by
  have hmemory := hc.memory hh
  rw [List.append_cons, Doubly.segment_append] at hmemory
  exact hmemory.1.reaches_first fun h0 => hh.sized_ne_zero (hc.sized 0#32 (List.mem_append_left _ h0)) rfl

theorem Chained.lastOf {rs : List (BitVec 32)} (hh : Holds h b) (hc : Chained b (r :: rs)) :
    LastOf h r (rs.getLastD r) :=
  (hc.memory hh).reaches_last fun h0 => hh.sized_ne_zero (hc.sized 0#32 (List.mem_cons_of_mem r h0)) rfl

/-- A region on the list is one of the rows'. -/
theorem Intact.exists_row (hh : Holds h b) (hi : Intact b base rows) (hr : OnList h base r) :
    ∃ row ∈ rows, r ∈ row.regions := by
  obtain ⟨ltr, hltr, hreach⟩ := hr
  have hmem := (hi.lines_memory hh).mem_of_reaches hltr (List.mem_of_mem_head? hi.head)
  obtain ⟨row, hrow, rfl⟩ := List.mem_map.mp hmem
  exact ⟨row, hrow, ((hi.chained row hrow).memory hh).mem_of_reaches hreach List.mem_cons_self⟩

theorem used_of_sized {p : BitVec 32} {size : BitVec 32} (hh : Holds h b) (hp : b.Sized p size.toNat) :
    h.Used p size := by
  obtain ⟨size', hlive, hle, -⟩ := hp
  intro block hlo hhi
  refine hh.used p size' hlive block hlo (Nat.lt_of_lt_of_le hhi ?_)
  rw [Heap.blocksFor, Heap.blocksFor]
  omega

theorem apart_of_sized {p q size size' : BitVec 32} (hh : Holds h b) (hp : b.Sized p size.toNat)
    (hq : b.Sized q size'.toNat) (hne : p ≠ q) :
    h.firstOf p + Heap.blocksFor size ≤ h.firstOf q ∨ h.firstOf q + Heap.blocksFor size' ≤ h.firstOf p := by
  obtain ⟨n, hlive, hle, -⟩ := hp
  obtain ⟨n', hlive', hle', -⟩ := hq
  have hapart := hh.apart p q n n' hlive hlive' hne
  rw [Heap.blocksFor, Heap.blocksFor] at hapart ⊢
  omega

/-- An intact text is a sound list. -/
theorem Intact.sound (hh : Holds h b) (hi : Intact b base rows) : SoundList h base (rows.map Row.first) := by
  have hzero : 0#32 ∉ rows.map Row.first := fun hmem => hh.sized_ne_zero (hi.listed.sized 0#32 hmem) rfl
  have hlength := length_lt_maxSteps hi.listed.nodup hzero
  have hnumbered : ∀ i (hi : i < (rows.map Row.first).length), (h.field (rows.map Row.first)[i] .line).toNat = i := by
    intro i hlt
    have hmem := List.getElem_mem hlt
    rw [hh.field_eq (hi.listed.sized _ hmem) .line (by decide), hi.listed.numbered.getElem hlt]
    rw [maxSteps] at hlength
    simp
    omega
  refine ⟨hi.head, hi.lines_memory hh, hnumbered, ?_, ?_, ?_⟩
  · exact fun a ha => used_of_sized hh (hi.listed.sized a ha)
  · intro a ha r hr hne
    obtain ⟨row, hrow, hmem⟩ := hi.exists_row hh hr
    exact apart_of_sized hh (hi.listed.sized a ha) ((hi.chained row hrow).sized r hmem) hne
  · intro a ha target ht
    obtain ⟨i, hlt, rfl⟩ := List.getElem_of_mem ha
    exact Doubly.seek_eq (hi.lines_memory hh) hnumbered hlt ht (by omega)

end Memory

/-! ### Careful steps -/

section Steps

variable {h h' : UserHeap} {b : Blocks} {base tr cursorCol : BitVec 32} {rows : List Row} {op : Op}

/-- The row of a region, between those in front and those behind. -/
theorem Intact.exists_split (hh : Holds h b) (hi : Intact b base rows) (htr : OnList h base tr) :
    ∃ rows₁ row rows₂ rs rest, rows = rows₁ ++ row :: rows₂ ∧ row.regions = rs ++ tr :: rest := by
  obtain ⟨row, hrow, hmem⟩ := hi.exists_row hh htr
  obtain ⟨rows₁, rows₂, hrows⟩ := List.append_of_mem hrow
  obtain ⟨rs, rest, hregions⟩ := List.append_of_mem hmem
  exact ⟨rows₁, row, rows₂, rs, rest, hrows, hregions⟩

/-- A careful operation leaves a consistent list, or there is no memory for it. -/
theorem Consistent.ends (hc : Consistent h base) (htr : OnList h base op.region) (hcareful : Careful h op) :
    Ends (fun r => Consistent r.2 base) (exec h op) := by
  obtain ⟨b, rows, hh, hi⟩ := hc
  obtain ⟨rows₁, row, rows₂, rs, rest, rfl, hregions⟩ := hi.exists_split hh htr
  have hchained := hi.chained row (List.mem_append_right rows₁ List.mem_cons_self)
  rw [hregions] at hchained
  cases op with
  | newline tr cursorCol =>
    have hpos : ∀ r ∈ rs ++ tr :: rest, h.field r .pos = b.field r .pos := fun r hr =>
      hh.field_eq (hchained.sized r hr) .pos (by decide)
    have hrest := (Doubly.segment_append.mp (hchained.memory hh)).2
    obtain ⟨-, hnodup, -⟩ := List.nodup_append.mp hchained.nodup
    obtain ⟨htrRest, -⟩ := List.nodup_cons.mp hnodup
    have hback : ∀ r ∈ tr :: rest, r ∈ rs ++ tr :: rest := fun r hr => List.mem_append_right rs hr
    obtain ⟨hk, hroom⟩ := hcareful
    rw [hpos tr (hback tr List.mem_cons_self)] at hk hroom
    refine (appendAtPosition_spec hh hi hregions hk (hroom.imp_right fun hempty r hr => ?_)).mono fun r hr => ?_
    · have hr' : r ∈ tr :: rest := List.mem_cons_of_mem tr hr
      rw [← hpos r (hback r hr')]
      refine hempty r (hrest.reaches (fun h0 => ?_) hr') fun heq => htrRest (heq ▸ hr)
      exact hh.sized_ne_zero (hchained.sized 0#32 (hback 0#32 (List.mem_cons_of_mem tr h0))) rfl
    · obtain ⟨b', front, new, hh', hi'⟩ := hr
      exact ⟨b', _, hh', hi'⟩
  | remove tr =>
    obtain rfl | ⟨rows₀, prev, rfl⟩ := rows₁.eq_nil_or_concat
    · have hnothing : removeAtPosition h tr = .ok (false, h) := removeAtPosition_base hh hi hregions
      rw [exec, hnothing]
      exact .ok ⟨b, _, hh, hi⟩
    · rw [List.concat_eq_append, List.append_assoc] at hi
      have hprevMem : prev ∈ rows₀ ++ ([prev] ++ row :: rows₂) := List.mem_append_right rows₀ List.mem_cons_self
      have hprev := hi.chained prev hprevMem
      have hprevLine : h.field row.first .prevLine = prev.first := by
        have hlines := hi.lines_memory hh
        rw [List.map_append] at hlines
        exact (Doubly.segment_append.mp hlines).2.2.2.1
      have hfirst := hchained.firstOf hh
      rw [(exists_front hregions).1] at hfirst
      have hlast := hcareful row.first (prev.rest.getLastD prev.first) hfirst
      rw [hprevLine] at hlast
      have hlastMem : prev.rest.getLastD prev.first ∈ prev.regions := by
        obtain ⟨front, hfront⟩ := exists_last prev
        rw [hfront]
        exact List.mem_append_right front List.mem_cons_self
      have hpos := hlast (hh.sized_ne_zero (hprev.sized prev.first List.mem_cons_self)) (hprev.lastOf hh)
      rw [hh.field_eq (hprev.sized _ hlastMem) .pos (by decide)] at hpos
      refine (removeAtPosition_spec hh hi hregions hpos).mono fun r hr => ?_
      obtain ⟨b', joined, hh', hi'⟩ := hr
      exact ⟨b', _, hh', hi'⟩

theorem Consistent.step (hc : Consistent h base) (hstep : CarefulStep base h op h') : Consistent h' base := by
  obtain ⟨hcareful, htr, done, hexec⟩ := hstep
  have hends := hc.ends htr hcareful
  rw [hexec] at hends
  exact hends.of_ok

/-- In a run of careful operations the list of lines is sound in every state, and a careful operation does not run on
for ever. -/
theorem soundLines_of_run {ops : List Op} (hc : Consistent h base)
    (hrun : Transition.Run (CarefulStep base) h ops h') : Sound h' base ∧
      ∀ op, OnList h' base op.region → Careful h' op → exec h' op ≠ .error .endless := by
  have hc' := hrun.invariant (fun h => Consistent h base) (fun _ _ _ hs hstep => hs.step hstep) hc
  constructor
  · obtain ⟨b, rows, hh, hi⟩ := hc'
    exact ⟨rows.map Row.first, hi.sound hh⟩
  · intro op htr hcareful hendless
    have hends := hc'.ends htr hcareful
    rw [hendless] at hends
    cases hends

end Steps

/-! ### A line of one buffer -/

abbrev fullLtr : BitVec 32 := 0x510004#32

abbrev emptyTr : BitVec 32 := 0x5100A4#32

abbrev endLtr : BitVec 32 := 0x510134#32

/-- A heap with 64 blocks in use. -/
def blankHeap : UserHeap where
  memory a := if a - 0x500000#32 < 8#32 then 0xFF#8 else if a - fullLtr < 126#32 then 0x61#8 else 0#8
  brk := 0x510200#32
  usedBlocks := 64#32
  memoryMap := 0x500000#32
  sbrkTop := 0x510200#32
  heapBase := 0x510000#32
  heapInitialized := true

def startSizes : List (BitVec 32 × BitVec 32) :=
  [(fullLtr, sizeofLineTextRegion), (emptyTr, sizeofTextRegion), (endLtr, sizeofLineTextRegion)]

/-- Two lines: 126 characters with CR LF, which fill a buffer, and then the bytes 1 and 0. -/
def oneBuffer : UserHeap :=
  let h := startSizes.foldl (fun h e => h.setWord e.1 Blocks.header (Heap.blockAmt e.2)) blankHeap
  let h := ((h.setByte fullLtr 126#32 0x0D#8).setByte fullLtr 127#32 0x0A#8).setField fullLtr .pos 128#32
  let h := ((h.setField fullLtr .next emptyTr).setField emptyTr .prev fullLtr).setField fullLtr .nextLine endLtr
  let h := (h.setByte endLtr 0#32 0x01#8).setField endLtr .pos 2#32
  (h.setField endLtr .prevLine fullLtr).setField endLtr .line 1#32

def startBlocks : Blocks := ⟨fun p => startSizes.lookup p, fun p o => oneBuffer.byte p o⟩

theorem mem_startSizes {p size : BitVec 32} (hp : startBlocks.live p = some size) : (p, size) ∈ startSizes := by
  obtain ⟨l₁, l₂, heq, -⟩ := List.lookup_eq_some_iff.mp hp
  rw [heq]
  exact List.mem_append_right l₁ List.mem_cons_self

/-- What is checked of each allocation. -/
theorem of_all_startSizes {q : BitVec 32 × BitVec 32 → Prop} [DecidablePred q]
    (hall : startSizes.all (fun e => decide (q e)) = true) {p size : BitVec 32} (hp : startBlocks.live p = some size) :
    q (p, size) := of_decide_eq_true (List.all_eq_true.mp hall (p, size) (mem_startSizes hp))

theorem holds_start : Holds oneBuffer startBlocks where
  ready := ⟨⟨by decide, by decide⟩, rfl, rfl⟩
  placed p size hp := by
    have hall : startSizes.all (fun e => decide (e.1 = oneBuffer.pointer (oneBuffer.firstOf e.1) ∧
        oneBuffer.firstOf e.1 + Heap.blocksFor e.2 ≤ 524288)) = true := by decide +kernel
    exact of_all_startSizes hall hp
  used p size hp block hlo hhi := by
    have hwords : ∀ i < 2, oneBuffer.words i = 0xFFFFFFFF#32 := by decide +kernel
    have hset : ∀ bit < 32, (0xFFFFFFFF#32).getLsbD bit = true := by decide
    have hend : startSizes.all (fun e => decide (oneBuffer.firstOf e.1 + Heap.blocksFor e.2 ≤ 64)) = true := by
      decide +kernel
    have hlt : block < 64 := Nat.lt_of_lt_of_le hhi (of_all_startSizes hend hp)
    rw [WordMap.test, hwords _ (by omega)]
    exact hset _ (Nat.mod_lt _ (by decide))
  apart p q size size' hp hq hne := by
    have hall : startSizes.all (fun e => decide (startSizes.all (fun e' => decide (e.1 ≠ e'.1 →
        oneBuffer.firstOf e.1 + Heap.blocksFor e.2 ≤ oneBuffer.firstOf e'.1 ∨
          oneBuffer.firstOf e'.1 + Heap.blocksFor e'.2 ≤ oneBuffer.firstOf e.1)) = true)) = true := by decide +kernel
    exact of_all_startSizes (of_all_startSizes hall hp) hq hne
  cells _ _ _ _ _ := rfl

theorem sized_start {p size : BitVec 32} (hp : startBlocks.live p = some size) : startBlocks.Sized p size.toNat := by
  have hall : startSizes.all (fun e => decide (startBlocks.word e.1 Blocks.header = Heap.blockAmt e.2)) = true := by
    decide +kernel
  exact ⟨size, hp, Nat.le_refl _, of_all_startSizes hall hp⟩

theorem consistent_start : Consistent oneBuffer fullLtr := by
  have hfull : startBlocks.Sized fullLtr sizeofLineTextRegion.toNat := sized_start (by decide)
  have hempty : startBlocks.Sized emptyTr sizeofTextRegion.toNat := sized_start (by decide)
  have hend : startBlocks.Sized endLtr sizeofLineTextRegion.toNat := sized_start (by decide)
  refine ⟨startBlocks, [⟨fullLtr, [emptyTr]⟩, ⟨endLtr, []⟩], holds_start, rfl, ⟨?_, ?_, ?_, by decide⟩,
    List.forall_mem_cons.mpr ⟨⟨?_, ?_, ?_, by decide⟩, List.forall_mem_singleton.mpr ?_⟩, by decide⟩
  · refine ⟨?_, ?_, ?_, ?_, trivial⟩ <;> decide +kernel
  · refine ⟨?_, ?_, trivial⟩ <;> decide +kernel
  · exact List.forall_mem_cons.mpr ⟨hfull, List.forall_mem_singleton.mpr hend⟩
  · refine ⟨?_, ?_, ?_, ?_, trivial⟩ <;> decide +kernel
  · exact List.forall_mem_cons.mpr ⟨hfull.mono (by decide), List.forall_mem_singleton.mpr hempty⟩
  · exact List.forall_mem_cons.mpr ⟨by decide +kernel, List.forall_mem_singleton.mpr (by decide +kernel)⟩
  · exact chained_singleton (hend.mono (by decide)) (by decide +kernel) (by decide +kernel) (by decide +kernel)

/-- The state behind an operation that returns. -/
def stateAfter (h : UserHeap) (op : Op) : UserHeap :=
  match exec h op with
  | .ok r => r.2
  | .error _ => h

theorem exec_stateAfter {h : UserHeap} {op : Op} (hok : (exec h op).isOk = true) :
    ∃ done, exec h op = .ok (done, stateAfter h op) := by
  rw [stateAfter]
  cases hexec : exec h op with
  | ok r => exact ⟨r.1, rfl⟩
  | error stop =>
    rw [hexec] at hok
    cases hok

/-- An end of line is typed at the start of the last line, and removed. -/
theorem soundLines_of_run_newline : Sound (stateAfter (stateAfter oneBuffer (.newline endLtr 0#32))
    (.remove 0x510204#32)) fullLtr := by
  obtain ⟨hok, hok', hline, hnext, hnext', hprev, hfirst, hlast, htwo⟩ :
      (exec oneBuffer (.newline endLtr 0#32)).isOk = true ∧
      (exec (stateAfter oneBuffer (.newline endLtr 0#32)) (.remove 0x510204#32)).isOk = true ∧
      oneBuffer.field fullLtr .nextLine = endLtr ∧
      (stateAfter oneBuffer (.newline endLtr 0#32)).field fullLtr .nextLine = endLtr ∧
      (stateAfter oneBuffer (.newline endLtr 0#32)).field endLtr .nextLine = 0x510204#32 ∧
      (stateAfter oneBuffer (.newline endLtr 0#32)).field 0x510204#32 .prevLine = endLtr ∧
      (stateAfter oneBuffer (.newline endLtr 0#32)).field 0x510204#32 .prev = 0#32 ∧
      (stateAfter oneBuffer (.newline endLtr 0#32)).field endLtr .next = 0#32 ∧
      2 ≤ ((stateAfter oneBuffer (.newline endLtr 0#32)).field endLtr .pos).toNat := by decide +kernel
  have hend : OnList oneBuffer fullLtr endLtr :=
    ⟨endLtr, Relation.ReflTransGen.single ⟨hline, by decide⟩, Relation.ReflTransGen.refl⟩
  have hnew : OnList (stateAfter oneBuffer (.newline endLtr 0#32)) fullLtr 0x510204#32 :=
    ⟨0x510204#32, (Relation.ReflTransGen.single ⟨hnext, by decide⟩).tail ⟨hnext', by decide⟩,
      Relation.ReflTransGen.refl⟩
  have hcareful : Careful (stateAfter oneBuffer (.newline endLtr 0#32)) (.remove 0x510204#32) := by
    intro ltr last hltr _ hback
    obtain rfl := Doubly.reaches_of_null hltr.1 hfirst
    rw [hprev] at hback
    obtain rfl := Doubly.reaches_of_null hback.1 hlast
    exact htwo
  have hstep : CarefulStep fullLtr oneBuffer (.newline endLtr 0#32) (stateAfter oneBuffer (.newline endLtr 0#32)) :=
    ⟨⟨by decide +kernel, .inl (by decide +kernel)⟩, hend, exec_stateAfter hok⟩
  have hstep' : CarefulStep fullLtr (stateAfter oneBuffer (.newline endLtr 0#32)) (.remove 0x510204#32)
      (stateAfter (stateAfter oneBuffer (.newline endLtr 0#32)) (.remove 0x510204#32)) :=
    ⟨hcareful, hnew, exec_stateAfter hok'⟩
  exact (soundLines_of_run consistent_start (.cons hstep (.single hstep'))).1

/-! ### A header that is overwritten -/

theorem ok_bind {α β : Type} (a : α) (f : α → Result β) : (.ok a : Result α) >>= f = f a := rfl

theorem firstRegion_of_first {h : UserHeap} {tr : BitVec 32} (hprev : h.field tr .prev = 0#32) :
    firstRegion h tr = .ok tr := by
  have hfollow : Doubly.follow (fun p => h.field p .prev) 0#32 maxSteps tr = some tr := if_pos hprev
  rw [firstRegion, hfollow]
  rfl

/-- The last line is counted up. -/
theorem renumber_of_last {h : UserHeap} {step ltr : BitVec 32} (hne : ltr ≠ 0#32)
    (hnext : (h.setField ltr .line (h.field ltr .line + step)).field ltr .nextLine = 0#32) :
    renumber step maxSteps h ltr = .ok (h.setField ltr .line (h.field ltr .line + step)) := by
  show renumber step (4294967294 + 1 + 1) h ltr = _
  rw [renumber, if_neg hne]
  dsimp only
  rw [hnext, renumber, if_pos rfl]
  rfl

/-- The last one of the regions is freed, when it is empty. -/
theorem moveRegions_of_last {h : UserHeap} {dest tr : BitVec 32} (hne : tr ≠ 0#32) (hpos : h.field tr .pos = 0#32)
    (hnext : h.field tr .next = 0#32) : moveRegions maxSteps h dest tr = .ok (h.free tr) := by
  show moveRegions (4294967294 + 1 + 1) h dest tr = _
  rw [moveRegions, if_neg hne, moveBytes_of_empty hpos (by decide)]
  show moveRegions (4294967294 + 1) (h.free tr) dest (h.field tr .next) = _
  rw [hnext, moveRegions, if_pos rfl]
  rfl

/-- The end of line in front of the bytes 1 and 0 is removed. -/
def brokenHeader : UserHeap := stateAfter oneBuffer (.remove endLtr)

/-- The memory of the line that was removed is allocated for a new one. -/
def newLine : UserHeap := ((brokenHeader.calloc sizeofLineTextRegion).map Prod.snd).getD brokenHeader

/-- The last two bytes of the full buffer are in the new line. -/
def twoCopied : UserHeap :=
  ((newLine.setByte endLtr 0#32 0x0D#8).setByte endLtr 1#32 0x0A#8).setField endLtr .pos 2#32

theorem takeTail_brokenHeader : takeTail brokenHeader fullLtr 126#32 = .ok (endLtr, twoCopied.free emptyTr) := by
  obtain ⟨new, hnew, hfst⟩ : ∃ new, brokenHeader.calloc sizeofLineTextRegion = some new ∧ new.1 = endLtr :=
    Option.map_eq_some_iff.mp (by decide +kernel)
  have hcalloc : brokenHeader.calloc sizeofLineTextRegion = some (endLtr, newLine) := by
    rw [newLine, hnew, ← hfst]
    rfl
  obtain ⟨hpos, hbyte, hpos₁, hbyte₁, hpos₂, hnext, hempty, hlast⟩ : newLine.field fullLtr .pos = 128#32 ∧
      newLine.byte fullLtr 126#32 = 0x0D#8 ∧ (newLine.setByte endLtr 0#32 0x0D#8).field fullLtr .pos = 128#32 ∧
      (newLine.setByte endLtr 0#32 0x0D#8).byte fullLtr 127#32 = 0x0A#8 ∧
      ((newLine.setByte endLtr 0#32 0x0D#8).setByte endLtr 1#32 0x0A#8).field fullLtr .pos = 128#32 ∧
      twoCopied.field fullLtr .next = emptyTr ∧ twoCopied.field emptyTr .pos = 0#32 ∧
      twoCopied.field emptyTr .next = 0#32 := by decide +kernel
  have hcopied : copyTail endLtr fullLtr maxSteps newLine 126#32 0#32 =
      .ok ((newLine.setByte endLtr 0#32 0x0D#8).setByte endLtr 1#32 0x0A#8) := by
    show copyTail endLtr fullLtr (4294967293 + 1 + 1 + 1) newLine 126#32 0#32 = _
    rw [copyTail, hpos, if_pos (by decide), hbyte, copyTail, hpos₁, if_pos (by decide)]
    show copyTail endLtr fullLtr (4294967293 + 1) ((newLine.setByte endLtr 0#32 0x0D#8).setByte endLtr 1#32
      ((newLine.setByte endLtr 0#32 0x0D#8).byte fullLtr 127#32)) 128#32 2#32 = _
    rw [hbyte₁, copyTail, hpos₂, if_neg (by decide)]
    rfl
  rw [takeTail, hcalloc, orStop, ok_bind, hcopied, ok_bind]
  dsimp only
  rw [hpos₂, show 128#32 - 126#32 = 2#32 from rfl, ← twoCopied, hnext, moveRegions_of_last (by decide) hempty hlast]
  rfl

/-- The first block of the new line is not in use. -/
structure NewFreed (h : UserHeap) : Prop where
  placed : h.Placed
  base : h.heapBase = 0x510000#32
  clear : h.words.test 38 = false

section NewFreed

variable {h : UserHeap} {p : BitVec 32}

theorem NewFreed.setField (hf : NewFreed h) (hp : 0x510000 ≤ p.toNat) (hp' : p.toNat + 152 ≤ 2 ^ 32) (f : Field)
    (value : BitVec 32) : NewFreed (h.setField p f value) where
  placed := ⟨hf.placed.base, hf.placed.room⟩
  base := hf.base
  clear := by
    rw [hf.placed.words_setField (by rw [hf.base]; exact hp) hp']
    exact hf.clear

theorem NewFreed.setByte (hf : NewFreed h) (hp : 0x510000 ≤ p.toNat) (hp' : p.toNat + 152 ≤ 2 ^ 32) {i : BitVec 32}
    (hi : i.toNat < 128) (c : BitVec 8) : NewFreed (h.setByte p i c) where
  placed := ⟨hf.placed.base, hf.placed.room⟩
  base := hf.base
  clear := by
    rw [hf.placed.words_setByte (by rw [hf.base]; exact hp) hp' hi]
    exact hf.clear

theorem NewFreed.not_used (hf : NewFreed h) : ¬ h.Used endLtr sizeofLineTextRegion := by
  intro hused
  have hfirst : h.firstOf endLtr = 38 := by
    rw [UserHeap.firstOf, UserHeap.blockOf, hf.base]
    decide
  have hset := hused 38
  rw [hfirst, hf.clear] at hset
  exact absurd (hset (by decide) (by decide)) (by decide)

/-- The line that ends at byte 126 is linked with the new one, whatever was freed. -/
theorem linked_of_newFreed (hf : NewFreed h) (hprev : h.field fullLtr .prev = 0#32)
    (hnext : h.field fullLtr .nextLine = 0#32) : ∃ h', firstRegion (endLine h fullLtr 126#32) fullLtr = .ok fullLtr ∧
      renumber 1#32 maxSteps (linkBehind (endLine h fullLtr 126#32) fullLtr endLtr) endLtr = .ok h' ∧
      h'.field fullLtr .nextLine = endLtr ∧ NewFreed h' := by
  have hfull : fullLtr.toNat + 152 ≤ 2 ^ 32 := by decide
  have hend : endLtr.toNat + 152 ≤ 2 ^ 32 := by decide
  have hfullBase : 0x510000 ≤ fullLtr.toNat := by decide
  have hendBase : 0x510000 ≤ endLtr.toNat := by decide
  obtain ⟨e, heq, hfe, hfield⟩ : ∃ e, endLine h fullLtr 126#32 = e ∧ NewFreed e ∧
      ∀ f, f ≠ .pos → f ≠ .next → e.field fullLtr f = h.field fullLtr f := by
    refine ⟨_, rfl, (((hf.setField hfullBase hfull .next _).setField hfullBase hfull .pos _).setByte hfullBase hfull
      (by decide) _).setByte hfullBase hfull (by decide) _, fun f hpos hnext => ?_⟩
    rw [endLine, UserHeap.field_setByte hfull hfull (.inl rfl) (by decide),
      UserHeap.field_setByte hfull hfull (.inl rfl) (by decide), UserHeap.field_setField hfull hfull (.inl rfl),
      if_neg fun h => hpos h.2, UserHeap.field_setField hfull hfull (.inl rfl), if_neg fun h => hnext h.2]
  rw [heq]
  have hnextE : e.field fullLtr .nextLine = 0#32 := (hfield .nextLine (by decide) (by decide)).trans hnext
  have hread : (e.setField endLtr .nextLine 0#32).field fullLtr .nextLine = 0#32 := by
    rw [UserHeap.field_setField hend hfull (by decide), if_neg (by decide), hnextE]
  have hlink : ∃ line, linkBehind e fullLtr endLtr = (((e.setField endLtr .nextLine 0#32).setField fullLtr .nextLine
      endLtr).setField endLtr .prevLine fullLtr).setField endLtr .line line := by
    rw [linkBehind, hnextE, hread, if_neg (not_not_intro rfl)]
    exact ⟨_, rfl⟩
  obtain ⟨line, hlink⟩ := hlink
  rw [hlink]
  have hlast : ∀ value, (((((e.setField endLtr .nextLine 0#32).setField fullLtr .nextLine endLtr).setField endLtr
      .prevLine fullLtr).setField endLtr .line line).setField endLtr .line value).field endLtr .nextLine = 0#32 := by
    intro value
    rw [UserHeap.field_setField hend hend (.inl rfl), if_neg (by decide), UserHeap.field_setField hend hend (.inl rfl),
      if_neg (by decide), UserHeap.field_setField hend hend (.inl rfl), if_neg (by decide),
      UserHeap.field_setField hfull hend (by decide), if_neg (by decide), UserHeap.field_setField hend hend (.inl rfl),
      if_pos ⟨rfl, rfl⟩]
  refine ⟨_, firstRegion_of_first ((hfield .prev (by decide) (by decide)).trans hprev),
    renumber_of_last (by decide) (hlast _), ?_, ?_⟩
  · rw [UserHeap.field_setField hend hfull (by decide), if_neg (by decide),
      UserHeap.field_setField hend hfull (by decide), if_neg (by decide),
      UserHeap.field_setField hend hfull (by decide), if_neg (by decide),
      UserHeap.field_setField hfull hfull (.inl rfl), if_pos ⟨rfl, rfl⟩]
  · have hlinked := ((hfe.setField hendBase hend .nextLine 0#32).setField hfullBase hfull .nextLine endLtr).setField
      hendBase hend .prevLine fullLtr
    exact (hlinked.setField hendBase hend .line line).setField hendBase hend .line _

end NewFreed

/-- The blocks of the new line go back with the region. -/
theorem exists_freed : ∃ h, exec brokenHeader (.newline fullLtr 126#32) = .ok (true, h) ∧
    h.field fullLtr .nextLine = endLtr ∧ NewFreed h := by
  obtain ⟨hmap, hbase, hheader, hprev, hnext⟩ : twoCopied.memoryMap = 0x500000#32 ∧ twoCopied.heapBase = 0x510000#32 ∧
      twoCopied.memory.loadWord (emptyTr - UserHeap.blockAmtDescSize) = 65554#32 ∧
      twoCopied.field fullLtr .prev = 0#32 ∧ twoCopied.field fullLtr .nextLine = 0#32 := by decide +kernel
  have hplaced : twoCopied.Placed := ⟨by rw [hbase, hmap]; rfl, by rw [hbase]; decide⟩
  have hfree : twoCopied.free emptyTr = twoCopied.releaseRun 20 65554 := by
    have hblock : twoCopied.blockOf (emptyTr - UserHeap.blockAmtDescSize) = 20 := by
      rw [UserHeap.blockOf, hbase]
      decide
    rw [UserHeap.free, if_pos (by decide), hheader]
    dsimp only
    rw [UserHeap.mallocFreeBlocks, hblock]
    rfl
  obtain ⟨hwords, -, hkept⟩ := hplaced.releaseRun (show 20 + 65554 ≤ 524288 by decide)
  rw [← hfree] at hwords hkept
  have hfield : ∀ f, (twoCopied.free emptyTr).field fullLtr f = twoCopied.field fullLtr f := fun f => by
    obtain ⟨haddr, hlo, hhi⟩ := UserHeap.toNat_offset (show fullLtr.toNat + 152 ≤ 2 ^ 32 by decide) f
    refine hkept.loadWord _ ?_ ?_
    · rw [hbase]
      exact Nat.le_trans (by decide) hlo
    · exact Nat.le_trans hhi (by decide)
  have hf : NewFreed (twoCopied.free emptyTr) := by
    refine ⟨hkept.placed hplaced, hkept.heapBase.trans hbase, ?_⟩
    rw [hwords, WordMap.test_unsetRun]
    rfl
  obtain ⟨h', hfirst, hcounted, hline, hf'⟩ := linked_of_newFreed hf ((hfield .prev).trans hprev)
    ((hfield .nextLine).trans hnext)
  refine ⟨h', ?_, hline, hf'⟩
  rw [exec, appendAtPosition, show 126#32 % 128#32 = 126#32 from rfl, takeTail_brokenHeader, ok_bind]
  dsimp only
  rw [hfirst, ok_bind, hcounted, ok_bind]
  rfl

/-- The empty region behind a full buffer is counted down to −2 bytes, and the next two bytes go into the header in
front of it. Freed with 65536 blocks more, it takes the new line with it. -/
theorem not_soundLines_of_run : Consistent oneBuffer fullLtr ∧ ∃ h, Transition.Run (Step fullLtr) oneBuffer
    [.remove endLtr, .newline fullLtr 126#32] h ∧
      Reaches (fun p => h.field p .nextLine) 0#32 fullLtr endLtr ∧ ¬ h.Used endLtr sizeofLineTextRegion ∧
      ¬ Sound h fullLtr := by
  obtain ⟨hok, hnext⟩ : (exec oneBuffer (.remove endLtr)).isOk = true ∧ oneBuffer.field fullLtr .nextLine = endLtr := by
    decide +kernel
  obtain ⟨done, hfirst⟩ : ∃ done, exec oneBuffer (.remove endLtr) = .ok (done, brokenHeader) := exec_stateAfter hok
  obtain ⟨h, hsecond, hline, hf⟩ := exists_freed
  have hend : OnList oneBuffer fullLtr endLtr :=
    ⟨endLtr, Relation.ReflTransGen.single ⟨hnext, by decide⟩, Relation.ReflTransGen.refl⟩
  have hfull : OnList brokenHeader fullLtr fullLtr := ⟨fullLtr, Relation.ReflTransGen.refl, Relation.ReflTransGen.refl⟩
  have hreach : Reaches (fun p => h.field p .nextLine) 0#32 fullLtr endLtr :=
    Relation.ReflTransGen.single ⟨hline, by decide⟩
  refine ⟨consistent_start, h, .cons ⟨hend, done, hfirst⟩ (.single ⟨hfull, true, hsecond⟩), hreach, hf.not_used, ?_⟩
  intro hsound
  obtain ⟨l, hl⟩ := hsound
  exact hf.not_used (hl.inUse endLtr (hl.linked.mem_of_reaches hreach (List.mem_of_mem_head? hl.head)))

end Akos.Tedit.InMemory
