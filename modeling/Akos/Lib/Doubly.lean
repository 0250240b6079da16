import Mathlib.Algebra.Group.Defs
import Mathlib.Data.List.Nodup
import Mathlib.Data.Nat.Cast.Defs
import Mathlib.Logic.Relation
import Mathlib.Tactic.Abel

/-!
# Doubly linked lists

The nodes of a list point to the next and to the previous one, and each pointer is a function from a node to a node,
as a field of a record in memory is. What is said of a list does not depend on the nodes outside of it. The loops over
a list that do not change it are here once, also the search by numbers that count up along the list.
-/

namespace Doubly

variable {ι : Type*}

/-- The nodes point to each other, the first one back to `before` and the last one ahead to `after`. -/
def Segment (next prev : ι → ι) : ι → List ι → ι → Prop
  | _, [], _ => True
  | before, a :: l, after => prev a = before ∧ next a = l.headD after ∧ Segment next prev a l after

section Segment

variable {next prev next' prev' : ι → ι} {before before' after after' a n : ι} {l l₁ l₂ : List ι}

theorem segment_append : Segment next prev before (l₁ ++ l₂) after ↔
    Segment next prev before l₁ (l₂.headD after) ∧ Segment next prev (l₁.getLastD before) l₂ after := by
  induction l₁ generalizing before with
  | nil => simp [Segment]
  | cons a l₁ ih =>
    have hhead : (l₁ ++ l₂).headD after = l₁.headD (l₂.headD after) := by cases l₁ <;> rfl
    rw [List.cons_append, Segment, Segment, ih, hhead, List.getLastD_cons]
    simp only [and_assoc]

/-- The same list, read from its end. -/
theorem segment_reverse : Segment prev next after l.reverse before ↔ Segment next prev before l after := by
  induction l generalizing before with
  | nil => exact Iff.rfl
  | cons a l ih =>
    have hhead : l.reverse.getLastD after = l.headD after := by cases l <;> simp
    rw [List.reverse_cons, segment_append, hhead, List.headD_cons, ih, Segment]
    simp only [Segment, List.headD_nil, and_true]
    tauto

/-- Other nodes may change. -/
theorem Segment.congr (h : Segment next prev before l after) (hnext : ∀ x ∈ l, next' x = next x)
    (hprev : ∀ x ∈ l, prev' x = prev x) : Segment next' prev' before l after := by
  induction l generalizing before with
  | nil => trivial
  | cons a l ih =>
    obtain ⟨ha, hnextA, hrest⟩ := h
    refine ⟨(hprev a List.mem_cons_self).trans ha, (hnext a List.mem_cons_self).trans hnextA, ih hrest ?_ ?_⟩
    · exact fun x hx => hnext x (List.mem_cons_of_mem a hx)
    · exact fun x hx => hprev x (List.mem_cons_of_mem a hx)

/-- The first node points back to another one. -/
theorem Segment.rebase (h : Segment next prev before l after) (hnext : ∀ x ∈ l, next' x = next x)
    (hhead : ∀ x ∈ l.head?, prev' x = before') (hprev : ∀ x ∈ l.tail, prev' x = prev x) :
    Segment next' prev' before' l after := by
  cases l with
  | nil => trivial
  | cons a l =>
    obtain ⟨-, hnextA, hrest⟩ := h
    refine ⟨hhead a rfl, (hnext a List.mem_cons_self).trans hnextA, hrest.congr ?_ hprev⟩
    exact fun x hx => hnext x (List.mem_cons_of_mem a hx)

/-- The last node points ahead to another one. -/
theorem Segment.relast (h : Segment next prev before (l ++ [a]) after) (hnext : ∀ x ∈ l, next' x = next x)
    (hprev : ∀ x ∈ l ++ [a], prev' x = prev x) (ha : next' a = after') :
    Segment next' prev' before (l ++ [a]) after' := by
  obtain ⟨hinit, hlast, -⟩ := segment_append.mp h
  rw [List.forall_mem_append, List.forall_mem_singleton] at hprev
  exact segment_append.mpr ⟨hinit.congr hnext hprev.1, hprev.2.trans hlast, ha, trivial⟩

/-- A node is put behind another one. -/
theorem Segment.insert (h : Segment next prev before (l₁ ++ a :: l₂) after)
    (hnext : ∀ x ∈ l₁ ++ l₂, next' x = next x) (hprev : ∀ x ∈ l₁ ++ a :: l₂.tail, prev' x = prev x)
    (ha : next' a = n) (hn : next' n = next a) (hback : prev' n = a) (hhead : ∀ x ∈ l₂.head?, prev' x = n) :
    Segment next' prev' before (l₁ ++ a :: n :: l₂) after := by
  obtain ⟨hinit, hprevA, hnextA, hrest⟩ := segment_append.mp h
  rw [List.forall_mem_append] at hnext
  rw [List.forall_mem_append, List.forall_mem_cons] at hprev
  refine segment_append.mpr ⟨hinit.congr hnext.1 hprev.1, hprev.2.1.trans hprevA, ha, hback, hn.trans hnextA, ?_⟩
  exact hrest.rebase hnext.2 hhead hprev.2.2

/-- A node is taken out. -/
theorem Segment.erase (h : Segment next prev before (l₁ ++ a :: n :: l₂) after)
    (hnext : ∀ x ∈ l₁ ++ l₂, next' x = next x) (hprev : ∀ x ∈ l₁ ++ a :: l₂.tail, prev' x = prev x)
    (ha : next' a = next n) (hhead : ∀ x ∈ l₂.head?, prev' x = a) :
    Segment next' prev' before (l₁ ++ a :: l₂) after := by
  obtain ⟨hinit, hprevA, -, -, hnextN, hrest⟩ := segment_append.mp h
  rw [List.forall_mem_append] at hnext
  rw [List.forall_mem_append, List.forall_mem_cons] at hprev
  refine segment_append.mpr ⟨hinit.congr hnext.1 hprev.1, hprev.2.1.trans hprevA, ha.trans hnextN, ?_⟩
  exact hrest.rebase hnext.2 hhead hprev.2.2

/-- The node behind, if there is one, is none of the others. -/
theorem not_headD {null x : ι} (hnodup : (l₁ ++ l₂).Nodup) (hx : x ∈ l₁ ++ l₂.tail) :
    ¬ (x = l₂.headD null ∧ l₂.headD null ≠ null) := by
  cases l₂ with
  | nil => exact fun h => h.2 rfl
  | cons c l₂ =>
    intro h
    obtain rfl : x = c := h.1
    exact (List.nodup_cons.mp (List.nodup_middle.mp hnodup)).1 hx

theorem headD_of_mem_head? {null x : ι} (hx : x ∈ l.head?) (hnull : null ∉ l) :
    x = l.headD null ∧ l.headD null ≠ null := by
  cases l with
  | nil => cases hx
  | cons c l =>
    cases hx
    exact ⟨rfl, fun heq => hnull (heq ▸ List.mem_cons_self)⟩

section Update

variable [DecidableEq ι] {null : ι}

/-- The assignments that put a node behind another one, which may be the last. -/
theorem Segment.linkBehind (h : Segment next prev before (l₁ ++ a :: l₂) null) (hnodup : (l₁ ++ a :: l₂).Nodup)
    (hn : n ∉ l₁ ++ a :: l₂) (hnull : null ∉ l₂)
    (hnext : ∀ q, next' q = if q = a then n else if q = n then next a else next q)
    (hprev : ∀ q, prev' q = if q = n then a else if q = next a ∧ next a ≠ null then n else prev q) :
    Segment next' prev' before (l₁ ++ a :: n :: l₂) null := by
  have hnextA : next a = l₂.headD null := (segment_append.mp h).2.2.1
  have ha := (List.nodup_cons.mp (List.nodup_middle.mp hnodup)).1
  have hne : ∀ x ∈ l₁ ++ a :: l₂, x ≠ n := fun x hx heq => hn (by rwa [← heq])
  have hna : n ≠ a := (hne a (List.mem_append_right l₁ List.mem_cons_self)).symm
  refine h.insert (fun x hx => ?_) (fun x hx => ?_) ?_ ?_ ?_ fun x hx => ?_
  · have hxn := hne x (((List.sublist_cons_self a l₂).append_left l₁).subset hx)
    rw [hnext, if_neg fun heq => ha (by rwa [← heq]), if_neg hxn]
  · have hxn := hne x (((l₂.tail_sublist.cons_cons a).append_left l₁).subset hx)
    rw [List.append_cons] at hx hnodup
    rw [hprev, if_neg hxn, hnextA, if_neg (not_headD hnodup hx)]
  · rw [hnext, if_pos rfl]
  · rw [hnext, if_neg hna, if_pos rfl]
  · rw [hprev, if_pos rfl]
  · have hxn := hne x (List.mem_append_right l₁ (List.mem_cons_of_mem a (List.mem_of_mem_head? hx)))
    rw [hprev, if_neg hxn, hnextA, if_pos (headD_of_mem_head? hx hnull)]

/-- The assignments that take a node out. -/
theorem Segment.unlink (h : Segment next prev before (l₁ ++ a :: n :: l₂) null) (hnodup : (l₁ ++ a :: n :: l₂).Nodup)
    (hnull : null ∉ l₂) (hnext : ∀ q, next' q = if q = a then next n else next q)
    (hprev : ∀ q, prev' q = if q = next n ∧ next n ≠ null then a else prev q) :
    Segment next' prev' before (l₁ ++ a :: l₂) null := by
  have hnextN : next n = l₂.headD null := (segment_append.mp h).2.2.2.2.1
  have hsub : (l₁ ++ a :: l₂).Nodup := hnodup.sublist (((List.sublist_cons_self n l₂).cons_cons a).append_left l₁)
  have ha := (List.nodup_cons.mp (List.nodup_middle.mp hsub)).1
  refine h.erase (fun x hx => ?_) (fun x hx => ?_) ?_ fun x hx => ?_
  · rw [hnext, if_neg fun heq => ha (by rwa [← heq])]
  · rw [List.append_cons] at hx hsub
    rw [hprev, hnextN, if_neg (not_headD hsub hx)]
  · rw [hnext, if_pos rfl]
  · rw [hprev, hnextN, if_pos (headD_of_mem_head? hx hnull)]

end Update

/-- A part of a list is replaced by nodes that are in no other part. -/
theorem nodup_splice {l l' : List ι} (h : (l₁ ++ (l ++ l₂)).Nodup) (hl' : l'.Nodup)
    (hmem : ∀ x ∈ l', x ∈ l ∨ x ∉ l₁ ++ l₂) : (l₁ ++ (l' ++ l₂)).Nodup := by
  obtain ⟨h₁, hrest, hdisjoint⟩ := List.nodup_append.mp h
  obtain ⟨-, h₂, hdisjoint'⟩ := List.nodup_append.mp hrest
  have hdiff : ∀ x ∈ l', x ∉ l₁ ∧ x ∉ l₂ := fun x hx => by
    obtain hin | hout := hmem x hx
    · exact ⟨fun hx₁ => hdisjoint x hx₁ x (List.mem_append_left l₂ hin) rfl, fun hx₂ => hdisjoint' x hin x hx₂ rfl⟩
    · exact ⟨fun hx₁ => hout (List.mem_append_left l₂ hx₁), fun hx₂ => hout (List.mem_append_right l₁ hx₂)⟩
  refine List.nodup_append.mpr ⟨h₁, List.nodup_append.mpr ⟨hl', h₂, fun x hx y hy heq => ?_⟩, fun x hx y hy heq => ?_⟩
  · exact (hdiff x hx).2 (heq ▸ hy)
  · obtain hy | hy := List.mem_append.mp hy
    · exact (hdiff y hy).1 (heq ▸ hx)
    · exact hdisjoint x hx y (List.mem_append_right l hy) heq

/-- The nodes that are reached are those of the list. -/
theorem Segment.next_mem (h : Segment next prev before l after) {p : ι} (hp : p ∈ l) : next p ∈ l ∨ next p = after := by
  induction l generalizing before with
  | nil => cases hp
  | cons a l ih =>
    obtain ⟨-, hnext, hrest⟩ := h
    obtain rfl | hp := List.mem_cons.mp hp
    · cases l with
      | nil => exact .inr hnext
      | cons c l =>
        rw [hnext]
        exact .inl (List.mem_cons_of_mem p List.mem_cons_self)
    · exact (ih hrest hp).imp_left (List.mem_cons_of_mem a)

/-- A node is reached from another one, by pointers that are not null. -/
abbrev Reaches (next : ι → ι) (null : ι) : ι → ι → Prop := Relation.ReflTransGen fun p q => next p = q ∧ q ≠ null

theorem Segment.mem_of_reaches {null p q : ι} (h : Segment next prev before l null) (hreach : Reaches next null p q)
    (hp : p ∈ l) : q ∈ l := by
  induction hreach with
  | refl => exact hp
  | tail _ hstep ih =>
    obtain ⟨rfl, hne⟩ := hstep
    exact (h.next_mem ih).resolve_right hne

/-- All nodes are reached from the first one. -/
theorem Segment.reaches {null x : ι} (h : Segment next prev before (a :: l) null) (hnull : null ∉ l)
    (hx : x ∈ a :: l) : Reaches next null a x := by
  induction l generalizing before a with
  | nil =>
    obtain rfl := List.mem_singleton.mp hx
    exact Relation.ReflTransGen.refl
  | cons c l ih =>
    obtain ⟨-, hnext, hrest⟩ := h
    obtain rfl | hx := List.mem_cons.mp hx
    · exact Relation.ReflTransGen.refl
    · have hc : c ≠ null := fun heq => hnull (heq ▸ List.mem_cons_self)
      exact (ih hrest (fun hmem => hnull (List.mem_cons_of_mem c hmem)) hx).head ⟨hnext, hc⟩

/-- The last node is reached from the first one. -/
theorem Segment.reaches_last {null : ι} (h : Segment next prev before (a :: l) null) (hnull : null ∉ l) :
    Reaches next null a (l.getLastD a) ∧ next (l.getLastD a) = null := by
  induction l generalizing before a with
  | nil => exact ⟨Relation.ReflTransGen.refl, h.2.1⟩
  | cons c l ih =>
    obtain ⟨-, hnext, hrest⟩ := h
    have hc : c ≠ null := fun heq => hnull (heq ▸ List.mem_cons_self)
    obtain ⟨hreach, hlast⟩ := ih hrest fun hmem => hnull (List.mem_cons_of_mem c hmem)
    rw [List.getLastD_cons]
    exact ⟨hreach.head ⟨hnext, hc⟩, hlast⟩

/-- The first node is reached from the last one. -/
theorem Segment.reaches_first {null : ι} (h : Segment next prev null (l ++ [a]) after) (hnull : null ∉ l) :
    Reaches prev null a (l.headD a) ∧ prev (l.headD a) = null := by
  rw [← segment_reverse, List.reverse_append, List.reverse_singleton, List.singleton_append] at h
  have hlast : l.reverse.getLastD a = l.headD a := by cases l <;> simp
  rw [← hlast]
  exact h.reaches_last (by rwa [List.mem_reverse])

/-- Nothing is reached behind a null pointer. -/
theorem reaches_of_null {null p q : ι} (hreach : Reaches next null p q) (hp : next p = null) : q = p := by
  obtain rfl | ⟨r, ⟨rfl, hne⟩, -⟩ := hreach.cases_head
  · rfl
  · exact absurd hp hne

/-- Two neighbours. -/
theorem Segment.getElem (h : Segment next prev before l after) {i : Nat} (hi : i + 1 < l.length) :
    next l[i] = l[i + 1] ∧ prev l[i + 1] = l[i] := by
  induction l generalizing before i with
  | nil => cases hi
  | cons a l ih =>
    obtain ⟨-, hnextA, hrest⟩ := h
    cases i with
    | zero =>
      cases l with
      | nil => exact absurd hi (Nat.lt_irrefl 1)
      | cons c l => exact ⟨hnextA, hrest.1⟩
    | succ i => exact ih hrest (Nat.lt_of_succ_lt_succ hi)

end Segment

/-! ### Loops -/

section Follow

variable [DecidableEq ι] {next prev : ι → ι} {before null a : ι} {l : List ι} {steps : Nat}

/-- `while (step(p)) p = step(p);` -/
def follow (step : ι → ι) (null : ι) : Nat → ι → Option ι
  | 0, _ => none
  | steps + 1, p => if step p = null then some p else follow step null steps (step p)

theorem follow_next (h : Segment next prev before (a :: l) null) (hnull : null ∉ l) (hsteps : l.length < steps) :
    follow next null steps a = some (l.getLastD a) := by
  induction l generalizing before a steps with
  | nil =>
    obtain ⟨steps, rfl⟩ := Nat.exists_eq_add_of_lt hsteps
    have hnext : next a = null := h.2.1
    rw [follow, if_pos hnext, List.getLastD_nil]
  | cons c l ih =>
    obtain ⟨steps, rfl⟩ := Nat.exists_eq_add_of_lt hsteps
    obtain ⟨-, hnext, hrest⟩ := h
    rw [List.headD_cons] at hnext
    have hc : c ≠ null := fun hzero => hnull (hzero ▸ List.mem_cons_self)
    rw [follow, hnext, if_neg hc, List.getLastD_cons]
    exact ih hrest (fun hmem => hnull (List.mem_cons_of_mem c hmem)) (by rw [List.length_cons]; omega)

/-- The way back leads to the first node. -/
theorem follow_prev {after : ι} (h : Segment next prev null (l ++ [a]) after) (hnull : null ∉ l)
    (hsteps : l.length < steps) : follow prev null steps a = some (l.headD a) := by
  rw [← segment_reverse, List.reverse_append, List.reverse_singleton, List.singleton_append] at h
  have hlast : l.reverse.getLastD a = l.headD a := by cases l <;> simp
  rw [follow_next h (by rwa [List.mem_reverse]) (by rwa [List.length_reverse]), hlast]

end Follow

/-! ### Numbers along a list -/

section Numbered

variable {α : Type*} [AddCommGroupWithOne α] {number number' : ι → α} {m d : α} {a n : ι} {l l₁ l₂ : List ι}

/-- The numbers count up by one. -/
def Numbered (number : ι → α) : α → List ι → Prop
  | _, [] => True
  | m, a :: l => number a = m ∧ Numbered number (m + 1) l

theorem Numbered.shift (h : Numbered number m l) (hl : ∀ x ∈ l, number' x = number x + d) :
    Numbered number' (m + d) l := by
  induction l generalizing m with
  | nil => trivial
  | cons a l ih =>
    obtain ⟨ha, hrest⟩ := h
    refine ⟨by rw [hl a List.mem_cons_self, ha], ?_⟩
    have hsum : m + d + 1 = m + 1 + d := by abel
    rw [hsum]
    exact ih hrest fun x hx => hl x (List.mem_cons_of_mem a hx)

theorem Numbered.congr (h : Numbered number m l) (hl : ∀ x ∈ l, number' x = number x) : Numbered number' m l := by
  have hshift := @Numbered.shift _ _ _ _ number' _ 0 _ h fun x hx => by rw [hl x hx, add_zero]
  rwa [add_zero] at hshift

/-- A node is put behind another one, and those behind it are counted up. -/
theorem Numbered.insert (h : Numbered number m (l₁ ++ a :: l₂)) (hkept : ∀ x ∈ l₁ ++ [a], number' x = number x)
    (hn : number' n = number a + 1) (hrest : ∀ x ∈ l₂, number' x = number x + 1) :
    Numbered number' m (l₁ ++ a :: n :: l₂) := by
  induction l₁ generalizing m with
  | nil =>
    obtain ⟨ha, hl₂⟩ := h
    exact ⟨(hkept a List.mem_cons_self).trans ha, by rw [hn, ha], hl₂.shift hrest⟩
  | cons x l₁ ih =>
    obtain ⟨hx, hl₁⟩ := h
    exact ⟨(hkept x List.mem_cons_self).trans hx, ih hl₁ fun y hy => hkept y (List.mem_cons_of_mem x hy)⟩

/-- A node is taken out, and those behind it are counted down. -/
theorem Numbered.erase (h : Numbered number m (l₁ ++ a :: n :: l₂)) (hkept : ∀ x ∈ l₁ ++ [a], number' x = number x)
    (hrest : ∀ x ∈ l₂, number' x = number x + -1) : Numbered number' m (l₁ ++ a :: l₂) := by
  induction l₁ generalizing m with
  | nil =>
    obtain ⟨ha, -, hl₂⟩ := h
    have hshift := hl₂.shift hrest
    rw [add_neg_cancel_right] at hshift
    exact ⟨(hkept a List.mem_cons_self).trans ha, hshift⟩
  | cons x l₁ ih =>
    obtain ⟨hx, hl₁⟩ := h
    exact ⟨(hkept x List.mem_cons_self).trans hx, ih hl₁ fun y hy => hkept y (List.mem_cons_of_mem x hy)⟩

theorem Numbered.getElem (h : Numbered number m l) {i : Nat} (hi : i < l.length) : number l[i] = m + i := by
  induction l generalizing m i with
  | nil => cases hi
  | cons a l ih =>
    obtain ⟨ha, hrest⟩ := h
    cases i with
    | zero => rw [List.getElem_cons_zero, ha, Nat.cast_zero, add_zero]
    | succ i =>
      rw [List.getElem_cons_succ, ih hrest (Nat.lt_of_succ_lt_succ hi), Nat.cast_succ, add_assoc,
        add_comm (1 : α) (i : α)]

end Numbered

section Seek

variable {next prev : ι → ι} {rank : ι → Nat} {before after : ι} {l : List ι} {steps target i : Nat}

/-- `while (rank(p) != target) p = rank(p) > target ? prev(p) : next(p);` -/
def seek (next prev : ι → ι) (rank : ι → Nat) (target : Nat) : Nat → ι → Option ι
  | 0, _ => none
  | steps + 1, p =>
    if rank p = target then some p
    else seek next prev rank target steps (if target < rank p then prev p else next p)

/-- The search finds its number from every node, one node nearer with each step. -/
theorem seek_eq (h : Segment next prev before l after) (hrank : ∀ i (hi : i < l.length), rank l[i] = i)
    (hi : i < l.length) (htarget : target < l.length) (hsteps : (i - target) + (target - i) < steps) :
    seek next prev rank target steps l[i] = some l[target] := by
  induction steps generalizing i with
  | zero => cases hsteps
  | succ steps ih =>
    rw [seek, hrank i hi]
    obtain hlt | heq | hgt := Nat.lt_trichotomy i target
    · rw [if_neg (Nat.ne_of_lt hlt), if_neg (Nat.not_lt_of_gt hlt), (h.getElem (by omega)).1]
      exact ih (by omega) (by omega)
    · subst heq
      rw [if_pos rfl]
    · obtain ⟨k, rfl⟩ := Nat.exists_eq_succ_of_ne_zero (Nat.ne_zero_of_lt hgt)
      rw [if_neg (Nat.ne_of_gt hgt), if_pos hgt, (h.getElem hi).2]
      exact ih (by omega) (by omega)

end Seek

end Doubly
