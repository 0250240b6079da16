import Mathlib.Algebra.Ring.Nat
import Mathlib.Data.List.Nodup
import Mathlib.Data.List.Perm.Subperm
import Mathlib.Logic.Function.Basic

/-!
# Singly linked lists in memory

Nodes lie at the addresses of a 32-bit machine, with a value and a pointer to the next one. A chain is the list
of nodes that a pointer leads to. The loops of a program over such a list are here once, as functions that fail
where they follow a null pointer or one to no node, and each is described on a chain. What a program does to a
list is two assignments, that of a pointer in a node and that of a new node.
-/

namespace Linked

/-- A node. The null pointer is 0. -/
structure Node (α : Type*) where
  value : α
  next : BitVec 32

/-- The nodes in memory. -/
abbrev Store (α : Type*) := BitVec 32 → Option (Node α)

variable {α β : Type*}

def load (s : Store α) (p : BitVec 32) : Option (Node α) := if p = 0#32 then none else s p

def store (s : Store α) (p : BitVec 32) (node : Node α) : Store α := Function.update s p (some node)

def free (s : Store α) (p : BitVec 32) : Store α := Function.update s p none

/-- `p->next = q` -/
def setNext (s : Store α) (p q : BitVec 32) : Option (Store α) :=
  (load s p).map fun node => store s p { node with next := q }

/-- A loop that takes more steps than there are addresses comes back to a node and does not end. -/
def maxSteps : Nat := 2 ^ 32

/-! ### Loops -/

/-- `while (p) { if (test(p)) return p; p = p->next; } return 0;` -/
def findFrom (s : Store α) (test : α → Bool) : Nat → BitVec 32 → Option (BitVec 32)
  | 0, _ => none
  | steps + 1, p =>
    if p = 0#32 then some 0#32
    else (load s p).bind fun node => if test node.value then some p else findFrom s test steps node.next

/-- `while (p) { acc = f(acc, p); p = p->next; }` -/
def foldFrom (s : Store α) (f : β → BitVec 32 × α → β) : Nat → β → BitVec 32 → Option β
  | 0, _, _ => none
  | steps + 1, acc, p =>
    if p = 0#32 then some acc
    else (load s p).bind fun node => foldFrom s f steps (f acc (p, node.value)) node.next

/-- `while (p->next) p = p->next;` -/
def lastFrom (s : Store α) : Nat → BitVec 32 → Option (BitVec 32)
  | 0, _ => none
  | steps + 1, p => (load s p).bind fun node => if node.next = 0#32 then some p else lastFrom s steps node.next

/-- `while (!test(p->next)) p = p->next;` -/
def beforeFrom (s : Store α) (test : α → Bool) : Nat → BitVec 32 → Option (BitVec 32)
  | 0, _ => none
  | steps + 1, p =>
    (load s p).bind fun node => (load s node.next).bind fun next =>
      if test next.value then some p else beforeFrom s test steps node.next

/-- `while (p->next) { if (test(p->next)) return p; p = p->next; } return 0;` -/
def findBefore (s : Store α) (test : α → Bool) : Nat → BitVec 32 → Option (BitVec 32)
  | 0, _ => none
  | steps + 1, p =>
    (load s p).bind fun node =>
      if node.next = 0#32 then some 0#32
      else (load s node.next).bind fun next =>
        if test next.value then some p else findBefore s test steps node.next

/-! ### Chains -/

/-- The nodes that a pointer leads to, with their addresses. -/
inductive Chain (s : Store α) : BitVec 32 → List (BitVec 32 × α) → Prop
  | nil : Chain s 0#32 []
  | cons {p q : BitVec 32} {v : α} {l : List (BitVec 32 × α)} :
      p ≠ 0#32 → s p = some ⟨v, q⟩ → Chain s q l → Chain s p ((p, v) :: l)

/-- The addresses of a chain. -/
abbrev addresses (l : List (BitVec 32 × α)) : List (BitVec 32) := l.map Prod.fst

section Load

variable {s : Store α} {p a b : BitVec 32} {node : Node α}

theorem load_of_ne (hp : p ≠ 0#32) : load s p = s p := if_neg hp

theorem ne_zero_of_load (h : load s p = some node) : p ≠ 0#32 := by
  rintro rfl
  rw [load, if_pos rfl] at h
  cases h

theorem load_store_of_ne (h : a ≠ b) (node : Node α) : load (store s b node) a = load s a := by
  rw [load, load, store, Function.update_of_ne h]

theorem load_free_of_ne (h : a ≠ b) : load (free s b) a = load s a := by
  rw [load, load, free, Function.update_of_ne h]

end Load

namespace Chain

variable {s s' : Store α} {p q a b : BitVec 32} {v w : α} {e : BitVec 32 × α} {l l₁ l₂ : List (BitVec 32 × α)}

theorem ne_zero (h : Chain s p l) (ha : a ∈ addresses l) : a ≠ 0#32 := by
  induction h with
  | nil => cases ha
  | cons hp _ _ ih =>
    obtain rfl | ha := List.mem_cons.mp ha
    · exact hp
    · exact ih ha

theorem eq_nil (h : Chain s 0#32 l) : l = [] := by
  cases h with
  | nil => rfl
  | cons hp _ _ => exact absurd rfl hp

theorem eq_zero_iff (h : Chain s p l) : p = 0#32 ↔ l = [] := by
  cases h with
  | nil => simp
  | cons hp _ _ => simp [hp]

theorem head_eq (h : Chain s p ((a, v) :: l)) : p = a ∧ ∃ q, load s a = some ⟨v, q⟩ ∧ Chain s q l := by
  cases h with
  | cons hp hs hrest => exact ⟨rfl, _, (load_of_ne hp).trans hs, hrest⟩

/-- A pointer leads to one list only. -/
theorem unique (h : Chain s p l₁) (h' : Chain s p l₂) : l₁ = l₂ := by
  induction h generalizing l₂ with
  | nil => exact h'.eq_nil.symm
  | cons hp hs _ ih =>
    cases h' with
    | nil => exact absurd rfl hp
    | cons _ hs' hrest =>
      obtain ⟨rfl, rfl⟩ := Node.mk.inj (Option.some.inj (hs.symm.trans hs'))
      rw [ih hrest]

/-- What follows a node is a chain of its own. -/
theorem drop (h : Chain s p (l₁ ++ (a, v) :: l₂)) : ∃ q, s a = some ⟨v, q⟩ ∧ Chain s q l₂ := by
  induction l₁ generalizing p with
  | nil =>
    cases h with
    | cons _ hs hrest => exact ⟨_, hs, hrest⟩
  | cons _ _ ih =>
    cases h with
    | cons _ _ hrest => exact ih hrest

theorem drop' (h : Chain s p (l₁ ++ (a, v) :: l₂)) : Chain s a ((a, v) :: l₂) := by
  obtain ⟨q, hs, hrest⟩ := h.drop
  exact .cons (h.ne_zero (List.mem_map_of_mem (List.mem_append_right l₁ List.mem_cons_self))) hs hrest

/-- A list that ends passes no node twice. -/
theorem nodup (h : Chain s p l) : (addresses l).Nodup := by
  induction h with
  | nil => exact List.nodup_nil
  | @cons p q v l hp hs hrest ih =>
    refine List.nodup_cons.mpr ⟨fun hmem => ?_, ih⟩
    obtain ⟨⟨_, w⟩, hnode, rfl⟩ := List.mem_map.mp hmem
    obtain ⟨l₁, l₂, rfl⟩ := List.append_of_mem hnode
    -- from the second visit on, the list would be its own tail
    have hloop := (Chain.cons hp hs hrest).unique hrest.drop'
    have hlen := congrArg List.length hloop
    simp only [List.length_cons, List.length_append] at hlen
    omega

theorem load_of_mem (h : Chain s p l) (he : e ∈ l) : ∃ q, load s e.1 = some ⟨e.2, q⟩ := by
  obtain ⟨l₁, l₂, rfl⟩ := List.append_of_mem he
  obtain ⟨q, hs, -⟩ := h.drop
  exact ⟨q, (load_of_ne (h.ne_zero (List.mem_map_of_mem he))).trans hs⟩

theorem length_lt (h : Chain s p l) : l.length < maxSteps := by
  have hnodup : ((0#32 :: addresses l).map BitVec.toNat).Nodup := by
    refine (List.nodup_cons.mpr ⟨fun hmem => ?_, h.nodup⟩).map fun a b => BitVec.eq_of_toNat_eq
    exact h.ne_zero hmem rfl
  have hsub : (0#32 :: addresses l).map BitVec.toNat ⊆ List.range maxSteps := by
    intro n hn
    obtain ⟨a, -, rfl⟩ := List.mem_map.mp hn
    exact List.mem_range.mpr a.isLt
  have hlen := (List.subperm_of_subset hnodup hsub).length_le
  simp only [List.length_map, List.length_cons, List.length_range] at hlen
  omega

/-! ### The loops on a chain -/

/-- The address of the first node that passes a test, or 0. -/
def found (test : α → Bool) (l : List (BitVec 32 × α)) : BitVec 32 :=
  ((l.find? fun e => test e.2).map Prod.fst).getD 0#32

theorem findFrom_eq (h : Chain s p l) (test : α → Bool) {steps : Nat} (hsteps : l.length < steps) :
    findFrom s test steps p = some (found test l) := by
  induction h generalizing steps with
  | nil =>
    cases steps with
    | zero => cases hsteps
    | succ steps => exact if_pos rfl
  | @cons p q v l hp hs _ ih =>
    cases steps with
    | zero => cases hsteps
    | succ steps =>
      have hrest := ih (Nat.lt_of_succ_lt_succ hsteps)
      rw [findFrom, if_neg hp, load_of_ne hp, hs, Option.bind_some]
      cases htest : test v with
      | true => simp [found, htest]
      | false => simpa [found, htest] using hrest

theorem foldFrom_eq (h : Chain s p l) (f : β → BitVec 32 × α → β) (acc : β) {steps : Nat}
    (hsteps : l.length < steps) : foldFrom s f steps acc p = some (l.foldl f acc) := by
  induction h generalizing steps acc with
  | nil =>
    cases steps with
    | zero => cases hsteps
    | succ steps => exact if_pos rfl
  | cons hp hs _ ih =>
    cases steps with
    | zero => cases hsteps
    | succ steps =>
      rw [foldFrom, if_neg hp, load_of_ne hp, hs, Option.bind_some]
      exact ih (f acc _) (Nat.lt_of_succ_lt_succ hsteps)

theorem lastFrom_eq (h : Chain s p (l ++ [(a, v)])) {steps : Nat} (hsteps : l.length < steps) :
    lastFrom s steps p = some a := by
  induction l generalizing p steps with
  | nil =>
    cases steps with
    | zero => cases hsteps
    | succ steps =>
      cases h with
      | cons hp hs hrest =>
        cases hrest
        rw [lastFrom, load_of_ne hp, hs]
        rfl
  | cons e l ih =>
    cases steps with
    | zero => cases hsteps
    | succ steps =>
      cases h with
      | @cons _ q _ _ hp hs hrest =>
        have hnext : q ≠ 0#32 := by
          rintro rfl
          simpa using hrest.eq_nil
        rw [lastFrom, load_of_ne hp, hs, Option.bind_some, if_neg hnext]
        exact ih hrest (Nat.lt_of_succ_lt_succ hsteps)

/-- The node before the first one, after the first node, that passes the test. -/
theorem findBefore_eq (h : Chain s p (l₁ ++ (a, v) :: (b, w) :: l₂)) {test : α → Bool}
    (hbefore : ∀ e ∈ (l₁ ++ [(a, v)]).tail, test e.2 = false) (htest : test w = true) {steps : Nat}
    (hsteps : l₁.length < steps) : findBefore s test steps p = some a := by
  induction l₁ generalizing p steps with
  | nil =>
    cases steps with
    | zero => cases hsteps
    | succ steps =>
      cases h with
      | cons hp hs hrest =>
        cases hrest with
        | cons hq hs' _ => simp [findBefore, load_of_ne hp, hs, hq, load_of_ne hq, hs', htest]
  | cons e l₁ ih =>
    cases steps with
    | zero => cases hsteps
    | succ steps =>
      cases h with
      | cons hp hs hrest =>
        have hrec := ih hrest (fun e he => hbefore e (List.mem_of_mem_tail he)) (Nat.lt_of_succ_lt_succ hsteps)
        obtain ⟨⟨c, u⟩, l', heq⟩ : ∃ e l', l₁ ++ (a, v) :: (b, w) :: l₂ = e :: l' := by
          cases l₁ <;> exact ⟨_, _, rfl⟩
        have hu : test u = false := by
          refine hbefore (c, u) ?_
          cases l₁ with
          | nil => exact (List.cons.inj heq).1 ▸ List.mem_cons_self
          | cons e l₁ => exact (List.cons.inj heq).1 ▸ List.mem_cons_self
        rw [List.append_eq, heq] at hrest
        cases hrest with
        | cons hq hs' _ => simpa [findBefore, load_of_ne hp, hs, hq, load_of_ne hq, hs', hu] using hrec

theorem findBefore_eq_zero (h : Chain s p ((a, v) :: l)) {test : α → Bool}
    (hnone : ∀ e ∈ l, test e.2 = false) {steps : Nat} (hsteps : l.length < steps) :
    findBefore s test steps p = some 0#32 := by
  induction l generalizing p a v steps with
  | nil =>
    cases steps with
    | zero => cases hsteps
    | succ steps =>
      cases h with
      | cons hp hs hrest =>
        cases hrest
        simp [findBefore, load_of_ne hp, hs]
  | cons e l ih =>
    cases steps with
    | zero => cases hsteps
    | succ steps =>
      cases h with
      | cons hp hs hrest =>
        have hrec := ih hrest (fun e he => hnone e (List.mem_cons_of_mem _ he)) (Nat.lt_of_succ_lt_succ hsteps)
        have he := hnone e List.mem_cons_self
        cases hrest with
        | cons hq hs' _ => simpa [findBefore, load_of_ne hp, hs, hq, load_of_ne hq, hs', he] using hrec

/-- Either no node after the first one passes the test, or the loop stops in front of the first that does. -/
theorem findBefore_cases (h : Chain s p (e :: l)) (test : α → Bool) :
    (findBefore s test maxSteps p = some 0#32 ∧ ∀ e' ∈ l, test e'.2 = false) ∨
    ∃ l₁ a v b w l₂, e :: l = l₁ ++ (a, v) :: (b, w) :: l₂ ∧ test w = true ∧
      findBefore s test maxSteps p = some a := by
  have hlen := h.length_lt
  cases hfind : l.find? fun e => test e.2 with
  | none =>
    have hnone : ∀ e' ∈ l, test e'.2 = false := fun e' he' => by
      simpa using List.find?_eq_none.mp hfind e' he'
    exact .inl ⟨h.findBefore_eq_zero hnone (Nat.lt_of_succ_lt hlen), hnone⟩
  | some hit =>
    obtain ⟨hhit, l', l₂, rfl, hbefore⟩ := List.find?_eq_some_iff_append.mp hfind
    obtain ⟨l₁, prev, hprev⟩ : ∃ l₁ prev, e :: l' = l₁ ++ [prev] :=
      ⟨_, _, (List.dropLast_append_getLast (List.cons_ne_nil e l')).symm⟩
    have hsplit : e :: (l' ++ hit :: l₂) = l₁ ++ prev :: hit :: l₂ := by
      rw [← List.cons_append, hprev, List.append_assoc, List.singleton_append]
    rw [hsplit] at h hlen
    refine .inr ⟨l₁, prev.1, prev.2, hit.1, hit.2, l₂, hsplit, hhit, h.findBefore_eq (fun e' he' => ?_) hhit ?_⟩
    · rw [← hprev, List.tail_cons] at he'
      simpa using hbefore e' he'
    · rw [List.length_append] at hlen
      omega

end Chain

/-- The loop that does not look for the end of the list stops at the same node. -/
theorem beforeFrom_of_findBefore {s : Store α} {test : α → Bool} {steps : Nat} {p a : BitVec 32}
    (h : findBefore s test steps p = some a) (ha : a ≠ 0#32) : beforeFrom s test steps p = some a := by
  induction steps generalizing p with
  | zero => cases h
  | succ steps ih =>
    rw [findBefore] at h
    obtain ⟨node, hload, h⟩ := Option.bind_eq_some_iff.mp h
    rw [beforeFrom, hload, Option.bind_some]
    split at h
    · exact absurd (Option.some.inj h).symm ha
    · obtain ⟨next, hnext, h⟩ := Option.bind_eq_some_iff.mp h
      rw [hnext, Option.bind_some]
      split at h
      · next htest => rw [if_pos htest, h]
      · next htest =>
        rw [if_neg htest]
        exact ih h

/-! ### Assignments -/

namespace Chain

variable {s : Store α} {p q a b : BitVec 32} {v w : α} {l l₁ l₂ l₃ : List (BitVec 32 × α)}

theorem congr {s' : Store α} (h : Chain s p l) (hs : ∀ a ∈ addresses l, s' a = s a) : Chain s' p l := by
  induction h with
  | nil => exact .nil
  | cons hp hload _ ih =>
    exact .cons hp ((hs _ List.mem_cons_self).trans hload) (ih fun a ha => hs a (List.mem_cons_of_mem _ ha))

/-- Memory outside a list can change. -/
theorem update (h : Chain s p l) (ha : a ∉ addresses l) (node : Option (Node α)) :
    Chain (Function.update s a node) p l :=
  h.congr fun b hb => Function.update_of_ne (show b ≠ a by rintro rfl; exact ha hb) _ _

theorem store (h : Chain s p l) (ha : a ∉ addresses l) (node : Node α) : Chain (Linked.store s a node) p l :=
  h.update ha (some node)

theorem free (h : Chain s p l) (ha : a ∉ addresses l) : Chain (Linked.free s a) p l := h.update ha none

/-- A node gets a new value and another rest of the list. -/
theorem relink (h : Chain s p (l₁ ++ (a, v) :: l₂)) (hrest : Chain s q l₃) (ha : a ∉ addresses l₃) (w : α) :
    Chain (Linked.store s a ⟨w, q⟩) p (l₁ ++ (a, w) :: l₃) := by
  induction l₁ generalizing p with
  | nil =>
    cases h with
    | cons hp _ _ => exact .cons hp (Function.update_self _ _ _) (hrest.update ha _)
  | cons e l₁ ih =>
    have hnodup := h.nodup
    cases h with
    | @cons _ _ _ _ hp hs htail =>
      have hne : p ≠ a := by
        rintro rfl
        refine (List.nodup_cons.mp hnodup).1 ?_
        exact List.mem_map.mpr ⟨(p, v), List.mem_append_right l₁ List.mem_cons_self, rfl⟩
      exact .cons hp ((Function.update_of_ne hne _ _).trans hs) (ih htail)

/-- Two neighbours in a list. -/
theorem neighbours (h : Chain s p (l₁ ++ (a, v) :: (b, w) :: l₂)) :
    a ≠ b ∧ load s a = some ⟨v, b⟩ ∧ ∃ q, load s b = some ⟨w, q⟩ ∧ Chain s q l₂ := by
  have hpair := h.drop'
  have hnodup := hpair.nodup
  cases hpair with
  | cons ha hs hrest =>
    cases hrest with
    | @cons _ q _ _ hb hs' hrest =>
      refine ⟨?_, (load_of_ne ha).trans hs, q, (load_of_ne hb).trans hs', hrest⟩
      rintro rfl
      exact (List.nodup_cons.mp hnodup).1 List.mem_cons_self

/-- A node gets a new value. -/
theorem setValue (h : Chain s p (l₁ ++ (a, v) :: l₂)) (ha : load s a = some ⟨v, q⟩) (w : α) :
    Chain (Linked.store s a ⟨w, q⟩) p (l₁ ++ (a, w) :: l₂) := by
  obtain ⟨q', ha', hrest⟩ := h.drop'.head_eq.2
  obtain ⟨-, rfl⟩ := Node.mk.inj (Option.some.inj (ha.symm.trans ha'))
  exact h.relink hrest (List.nodup_cons.mp h.drop'.nodup).1 w

/-- A node is taken out. -/
theorem unlink (h : Chain s p (l₁ ++ (a, v) :: (b, w) :: l₂)) (hb : load s b = some ⟨w, q⟩) :
    Chain (Linked.store s a ⟨v, q⟩) p (l₁ ++ (a, v) :: l₂) := by
  obtain ⟨-, -, q', hb', hrest⟩ := h.neighbours
  obtain ⟨-, rfl⟩ := Node.mk.inj (Option.some.inj (hb.symm.trans hb'))
  have hnodup := h.drop'.nodup
  refine h.relink hrest (fun hmem => ?_) v
  exact (List.nodup_cons.mp hnodup).1 (List.mem_cons_of_mem _ hmem)

/-- The node taken out is in no list any more. -/
theorem not_mem_unlink (h : Chain s p (l₁ ++ (b, w) :: l₂)) : b ∉ addresses (l₁ ++ l₂) := by
  have hnodup := h.nodup
  rw [addresses, List.map_append, List.map_cons] at hnodup
  rw [addresses, List.map_append]
  exact (List.nodup_cons.mp (List.perm_middle.nodup_iff.mp hnodup)).1

/-- A new node joins at the end. -/
theorem append (h : Chain s p (l ++ [(a, v)])) (hb : b ≠ 0#32) (hnew : b ∉ addresses (l ++ [(a, v)])) (w : α) :
    ∃ s', setNext (Linked.store s b ⟨w, 0#32⟩) a b = some s' ∧ Chain s' p (l ++ [(a, v), (b, w)]) := by
  have hchain := h.store hnew ⟨w, 0#32⟩
  have hnode : Chain (Linked.store s b ⟨w, 0#32⟩) b [(b, w)] := .cons hb (Function.update_self _ _ _) .nil
  obtain ⟨q, hload⟩ := hchain.load_of_mem (List.mem_append_right l List.mem_cons_self)
  refine ⟨_, congrArg (Option.map _) hload, hchain.relink hnode (fun hmem => hnew ?_) v⟩
  obtain rfl := List.mem_singleton.mp hmem
  exact List.mem_map_of_mem (List.mem_append_right l List.mem_cons_self)

/-- A node that is in memory already joins at the end. -/
theorem appendNode (h : Chain s p (l ++ [(a, v)])) (hb : load s b = some ⟨w, q⟩)
    (hnew : b ∉ addresses (l ++ [(a, v)])) : ∃ s' s'', setNext s a b = some s' ∧ setNext s' b 0#32 = some s'' ∧
      Chain s'' p (l ++ [(a, v), (b, w)]) := by
  have ha : a ∈ addresses (l ++ [(a, v)]) := List.mem_map_of_mem (List.mem_append_right l List.mem_cons_self)
  have hab : a ≠ b := by
    rintro rfl
    exact hnew ha
  obtain ⟨s₁, hset, hchain⟩ := h.append (ne_zero_of_load hb) hnew w
  obtain ⟨r, hload⟩ := h.load_of_mem (List.mem_append_right l List.mem_cons_self)
  have hs₁ : s₁ = Linked.store (Linked.store s b ⟨w, 0#32⟩) a ⟨v, b⟩ := by
    rw [setNext, load_store_of_ne hab, hload] at hset
    exact (Option.some.inj hset).symm
  -- the two assignments are to different nodes
  refine ⟨Linked.store s a ⟨v, b⟩, s₁, ?_, ?_, hchain⟩
  · rw [setNext, hload]
    rfl
  · rw [setNext, load_store_of_ne hab.symm, hb, hs₁]
    exact congrArg some (Function.update_comm hab.symm _ _ _).symm

end Chain

/-! ### A number above all others -/

/-- A loop that goes above each number it meets ends above all of them. -/
theorem lt_foldl_above {γ δ : Type*} {f : γ → δ → γ} (rank : γ → Int) (number : δ → γ) (next : γ → γ)
    (hf : ∀ acc d, f acc d = if rank acc ≤ rank (number d) then next (number d) else acc) {l : List δ}
    (hnext : ∀ d ∈ l, rank (number d) < rank (next (number d))) (acc : γ) :
    rank acc ≤ rank (l.foldl f acc) ∧ ∀ d ∈ l, rank (number d) < rank (l.foldl f acc) := by
  induction l generalizing acc with
  | nil => exact ⟨Int.le_refl _, fun d hd => absurd hd List.not_mem_nil⟩
  | cons d l ih =>
    obtain ⟨hacc, hrest⟩ := ih (fun e he => hnext e (List.mem_cons_of_mem d he)) (f acc d)
    have hd := hnext d List.mem_cons_self
    have hstep : rank acc ≤ rank (f acc d) ∧ rank (number d) < rank (f acc d) := by
      rw [hf]
      split <;> omega
    refine ⟨Int.le_trans hstep.1 hacc, fun e he => ?_⟩
    obtain rfl | he := List.mem_cons.mp he
    · exact Int.lt_of_lt_of_le hstep.2 hacc
    · exact hrest e he

end Linked
