import Akos.Lib.Exclusion
import Akos.Lib.Transition
import Mathlib.Data.List.Perm.Basic

/-!
# Calls that run step by step

A call is a program whose steps act on a state that all clients share. The clients take their steps in any order,
and some calls have a lock from before their first step to behind their last one. When no step of a call lies
between the first and the last step of another, a run gives what the calls give one after the other.
-/

universe u v w

/-- A program whose steps change a shared state. What follows a step may use the state in front of it. -/
inductive Prog (σ : Type u) (α : Type v)
  | ret (a : α)
  | hang
  | step (act : σ → σ) (next : σ → Prog σ α)

namespace Prog

variable {σ : Type u} {α : Type v} {β : Type w} {δ : Type*}

def bind : Prog σ α → (α → Prog σ β) → Prog σ β
  | ret a, k => k a
  | hang, _ => hang
  | step act next, k => step act fun s => (next s).bind k

instance : Monad (Prog σ) where
  pure := ret
  bind := bind

/-- All steps at once, from a state. A program that hangs has no result. -/
def run : Prog σ α → σ → Option (α × σ)
  | ret a, s => some (a, s)
  | hang, _ => none
  | step act next, s => (next s).run (act s)

/-- What a program with no step left returns. -/
def value? : Prog σ α → Option α
  | ret a => some a
  | hang => none
  | step _ _ => none

/-- The part of the result that is looked at. -/
def outcome (view : σ → δ) (p : Prog σ α) (s : σ) : Option (α × δ) := (p.run s).map fun r => (r.1, view r.2)

variable {p : Prog σ α} {a : α} {s t : σ} {view : σ → δ}

theorem run_of_value? (h : p.value? = some a) : p.run s = some (a, s) := by
  cases p with
  | ret b => exact congrArg (fun r => some (r, s)) (Option.some.inj h)
  | hang => cases h
  | step act next => cases h

theorem run_bind' (p : Prog σ α) (k : α → Prog σ β) (s : σ) :
    (p.bind k).run s = (p.run s).bind fun r => (k r.1).run r.2 := by
  induction p generalizing s with
  | ret a => rfl
  | hang => rfl
  | step act next ih => exact ih s (act s)

variable {α β : Type v}

@[simp] theorem run_pure (a : α) (s : σ) : (pure a : Prog σ α).run s = some (a, s) := rfl

@[simp] theorem run_bind (p : Prog σ α) (k : α → Prog σ β) (s : σ) :
    (p >>= k).run s = (p.run s).bind fun r => (k r.1).run r.2 := run_bind' p k s

@[simp] theorem outcome_pure (a : α) (s : σ) : (pure a : Prog σ α).outcome view s = some (a, view s) := rfl

/-- What a program returns and leaves behind depends on the view of the state only. -/
def Computes (view : σ → δ) (p : Prog σ α) (f : δ → Option (α × δ)) : Prop := ∀ s, p.outcome view s = f (view s)

theorem computes_pure (a : α) : Computes view (pure a) fun d => some (a, d) := fun _ => rfl

theorem Computes.bind {p : Prog σ α} {k : α → Prog σ β} {f : δ → Option (α × δ)} {g : α → δ → Option (β × δ)}
    (hp : Computes view p f) (hk : ∀ a, Computes view (k a) (g a)) :
    Computes view (p >>= k) fun d => (f d).bind fun r => g r.1 r.2 := by
  intro s
  have hfirst : f (view s) = p.outcome view s := (hp s).symm
  simp only [hfirst, outcome, run_bind]
  cases p.run s with
  | none => rfl
  | some r => exact hk r.1 r.2

/-- The first part of a program is done, and leads to some state with the right view. -/
theorem Computes.outcome_bind {p : Prog σ α} {f : δ → Option (α × δ)} (hp : Computes view p f) {d : δ} {a : α}
    (h : f (view s) = some (a, d)) (k : α → Prog σ β) :
    ∃ s', view s' = d ∧ (p >>= k).outcome view s = (k a).outcome view s' := by
  obtain ⟨⟨b, s'⟩, hrun, hr⟩ := Option.map_eq_some_iff.mp ((hp s).trans h)
  obtain ⟨rfl, rfl⟩ : b = a ∧ view s' = d := Prod.mk.inj hr
  exact ⟨s', rfl, by rw [outcome, run_bind, hrun]; rfl⟩

theorem Computes.outcome_bind_none {p : Prog σ α} {f : δ → Option (α × δ)} (hp : Computes view p f)
    (h : f (view s) = none) (k : α → Prog σ β) : (p >>= k).outcome view s = none := by
  have hrun : p.run s = none := Option.map_eq_none_iff.mp ((hp s).trans h)
  rw [outcome, run_bind, hrun]
  rfl

end Prog

/-! ### Clients -/

/-- Where a client is: behind the test of a lock, or at the rest of a call, of which it has taken a step or not. -/
inductive Place (κ ρ σ : Type*)
  | idle
  | waiting (call : κ)
  | inside (call : κ) (begun : Bool) (rest : Prog σ ρ)

namespace Place

variable {κ ρ σ Λ : Type*}

/-- Between the first and the last step of a call. -/
def Midway (g : Place κ ρ σ) : Prop := ∃ call rest, g = inside call true rest ∧ rest.value? = none

/-- In a call that has the lock. -/
def Holds (lock : κ → Option Λ) (l : Λ) (g : Place κ ρ σ) : Prop :=
  ∃ call begun rest, g = inside call begun rest ∧ lock call = some l

/-- In a call, with the lock if there is one. -/
def Inside (g : Place κ ρ σ) : Prop := ∃ call begun rest, g = inside call begun rest

/-- The call that a client waits for or is in has the lock. -/
def Under (lock : κ → Option Λ) (l : Λ) : Place κ ρ σ → Prop
  | idle => True
  | waiting call => lock call = some l
  | inside call _ _ => lock call = some l

/-- What is known of a client in a run without steps in the middle of another call: the rest of its call leads to
where the whole one leads from `t`. -/
structure Good (body : κ → Prog σ ρ) (lock : κ → Option Λ) (t shared : σ) (taken : Λ → Bool)
    (g : Place κ ρ σ) : Prop where
  begun : ∀ call rest, g = inside call true rest → rest.value? = none → rest.run shared = (body call).run t
  fresh : ∀ call rest, g = inside call false rest → rest = body call
  held : ∀ l, g.Holds lock l → taken l = true

variable {body : κ → Prog σ ρ} {lock : κ → Option Λ} {t t' shared shared' : σ} {taken taken' : Λ → Bool}
  {g : Place κ ρ σ} {call : κ} {begun : Bool} {rest : Prog σ ρ} {l : Λ}

theorem not_inside_idle : ¬ (idle : Place κ ρ σ).Inside := by
  rintro ⟨_, _, _, h⟩
  cases h

theorem not_inside_waiting : ¬ (waiting call : Place κ ρ σ).Inside := by
  rintro ⟨_, _, _, h⟩
  cases h

theorem not_midway_of_not_inside (h : ¬ g.Inside) : ¬ g.Midway := by
  rintro ⟨call, rest, hg, -⟩
  exact h ⟨call, true, rest, hg⟩

theorem not_midway_entered : ¬ (inside call false rest : Place κ ρ σ).Midway := by
  rintro ⟨_, _, h, -⟩
  cases h

theorem not_midway_of_value (h : rest.value? ≠ none) : ¬ (inside call begun rest : Place κ ρ σ).Midway := by
  rintro ⟨_, _, hg, hnone⟩
  cases hg
  exact h hnone

@[simp] theorem holds_inside : (inside call begun rest : Place κ ρ σ).Holds lock l ↔ lock call = some l := by
  constructor
  · rintro ⟨_, _, _, h, hl⟩
    cases h
    exact hl
  · exact fun hl => ⟨call, begun, rest, rfl, hl⟩

theorem not_holds_of_not_inside (h : ¬ g.Inside) (l : Λ) : ¬ g.Holds lock l := by
  rintro ⟨call, begun, rest, hg, -⟩
  exact h ⟨call, begun, rest, hg⟩

theorem good_of_not_inside (h : ¬ g.Inside) : g.Good body lock t shared taken where
  begun call rest hg := absurd ⟨call, true, rest, hg⟩ h
  fresh call rest hg := absurd ⟨call, false, rest, hg⟩ h
  held l hl := absurd hl (not_holds_of_not_inside h l)

theorem good_entered (h : ∀ l, lock call = some l → taken l = true) :
    (inside call false (body call)).Good body lock t shared taken where
  begun _ _ hg := by cases hg
  fresh _ _ hg := by cases hg; rfl
  held l hl := h l (holds_inside.mp hl)

theorem good_begun (hrun : rest.value? = none → rest.run shared = (body call).run t)
    (h : ∀ l, lock call = some l → taken l = true) : (inside call true rest).Good body lock t shared taken where
  begun _ _ hg := by cases hg; exact hrun
  fresh _ _ hg := by cases hg
  held l hl := h l (holds_inside.mp hl)

/-- The locks of others change. -/
theorem Good.of_taken (h : g.Good body lock t shared taken) (htaken : ∀ l, g.Holds lock l → taken' l = true) :
    g.Good body lock t shared taken' where
  begun := h.begun
  fresh := h.fresh
  held := htaken

/-- Out of the middle of a call, a client does not depend on the shared state. -/
theorem Good.of_shared (h : g.Good body lock t shared taken) (hg : ¬ g.Midway) :
    g.Good body lock t' shared' taken where
  begun call rest hplace hvalue := absurd ⟨call, rest, hplace, hvalue⟩ hg
  fresh := h.fresh
  held := h.held

end Place

/-- A call that has a result. -/
structure Entry (ι κ ρ : Type*) where
  client : ι
  call : κ
  result : ρ

/-- The clients, the locks, the shared state and the calls that have a result, in the order of their last steps. -/
structure Calls (ι κ ρ σ Λ : Type*) where
  place : ι → Place κ ρ σ
  taken : Λ → Bool
  shared : σ
  log : List (Entry ι κ ρ)

namespace Calls

/-- What a client does next. -/
inductive Op (ι κ : Type*)
  | call (i : ι) (call : κ)
  | acquire (i : ι)
  | step (i : ι)
  | finish (i : ι)

variable {ι κ ρ σ Λ : Type*}

/-- No call is in progress. -/
def resting (shared : σ) (log : List (Entry ι κ ρ)) : Calls ι κ ρ σ Λ := ⟨fun _ => .idle, fun _ => false, shared, log⟩

def start (shared : σ) : Calls ι κ ρ σ Λ := resting shared []

/-- No other call is between its first and its last step, unless under the same lock. -/
def Clean (lock : κ → Option Λ) (s : Calls ι κ ρ σ Λ) : Op ι κ → Prop
  | .step i => ∀ j ≠ i, (s.place j).Midway → ∃ l, (s.place i).Holds lock l ∧ (s.place j).Holds lock l
  | _ => True

/-! ### What is known in a run -/

/-- What holds in a run without steps in the middle of another call, when the calls in the log lead to `t` one after
the other. -/
structure Inv (body : κ → Prog σ ρ) (lock : κ → Option Λ) (t : σ) (s : Calls ι κ ρ σ Λ) : Prop where
  settled : (∀ i, ¬ (s.place i).Midway) → s.shared = t
  good : ∀ i, (s.place i).Good body lock t s.shared s.taken
  holder : ∀ l, Exclusion.Alone (Place.Holds lock l) s.place
  alone : Exclusion.Alone Place.Midway s.place

variable {body : κ → Prog σ ρ} {lock : κ → Option Λ} {s s' : Calls ι κ ρ σ Λ} {op : Op ι κ} {i j : ι} {call : κ}
  {begun : Bool} {rest rest' : Prog σ ρ} {t shared : σ} {g : Place κ ρ σ} {taken : Λ → Bool}
  {log : List (Entry ι κ ρ)} {r : ρ}

theorem inv_start : Inv body lock shared (start shared : Calls ι κ ρ σ Λ) where
  settled _ := rfl
  good _ := Place.good_of_not_inside Place.not_inside_idle
  holder l _ _ hi := absurd hi (Place.not_holds_of_not_inside Place.not_inside_idle l)
  alone _ _ hi := absurd hi (Place.not_midway_of_not_inside Place.not_inside_idle)

/-- No other client is in the middle of a call when one takes a clean step. -/
theorem Inv.others (hs : Inv body lock t s) (hclean : s.Clean lock (.step i)) :
    ∀ j ≠ i, ¬ (s.place j).Midway := by
  intro j hj hmid
  obtain ⟨l, hi, hl⟩ := hclean j hj hmid
  exact hj (hs.holder l j i hl hi)

variable [DecidableEq ι]

/-- A client that is not in the middle of a call moves to where it is not so either. -/
theorem Inv.move (hs : Inv body lock t s) (hi : ¬ (s.place i).Midway) (hg : ¬ g.Midway)
    (hgood : g.Good body lock t s.shared taken) (hheld : ∀ l, g.Holds lock l → ∀ j ≠ i, ¬ (s.place j).Holds lock l)
    (htaken : ∀ j ≠ i, ∀ l, (s.place j).Holds lock l → taken l = true) :
    Inv body lock t { s with place := Function.update s.place i g, taken := taken, log := log } where
  settled hnone := by
    apply hs.settled
    intro j hj
    by_cases hji : j = i
    · exact hi (hji ▸ hj)
    · have hj' : (Function.update s.place i g j).Midway := by rwa [Function.update_of_ne hji]
      exact hnone j hj'
  good := Exclusion.forall_update hgood fun j hj => (hs.good j).of_taken (htaken j hj)
  holder l := by
    by_cases hl : g.Holds lock l
    · exact Exclusion.alone_update (hheld l hl)
    · exact (hs.holder l).update fun h => absurd h hl
  alone := hs.alone.update fun h => absurd h hg

/-- A client comes to the rest of its call. -/
def enter (s : Calls ι κ ρ σ Λ) (i : ι) (call : κ) (begun : Bool) (rest : Prog σ ρ) : Calls ι κ ρ σ Λ :=
  { s with
    place := Function.update s.place i (.inside call begun rest)
    log := s.log ++ (rest.value?.map fun result => ⟨i, call, result⟩).toList }

/-- A client takes a step of its call while no other is in the middle of one. -/
theorem Inv.goOn (hs : Inv body lock t s) (hothers : ∀ j ≠ i, ¬ (s.place j).Midway)
    (hplace : s.place i = .inside call begun rest) (hvalue : rest'.value? = none)
    (hrun : rest'.run shared = (body call).run t) :
    Inv body lock t ({ s with shared := shared }.enter i call true rest') where
  settled hnone := absurd ⟨call, rest', Function.update_self i _ _, hvalue⟩ (hnone i)
  good := Exclusion.forall_update
    (Place.good_begun (fun _ => hrun) fun l hl => (hs.good i).held l ⟨_, _, _, hplace, hl⟩)
    fun j hj => (hs.good j).of_shared (hothers j hj)
  holder l := (hs.holder l).update fun h => hplace ▸ Place.holds_inside.mpr (Place.holds_inside.mp h)
  alone := Exclusion.alone_update hothers

/-- The last step of a call, while no other is in the middle of one. -/
theorem Inv.settle (hs : Inv body lock t s) (hothers : ∀ j ≠ i, ¬ (s.place j).Midway)
    (hplace : s.place i = .inside call begun rest) (hvalue : rest'.value? = some r) :
    Inv body lock shared ({ s with shared := shared }.enter i call true rest') where
  settled _ := rfl
  good := Exclusion.forall_update
    (Place.good_begun (fun h => absurd (hvalue.symm.trans h) (Option.some_ne_none r))
      fun l hl => (hs.good i).held l ⟨_, _, _, hplace, hl⟩)
    fun j hj => (hs.good j).of_shared (hothers j hj)
  holder l := (hs.holder l).update fun h => hplace ▸ Place.holds_inside.mpr (Place.holds_inside.mp h)
  alone := Exclusion.alone_update hothers

/-- A client comes to the first step of a call, with the lock it has. -/
theorem Inv.enter (hs : Inv body lock t s) (hi : ¬ (s.place i).Inside)
    (hcall : ∀ l, lock call = some l → taken l = true)
    (hothers : ∀ l, lock call = some l → ∀ j ≠ i, ¬ (s.place j).Holds lock l)
    (htaken : ∀ j ≠ i, ∀ l, (s.place j).Holds lock l → taken l = true) :
    Inv body lock t ({ s with taken := taken }.enter i call false (body call)) :=
  hs.move (Place.not_midway_of_not_inside hi) Place.not_midway_entered (Place.good_entered hcall)
    (fun l hl => hothers l (Place.holds_inside.mp hl)) htaken

/-- Calls that run one after the other. -/
def Serial (body : κ → Prog σ ρ) (s : σ) (order : List (Entry ι κ ρ)) (t : σ) : Prop :=
  Transition.Run (fun s (e : Entry ι κ ρ) t => (body e.call).run s = some (e.result, t)) s order t

/-- The calls so far have the results of a sequential order of them, and so has the shared state once no call is
in progress, as far as it is looked at. -/
def Sequential {δ : Type*} (body : κ → Prog σ ρ) (view : σ → δ) (shared : σ) (s : Calls ι κ ρ σ Λ) : Prop :=
  ∃ order t, order.Perm s.log ∧ Serial body shared order t ∧
    ((∀ i, ¬ (s.place i).Inside) → view s.shared = view t)

/-- What the calls in the log lead to, with the entry of a call that has come to its end. -/
theorem serial_enter {s₀ : σ} (begun : Bool) (hserial : Serial body s₀ s.log t)
    (hrun : rest'.run shared = (body call).run t) :
    (rest'.value? = none ∧ Serial body s₀ (s.enter i call begun rest').log t) ∨
    (∃ r, rest'.value? = some r ∧ Serial body s₀ (s.enter i call begun rest').log shared) := by
  cases hvalue : rest'.value? with
  | none =>
    have hlog : (s.enter i call begun rest').log = s.log := by simp [Calls.enter, hvalue]
    exact .inl ⟨rfl, hlog ▸ hserial⟩
  | some r =>
    have hlog : (s.enter i call begun rest').log = s.log ++ [⟨i, call, r⟩] := by simp [Calls.enter, hvalue]
    have hresult : (body call).run t = some (r, shared) := hrun.symm.trans (Prog.run_of_value? hvalue)
    exact .inr ⟨r, rfl, hlog ▸ Transition.Run.snoc hserial hresult⟩

/-! ### Steps -/

variable [DecidableEq Λ]

/-- A call that returns gives its lock back. -/
def release (s : Calls ι κ ρ σ Λ) (i : ι) (held : Option Λ) : Calls ι κ ρ σ Λ :=
  { s with
    place := Function.update s.place i .idle
    taken := fun l => if held = some l then false else s.taken l }

/-- A lock is spun on until it is free. -/
def apply (body : κ → Prog σ ρ) (lock : κ → Option Λ) (s : Calls ι κ ρ σ Λ) : Op ι κ → Option (Calls ι κ ρ σ Λ)
  | .call i call =>
    match s.place i, lock call with
    | .idle, none => some (s.enter i call false (body call))
    | .idle, some _ => some { s with place := Function.update s.place i (.waiting call) }
    | _, _ => none
  | .acquire i =>
    match s.place i with
    | .waiting call =>
      (lock call).bind fun l =>
        if s.taken l then none
        else some ({ s with taken := Function.update s.taken l true }.enter i call false (body call))
    | _ => none
  | .step i =>
    match s.place i with
    | .inside call _ (.step act next) =>
      some ({ s with shared := act s.shared }.enter i call true (next s.shared))
    | _ => none
  | .finish i =>
    match s.place i with
    | .inside call _ (.ret _) => some (s.release i (lock call))
    | _ => none

/-- Any step the program can take. -/
def Step (body : κ → Prog σ ρ) (lock : κ → Option Λ) (s : Calls ι κ ρ σ Λ) (op : Op ι κ)
    (t : Calls ι κ ρ σ Λ) : Prop :=
  s.apply body lock op = some t

/-- A step that is not in the middle of another call. -/
def CleanStep (body : κ → Prog σ ρ) (lock : κ → Option Λ) (s : Calls ι κ ρ σ Λ) (op : Op ι κ)
    (t : Calls ι κ ρ σ Λ) : Prop :=
  s.Clean lock op ∧ s.apply body lock op = some t

/-- A client waits for a lock, comes to the first step of its call with the lock the call has, comes behind a step,
or returns. -/
theorem apply_cases (h : s.apply body lock op = some s') :
    (∃ i call, op = .call i call ∧ s.place i = .idle ∧
      s' = { s with place := Function.update s.place i (.waiting call) }) ∨
    (∃ i call, op = .call i call ∧ lock call = none ∧ s.place i = .idle ∧
      s' = s.enter i call false (body call)) ∨
    (∃ i call l, op = .acquire i ∧ lock call = some l ∧ s.taken l = false ∧ s.place i = .waiting call ∧
      s' = { s with taken := Function.update s.taken l true }.enter i call false (body call)) ∨
    (∃ i call begun act next, op = .step i ∧ s.place i = .inside call begun (.step act next) ∧
      s' = { s with shared := act s.shared }.enter i call true (next s.shared)) ∨
    (∃ i call begun r, op = .finish i ∧ s.place i = .inside call begun (.ret r) ∧
      s' = s.release i (lock call)) := by
  cases op with
  | call i call =>
    simp only [apply] at h
    split at h
    · next hplace hlock =>
      exact .inr (.inl ⟨i, call, rfl, hlock, hplace, (Option.some.inj h).symm⟩)
    · next hplace _ => exact .inl ⟨i, call, rfl, hplace, (Option.some.inj h).symm⟩
    · cases h
  | acquire i =>
    simp only [apply] at h
    split at h
    · next call hplace =>
      obtain ⟨l, hlock, h⟩ := Option.bind_eq_some_iff.mp h
      split at h
      · cases h
      · next hfree =>
        exact .inr (.inr (.inl ⟨i, call, l, rfl, hlock, by simpa using hfree, hplace, (Option.some.inj h).symm⟩))
    · cases h
  | step i =>
    simp only [apply] at h
    split at h
    · next call begun act next hplace =>
      exact .inr (.inr (.inr (.inl ⟨i, call, begun, act, next, rfl, hplace, (Option.some.inj h).symm⟩)))
    · cases h
  | finish i =>
    simp only [apply] at h
    split at h
    · next call begun r hplace =>
      exact .inr (.inr (.inr (.inr ⟨i, call, begun, r, rfl, hplace, (Option.some.inj h).symm⟩)))
    · cases h

/-- A call returns. -/
theorem Inv.release (hs : Inv body lock t s) (hplace : s.place i = .inside call begun (.ret r)) :
    Inv body lock t (s.release i (lock call)) := by
  have hi : ¬ (s.place i).Midway := hplace ▸ Place.not_midway_of_value (Option.some_ne_none r)
  apply hs.move hi (Place.not_midway_of_not_inside Place.not_inside_idle)
    (Place.good_of_not_inside Place.not_inside_idle)
  · exact fun l hl => absurd hl (Place.not_holds_of_not_inside Place.not_inside_idle l)
  · intro j hj l hl
    have hother : lock call ≠ some l := by
      intro hlock
      exact hj (hs.holder l j i hl (hplace ▸ Place.holds_inside.mpr hlock))
    exact (if_neg hother).trans ((hs.good j).held l hl)

theorem inv_of_cleanStep {s₀ : σ} (hs : Inv body lock t s) (hserial : Serial body s₀ s.log t)
    (hstep : s.CleanStep body lock op s') : ∃ t', Inv body lock t' s' ∧ Serial body s₀ s'.log t' := by
  obtain ⟨hclean, happly⟩ := hstep
  obtain ⟨i, call, rfl, hi, rfl⟩ | ⟨i, call, rfl, hlock, hi, rfl⟩ | ⟨i, call, l, rfl, hlock, hfree, hi, rfl⟩ |
    ⟨i, call, begun, act, next, rfl, hplace, rfl⟩ | ⟨i, call, begun, r, rfl, hplace, rfl⟩ := apply_cases happly
  · have hout : ¬ (s.place i).Midway := hi ▸ Place.not_midway_of_not_inside Place.not_inside_idle
    have hin : ¬ (Place.waiting call : Place κ ρ σ).Inside := Place.not_inside_waiting
    exact ⟨t, hs.move hout (Place.not_midway_of_not_inside hin) (Place.good_of_not_inside hin)
      (fun l hl => absurd hl (Place.not_holds_of_not_inside hin l)) fun j _ => (hs.good j).held, hserial⟩
  · have hnone : ∀ l, lock call ≠ some l := fun l hl => Option.some_ne_none l (hl.symm.trans hlock)
    have henter : Inv body lock t (s.enter i call false (body call)) :=
      hs.enter (hi ▸ Place.not_inside_idle) (fun l hl => absurd hl (hnone l)) (fun l hl => absurd hl (hnone l))
        fun j _ => (hs.good j).held
    obtain ⟨-, h⟩ | ⟨r, -, h⟩ := serial_enter false hserial rfl
    · exact ⟨t, henter, h⟩
    · exact ⟨t, henter, h⟩
  · have henter : Inv body lock t
        ({ s with taken := Function.update s.taken l true }.enter i call false (body call)) := by
      apply hs.enter (hi ▸ Place.not_inside_waiting)
      · intro l' hl'
        obtain rfl : l' = l := Option.some.inj (hl'.symm.trans hlock)
        exact Function.update_self l' true s.taken
      · intro l' hl' j _ hholds
        obtain rfl : l' = l := Option.some.inj (hl'.symm.trans hlock)
        exact Bool.false_ne_true (hfree.symm.trans ((hs.good j).held l' hholds))
      · intro j _ l' hholds
        by_cases hl : l' = l
        · rw [hl]
          exact Function.update_self l true s.taken
        · exact (Function.update_of_ne hl true s.taken).trans ((hs.good j).held l' hholds)
    obtain ⟨-, h⟩ | ⟨r, -, h⟩ := serial_enter false hserial rfl
    · exact ⟨t, henter, h⟩
    · exact ⟨t, henter, h⟩
  · have hothers := hs.others hclean
    have hrun : (next s.shared).run (act s.shared) = (body call).run t := by
      cases begun with
      | true => exact (hs.good i).begun call _ hplace rfl
      | false =>
        have hnone : ∀ j, ¬ (s.place j).Midway := by
          intro j
          by_cases hj : j = i
          · exact hj ▸ hplace ▸ Place.not_midway_entered
          · exact hothers j hj
        rw [← (hs.good i).fresh call _ hplace, ← hs.settled hnone]
        rfl
    obtain ⟨hvalue, h⟩ | ⟨r, hvalue, h⟩ := serial_enter true hserial hrun
    · exact ⟨t, hs.goOn hothers hplace hvalue hrun, h⟩
    · exact ⟨act s.shared, hs.settle hothers hplace hvalue, h⟩
  · exact ⟨t, hs.release hplace, hserial⟩

/-- A run without steps in the middle of another call gives what its calls give in the order of their last steps. -/
theorem sequential_of_run {δ : Type*} (view : σ → δ) {shared : σ} {ops : List (Op ι κ)}
    (hrun : Transition.Run (CleanStep body lock) (start shared) ops s) : Sequential body view shared s := by
  obtain ⟨t, hs, hserial⟩ := hrun.invariant
    (fun s : Calls ι κ ρ σ Λ => ∃ t, Inv body lock t s ∧ Serial body shared s.log t)
    (fun s op s' h hstep => by
      obtain ⟨t, hs, hserial⟩ := h
      exact inv_of_cleanStep hs hserial hstep)
    ⟨shared, inv_start, Transition.Run.nil shared⟩
  refine ⟨s.log, t, List.Perm.refl _, hserial, fun hquiet => ?_⟩
  rw [hs.settled fun i => Place.not_midway_of_not_inside (hquiet i)]

/-! ### Calls under one lock -/

/-- The call that is made has the lock. -/
def Op.Under (lock : κ → Option Λ) (l : Λ) : Op ι κ → Prop
  | .call _ call => lock call = some l
  | _ => True

theorem under_of_step {l : Λ} (hs : ∀ i, (s.place i).Under lock l) (hop : op.Under lock l)
    (h : s.apply body lock op = some s') : ∀ i, (s'.place i).Under lock l := by
  obtain ⟨i, call, rfl, hi, rfl⟩ | ⟨i, call, rfl, hlock, hi, rfl⟩ | ⟨i, call, l', rfl, hlock, hfree, hi, rfl⟩ |
    ⟨i, call, begun, act, next, rfl, hplace, rfl⟩ | ⟨i, call, begun, r, rfl, hplace, rfl⟩ := apply_cases h
  · exact Exclusion.forall_update hop fun j _ => hs j
  · exact Exclusion.forall_update hop fun j _ => hs j
  · have hcall : (Place.waiting call : Place κ ρ σ).Under lock l := hi ▸ hs i
    exact Exclusion.forall_update hcall fun j _ => hs j
  · have hcall : (Place.inside call begun (.step act next)).Under lock l := hplace ▸ hs i
    exact Exclusion.forall_update hcall fun j _ => hs j
  · exact Exclusion.forall_update trivial fun j _ => hs j

/-- A step is clean when every call has one lock. -/
theorem clean_of_under {l : Λ} (hs : ∀ i, (s.place i).Under lock l) (h : s.apply body lock op = some s') :
    s.Clean lock op := by
  obtain ⟨i, call, rfl, -⟩ | ⟨i, call, rfl, -⟩ | ⟨i, call, l', rfl, -⟩ | ⟨i, call, begun, act, next, rfl, hplace, -⟩ |
    ⟨i, call, begun, r, rfl, -⟩ := apply_cases h
  · trivial
  · trivial
  · trivial
  · intro j _ hmid
    obtain ⟨call', rest, hj, -⟩ := hmid
    have hcall : (Place.inside call begun (.step act next)).Under lock l := hplace ▸ hs i
    have hother : (Place.inside call' true rest).Under lock l := hj ▸ hs j
    exact ⟨l, hplace ▸ Place.holds_inside.mpr hcall, hj ▸ Place.holds_inside.mpr hother⟩
  · trivial

theorem cleanRun_of_under {l : Λ} {ops : List (Op ι κ)} (hs : ∀ i, (s.place i).Under lock l)
    (hrun : Transition.Run (Step body lock) s ops s') (hops : ∀ op ∈ ops, op.Under lock l) :
    Transition.Run (CleanStep body lock) s ops s' := by
  induction hrun with
  | nil s => exact .nil s
  | cons hstep _ ih =>
    have hop := hops _ List.mem_cons_self
    exact .cons ⟨clean_of_under hs hstep, hstep⟩
      (ih (under_of_step hs hop hstep) fun op hmem => hops op (List.mem_cons_of_mem _ hmem))

/-- When every call has one lock, any run is sequential. -/
theorem sequential_of_run_under {δ : Type*} (view : σ → δ) (l : Λ) {ops : List (Op ι κ)}
    (hrun : Transition.Run (Step body lock) (start shared) ops s) (hops : ∀ op ∈ ops, op.Under lock l) :
    Sequential body view shared s :=
  sequential_of_run view (cleanRun_of_under (fun _ => trivial) hrun hops)

/-! ### Sequential orders are runs -/

theorem apply_step_enter {act : σ → σ} {next : σ → Prog σ ρ} :
    (s.enter i call begun (.step act next)).apply body lock (.step i) =
      some ({ s with shared := act s.shared }.enter i call true (next s.shared)) := by
  simp [apply, enter, Prog.value?]

theorem apply_finish_enter :
    (s.enter i call begun (.ret r)).apply body lock (.finish i) =
      some { s with
        place := Function.update s.place i .idle
        taken := fun l => if lock call = some l then false else s.taken l
        log := s.log ++ [⟨i, call, r⟩] } := by
  simp [apply, enter, release, Prog.value?]

/-- A client takes the steps that are left of its call, alone. -/
theorem exists_run_rest (hs : ∀ j ≠ i, ¬ (s.place j).Midway) (hrest : rest.run s.shared = some (r, t)) :
    ∃ ops, Transition.Run (CleanStep body lock) (s.enter i call begun rest) ops
      { s with
        place := Function.update s.place i .idle
        taken := fun l => if lock call = some l then false else s.taken l
        shared := t
        log := s.log ++ [⟨i, call, r⟩] } := by
  induction rest generalizing s begun with
  | ret a =>
    obtain ⟨rfl, rfl⟩ : a = r ∧ s.shared = t := by simpa [Prog.run] using hrest
    exact ⟨[.finish i], .single ⟨trivial, apply_finish_enter⟩⟩
  | hang => cases hrest
  | step act next ih =>
    obtain ⟨ops, hrun⟩ := @ih s.shared { s with shared := act s.shared } true hs hrest
    have hclean : (s.enter i call begun (.step act next)).Clean lock (.step i) := by
      intro j hj hmid
      have hplace : (s.enter i call begun (.step act next)).place j = s.place j := Function.update_of_ne hj _ _
      exact absurd (hplace ▸ hmid) (hs j hj)
    exact ⟨.step i :: ops, .cons ⟨hclean, apply_step_enter⟩ hrun⟩

theorem exists_run_of_call {e : Entry ι κ ρ} (hcall : (body e.call).run shared = some (e.result, t)) :
    ∃ ops, Transition.Run (CleanStep body lock) (resting shared log) ops (resting t (log ++ [e])) := by
  let entered (taken : Λ → Bool) : Calls ι κ ρ σ Λ :=
    { (resting shared log : Calls ι κ ρ σ Λ) with taken := taken }.enter e.client e.call false (body e.call)
  -- from the first step of the call on, when at most its own lock is taken
  have hrest : ∀ taken : Λ → Bool, (∀ l, lock e.call ≠ some l → taken l = false) →
      ∃ ops, Transition.Run (CleanStep body lock) (entered taken) ops (resting t (log ++ [e])) := by
    intro taken htaken
    have hnone : ∀ j ≠ e.client, ¬ ((resting shared log : Calls ι κ ρ σ Λ).place j).Midway :=
      fun j _ => Place.not_midway_of_not_inside Place.not_inside_idle
    obtain ⟨ops, hrun⟩ : ∃ ops, Transition.Run (CleanStep body lock) (entered taken) ops _ :=
      exists_run_rest hnone hcall
    have hplace : Function.update (fun _ => .idle) e.client .idle = (fun _ => Place.idle : ι → Place κ ρ σ) :=
      Function.update_eq_self e.client _
    have hfree : (fun l => if lock e.call = some l then false else taken l) = fun _ => false := by
      funext l
      split
      · rfl
      · next hl => exact htaken l hl
    refine ⟨ops, ?_⟩
    rwa [show (resting t (log ++ [e]) : Calls ι κ ρ σ Λ) = ⟨_, _, _, _⟩ from rfl, ← hplace, ← hfree]
  cases hlock : lock e.call with
  | none =>
    obtain ⟨ops, hrun⟩ := hrest (fun _ => false) fun _ _ => rfl
    refine ⟨.call e.client e.call :: ops, .cons ⟨trivial, ?_⟩ hrun⟩
    simp [apply, resting, hlock, entered]
  | some l =>
    obtain ⟨ops, hrun⟩ := hrest (Function.update (fun _ => false) l true) (by
      intro l' hl'
      apply Function.update_of_ne
      rintro rfl
      exact hl' hlock)
    let waiting : Calls ι κ ρ σ Λ :=
      { (resting shared log : Calls ι κ ρ σ Λ) with
        place := Function.update (fun _ => .idle) e.client (.waiting e.call) }
    refine ⟨.call e.client e.call :: .acquire e.client :: ops,
      .cons (t := waiting) ⟨trivial, ?_⟩ (.cons ⟨trivial, ?_⟩ hrun)⟩
    · simp [apply, resting, hlock, waiting]
    · simp [apply, resting, hlock, waiting, entered, enter]

/-- Every sequential order of calls is a run in which no step is in the middle of another call. -/
theorem exists_run_of_serial {order : List (Entry ι κ ρ)} (hserial : Serial body shared order t) :
    ∃ ops, Transition.Run (CleanStep body lock) (start shared) ops (resting t order) := by
  suffices h : ∀ log, ∃ ops,
      Transition.Run (CleanStep body lock) (resting shared log) ops (resting t (log ++ order)) from h []
  induction hserial with
  | nil _ => exact fun log => ⟨[], by simpa using Transition.Run.nil _⟩
  | cons hcall _ ih =>
    intro log
    obtain ⟨ops, hfirst⟩ : ∃ ops, Transition.Run (CleanStep body lock) (resting _ log) ops (resting _ (log ++ [_])) :=
      exists_run_of_call hcall
    obtain ⟨ops', hrest⟩ := ih (log ++ [_])
    exact ⟨ops ++ ops', hfirst.append (by simpa using hrest)⟩

end Calls
