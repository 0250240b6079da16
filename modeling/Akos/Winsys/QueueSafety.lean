import Akos.Winsys.OperationQueue
import Mathlib.Data.Fintype.Basic

/-!
# Safety of the operation queue

The invariant names the one party that is inside and says, for the step it stands at, which list the ring
holds. It is kept by every step but one: the listener that finds the queue full takes the lock for handed
over, and if the producer that filled it has not tested the index yet, both go on inside.
-/

namespace Akos.Winsys.Queue

variable {ι α : Type*} {s t : Queue ι α}

/-- Somebody is between taking the queue and giving it up. -/
def Occupied (s : Queue ι α) : Prop := s.listener.inside = true ∨ ∃ p, (s.producers p).inside = true

/-- What is to hold in every state. The lock is also held while a full queue is handed over. -/
structure Safe (s : Queue ι α) : Prop where
  producers_exclusive : ∀ p q, (s.producers p).inside = true → (s.producers q).inside = true → p = q
  listener_exclusive : s.listener.inside = true → ∀ p, (s.producers p).inside = false
  lock_iff : s.lock = true ↔ s.Occupied ∨ s.index = queueSize
  index_nonneg : 0 ≤ s.index
  index_le : s.index ≤ queueSize
  stop_eq : ¬ s.Occupied → (s.stop : Int) = (s.start + s.index) % queueSize
  fifo : s.dequeued <+: s.enqueued

/-- The condition on a step: the listener does not test the index while it is full and the producer that
filled it has yet to test it. -/
def Unhurried (s : Queue ι α) : Label ι α → Prop
  | .listener => s.listener = .testing → s.index = queueSize → ∀ p, s.producers p ≠ .testing
  | _ => True

instance [Fintype ι] [DecidableEq α] (s : Queue ι α) (label : Label ι α) : Decidable (s.Unhurried label) :=
  match label with
  | .call .. => .isTrue trivial
  | .producer _ => .isTrue trivial
  | .listener => inferInstanceAs (Decidable (_ → _ → ∀ p, s.producers p ≠ .testing))

def UnhurriedStep [DecidableEq ι] (s : Queue ι α) (label : Label ι α) (t : Queue ι α) : Prop :=
  s.Unhurried label ∧ Step s label t

/-- The party inside. -/
inductive Who (ι : Type*)
  | nobody
  | producer (p : ι)
  | listener

/-- The ring holds what was put in and not taken out, and so many entries. -/
def Holds (s : Queue ι α) (first stop : Nat) (count : Int) : Prop :=
  ∃ l, s.enqueued = s.dequeued ++ l ∧ Ring.Represents queueSize s.slots first stop l ∧ (l.length : Int) = count

/-- The contents at each step of a producer that is inside. -/
def ProducerHolds (s : Queue ι α) : ProducerPc α → Prop
  | .storing _ | .releasing => s.Holds s.start s.stop s.index ∧ s.index < queueSize
  | .advancing => s.Holds s.start ((s.stop + 1) % queueSize) (s.index + 1)
  | .counting => s.Holds s.start s.stop (s.index + 1)
  | .testing => s.Holds s.start s.stop s.index
  | .outside | .checking _ | .acquiring _ => True

/-- The contents at each step of the listener inside. -/
def ListenerHolds (s : Queue ι α) : ListenerPc α → Prop
  | .reading => s.Holds s.start s.stop s.index
  | .advancing _ => s.Holds ((s.start + 1) % queueSize) s.stop (s.index - 1)
  | .counting _ => s.Holds s.start s.stop (s.index - 1)
  | .releasing _ => s.Holds s.start s.stop s.index ∧ s.index < queueSize
  | .waiting | .testing | .acquiring => True

/-- The listener has seen that the queue is not empty and has not taken anything yet. -/
def ListenerPc.committed : ListenerPc α → Bool
  | .testing | .acquiring | .reading | .advancing _ | .counting _ => true
  | .waiting | .releasing _ => false

structure InvAt (s : Queue ι α) (who : Who ι) : Prop where
  producers : ∀ p, (s.producers p).inside = true ↔ who = .producer p
  listener : s.listener.inside = true ↔ who = .listener
  lock : s.lock = true ↔ who ≠ .nobody ∨ s.index = queueSize
  index_nonneg : 0 ≤ s.index
  index_le : s.index ≤ queueSize
  committed : ListenerPc.committed s.listener = true → 0 < s.index
  nobody : who = .nobody → s.Holds s.start s.stop s.index
  producer : ∀ p, who = .producer p → s.ProducerHolds (s.producers p)
  taking : who = .listener → s.ListenerHolds s.listener

def Inv (s : Queue ι α) : Prop := ∃ who, InvAt s who

/-! ### What the invariant gives -/

theorem Holds.index_range {first stop : Nat} {count : Int} (h : s.Holds first stop count) :
    0 ≤ count ∧ count ≤ queueSize := by
  obtain ⟨l, -, hring, rfl⟩ := h
  exact ⟨Int.natCast_nonneg _, Int.ofNat_le.mpr hring.length_le⟩

theorem Holds.fifo {first stop : Nat} {count : Int} (h : s.Holds first stop count) :
    s.dequeued <+: s.enqueued := by
  obtain ⟨l, heq, -, -⟩ := h
  exact ⟨l, heq.symm⟩

theorem Holds.stop_eq {first stop : Nat} {count : Int} (h : s.Holds first stop count) :
    (stop : Int) = (first + count) % queueSize := by
  obtain ⟨l, -, hring, rfl⟩ := h
  rw [hring.stop_eq]
  push_cast
  rfl

theorem InvAt.occupied_iff {who : Who ι} (h : InvAt s who) : s.Occupied ↔ who ≠ .nobody := by
  constructor
  · rintro (hl | ⟨p, hp⟩)
    · rw [h.listener.mp hl]
      intro hwho
      cases hwho
    · rw [(h.producers p).mp hp]
      intro hwho
      cases hwho
  · intro hne
    cases who with
    | nobody => exact absurd rfl hne
    | producer p => exact .inr ⟨p, (h.producers p).mpr rfl⟩
    | listener => exact .inl (h.listener.mpr rfl)

theorem InvAt.fifo {who : Who ι} (h : InvAt s who) : s.dequeued <+: s.enqueued := by
  cases who with
  | nobody => exact (h.nobody rfl).fifo
  | producer p =>
    have hin := (h.producers p).mpr rfl
    have hholds := h.producer p rfl
    cases hpc : s.producers p with
    | outside | checking | acquiring => rw [hpc] at hin; cases hin
    | storing | releasing => rw [hpc] at hholds; exact hholds.1.fifo
    | advancing | counting | testing => rw [hpc] at hholds; exact hholds.fifo
  | listener =>
    have hin := h.listener.mpr rfl
    have hholds := h.taking rfl
    cases hpc : s.listener with
    | waiting | testing | acquiring => rw [hpc] at hin; cases hin
    | releasing => rw [hpc] at hholds; exact hholds.1.fifo
    | reading | advancing | counting => rw [hpc] at hholds; exact hholds.fifo

theorem Inv.safe (h : Inv s) : Safe s := by
  obtain ⟨who, hinv⟩ := h
  refine ⟨fun p q hp hq => ?_, fun hl p => ?_, ?_, hinv.index_nonneg, hinv.index_le, fun hfree => ?_, hinv.fifo⟩
  · have heq := ((hinv.producers p).mp hp).symm.trans ((hinv.producers q).mp hq)
    exact Who.producer.inj heq
  · have hwho := hinv.listener.mp hl
    refine Bool.eq_false_iff.mpr fun hp => ?_
    cases hwho.symm.trans ((hinv.producers p).mp hp)
  · rw [hinv.lock, hinv.occupied_iff]
  · rw [hinv.occupied_iff, not_not] at hfree
    exact (hinv.nobody hfree).stop_eq

/-- Nobody is inside while the lock is free. -/
theorem InvAt.nobody_of_lock {who : Who ι} (h : InvAt s who) (hlock : s.lock = false) : who = .nobody := by
  by_contra hne
  rw [h.lock.mpr (.inl hne)] at hlock
  cases hlock

/-! ### Steps of a producer -/

section Producers

variable [DecidableEq ι] {p : ι}

/-- Moving a producer on within or into or out of the queue. -/
theorem InvAt.goto_producers {who who' : Who ι} (h : InvAt s who) {pc : ProducerPc α}
    (hself : pc.inside = true ↔ who' = .producer p)
    (hother : ∀ q, q ≠ p → (who' = .producer q ↔ who = .producer q)) (q : ι) :
    ((s.goto p pc).producers q).inside = true ↔ who' = .producer q := by
  by_cases hq : q = p
  · rw [hq, producers_goto_self, hself]
  · rw [producers_goto_of_ne _ _ hq, h.producers, hother q hq]

/-- A producer outside moves on outside. -/
theorem InvAt.stay_out {who : Who ι} (h : InvAt s who) {pc : ProducerPc α}
    (hout : (s.producers p).inside = false) (hpc : pc.inside = false) : InvAt (s.goto p pc) who := by
  have hne : who ≠ .producer p := fun heq => by
    rw [(h.producers p).mpr heq] at hout
    cases hout
  refine ⟨h.goto_producers ?_ fun _ _ => Iff.rfl, h.listener, h.lock, h.index_nonneg, h.index_le, h.committed,
    h.nobody, fun q hq => ?_, h.taking⟩
  · rw [hpc]
    exact iff_of_false Bool.false_ne_true hne
  · have hqp : q ≠ p := fun heq => hne (heq ▸ hq)
    rw [producers_goto_of_ne _ _ hqp]
    exact h.producer q hq

/-- The producer inside moves on inside. -/
theorem InvAt.go_on (h : InvAt s (.producer p)) {pc : ProducerPc α} (hpc : pc.inside = true)
    (hproducers : t.producers = (s.goto p pc).producers) (hlistener : t.listener = s.listener)
    (hlock : t.lock = s.lock) (hle : s.index ≤ t.index) (hrange : t.index ≤ queueSize)
    (hholds : t.ProducerHolds pc) : InvAt t (.producer p) where
  producers q := by
    rw [hproducers]
    exact h.goto_producers (iff_of_true hpc rfl) (fun _ _ => Iff.rfl) q
  listener := by rw [hlistener, h.listener]
  lock := by
    rw [hlock, h.lock]
    exact iff_of_true (.inl (by simp)) (.inl (by simp))
  index_nonneg := Int.le_trans h.index_nonneg hle
  index_le := hrange
  committed hc := by
    rw [hlistener] at hc
    exact Int.lt_of_lt_of_le (h.committed hc) hle
  nobody := (by simp)
  producer q hq := by
    obtain rfl := Who.producer.inj hq
    rw [hproducers, producers_goto_self]
    exact hholds
  taking := (by simp)

/-- The producer inside gives the queue up, or leaves the lock of a full queue to the listener. -/
theorem InvAt.leave (h : InvAt s (.producer p)) {b : Bool} (hb : b = true ↔ s.index = queueSize)
    (hholds : s.Holds s.start s.stop s.index) : InvAt { s.goto p .outside with lock := b } .nobody := by
  have hself : (ProducerPc.outside : ProducerPc α).inside = true ↔ Who.nobody = Who.producer p :=
    ⟨(fun hin => by cases hin), (fun heq => by cases heq)⟩
  refine ⟨h.goto_producers hself fun q hq => ?_, ?_, ?_, h.index_nonneg, h.index_le, h.committed,
    fun _ => hholds, (by simp), (by simp)⟩
  · exact ⟨(fun heq => by cases heq), fun heq => absurd (Who.producer.inj heq).symm hq⟩
  · exact h.listener.trans ⟨(fun heq => by cases heq), (fun heq => by cases heq)⟩
  · refine hb.trans ?_
    rw [or_iff_right (not_not_intro rfl)]
    rfl

theorem InvAt.enter (h : InvAt s .nobody) (hlock : s.lock = false) (operation : α) :
    InvAt { s.goto p (.storing operation) with lock := true } (.producer p) := by
  have hroom : s.index ≠ queueSize := fun heq => by
    rw [h.lock.mpr (.inr heq)] at hlock
    cases hlock
  have hle := h.index_le
  refine ⟨fun q => ?_, ?_, ?_, h.index_nonneg, hle, h.committed, (by simp), fun q hq => ?_, (by simp)⟩
  · exact h.goto_producers (iff_of_true rfl rfl)
      (fun q hq => iff_of_false (fun heq => hq (Who.producer.inj heq).symm) (by simp)) q
  · exact h.listener.trans (iff_of_false (by simp) (by simp))
  · exact iff_of_true rfl (.inl (by simp))
  · obtain rfl := Who.producer.inj hq
    show ProducerHolds _ ((s.goto p (.storing operation)).producers p)
    rw [producers_goto_self]
    have hlt : s.index < queueSize := by omega
    exact ⟨h.nobody rfl, hlt⟩

/-- Storing puts the operation behind the last one. -/
theorem Holds.store {first : Nat} {count : Int} (h : s.Holds first s.stop count) (hcount : count < queueSize)
    (operation : α) {pc : ProducerPc α} :
    Holds { s.goto p pc with
      slots := Function.update s.slots s.stop operation
      enqueued := s.enqueued ++ [operation] } first ((s.stop + 1) % queueSize) (count + 1) := by
  obtain ⟨l, heq, hring, rfl⟩ := h
  refine ⟨l ++ [operation], ?_, hring.push (by omega) operation, ?_⟩
  · show s.enqueued ++ [operation] = s.dequeued ++ (l ++ [operation])
    rw [heq, List.append_assoc]
  · rw [List.length_append, List.length_singleton]
    push_cast
    rfl

theorem Inv.producerStep (h : Inv s) (hstep : s.producerStep p = some t) : Inv t := by
  obtain ⟨who, hinv⟩ := h
  have hin := hinv.producers p
  rw [Queue.producerStep] at hstep
  cases hpc : s.producers p with
  | outside => rw [hpc] at hstep; cases hstep
  | checking operation =>
    have hout : (s.producers p).inside = false := by rw [hpc]; rfl
    rw [hpc] at hstep
    refine ⟨who, ?_⟩
    rw [← Option.some.inj hstep]
    split
    · exact hinv.stay_out hout rfl
    · exact hinv.stay_out hout rfl
  | acquiring operation =>
    rw [hpc] at hstep
    rw [← Option.some.inj hstep]
    cases hlock : s.lock with
    | true => exact ⟨who, hinv⟩
    | false =>
      obtain rfl := hinv.nobody_of_lock hlock
      exact ⟨.producer p, hinv.enter hlock operation⟩
  | storing operation =>
    rw [hpc] at hstep hin
    obtain rfl := hin.mp rfl
    have hholds := hinv.producer p rfl
    rw [hpc] at hholds
    rw [← Option.some.inj hstep]
    exact ⟨.producer p, hinv.go_on rfl rfl rfl rfl (Int.le_refl _) hinv.index_le (hholds.1.store hholds.2 operation)⟩
  | advancing =>
    rw [hpc] at hstep hin
    obtain rfl := hin.mp rfl
    have hholds := hinv.producer p rfl
    rw [hpc] at hholds
    rw [← Option.some.inj hstep]
    exact ⟨.producer p, hinv.go_on rfl rfl rfl rfl (Int.le_refl _) hinv.index_le hholds⟩
  | counting =>
    rw [hpc] at hstep hin
    obtain rfl := hin.mp rfl
    have hholds := hinv.producer p rfl
    rw [hpc] at hholds
    rw [← Option.some.inj hstep]
    exact ⟨.producer p, hinv.go_on rfl rfl rfl rfl (Int.le.intro 1 rfl) hholds.index_range.2 hholds⟩
  | testing =>
    rw [hpc] at hstep hin
    obtain rfl := hin.mp rfl
    have hholds := hinv.producer p rfl
    rw [hpc] at hholds
    rw [← Option.some.inj hstep]
    split
    · next hlt => exact ⟨.producer p, hinv.go_on rfl rfl rfl rfl (Int.le_refl _) hinv.index_le ⟨hholds, hlt⟩⟩
    · next hfull =>
      have heq : s.index = queueSize := by have hle := hinv.index_le; omega
      exact ⟨.nobody, hinv.leave (iff_of_true (hinv.lock.mpr (.inl (by simp))) heq) hholds⟩
  | releasing =>
    rw [hpc] at hstep hin
    obtain rfl := hin.mp rfl
    have hholds := hinv.producer p rfl
    rw [hpc] at hholds
    rw [← Option.some.inj hstep]
    exact ⟨.nobody, hinv.leave (iff_of_false Bool.false_ne_true (Int.ne_of_lt hholds.2)) hholds.1⟩

end Producers

/-! ### Steps of the listener -/

/-- The listener outside moves on outside. -/
theorem InvAt.listener_out {who : Who ι} (h : InvAt s who) {pc : ListenerPc α}
    (hout : s.listener.inside = false) (hpc : pc.inside = false)
    (hcommitted : ListenerPc.committed pc = true → 0 < s.index) : InvAt { s with listener := pc } who := by
  have hne : who ≠ .listener := fun heq => by
    rw [h.listener.mpr heq] at hout
    cases hout
  refine ⟨h.producers, ?_, h.lock, h.index_nonneg, h.index_le, hcommitted, h.nobody, h.producer,
    fun heq => absurd heq hne⟩
  show pc.inside = true ↔ who = .listener
  rw [hpc]
  exact iff_of_false Bool.false_ne_true hne

/-- The listener comes in, with the lock set. -/
theorem InvAt.listener_enter (h : InvAt s .nobody) {b : Bool} (hb : b = true) (hpos : 0 < s.index) :
    InvAt { s with listener := .reading, lock := b } .listener where
  producers p := (h.producers p).trans ⟨(fun heq => by cases heq), (fun heq => by cases heq)⟩
  listener := iff_of_true rfl rfl
  lock := iff_of_true hb (.inl (by simp))
  index_nonneg := h.index_nonneg
  index_le := h.index_le
  committed _ := hpos
  nobody := (by simp)
  producer := (by simp)
  taking _ := h.nobody rfl

/-- The listener inside moves on inside. -/
theorem InvAt.listener_go_on (h : InvAt s .listener) (hproducers : t.producers = s.producers)
    (hlock : t.lock = s.lock) (hin : t.listener.inside = true) (hnonneg : 0 ≤ t.index)
    (hle : t.index ≤ queueSize) (hcommitted : ListenerPc.committed t.listener = true → 0 < t.index)
    (hholds : t.ListenerHolds t.listener) : InvAt t .listener where
  producers p := by rw [hproducers, h.producers]
  listener := iff_of_true hin rfl
  lock := by
    rw [hlock, h.lock]
    exact iff_of_true (.inl (by simp)) (.inl (by simp))
  index_nonneg := hnonneg
  index_le := hle
  committed := hcommitted
  nobody := (by simp)
  producer := (by simp)
  taking _ := hholds

/-- Reading takes the first operation. -/
theorem Holds.take {first stop : Nat} {count : Int} (h : s.Holds first stop count) (hpos : 0 < count)
    {pc : ListenerPc α} :
    Holds { s with listener := pc, dequeued := s.dequeued ++ [s.slots first] }
      ((first + 1) % queueSize) stop (count - 1) := by
  obtain ⟨l, heq, hring, rfl⟩ := h
  cases l with
  | nil => exact absurd hpos (Int.lt_irrefl 0)
  | cons x l =>
    refine ⟨l, ?_, hring.pop, ?_⟩
    · show s.enqueued = s.dequeued ++ [s.slots first] ++ l
      rw [heq, hring.head, List.append_assoc]
      rfl
    · rw [List.length_cons]
      push_cast
      omega

/-- A full queue that nobody is still testing has been handed over. -/
theorem InvAt.nobody_of_full {who : Who ι} (h : InvAt s who) (hl : s.listener = .testing)
    (hfull : s.index = queueSize) (htested : ∀ p, s.producers p ≠ .testing) : who = .nobody := by
  cases who with
  | nobody => rfl
  | listener =>
    have hin := h.listener.mpr rfl
    rw [hl] at hin
    cases hin
  | producer p =>
    have hin := (h.producers p).mpr rfl
    have hholds := h.producer p rfl
    cases hpc : s.producers p with
    | outside | checking | acquiring => rw [hpc] at hin; cases hin
    | storing | releasing =>
      rw [hpc] at hholds
      exact absurd hfull (Int.ne_of_lt hholds.2)
    | advancing | counting =>
      rw [hpc] at hholds
      have hle := hholds.index_range.2
      rw [hfull] at hle
      exact absurd hle (by decide)
    | testing => exact absurd hpc (htested p)

theorem Inv.listenerStep (h : Inv s)
    (hunhurried : s.listener = .testing → s.index = queueSize → ∀ p, s.producers p ≠ .testing) :
    Inv s.listenerStep := by
  obtain ⟨who, hinv⟩ := h
  have hin := hinv.listener
  have hcommitted := hinv.committed
  have hle := hinv.index_le
  have hnonneg := hinv.index_nonneg
  rw [Queue.listenerStep]
  cases hl : s.listener with
  | waiting =>
    dsimp only
    split
    · exact ⟨who, hinv⟩
    · next hne =>
      exact ⟨who, hinv.listener_out (by rw [hl]; rfl) rfl fun _ => by omega⟩
  | testing =>
    have hpos : 0 < s.index := hcommitted (by rw [hl]; rfl)
    dsimp only
    split
    · exact ⟨who, hinv.listener_out (by rw [hl]; rfl) rfl fun _ => hpos⟩
    · next hfull =>
      have heq : s.index = queueSize := by omega
      obtain rfl := hinv.nobody_of_full hl heq (hunhurried hl heq)
      exact ⟨.listener, hinv.listener_enter (hinv.lock.mpr (.inr heq)) hpos⟩
  | acquiring =>
    have hpos : 0 < s.index := hcommitted (by rw [hl]; rfl)
    dsimp only
    cases hlock : s.lock with
    | true => exact ⟨who, hinv⟩
    | false =>
      obtain rfl := hinv.nobody_of_lock hlock
      exact ⟨.listener, hinv.listener_enter rfl hpos⟩
  | reading =>
    have hpos : 0 < s.index := hcommitted (by rw [hl]; rfl)
    obtain rfl := hin.mp (by rw [hl]; rfl)
    have hholds := hinv.taking rfl
    rw [hl] at hholds
    exact ⟨.listener, hinv.listener_go_on rfl rfl rfl hnonneg hle (fun _ => hpos) (hholds.take hpos)⟩
  | advancing op =>
    have hpos : 0 < s.index := hcommitted (by rw [hl]; rfl)
    obtain rfl := hin.mp (by rw [hl]; rfl)
    have hholds := hinv.taking rfl
    rw [hl] at hholds
    exact ⟨.listener, hinv.listener_go_on rfl rfl rfl hnonneg hle (fun _ => hpos) hholds⟩
  | counting op =>
    have hpos : 0 < s.index := hcommitted (by rw [hl]; rfl)
    obtain rfl := hin.mp (by rw [hl]; rfl)
    have hholds := hinv.taking rfl
    rw [hl] at hholds
    have hlt : s.index - 1 < queueSize := by omega
    exact ⟨.listener, hinv.listener_go_on rfl rfl rfl (show 0 ≤ s.index - 1 by omega) (Int.le_of_lt hlt)
      (fun hc => by cases hc) ⟨hholds, hlt⟩⟩
  | releasing op =>
    obtain rfl := hin.mp (by rw [hl]; rfl)
    have hholds := hinv.taking rfl
    rw [hl] at hholds
    refine ⟨.nobody, fun p => ?_, ?_, ?_, hnonneg, hle, (fun hc => by cases hc), fun _ => hholds.1, (by simp),
      (by simp)⟩
    · exact (hinv.producers p).trans ⟨(fun heq => by cases heq), (fun heq => by cases heq)⟩
    · exact ⟨(fun hc => by cases hc), (fun heq => by cases heq)⟩
    · refine iff_of_false Bool.false_ne_true ?_
      rw [or_iff_right (not_not_intro rfl)]
      exact Int.ne_of_lt hholds.2

/-! ### Runs -/

section Runs

variable [DecidableEq ι] {label : Label ι α} {labels : List (Label ι α)}

omit [DecidableEq ι] in
theorem inv_init (slots : Nat → α) : Inv (init slots : Queue ι α) := by
  have hempty : (0 : Int) < queueSize := by decide
  refine ⟨.nobody, fun _ => ?_, ?_, ?_, Int.le_refl _, Int.le_of_lt hempty, (fun hc => by cases hc), fun _ => ?_,
    (by simp), (by simp)⟩
  · exact ⟨(fun hc => by cases hc), (fun heq => by cases heq)⟩
  · exact ⟨(fun hc => by cases hc), (fun heq => by cases heq)⟩
  · refine iff_of_false Bool.false_ne_true ?_
    rw [or_iff_right (not_not_intro rfl)]
    exact Int.ne_of_lt hempty
  · exact ⟨[], rfl, Ring.Represents.nil slots (Nat.succ_pos _), rfl⟩

theorem inv_of_step (h : Inv s) (hstep : UnhurriedStep s label t) : Inv t := by
  obtain ⟨hunhurried, happly⟩ := hstep
  cases label with
  | call p operation inListenerProcess =>
    obtain ⟨who, hinv⟩ := h
    rw [Step, apply] at happly
    cases hpc : s.producers p with
    | outside =>
      have hout : (s.producers p).inside = false := by rw [hpc]; rfl
      rw [hpc] at happly
      rw [← Option.some.inj happly]
      split
      · exact ⟨who, hinv.stay_out hout rfl⟩
      · exact ⟨who, hinv.stay_out hout rfl⟩
    | checking | acquiring | storing | advancing | counting | testing | releasing => rw [hpc] at happly; cases happly
  | producer p => exact h.producerStep happly
  | listener => exact Option.some.inj happly ▸ h.listenerStep hunhurried

theorem inv_of_run {slots : Nat → α} (h : Transition.Run UnhurriedStep (init slots : Queue ι α) labels s) : Inv s :=
  h.invariant Inv (fun _ _ _ hs hstep => inv_of_step hs hstep) (inv_init slots)

/-- A listener that takes a full queue for handed over comes in beside the producer. -/
theorem not_safe_of_not_unhurried (hstep : Step s label t) (hhurried : ¬ s.Unhurried label) : ¬ Safe t := by
  cases label with
  | call | producer => exact absurd trivial hhurried
  | listener =>
    rw [Unhurried] at hhurried
    push Not at hhurried
    obtain ⟨hl, hfull, p, hpc⟩ := hhurried
    intro hsafe
    have ht : t = { s with listener := .reading } := by
      rw [← Option.some.inj hstep, listenerStep, hl, hfull]
      rfl
    have hin : (t.producers p).inside = true := by
      rw [ht, hpc]
      rfl
    have hout := hsafe.listener_exclusive (by rw [ht]; rfl) p
    rw [hin] at hout
    cases hout

/-- In a run in which the listener never finds a full queue whose producer has not tested the index yet, every
state is safe, and the next step keeps this exactly if it is such a step too. -/
theorem safe_of_run {slots : Nat → α} (h : Transition.Run UnhurriedStep (init slots : Queue ι α) labels s) :
    Safe s ∧ ∀ label t, Step s label t → (Safe t ↔ s.Unhurried label) := by
  have hinv := inv_of_run h
  refine ⟨hinv.safe, fun label t hstep => ⟨fun hsafe => ?_, fun hunhurried => ?_⟩⟩
  · by_contra hhurried
    exact not_safe_of_not_unhurried hstep hhurried hsafe
  · exact (inv_of_step hinv ⟨hunhurried, hstep⟩).safe

end Runs

/-- One producer puts in the operations 0 up to `n`, each call to its end. -/
def enqueueCalls (n : Nat) : List (Label Unit Nat) :=
  (List.range n).flatMap fun operation => .call () operation false :: List.replicate 6 (.producer ())

/-- An operation goes in and comes out. -/
theorem safe_of_run_one_operation : ∃ s, Transition.exec apply (fun s label => decide (s.Unhurried label))
    (init fun _ => 0) (enqueueCalls 1 ++ List.replicate 7 .listener) = some s ∧ Safe s ∧ s.dequeued = [0] := by
  have hfinal : (Transition.exec apply (fun s label => decide (s.Unhurried label))
      (init fun _ => 0) (enqueueCalls 1 ++ List.replicate 7 .listener)).map dequeued = some [0] := by decide
  obtain ⟨s, hs, hdequeued⟩ := Option.map_eq_some_iff.mp hfinal
  have hrun := Transition.run_of_exec (fun s label t htest hstep =>
    (⟨of_decide_eq_true htest, hstep⟩ : UnhurriedStep s label t)) hs
  exact ⟨s, hs, (safe_of_run hrun).1, hdequeued⟩

/-- The last of twenty operations is counted, and before its producer tests the index the listener does. -/
def hurriedRun : List (Label Unit Nat) :=
  enqueueCalls 19 ++ .listener :: .call () 19 false :: List.replicate 4 (.producer ()) ++ [.listener]

/-- The listener finds the queue full and comes in beside the producer. -/
theorem listener_enters_beside_producer : ∃ s, Transition.Run Step (init fun _ => 0) hurriedRun s ∧
    s.listener.inside = true ∧ (s.producers ()).inside = true ∧ ¬ Safe s := by
  have hfinal : (Transition.exec apply (fun _ _ => true) (init fun _ => 0) hurriedRun).map (fun s =>
      (s.listener.inside, (s.producers ()).inside)) = some (true, true) := by decide +kernel
  obtain ⟨s, hs, hboth⟩ := Option.map_eq_some_iff.mp hfinal
  simp only [Prod.mk.injEq] at hboth
  obtain ⟨hlistener, hproducer⟩ := hboth
  have hrun : Transition.Run Step (init fun _ => 0) hurriedRun s := Transition.run_of_exec (fun _ _ _ _ h => h) hs
  refine ⟨s, hrun, hlistener, hproducer, fun hsafe => ?_⟩
  have hout := hsafe.listener_exclusive hlistener ()
  rw [hproducer] at hout
  cases hout

end Akos.Winsys.Queue
