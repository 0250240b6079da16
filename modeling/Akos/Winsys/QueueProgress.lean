import Akos.Winsys.QueueSafety

/-!
# Progress of the operation queue

A set lock has somebody inside who will release it, or it was left by a producer that filled the queue, and
then the listener must not be on its way to acquire it: it would wait for a lock that is its own to release.
Nothing here asks that only one party is inside.
-/

namespace Akos.Winsys.Queue

variable {ι α : Type*} {s t : Queue ι α}

/-- The step of a party that is under way is not a failed attempt on the lock. -/
def Progresses (s : Queue ι α) : Label ι α → Prop
  | .call .. => False
  | .producer p =>
    match s.producers p with
    | .outside => False
    | .acquiring _ => s.lock = false
    | _ => True
  | .listener =>
    match s.listener with
    | .waiting => s.index ≠ 0
    | .acquiring => s.lock = false
    | _ => True

/-- With operations queued, some party gets on. -/
def NotStuck (s : Queue ι α) : Prop := 0 < s.index → ∃ label, s.Progresses label

/-- The condition on a step: no producer finds the queue full and leaves the lock to the listener while the
listener is at the lock itself. -/
def HandsOver (s : Queue ι α) : Label ι α → Prop
  | .producer p => s.producers p = .testing → queueSize ≤ s.index → s.listener ≠ .acquiring
  | _ => True

instance [DecidableEq α] (s : Queue ι α) (label : Label ι α) : Decidable (s.HandsOver label) :=
  match label with
  | .call .. => .isTrue trivial
  | .producer p =>
    inferInstanceAs (Decidable (s.producers p = .testing → queueSize ≤ s.index → s.listener ≠ .acquiring))
  | .listener => .isTrue trivial

def HandsOverStep [DecidableEq ι] (s : Queue ι α) (label : Label ι α) (t : Queue ι α) : Prop :=
  s.HandsOver label ∧ Step s label t

/-- A full queue that the listener has yet to find full. -/
def HandedOver (s : Queue ι α) : Prop :=
  queueSize ≤ s.index ∧ (s.listener = .waiting ∨ s.listener = .testing)

/-- The invariant: a set lock is somebody's who is inside, or was handed over. -/
def LockKept (s : Queue ι α) : Prop := s.lock = true → s.Occupied ∨ s.HandedOver

theorem not_acquiring_of_handedOver (h : s.HandedOver) : s.listener ≠ .acquiring := by
  obtain ⟨-, hl | hl⟩ := h <;> rw [hl] <;> simp

theorem progresses_producer {p : ι} (h : (s.producers p).inside = true) : s.Progresses (.producer p) := by
  rw [Progresses]
  cases hpc : s.producers p with
  | outside | checking | acquiring => rw [hpc] at h; cases h
  | storing | advancing | counting | testing | releasing => trivial

theorem LockKept.notStuck (h : LockKept s) : NotStuck s := by
  intro hpos
  cases hl : s.listener with
  | waiting => exact ⟨.listener, by rw [Progresses, hl]; exact (Int.ne_of_lt hpos).symm⟩
  | testing | reading | advancing | counting | releasing => exact ⟨.listener, by rw [Progresses, hl]; trivial⟩
  | acquiring =>
    cases hlock : s.lock with
    | false => exact ⟨.listener, by rw [Progresses, hl]; exact hlock⟩
    | true =>
      cases h hlock with
      | inl hoccupied =>
        obtain hin | ⟨p, hp⟩ := hoccupied
        · rw [hl] at hin
          cases hin
        · exact ⟨.producer p, progresses_producer hp⟩
      | inr hhanded => exact absurd hl (not_acquiring_of_handedOver hhanded)

/-! ### Steps -/

section Steps

variable [DecidableEq ι] {p : ι}

theorem occupied_of_goto {pc : ProducerPc α} (hproducers : t.producers = (s.goto p pc).producers)
    (h : pc.inside = true) : t.Occupied :=
  .inr ⟨p, by rw [hproducers, producers_goto_self, h]⟩

/-- Where a producer outside stands makes no difference. -/
theorem occupied_goto_of_outside {pc : ProducerPc α} (hout : (s.producers p).inside = false)
    (h : s.Occupied) : (s.goto p pc).Occupied := by
  obtain hl | ⟨q, hq⟩ := h
  · exact .inl hl
  · have hqp : q ≠ p := by
      rintro rfl
      rw [hout] at hq
      cases hq
    exact .inr ⟨q, by rw [producers_goto_of_ne _ _ hqp, hq]⟩

theorem LockKept.stay_out (h : LockKept s) {pc : ProducerPc α} (hout : (s.producers p).inside = false) :
    LockKept (s.goto p pc) := fun hlock => (h hlock).imp (occupied_goto_of_outside hout) id

theorem LockKept.producerStep (h : LockKept s) (hhands : s.HandsOver (.producer p))
    (hstep : s.producerStep p = some t) : LockKept t := by
  rw [Queue.producerStep] at hstep
  cases hpc : s.producers p with
  | outside => rw [hpc] at hstep; cases hstep
  | checking operation =>
    have hout : (s.producers p).inside = false := by rw [hpc]; rfl
    rw [hpc] at hstep
    rw [← Option.some.inj hstep]
    split
    · exact h.stay_out hout
    · exact h.stay_out hout
  | acquiring operation =>
    rw [hpc] at hstep
    rw [← Option.some.inj hstep]
    split
    · exact h
    · exact fun _ => .inl (occupied_of_goto (s := s) (p := p) rfl rfl)
  | storing | advancing | counting =>
    rw [hpc] at hstep
    rw [← Option.some.inj hstep]
    exact fun _ => .inl (occupied_of_goto (s := s) (p := p) rfl rfl)
  | testing =>
    rw [hpc] at hstep
    rw [← Option.some.inj hstep]
    split
    · exact fun _ => .inl (occupied_of_goto (s := s) (p := p) rfl rfl)
    · next hfull =>
      have hle : queueSize ≤ s.index := by omega
      intro _
      -- the lock is left to the listener, which must find the queue full
      cases hl : s.listener with
      | waiting => exact .inr ⟨hle, .inl hl⟩
      | testing => exact .inr ⟨hle, .inr hl⟩
      | acquiring => exact absurd hl (hhands hpc hle)
      | reading | advancing | counting | releasing => exact .inl (.inl (by
          show s.listener.inside = true
          rw [hl]; rfl))
  | releasing =>
    rw [hpc] at hstep
    rw [← Option.some.inj hstep]
    exact fun hlock => by cases hlock

omit [DecidableEq ι] in
/-- The listener outside goes on outside, and finds no queue full that was handed over. -/
theorem LockKept.listener_out (h : LockKept s) {pc : ListenerPc α} (hout : s.listener.inside = false)
    (hpc : s.HandedOver → pc = .waiting ∨ pc = .testing) : LockKept { s with listener := pc } := by
  intro hlock
  cases h hlock with
  | inl hoccupied =>
    obtain hin | hp := hoccupied
    · rw [hout] at hin
      cases hin
    · exact .inl (.inr hp)
  | inr hhanded => exact .inr ⟨hhanded.1, hpc hhanded⟩

omit [DecidableEq ι] in
theorem LockKept.listenerStep (h : LockKept s) : LockKept s.listenerStep := by
  rw [Queue.listenerStep]
  cases hl : s.listener with
  | waiting =>
    dsimp only
    split
    · exact h
    · exact h.listener_out (by rw [hl]; rfl) fun _ => .inr rfl
  | testing =>
    dsimp only
    split
    · next hlt =>
      exact h.listener_out (by rw [hl]; rfl) fun hhanded => absurd hhanded.1 (by omega)
    · exact fun _ => .inl (.inl rfl)
  | acquiring =>
    dsimp only
    split
    · exact h
    · exact fun _ => .inl (.inl rfl)
  | reading | advancing | counting => exact fun _ => .inl (.inl rfl)
  | releasing => exact fun hlock => by cases hlock

theorem lockKept_of_step {label : Label ι α} (h : LockKept s) (hstep : HandsOverStep s label t) : LockKept t := by
  obtain ⟨hhands, happly⟩ := hstep
  cases label with
  | call p operation inListenerProcess =>
    rw [Step, apply] at happly
    cases hpc : s.producers p with
    | outside =>
      have hout : (s.producers p).inside = false := by rw [hpc]; rfl
      rw [hpc] at happly
      rw [← Option.some.inj happly]
      exact h.stay_out hout
    | checking | acquiring | storing | advancing | counting | testing | releasing => rw [hpc] at happly; cases happly
  | producer p => exact h.producerStep hhands happly
  | listener => exact Option.some.inj happly ▸ h.listenerStep

/-- In a run in which no producer leaves the lock of a full queue while the listener is at the lock, some party
gets on in every state with operations queued. -/
theorem notStuck_of_run {slots : Nat → α} {labels : List (Label ι α)}
    (h : Transition.Run HandsOverStep (init slots : Queue ι α) labels s) : NotStuck s := by
  have hkept : LockKept s := h.invariant LockKept (fun _ _ _ hs hstep => lockKept_of_step hs hstep)
    fun hlock => by cases hlock
  exact hkept.notStuck

end Steps

/-- Twenty operations, the last of which leaves the lock to the listener. -/
def fillingRun : List (Label Unit Nat) :=
  enqueueCalls 19 ++ .call () 19 false :: List.replicate 5 (.producer ())

/-- The listener is yet to find the queue full, and gets on. -/
theorem notStuck_of_run_full : ∃ s, Transition.exec apply (fun s label => decide (s.HandsOver label))
    (init fun _ => 0) fillingRun = some s ∧ s.index = 20 ∧ NotStuck s := by
  have hfinal : (Transition.exec apply (fun s label => decide (s.HandsOver label))
      (init fun _ => 0) fillingRun).map index = some 20 := by decide +kernel
  obtain ⟨s, hs, hindex⟩ := Option.map_eq_some_iff.mp hfinal
  have hrun := Transition.run_of_exec (fun s label t htest hstep =>
    (⟨of_decide_eq_true htest, hstep⟩ : HandsOverStep s label t)) hs
  exact ⟨s, hs, hindex, notStuck_of_run hrun⟩

/-- The listener tests the index at one operation, and before it acquires the lock the queue fills up. -/
def overtakenRun : List (Label Unit Nat) :=
  enqueueCalls 1 ++ List.replicate 2 .listener ++ enqueueCalls 18 ++
    .call () 19 false :: List.replicate 5 (.producer ()) ++ [.call () 20 false]

/-- Both parties wait for the lock, and nobody is left to release it. -/
theorem listener_waits_for_its_own_lock : ∃ s, Transition.Run Step (init fun _ => 0) overtakenRun s ∧
    s.lock = true ∧ s.listener = .acquiring ∧ s.producers () = .acquiring 20 ∧ ¬ NotStuck s := by
  have hfinal : (Transition.exec apply (fun _ _ => true) (init fun _ => 0) overtakenRun).map (fun s =>
      (s.lock, s.index, s.listener, s.producers ())) = some (true, 20, .acquiring, .acquiring 20) := by decide +kernel
  obtain ⟨s, hs, hparts⟩ := Option.map_eq_some_iff.mp hfinal
  simp only [Prod.mk.injEq] at hparts
  obtain ⟨hlock, hindex, hlistener, hproducer⟩ := hparts
  have hrun : Transition.Run Step (init fun _ => 0) overtakenRun s := Transition.run_of_exec (fun _ _ _ _ h => h) hs
  refine ⟨s, hrun, hlock, hlistener, hproducer, fun hnotStuck => ?_⟩
  obtain ⟨label, hprogresses⟩ := hnotStuck (by omega)
  cases label with
  | call => exact hprogresses
  | producer p =>
    rw [Progresses, show s.producers p = .acquiring 20 from hproducer, hlock] at hprogresses
    cases hprogresses
  | listener =>
    rw [Progresses, hlistener, hlock] at hprogresses
    cases hprogresses

end Akos.Winsys.Queue
