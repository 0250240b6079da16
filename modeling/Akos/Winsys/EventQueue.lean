import Akos.Sched.Process
import Akos.Sched.Sleep

/-!
# Events of a window and the thread that waits for them

An interrupt puts an event into the first free slot of the window and then wakes the threads of its process. The
thread of the window takes the first slot, and suspends itself if that was free. Test and suspension are two steps,
and so are the interrupt's two.
-/

namespace Akos.Winsys

/-- `EVENT` -/
structure Event where
  eventType : BitVec 32
  eventData : BitVec 32
  deriving DecidableEq

/-- `EVENT_INVALID` -/
abbrev eventInvalid : BitVec 32 := 1#32

/-- The test by which a slot is found free. -/
def Event.isInvalid (e : Event) : Bool := e.eventType &&& eventInvalid ≠ 0#32

theorem Event.isInvalid_of_eq {e : Event} (h : e.eventType = eventInvalid) : e.isInvalid = true := by
  rw [isInvalid, h]
  decide

/-- The slots of an event handler. -/
abbrev Events := List Event

namespace Events

/-- `winsys_enqueue_to_event_handler`: the first free slot is filled, and without one the event is dropped. -/
def enqueue (event : Event) : Events → Events
  | [] => []
  | e :: es => if e.isInvalid then event :: es else e :: enqueue event es

/-- `winsys_dequeue_from_event_handler`: the first slot, and the others moved up. The last one keeps its data. -/
def dequeue : Events → Option (Event × Events)
  | [] => none
  | e :: es => some (e, es ++ [{ (e :: es).getLast (List.cons_ne_nil e es) with eventType := eventInvalid }])

/-- An event waits. -/
def Nonempty (es : Events) : Prop := ∃ e ∈ es, e.isInvalid = false

/-- The free slots are the last ones. -/
def Packed (es : Events) : Prop :=
  ∃ waiting free, es = waiting ++ free ∧ (∀ e ∈ waiting, e.isInvalid = false) ∧ ∀ e ∈ free, e.isInvalid = true

variable {es rest : Events} {e event : Event}

theorem enqueue_append {waiting : List Event} (h : ∀ e ∈ waiting, e.isInvalid = false) (free : List Event) :
    enqueue event (waiting ++ free) = waiting ++ enqueue event free := by
  induction waiting with
  | nil => rfl
  | cons e waiting ih =>
    have hhead := h e List.mem_cons_self
    rw [List.cons_append, enqueue, if_neg (Bool.eq_false_iff.mp hhead), ih fun x hx => h x (List.mem_cons_of_mem _ hx)]
    rfl

theorem Packed.enqueue (h : Packed es) (hvalid : event.isInvalid = false) : Packed (enqueue event es) := by
  obtain ⟨waiting, free, rfl, hwaiting, hfree⟩ := h
  rw [enqueue_append hwaiting]
  cases free with
  | nil => exact ⟨waiting, [], rfl, hwaiting, hfree⟩
  | cons slot free =>
    refine ⟨waiting ++ [event], free, ?_, ?_, fun e he => hfree e (List.mem_cons_of_mem _ he)⟩
    · rw [Events.enqueue, if_pos (hfree slot List.mem_cons_self), List.append_assoc]
      rfl
    · intro e he
      rcases List.mem_append.mp he with he | he
      · exact hwaiting e he
      · rw [List.mem_singleton.mp he]
        exact hvalid

/-- What is left after the first slot was taken. -/
theorem Packed.dequeue (h : Packed es) (hdequeue : dequeue es = some (e, rest)) :
    Packed rest ∧ (Nonempty rest → Nonempty es) ∧ (e.isInvalid = true → ¬ Nonempty rest) := by
  obtain ⟨waiting, free, rfl, hwaiting, hfree⟩ := h
  have hadded : ∀ x : Event, Event.isInvalid { x with eventType := eventInvalid } = true := fun _ =>
    Event.isInvalid_of_eq rfl
  cases waiting with
  | nil =>
    cases free with
    | nil => cases hdequeue
    | cons slot free =>
      obtain ⟨rfl, rfl⟩ := Prod.mk.inj (Option.some.inj hdequeue)
      -- all slots are free
      have hall : ∀ x ∈ free ++ [{ (slot :: free).getLast (List.cons_ne_nil slot free) with
          eventType := eventInvalid }], x.isInvalid = true := by
        intro x hx
        rcases List.mem_append.mp hx with hx | hx
        · exact hfree x (List.mem_cons_of_mem _ hx)
        · rw [List.mem_singleton.mp hx]
          exact hadded _
      have hnone : ¬ Nonempty (free ++ [{ (slot :: free).getLast (List.cons_ne_nil slot free) with
          eventType := eventInvalid }]) := by
        intro hwaits
        obtain ⟨x, hx, hvalid⟩ := hwaits
        exact Bool.false_ne_true (hvalid.symm.trans (hall x hx))
      exact ⟨⟨[], _, rfl, fun _ hx => absurd hx List.not_mem_nil, hall⟩, fun hwaits => absurd hwaits hnone, fun _ => hnone⟩
  | cons first waiting =>
    obtain ⟨rfl, rfl⟩ := Prod.mk.inj (Option.some.inj hdequeue)
    have hfirst := hwaiting first List.mem_cons_self
    refine ⟨⟨waiting, _, List.append_assoc .., fun x hx => hwaiting x (List.mem_cons_of_mem _ hx), ?_⟩,
      fun _ => ⟨first, List.mem_cons_self, hfirst⟩, fun hinvalid => ?_⟩
    · intro x hx
      rcases List.mem_append.mp hx with hx | hx
      · exact hfree x hx
      · rw [List.mem_singleton.mp hx]
        exact hadded _
    · rw [hfirst] at hinvalid
      cases hinvalid

end Events

/-- Where the thread of the window stands in its loop. -/
inductive WaiterPc
  | outside
  | suspending
  | yielding
  | handling (e : Event)
  deriving DecidableEq

/-- A window thread, which is the entry `block` of the queue and of process `pid`, and the interrupt. -/
structure Waiter where
  sched : Sched
  events : Events
  pc : WaiterPc
  waking : Bool

namespace Waiter

/-- The steps of the thread, those of the interrupt, the timer and another thread's `schedule`. -/
inductive Op
  | dequeue
  | setSuspended
  | schedule
  | handle
  | enqueue (e : Event)
  | unsuspend
  | tick
  | dispatch

variable (block : Nat) (pid : Int)

/-- The thread makes its steps when it runs. An interrupt's event is a valid one. -/
def Step (s : Waiter) (op : Op) (t : Waiter) : Prop :=
  match op with
  | .dequeue => s.sched.currentTask = some block ∧ s.pc = .outside ∧ ∃ e rest, s.events.dequeue = some (e, rest) ∧
      t = { s with events := rest, pc := if e.eventType = eventInvalid then .suspending else .handling e }
  | .setSuspended => s.sched.currentTask = some block ∧ s.pc = .suspending ∧
      t = { s with sched := s.sched.threadSuspend, pc := .yielding }
  | .schedule => s.sched.currentTask = some block ∧ s.pc = .yielding ∧ ∃ turns u,
      s.sched.schedulerDispatch turns = some u ∧ t = { s with sched := u, pc := .outside }
  | .handle => s.sched.currentTask = some block ∧ (∃ e, s.pc = .handling e) ∧ t = { s with pc := .outside }
  | .enqueue e => s.waking = false ∧ e.isInvalid = false ∧
      t = { s with events := s.events.enqueue e, waking := true }
  | .unsuspend => s.waking = true ∧
      t = { s with sched := s.sched.unsuspendSuspendedThreads (s.sched.getProcessByID pid), waking := false }
  | .tick => ∃ turns u, s.sched.schedulerTick turns = some u ∧ t = { s with sched := u }
  | .dispatch => s.sched.currentTask ≠ some block ∧ ∃ turns u,
      s.sched.schedulerDispatch turns = some u ∧ t = { s with sched := u }

/-- The interrupt does not wake between an empty dequeue of the thread and its suspension. -/
def Careful (s : Waiter) (op : Op) : Prop :=
  match op with
  | .unsuspend => s.pc ≠ .suspending
  | _ => True

def Suspended (s : Waiter) : Prop :=
  ∃ e ∈ s.sched.readyQueue, e.block = block ∧ e.thread.has threadSuspended = true

/-- When the interrupt is idle, the thread is not suspended with an event waiting. -/
def NoLostWakeup (s : Waiter) : Prop := s.waking = false → ¬ (s.Suspended block ∧ s.events.Nonempty)

/-- The thread belongs to the process with this id. -/
structure Belongs (s : Sched) : Prop where
  found : ∃ p, s.getProcessByID pid = some p
  parent : ∀ e ∈ s.readyQueue, e.block = block → (s.processes e.thread.parent).id = pid

/-- A window without events, and its thread not suspended. -/
structure Start (s : Waiter) : Prop where
  belongs : Belongs block pid s.sched
  free : ∀ e ∈ s.events, e.isInvalid = true
  awake : ¬ s.Suspended block
  outside : s.pc = .outside
  idle : s.waking = false

/-- While an event waits, the thread neither is suspended nor about to be, unless it will be woken. -/
structure Inv (s : Waiter) : Prop where
  belongs : Belongs block pid s.sched
  packed : s.events.Packed
  suspended : s.Suspended block → s.events.Nonempty → s.waking = true
  suspending : s.pc = .suspending → s.events.Nonempty → s.waking = true

variable {block pid} {s t : Waiter}

theorem not_nonempty_of_free {es : Events} (h : ∀ e ∈ es, e.isInvalid = true) : ¬ es.Nonempty := by
  intro hwaits
  obtain ⟨e, he, hvalid⟩ := hwaits
  exact Bool.false_ne_true (hvalid.symm.trans (h e he))

theorem Start.inv (h : s.Start block pid) : s.Inv block pid where
  belongs := h.belongs
  packed := ⟨[], s.events, rfl, fun _ he => absurd he List.not_mem_nil, h.free⟩
  suspended _ hwaits := absurd hwaits (not_nonempty_of_free h.free)
  suspending _ hwaits := absurd hwaits (not_nonempty_of_free h.free)

theorem Inv.noLostWakeup (h : s.Inv block pid) : s.NoLostWakeup block := by
  intro hidle hlost
  rw [h.suspended hlost.1 hlost.2] at hidle
  cases hidle

/-! ### The scheduler -/

theorem getProcessByID_of_keeps {s t : Sched} (hlist : t.processList = s.processList)
    (hid : ∀ p, (t.processes p).id = (s.processes p).id) (id : Int) : t.getProcessByID id = s.getProcessByID id := by
  unfold Sched.getProcessByID
  rw [hlist]
  simp only [hid]

/-- Entries of the queue come from entries with the same block and parent. -/
theorem Belongs.of_entries {s t : Sched} (h : Belongs block pid s) (hlist : t.processList = s.processList)
    (hid : ∀ p, (t.processes p).id = (s.processes p).id)
    (hentry : ∀ e ∈ t.readyQueue, ∃ e' ∈ s.readyQueue, e'.block = e.block ∧ e'.thread.parent = e.thread.parent) :
    Belongs block pid t where
  found := by
    rw [getProcessByID_of_keeps hlist hid]
    exact h.found
  parent e he hblock := by
    obtain ⟨e', he', hblock', hparent⟩ := hentry e he
    rw [hid, ← hparent]
    exact h.parent e' he' (hblock'.trans hblock)

theorem Belongs.keeps {s t : Sched} (h : Belongs block pid s) (hkeeps : Sched.Keeps s t) : Belongs block pid t :=
  h.of_entries hkeeps.processList hkeeps.id fun e he => ⟨e, hkeeps.mem he, rfl, rfl⟩

theorem tickThread_suspended (t : Thread) :
    (Sched.tickThread t).has threadSuspended = t.has threadSuspended ∧ (Sched.tickThread t).parent = t.parent := by
  have hmask : ~~~threadBlockSleep &&& threadSuspended = threadSuspended := by decide
  unfold Sched.tickThread
  split
  · split
    · refine ⟨?_, rfl⟩
      unfold Thread.has Thread.threadRemoveState
      rw [BitVec.and_assoc, hmask]
    · exact ⟨rfl, rfl⟩
  · exact ⟨rfl, rfl⟩

/-- A dispatch suspends nobody. -/
theorem Inv.dispatched {u : Sched} {turns : Nat} (h : s.Inv block pid)
    (hdispatch : s.sched.schedulerDispatch turns = some u) {pc : WaiterPc} (hpc : pc = .suspending → s.pc = .suspending) :
    Inv block pid { s with sched := u, pc } where
  belongs := h.belongs.keeps (Sched.keeps_of_schedulerDispatch hdispatch)
  packed := h.packed
  suspended hsuspended hwaits := by
    obtain ⟨e, he, hblock, hflag⟩ := hsuspended
    exact h.suspended ⟨e, (Sched.keeps_of_schedulerDispatch hdispatch).mem he, hblock, hflag⟩ hwaits
  suspending hp hwaits := h.suspending (hpc hp) hwaits

theorem Inv.tick (h : s.Inv block pid) (hstep : Step block pid s .tick t) : t.Inv block pid := by
  obtain ⟨turns, u, htick, rfl⟩ := hstep
  obtain ⟨v, hdispatch, rfl⟩ := Option.map_eq_some_iff.mp htick
  have hv : Inv block pid { s with sched := v } := h.dispatched hdispatch id
  refine ⟨hv.belongs.of_entries rfl (fun _ => rfl) fun e he => ?_, h.packed, fun hsuspended hwaits => ?_, h.suspending⟩
  · obtain ⟨e', he', rfl⟩ := List.mem_map.mp he
    exact ⟨e', he', rfl, (tickThread_suspended e'.thread).2.symm⟩
  · obtain ⟨e, he, hblock, hflag⟩ := hsuspended
    obtain ⟨e', he', rfl⟩ := List.mem_map.mp he
    rw [(tickThread_suspended e'.thread).1] at hflag
    exact hv.suspended ⟨e', he', hblock, hflag⟩ hwaits

theorem Inv.setSuspended (h : s.Inv block pid) (hstep : Step block pid s .setSuspended t) : t.Inv block pid := by
  obtain ⟨hcurrent, hpc, rfl⟩ := hstep
  refine ⟨h.belongs.of_entries rfl (fun _ => rfl) fun e he => ?_, h.packed, fun _ hwaits => h.suspending hpc hwaits,
    fun hp => ?_⟩
  · obtain ⟨e', he', hblock, ⟨-, hthread⟩ | ⟨-, rfl⟩⟩ := Sleepers.mem_updateCurrent hcurrent he
    · refine ⟨e', he', hblock, ?_⟩
      rw [hthread]
      rfl
    · exact ⟨e, he', rfl, rfl⟩
  · cases hp

theorem readyQueue_withSchedulingOff (f : List QueueEntry → List QueueEntry) (s : Sched) :
    (s.withSchedulingOff f).readyQueue = f s.readyQueue ∧ (s.withSchedulingOff f).processList = s.processList ∧
      (s.withSchedulingOff f).processes = s.processes := by
  unfold Sched.withSchedulingOff
  split <;> exact ⟨rfl, rfl, rfl⟩

/-- The wake-up takes the flag from the thread. -/
theorem Inv.unsuspend (h : s.Inv block pid) (hcareful : s.Careful .unsuspend)
    (hstep : Step block pid s .unsuspend t) : t.Inv block pid := by
  obtain ⟨-, rfl⟩ := hstep
  obtain ⟨p, hp⟩ := h.belongs.found
  have hfind : s.sched.processList.find? (fun q => (s.sched.processes q).id = pid) = some p := hp
  have hpid : (s.sched.processes p).id = pid := by simpa using List.find?_some hfind
  rw [hp]
  unfold Sched.unsuspendSuspendedThreads
  obtain ⟨hqueue, hlist, hprocesses⟩ := readyQueue_withSchedulingOff (fun q => q.map fun e =>
    if (s.sched.processes e.thread.parent).id = (s.sched.processes p).id then
      { e with thread := e.thread.threadRemoveState threadSuspended }
    else e) s.sched
  refine ⟨h.belongs.of_entries hlist (fun q => by rw [hprocesses]) fun e he => ?_, h.packed, fun hsuspended _ => ?_,
    fun hsuspending => absurd hsuspending hcareful⟩
  · rw [hqueue] at he
    obtain ⟨e', he', rfl⟩ := List.mem_map.mp he
    refine ⟨e', he', ?_⟩
    split <;> exact ⟨rfl, rfl⟩
  · obtain ⟨e, he, hblock, hflag⟩ := hsuspended
    rw [hqueue] at he
    obtain ⟨e', he', rfl⟩ := List.mem_map.mp he
    have hblock' : e'.block = block := by
      rw [← hblock]
      split <;> rfl
    rw [if_pos ((h.belongs.parent e' he' hblock').trans hpid.symm)] at hflag
    rw [show ({ e' with thread := e'.thread.threadRemoveState threadSuspended } : QueueEntry).thread.has threadSuspended
      = false from Sleepers.has_threadRemoveState _ _] at hflag
    cases hflag

theorem Inv.step {op : Op} (h : s.Inv block pid) (hcareful : s.Careful op) (hstep : Step block pid s op t) :
    t.Inv block pid := by
  cases op with
  | dequeue =>
    obtain ⟨-, -, e, rest, hdequeue, rfl⟩ := hstep
    obtain ⟨hpacked, hnonempty, hempty⟩ := h.packed.dequeue hdequeue
    refine ⟨h.belongs, hpacked, fun hsuspended hwaits => h.suspended hsuspended (hnonempty hwaits), fun hpc hwaits => ?_⟩
    by_cases hinvalid : e.eventType = eventInvalid
    · exact absurd hwaits (hempty (Event.isInvalid_of_eq hinvalid))
    · rw [if_neg hinvalid] at hpc
      cases hpc
  | setSuspended => exact h.setSuspended hstep
  | schedule =>
    obtain ⟨-, -, turns, u, hdispatch, rfl⟩ := hstep
    exact h.dispatched hdispatch fun hp => by cases hp
  | handle =>
    obtain ⟨-, -, rfl⟩ := hstep
    exact ⟨h.belongs, h.packed, h.suspended, fun hp => by cases hp⟩
  | enqueue e =>
    obtain ⟨-, hvalid, rfl⟩ := hstep
    exact ⟨h.belongs, h.packed.enqueue hvalid, fun _ _ => rfl, fun _ _ => rfl⟩
  | unsuspend => exact h.unsuspend hcareful hstep
  | tick => exact h.tick hstep
  | dispatch =>
    obtain ⟨-, turns, u, hdispatch, rfl⟩ := hstep
    exact h.dispatched hdispatch id

/-! ### Runs -/

variable (block pid)

def CarefulStep (s : Waiter) (op : Op) (t : Waiter) : Prop := s.Careful op ∧ Step block pid s op t

/-- No wake-up is lost in a run in which none falls between an empty dequeue and the suspension. -/
theorem noLostWakeup_of_run {ops : List Op} (hstart : s.Start block pid)
    (hrun : Transition.Run (CarefulStep block pid) s ops t) : t.NoLostWakeup block :=
  (hrun.invariant (Inv block pid) (fun _ _ _ h hstep => h.step hstep.1 hstep.2) hstart.inv).noLostWakeup

/-- A window thread that runs, another thread of its process, and no events. -/
def twoWaiting : Waiter where
  sched := { (Sched.appendAll [1#32, 2#32] Sched.emptyQueue).enableScheduling with
    processes := fun _ => ⟨0x200000#32, 1, 0#32, 0#32, [], [], 2, true, false, none⟩
    processList := [0] }
  events := List.replicate 10 ⟨eventInvalid, 0#32⟩
  pc := .outside
  waking := false

theorem start_twoWaiting : twoWaiting.Start 0 1 where
  belongs := ⟨⟨0, rfl⟩, fun _ _ _ => rfl⟩
  free := by decide
  awake h := by
    obtain ⟨e, he, -, hflag⟩ := h
    have hawake : ∀ e ∈ twoWaiting.sched.readyQueue, e.thread.has threadSuspended = false := by decide
    exact Bool.false_ne_true ((hawake e he).symm.trans hflag)
  outside := rfl
  idle := rfl

/-- A key is pressed. -/
def keyPress : Event := ⟨2#32, 0x1E#32⟩

theorem noLostWakeup_of_run_keyPress :
    ∃ t, Transition.Run (CarefulStep 0 1) twoWaiting [.dequeue, .setSuspended, .schedule, .enqueue keyPress, .unsuspend] t ∧
      t.NoLostWakeup 0 := by
  have hrun : ∃ t, Transition.Run (CarefulStep 0 1) twoWaiting
      [.dequeue, .setSuspended, .schedule, .enqueue keyPress, .unsuspend] t :=
    ⟨_, .cons ⟨trivial, rfl, rfl, _, _, rfl, rfl⟩ (.cons ⟨trivial, rfl, rfl, rfl⟩
      (.cons ⟨trivial, rfl, rfl, 1, _, rfl, rfl⟩ (.cons ⟨trivial, rfl, rfl, rfl⟩
        (.cons ⟨by unfold Careful; decide, rfl, rfl⟩ (.nil _)))))⟩
  obtain ⟨t, hrun⟩ := hrun
  exact ⟨t, hrun, noLostWakeup_of_run 0 1 start_twoWaiting hrun⟩

/-- The key is pressed after the thread has found no event and before it is suspended. -/
theorem not_noLostWakeup : ∃ t, Transition.Run (Step 0 1) twoWaiting
    [.dequeue, .enqueue keyPress, .unsuspend, .setSuspended] t ∧ ¬ t.NoLostWakeup 0 := by
  refine ⟨_, .cons ⟨rfl, rfl, _, _, rfl, rfl⟩ (.cons ⟨rfl, rfl, rfl⟩ (.cons ⟨rfl, rfl⟩
    (.cons ⟨rfl, rfl, rfl⟩ (.nil _)))), fun h => h rfl ⟨?_, ?_⟩⟩
  · exact ⟨⟨0, { Sched.threadWith 1#32 with state := 9#32 }⟩, List.mem_cons_self, rfl, rfl⟩
  · exact ⟨keyPress, List.mem_cons_self, by decide⟩

end Waiter

end Akos.Winsys
