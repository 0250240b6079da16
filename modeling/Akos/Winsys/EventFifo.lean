import Akos.Winsys.EventQueue
import Akos.Winsys.WindowList
import Mathlib.Data.List.Forall2

/-!
# The queue of a window

The slots of an event handler are a queue of ten places without a length: it is in front of the first free slot. The
kernel takes an event from the handler of a window that it has a pointer to, a process from the one of the window with
an id.
-/

namespace Akos.Winsys

/-! ### A queue that drops what it has no room for -/

namespace Fifo

variable {α : Type}

def push (capacity : Nat) (a : α) (q : List α) : List α := if q.length < capacity then q ++ [a] else q

def pop : List α → Option α × List α
  | [] => (none, [])
  | a :: q => (some a, q)

end Fifo

/-! ### Event handlers -/

/-- `EVENT_HANDLER_QUEUE_SIZE` -/
abbrev eventHandlerQueueSize : Nat := 10

/-- The values of `eventType` but for `EVENT_INVALID`: a key is pressed or released, the mouse moves or is clicked. -/
def eventTypes : List (BitVec 32) := [2#32, 4#32, 8#32, 16#32, 32#32]

/-- The slots of a new window: `kcalloc` clears them, and `winsys_create_win` and `winsys_create_win_user` mark them. -/
def createdEvents : Events :=
  (List.replicate eventHandlerQueueSize (⟨0#32, 0#32⟩ : Event)).map fun e => { e with eventType := eventInvalid }

/-- The windows and their event handlers, each at the address of its window. -/
structure EventWindows where
  windows : Windows
  handlers : BitVec 32 → Events

namespace EventWindows

def setHandler (s : EventWindows) (win : BitVec 32) (es : Events) : EventWindows :=
  { s with handlers := Function.update s.handlers win es }

def winsysEnqueueToEventHandler (s : EventWindows) (win : BitVec 32) (e : Event) : EventWindows :=
  s.setHandler win ((s.handlers win).enqueue e)

def winsysDequeueFromEventHandler (s : EventWindows) (win : BitVec 32) : Option (Event × EventWindows) :=
  (s.handlers win).dequeue.map fun taken => (taken.1, s.setHandler win taken.2)

/-- `winsys_dequeue_from_event_handler_user`: of the caller's window only the id is read. -/
def winsysDequeueFromEventHandlerUser (s : EventWindows) (wid : BitVec 32) : Option (Event × EventWindows) := do
  let win ← s.windows.winsysGetWindowById wid
  if win = 0#32 then none else s.winsysDequeueFromEventHandler win

/-- The calls on one window. -/
inductive Op
  | enqueue (e : Event)
  | dequeue
  | dequeueUser

/-- The events that the calls return, and the windows afterwards. -/
def run (win wid : BitVec 32) : List Op → EventWindows → Option (List Event × EventWindows)
  | [], s => some ([], s)
  | .enqueue e :: ops, s => run win wid ops (s.winsysEnqueueToEventHandler win e)
  | .dequeue :: ops, s => do
    let taken ← s.winsysDequeueFromEventHandler win
    let rest ← run win wid ops taken.2
    return (taken.1 :: rest.1, rest.2)
  | .dequeueUser :: ops, s => do
    let taken ← s.winsysDequeueFromEventHandlerUser wid
    let rest ← run win wid ops taken.2
    return (taken.1 :: rest.1, rest.2)

/-- The same calls on a queue. -/
def runFifo : List Op → List Event → List (Option Event) × List Event
  | [], q => ([], q)
  | .enqueue e :: ops, q => runFifo ops (Fifo.push eventHandlerQueueSize e q)
  | _ :: ops, q => ((Fifo.pop q).1 :: (runFifo ops (Fifo.pop q).2).1, (runFifo ops (Fifo.pop q).2).2)

end EventWindows

/-- The event is the one from the queue, or an invalid one when there is none. -/
def Event.Returned (e : Event) : Option Event → Prop
  | some first => e = first
  | none => e.eventType = eventInvalid

namespace Events

/-- The queue is in the first slots, and the others are free. -/
structure Holds (es : Events) (q : List Event) : Prop where
  length : es.length = eventHandlerQueueSize
  slots : ∃ free, es = q ++ free ∧ ∀ e ∈ free, e.eventType = eventInvalid
  valid : ∀ e ∈ q, e.isInvalid = false

variable {es : Events} {q : List Event} {e : Event}

theorem isInvalid_of_mem_eventTypes (h : e.eventType ∈ eventTypes) : e.isInvalid = false := by
  have hall : eventTypes.all (fun t => t &&& eventInvalid = 0#32) = true := by decide
  simpa [Event.isInvalid] using List.all_eq_true.mp hall e.eventType h

theorem holds_createdEvents : Holds createdEvents [] where
  length := rfl
  slots := ⟨createdEvents, (List.nil_append _).symm, by decide⟩
  valid := fun _ he => absurd he List.not_mem_nil

theorem Holds.enqueue (h : Holds es q) (he : e.isInvalid = false) :
    Holds (es.enqueue e) (Fifo.push eventHandlerQueueSize e q) := by
  obtain ⟨hlength, ⟨free, rfl, hfree⟩, hvalid⟩ := h
  rw [List.length_append] at hlength
  rw [enqueue_append hvalid, Fifo.push]
  cases free with
  | nil =>
    rw [List.length_nil, Nat.add_zero] at hlength
    rw [if_neg (Nat.not_lt.mpr hlength.ge), Events.enqueue, List.append_nil]
    exact ⟨hlength, ⟨[], (List.append_nil q).symm, hfree⟩, hvalid⟩
  | cons slot free =>
    have hslot := Event.isInvalid_of_eq (hfree slot List.mem_cons_self)
    rw [List.length_cons] at hlength
    rw [if_pos (Nat.lt_of_lt_of_eq (Nat.lt_add_of_pos_right (Nat.succ_pos _)) hlength), Events.enqueue,
      if_pos hslot]
    refine ⟨?_, ⟨free, (List.append_assoc q [e] free).symm, fun e' he' => hfree e' (List.mem_cons_of_mem slot he')⟩,
      ?_⟩
    · rw [List.length_append, List.length_cons, hlength]
    · intro e' he'
      obtain he' | he' := List.mem_append.mp he'
      · exact hvalid e' he'
      · exact List.mem_singleton.mp he' ▸ he

/-- Behind the first slot are the rest of the queue and free slots. -/
theorem Holds.tail {first : Event} (h : Holds (first :: es) q) : first.Returned (Fifo.pop q).1 ∧
    ∃ free, es = (Fifo.pop q).2 ++ free ∧ ∀ e ∈ free, e.eventType = eventInvalid := by
  obtain ⟨-, ⟨free, hslots, hfree⟩, -⟩ := h
  cases q with
  | nil =>
    have hslots : first :: es = free := hslots
    subst hslots
    exact ⟨hfree first List.mem_cons_self, es, rfl, fun e he => hfree e (List.mem_cons_of_mem first he)⟩
  | cons e q =>
    obtain ⟨rfl, hes⟩ := List.cons.inj hslots
    exact ⟨rfl, free, hes, hfree⟩

theorem Holds.dequeue (h : Holds es q) : ∃ first rest, es.dequeue = some (first, rest) ∧
    first.Returned (Fifo.pop q).1 ∧ Holds rest (Fifo.pop q).2 := by
  cases es with
  | nil => cases h.length
  | cons first es =>
    obtain ⟨hreturned, free, hes, hfree⟩ := h.tail
    obtain ⟨marked, hmarked, hdequeue⟩ : ∃ marked : Event, marked.eventType = eventInvalid ∧
        Events.dequeue (first :: es) = some (first, es ++ [marked]) := ⟨_, rfl, rfl⟩
    refine ⟨first, es ++ [marked], hdequeue, hreturned, ?_, ⟨free ++ [marked], ?_, ?_⟩, ?_⟩
    · rw [List.length_append]
      exact h.length
    · rw [hes, List.append_assoc]
    · intro e he
      obtain he | he := List.mem_append.mp he
      · exact hfree e he
      · exact List.mem_singleton.mp he ▸ hmarked
    · cases q with
      | nil => exact h.valid
      | cons e q => exact fun e' he' => h.valid e' (List.mem_cons_of_mem e he')

end Events

/-! ### Runs -/

namespace EventWindows

variable {s : EventWindows} {l : List (BitVec 32 × Window)} {win : BitVec 32} {w : Window} {q : List Event}
  {ops : List Op}

/-- Both dequeues take the same event from the same handler. -/
theorem dequeueUser_eq (hlisted : s.windows.Listed l) (hmem : (win, w) ∈ l) :
    s.winsysDequeueFromEventHandlerUser w.id = s.winsysDequeueFromEventHandler win := by
  have hne : win ≠ 0#32 := hlisted.chain.ne_zero (List.mem_map_of_mem hmem)
  rw [winsysDequeueFromEventHandlerUser, hlisted.getWindowById_of_mem hmem]
  exact if_neg hne

theorem handlers_setHandler (s : EventWindows) (win : BitVec 32) (es : Events) :
    (s.setHandler win es).handlers win = es := by
  simp [setHandler]

theorem dequeue_holds (h : (s.handlers win).Holds q) : ∃ first t,
    s.winsysDequeueFromEventHandler win = some (first, t) ∧ first.Returned (Fifo.pop q).1 ∧
    t.windows = s.windows ∧ (t.handlers win).Holds (Fifo.pop q).2 := by
  obtain ⟨first, rest, hdequeue, hreturned, hholds⟩ := h.dequeue
  refine ⟨first, s.setHandler win rest, ?_, hreturned, rfl, ?_⟩
  · rw [winsysDequeueFromEventHandler, hdequeue]
    rfl
  · rwa [handlers_setHandler]

theorem run_holds (hlisted : s.windows.Listed l) (hmem : (win, w) ∈ l) (h : (s.handlers win).Holds q)
    (hvalid : ∀ e, .enqueue e ∈ ops → e.isInvalid = false) : ∃ events t, run win w.id ops s = some (events, t) ∧
      List.Forall₂ Event.Returned events (runFifo ops q).1 ∧ (t.handlers win).Holds (runFifo ops q).2 := by
  induction ops generalizing s q with
  | nil => exact ⟨[], s, rfl, .nil, h⟩
  | cons op ops ih =>
    have hrest : ∀ e, .enqueue e ∈ ops → e.isInvalid = false := fun e he => hvalid e (List.mem_cons_of_mem op he)
    cases op with
    | enqueue e =>
      have hpushed : ((s.winsysEnqueueToEventHandler win e).handlers win).Holds
          (Fifo.push eventHandlerQueueSize e q) := by
        rw [winsysEnqueueToEventHandler, handlers_setHandler]
        exact h.enqueue (hvalid e List.mem_cons_self)
      exact ih hlisted hpushed hrest
    | dequeue =>
      obtain ⟨first, t, hdequeue, hreturned, hwindows, hholds⟩ := dequeue_holds h
      obtain ⟨events, u, hrun, hall, hend⟩ := ih (hwindows ▸ hlisted) hholds hrest
      refine ⟨first :: events, u, ?_, .cons hreturned hall, hend⟩
      rw [run, hdequeue]
      exact congrArg (Option.bind · _) hrun
    | dequeueUser =>
      obtain ⟨first, t, hdequeue, hreturned, hwindows, hholds⟩ := dequeue_holds h
      obtain ⟨events, u, hrun, hall, hend⟩ := ih (hwindows ▸ hlisted) hholds hrest
      refine ⟨first :: events, u, ?_, .cons hreturned hall, hend⟩
      rw [run, dequeueUser_eq hlisted hmem, hdequeue]
      exact congrArg (Option.bind · _) hrun

/-- From a new window on the calls return what a queue of ten places returns. -/
theorem run_createdEvents (hlisted : s.windows.Listed l) (hmem : (win, w) ∈ l)
    (hcreated : s.handlers win = createdEvents) (ops : List Op) (hvalid : ∀ e, .enqueue e ∈ ops → e.isInvalid = false) :
    ∃ events t, run win w.id ops s = some (events, t) ∧
      List.Forall₂ Event.Returned events (runFifo ops []).1 ∧ (t.handlers win).Holds (runFifo ops []).2 :=
  run_holds hlisted hmem (hcreated ▸ Events.holds_createdEvents) hvalid

/-- The top bar as a new window. -/
def newTopBar : EventWindows := ⟨Windows.topBarOnly, fun _ => createdEvents⟩

/-- A key is pressed, and two dequeues follow. -/
theorem run_createdEvents_topBar : ∃ events t,
    run 0x1000#32 Windows.topBarWindow.id [.enqueue ⟨2#32, 30#32⟩, .dequeueUser, .dequeue] newTopBar =
      some (events, t) ∧
      List.Forall₂ Event.Returned events (runFifo [.enqueue ⟨2#32, 30#32⟩, .dequeueUser, .dequeue] []).1 ∧
      (t.handlers 0x1000#32).Holds (runFifo [.enqueue ⟨2#32, 30#32⟩, .dequeueUser, .dequeue] []).2 :=
  run_createdEvents Windows.represents_topBarOnly.toListed (List.mem_singleton_self _) rfl
    [.enqueue ⟨2#32, 30#32⟩, .dequeueUser, .dequeue] fun e he => by
      obtain rfl : e = ⟨2#32, 30#32⟩ := by simpa using he
      decide

end EventWindows

end Akos.Winsys
