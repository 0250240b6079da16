import Akos.Lib.Ring
import Akos.Lib.Transition

/-!
# The operation queue of the window system

`window_sys.c`: producers put operations into a ring of 20 slots and one listener takes them out. One lock
word guards the ring, and a producer that fills it keeps the lock for the listener. Every read or write of
a shared variable is a step of its own, so any interleaving of the two functions is a run.
-/

namespace Akos.Winsys

/-- `WINSYS_QUEUE_SIZE` -/
abbrev queueSize : Nat := 20

/-- Where a producer stands in `winsys_enqueue_to_winsys_listener`. -/
inductive ProducerPc (α : Type*)
  | outside
  | checking (operation : α)
  | acquiring (operation : α)
  | storing (operation : α)
  | advancing
  | counting
  | testing
  | releasing
  deriving DecidableEq

/-- Where the listener stands in the loop of `winsys_listener` and in
`winsys_dequeue_from_winsys_listener`. -/
inductive ListenerPc (α : Type*)
  | waiting
  | testing
  | acquiring
  | reading
  | advancing (op : α)
  | counting (op : α)
  | releasing (op : α)
  deriving DecidableEq

/-- Between taking the queue and giving it up. -/
def ProducerPc.inside {α : Type*} : ProducerPc α → Bool
  | .storing _ | .advancing | .counting | .testing | .releasing => true
  | .outside | .checking _ | .acquiring _ => false

def ListenerPc.inside {α : Type*} : ListenerPc α → Bool
  | .reading | .advancing _ | .counting _ | .releasing _ => true
  | .waiting | .testing | .acquiring => false

/-- The shared variables, where each party stands, and what went in and came out so far. -/
structure Queue (ι α : Type*) where
  slots : Nat → α
  index : Int
  start : Nat
  stop : Nat
  lock : Bool
  producers : ι → ProducerPc α
  listener : ListenerPc α
  enqueued : List α
  dequeued : List α

/-- A producer calls with an operation, or a party goes on by one step. -/
inductive Label (ι α : Type*)
  | call (p : ι) (operation : α) (inListenerProcess : Bool)
  | producer (p : ι)
  | listener

namespace Queue

variable {ι α : Type*} [DecidableEq ι]

/-- Producer `p` goes on at `pc`. -/
def goto (s : Queue ι α) (p : ι) (pc : ProducerPc α) : Queue ι α :=
  { s with producers := Function.update s.producers p pc }

/-- A step of `winsys_enqueue_to_winsys_listener`. A failed exchange of the lock word leaves it set. -/
def producerStep (s : Queue ι α) (p : ι) : Option (Queue ι α) :=
  match s.producers p with
  | .outside => none
  | .checking operation => some (if s.lock then s.goto p .outside else s.goto p (.acquiring operation))
  | .acquiring operation => some (if s.lock then s else { s.goto p (.storing operation) with lock := true })
  | .storing operation =>
    some { s.goto p .advancing with
      slots := Function.update s.slots s.stop operation
      enqueued := s.enqueued ++ [operation] }
  | .advancing => some { s.goto p .counting with stop := (s.stop + 1) % queueSize }
  | .counting => some { s.goto p .testing with index := s.index + 1 }
  | .testing => some (if s.index < queueSize then s.goto p .releasing else s.goto p .outside)
  | .releasing => some { s.goto p .outside with lock := false }

/-- A step of the listener. -/
def listenerStep (s : Queue ι α) : Queue ι α :=
  match s.listener with
  | .waiting => if s.index = 0 then s else { s with listener := .testing }
  | .testing => { s with listener := if s.index < queueSize then .acquiring else .reading }
  | .acquiring => if s.lock then s else { s with listener := .reading, lock := true }
  | .reading =>
    { s with listener := .advancing (s.slots s.start), dequeued := s.dequeued ++ [s.slots s.start] }
  | .advancing op => { s with listener := .counting op, start := (s.start + 1) % queueSize }
  | .counting op => { s with listener := .releasing op, index := s.index - 1 }
  | .releasing _ => { s with listener := .waiting, lock := false }

/-- A producer whose process is the listener's gives its operation up when the lock is set. -/
def apply (s : Queue ι α) : Label ι α → Option (Queue ι α)
  | .call p operation inListenerProcess =>
    match s.producers p with
    | .outside => some (s.goto p (if inListenerProcess then .checking operation else .acquiring operation))
    | _ => none
  | .producer p => s.producerStep p
  | .listener => some s.listenerStep

def Step (s : Queue ι α) (label : Label ι α) (t : Queue ι α) : Prop := s.apply label = some t

/-- After `winsys_init`: nobody inside, nothing queued. -/
def init (slots : Nat → α) : Queue ι α where
  slots := slots
  index := 0
  start := 0
  stop := 0
  lock := false
  producers _ := .outside
  listener := .waiting
  enqueued := []
  dequeued := []

/-! ### Moving one producer on -/

@[simp] theorem producers_goto_self (s : Queue ι α) (p : ι) (pc : ProducerPc α) :
    (s.goto p pc).producers p = pc := by
  simp only [goto, Function.update_self]

theorem producers_goto_of_ne (s : Queue ι α) {p q : ι} (pc : ProducerPc α) (h : q ≠ p) :
    (s.goto p pc).producers q = s.producers q := by
  simp only [goto, Function.update_of_ne h]

end Queue

end Akos.Winsys
