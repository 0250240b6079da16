import Mathlib.Algebra.Ring.Nat
import Akos.Lib.Rotation
import Mathlib.Data.BitVec

/-!
# The ready queue and the dispatcher

`scheduler.c`: the queue of copies of threads, the operations on it, and the loop that chooses the next
task. A block of the kernel heap is named by the serial number of the call that allocated it and its kind,
so a freed block is never mistaken for a later one at its address. What the code asks of the memory manager
and of the windows is recorded in the order of the calls.
-/

namespace Akos

/-- `THREAD_RUN` -/
def threadRun : BitVec 32 := 1#32

/-- `THREAD_BLOCK_SLEEP` -/
def threadBlockSleep : BitVec 32 := 2#32

/-- `THREAD_TERMINATE` -/
def threadTerminate : BitVec 32 := 4#32

/-- `THREAD_SUSPENDED` -/
def threadSuspended : BitVec 32 := 8#32

/-- `PAGE_SIZE` -/
def stackSize : BitVec 32 := 4096#32

/-- A thread, with the serial number of its parent's descriptor for the pointer to it. -/
structure Thread where
  kernelESP : BitVec 32
  parent : Nat
  priority : BitVec 32
  state : BitVec 32
  sleepTimeDelta : BitVec 32
  initialStack : BitVec 32
  tid : Int
  deriving DecidableEq

namespace Thread

def threadSetState (t : Thread) (flags : BitVec 32) : Thread := { t with state := t.state ||| flags }

def threadRemoveState (t : Thread) (flags : BitVec 32) : Thread :=
  { t with state := t.state &&& ~~~flags }

/-- One of the flags is set. -/
def has (t : Thread) (flags : BitVec 32) : Bool := t.state &&& flags != 0#32

/-- None of the flags that keep the dispatcher from a thread is set. -/
def Runnable (t : Thread) : Prop :=
  t.has threadTerminate = false ∧ t.has threadBlockSleep = false ∧ t.has threadSuspended = false

instance (t : Thread) : Decidable t.Runnable := inferInstanceAs (Decidable (_ ∧ _ ∧ _))

end Thread

/-- An entry of the ready queue: a block with a copy of a thread. -/
structure QueueEntry where
  block : Nat
  thread : Thread
  deriving DecidableEq

/-- A thread of a process's own list, in its block. -/
structure ThreadBlock where
  block : Nat
  thread : Thread
  deriving DecidableEq

/-- A process descriptor. Of the files it has open only the blocks of their descriptors matter here. -/
structure Process where
  pageDirectory : BitVec 32
  id : Int
  imageBase : BitVec 32
  imageSize : BitVec 32
  fileDescs : List Nat
  threadList : List ThreadBlock
  livingThreads : Nat
  isKernel : Bool
  onTerminate : Bool
  name : Option Nat

/-- A block of the kernel heap, by its kind and the call that allocated it. -/
inductive Block
  | process (n : Nat)
  | name (n : Nat)
  | thread (n : Nat)
  | queueEntry (n : Nat)
  | fileDesc (n : Nat)
  deriving DecidableEq

/-- A call into another part of the kernel. -/
inductive Call
  | kfree (b : Block)
  | freeVirt (dir virt : BitVec 32)
  | freeVirtRange (dir first limit : BitVec 32)
  | clearKernelSpace (dir : BitVec 32)
  | freePdir (dir : BitVec 32)
  | closeFile (n : Nat)
  | removeWindowsByPid (id : Int)
  | onTerminate
  deriving DecidableEq

/-- The variables of `scheduler.c` and `process.c`, the descriptors, the loaded page directory, the next
serial number and the calls made so far. -/
structure Sched where
  readyQueue : List QueueEntry
  currentTask : Option Nat
  processes : Nat → Process
  processList : List Nat
  directory : BitVec 32
  fresh : Nat
  calls : List Call

namespace Sched

/-- `queue_get`: the thread at the head. -/
def queueGet (s : Sched) : Option Nat := s.readyQueue.head?.map QueueEntry.block

def disableScheduling (s : Sched) : Sched := { s with currentTask := none }

def enableScheduling (s : Sched) : Sched := { s with currentTask := s.queueGet }

/-- A change of the queue with scheduling off if it was on. -/
def withSchedulingOff (f : List QueueEntry → List QueueEntry) (s : Sched) : Sched :=
  if s.currentTask.isSome then enableScheduling { disableScheduling s with readyQueue := f s.readyQueue }
  else { s with readyQueue := f s.readyQueue }

/-- The first entry with this thread id is changed. -/
def updateByTid (tid : Int) (f : Thread → Thread) : List QueueEntry → List QueueEntry
  | [] => []
  | e :: q =>
    if e.thread.tid = tid then { e with thread := f e.thread } :: q else e :: updateByTid tid f q

def threadSetStateById (tid : Int) (flags : BitVec 32) (s : Sched) : Sched :=
  s.withSchedulingOff (updateByTid tid (·.threadSetState flags))

def removeByTid (tid : Int) (s : Sched) : Sched := s.threadSetStateById tid threadTerminate

/-- The thread `_currentTask` points to is changed. -/
def updateCurrent (f : Thread → Thread) (s : Sched) : Sched :=
  { s with readyQueue := s.readyQueue.map fun e =>
      if s.currentTask = some e.block then { e with thread := f e.thread } else e }

/-- `thread_sleep` up to its call of `schedule`; a tick of the timer is 10 ms. -/
def threadSleep (ms : BitVec 32) (s : Sched) : Sched :=
  s.updateCurrent fun t => { t.threadSetState threadBlockSleep with sleepTimeDelta := ms / 10#32 }

def threadWake (s : Sched) : Sched :=
  s.updateCurrent fun t => { t.threadRemoveState threadBlockSleep with sleepTimeDelta := 0#32 }

/-- `thread_suspend` up to its call of `schedule`. -/
def threadSuspend (s : Sched) : Sched := s.updateCurrent (·.threadSetState threadSuspended)

def threadUnsuspend (s : Sched) : Sched := s.updateCurrent (·.threadRemoveState threadSuspended)

def unsuspendSuspendedThreads (proc : Option Nat) (s : Sched) : Sched :=
  match proc with
  | none => s
  | some p => s.withSchedulingOff fun q => q.map fun e =>
    if (s.processes e.thread.parent).id = (s.processes p).id then
      { e with thread := e.thread.threadRemoveState threadSuspended }
    else e

/-! ### The queue -/

/-- The order of the queue. -/
def priorityOf (e : QueueEntry) : Nat := e.thread.priority.toNat

def queueInsert (block : Nat) (t : Thread) (s : Sched) : Sched :=
  s.withSchedulingOff (· ++ [⟨block, t⟩])

def queueInsertPrioritizedQueueEntry (new : QueueEntry) (s : Sched) : Sched :=
  { s with readyQueue := Rotation.insertAfter priorityOf new s.readyQueue }

def queueInsertPrioritized (block : Nat) (t : Thread) (s : Sched) : Sched :=
  s.queueInsertPrioritizedQueueEntry ⟨block, t⟩

/-- `queue_remove`; of an empty queue it returns a pointer that was never set. -/
def queueRemove (s : Sched) : Option (QueueEntry × Sched) :=
  match s.readyQueue with
  | [] => none
  | e :: q => some (e, { s with readyQueue := q })

/-- Record a call. -/
def call (c : Call) (s : Sched) : Sched := { s with calls := s.calls ++ [c] }

def queueDeleteFirst (s : Sched) : Sched :=
  match s.readyQueue with
  | [] => s
  | e :: q => call (.kfree (.queueEntry e.block)) { s with readyQueue := q }

/-- `get_free_tid`: one above the largest thread id in the queue. -/
def getFreeTid (s : Sched) : Int :=
  s.readyQueue.foldl (fun id e => if e.thread.tid ≥ id then e.thread.tid + 1 else id) 1

/-! ### The dispatcher -/

def updateProcess (p : Nat) (f : Process → Process) (s : Sched) : Sched :=
  { s with processes := fun q => if q = p then f (s.processes q) else s.processes q }

/-- `livingThreads--`. A process has at most a thread for each page of its address space, so only the way
down can wrap. -/
def decrement (n : Nat) : Nat := if n = 0 then 2 ^ 32 - 1 else n - 1

/-- The kernel stack of a dead thread is unmapped and the thread no longer counted. -/
def releaseStack (t : Thread) (s : Sched) : Sched :=
  if t.kernelESP = 0#32 then s
  else
    (s.call (.freeVirt (s.processes t.parent).pageDirectory (t.kernelESP - stackSize))).updateProcess
      t.parent fun p => { p with livingThreads := decrement p.livingThreads }

/-- The frees of a process that counts no thread any more. -/
def releaseCalls (p : Nat) (proc : Process) : List Call :=
  [.clearKernelSpace proc.pageDirectory, .freePdir proc.pageDirectory] ++
    (proc.name.map fun n => Call.kfree (.name n)).toList ++ [.kfree (.process p)]

def releaseProcess (p : Nat) (s : Sched) : Sched :=
  if (s.processes p).livingThreads = 0 then
    { s with calls := s.calls ++ releaseCalls p (s.processes p) }
  else s

/-- The body of the loop of `scheduler_dispatch`: the value of its condition and the state. -/
def dispatchTurn (s : Sched) : Option (Bool × Sched) :=
  match s.queueRemove with
  | none => none
  | some (tmp, s) =>
    let s := (s.queueInsertPrioritizedQueueEntry tmp).enableScheduling
    match s.readyQueue with
    | [] => none
    | current :: _ =>
      if current.thread.has threadTerminate then
        if s.directory = (s.processes current.thread.parent).pageDirectory then some (true, s)
        else
          some (true, ((s.releaseStack current.thread).releaseProcess
            current.thread.parent).queueDeleteFirst)
      else
        some (current.thread.has threadBlockSleep || current.thread.has threadSuspended, s)

/-- `scheduler_dispatch`, with a bound on the turns of its loop. -/
def schedulerDispatch : Nat → Sched → Option Sched
  | 0, _ => none
  | n + 1, s =>
    match s.dispatchTurn with
    | none => none
    | some (true, s) => schedulerDispatch n s
    | some (false, s) => some s

/-- A tick of a sleeping thread; the last one wakes it. -/
def tickThread (t : Thread) : Thread :=
  if 0#32 < t.sleepTimeDelta then
    if t.sleepTimeDelta - 1#32 = 0#32 then
      { t.threadRemoveState threadBlockSleep with sleepTimeDelta := 0#32 }
    else { t with sleepTimeDelta := t.sleepTimeDelta - 1#32 }
  else t

/-- The loop of `scheduler_tick`. -/
def adjustTimeDelta (s : Sched) : Sched :=
  { s with readyQueue := s.readyQueue.map fun e => { e with thread := tickThread e.thread } }

def schedulerTick (turns : Nat) (s : Sched) : Option Sched :=
  (s.schedulerDispatch turns).map adjustTimeDelta

end Sched

end Akos
