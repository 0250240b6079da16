import Akos.Sched.Scheduler

/-!
# Processes

`process.c`: creating a process or a thread, and the two ways a process is torn down. Page directories and
stacks come from the memory manager as arguments. A terminated process leaves its list at once, and its
threads are only flagged in the ready queue for the dispatcher to remove.
-/

namespace Akos

/-- `PRIORITY_HIGH` -/
def priorityHigh : BitVec 32 := 1#32

/-- `PRIORITY_MID` -/
def priorityMid : BitVec 32 := 2#32

/-- `PRIORITY_LOW` -/
def priorityLow : BitVec 32 := 3#32

/-- `SBRK_LIM` -/
def sbrkLim : BitVec 32 := 0x40000000#32

/-- `PROC_INVALID_ID` -/
def procInvalidId : Int := -1

/-- What the loader found in an executable. -/
structure ImageInfo where
  imageBase : BitVec 32
  imageSize : BitVec 32

namespace Sched

/-! ### The process list -/

/-- `getFreeID`: one above the largest id in the list. -/
def getFreeID (s : Sched) : Int :=
  s.processList.foldl (fun id p => if (s.processes p).id ≥ id then (s.processes p).id + 1 else id) 1

def getProcessByID (id : Int) (s : Sched) : Option Nat :=
  s.processList.find? fun p => (s.processes p).id = id

def insertProcess (p : Nat) (s : Sched) : Sched := { s with processList := s.processList ++ [p] }

def removeProcessFromList (id : Int) (s : Sched) : Sched :=
  { s with processList := s.processList.eraseP fun p => (s.processes p).id = id }

def insertThreadToProc (p : Nat) (t : ThreadBlock) (s : Sched) : Sched :=
  s.updateProcess p fun proc =>
    { proc with threadList := proc.threadList ++ [t], livingThreads := proc.livingThreads + 1 }

/-- `get_running_process`: the parent of the thread `_currentTask` points to. -/
def getRunningProcess (s : Sched) : Option Nat :=
  s.currentTask.bind fun block =>
    (s.readyQueue.find? fun e => e.block = block).map fun e => e.thread.parent

/-! ### Creating -/

/-- `thread_create`, with the fields its callers set right after. -/
def threadCreate (kernelESP initialStack priority : BitVec 32) (parent : Nat) (s : Sched) : Thread where
  kernelESP := kernelESP
  parent := parent
  priority := priority
  state := threadRun
  sleepTimeDelta := 0#32
  initialStack := initialStack
  tid := s.getFreeTid

/-- A new descriptor in the list. Its blocks carry the serial number of this call. -/
def registerProcess (proc : Process) (s : Sched) : Sched :=
  insertProcess s.fresh { s with
    processes := fun p => if p = s.fresh then proc else s.processes p
    fresh := s.fresh + 1 }

/-- The main thread joins the queue, then the thread list of its process. -/
def startThread (t : Thread) (block : Nat) (s : Sched) : Sched :=
  (s.queueInsert block t).insertThreadToProc t.parent ⟨block, t⟩

/-- A descriptor as the creating functions fill it in. -/
def newProcess (dir : BitVec 32) (image : ImageInfo) (isKernel : Bool) (s : Sched) : Process where
  pageDirectory := dir
  id := s.getFreeID
  imageBase := image.imageBase
  imageSize := image.imageSize
  fileDescs := []
  threadList := []
  livingThreads := 0
  isKernel := isKernel
  onTerminate := false
  name := some s.fresh

/-- `createKernelProcess`, with the directory of `create_address_space` and the stack of
`create_kernel_stack`. Scheduling is off meanwhile if a task runs. -/
def createKernelProcess (dir esp : BitVec 32) (s : Sched) : Sched :=
  let s' := s.registerProcess (s.newProcess dir ⟨0#32, 0#32⟩ true)
  let s' := if s.currentTask.isSome then s'.enableScheduling else s'
  s'.startThread (s.threadCreate esp esp priorityHigh s.fresh) s.fresh

/-- `createProcess`, with what the loader and the memory manager give it; an executable that does not load
costs an address space. -/
def createProcess (image : Option ImageInfo) (dir esp stack : BitVec 32) (s : Sched) : Sched :=
  match image with
  | none => ((s.call (.clearKernelSpace dir)).call (.freePdir dir)).enableScheduling
  | some image =>
    ((s.enableScheduling).registerProcess (s.newProcess dir image false)).startThread
      (s.threadCreate esp (stack + stackSize) priorityMid s.fresh) s.fresh

/-- `scheduler_initialize`: the kernel process with the idle thread, the launcher and the window system. -/
def schedulerInitialize (dir idleStack launcherDir launcherStack winsysDir winsysStack : BitVec 32)
    (s : Sched) : Sched :=
  let s := { s with readyQueue := [] }
  let s := (s.registerProcess (s.newProcess dir ⟨0#32, 0#32⟩ true)).startThread
    (s.threadCreate idleStack idleStack priorityLow s.fresh) s.fresh
  (s.createKernelProcess launcherDir launcherStack).createKernelProcess winsysDir winsysStack

/-- `fork`: a second thread of the process at the head of the queue. -/
def fork (esp stack : BitVec 32) (s : Sched) : Option Sched :=
  match s.readyQueue with
  | [] => none
  | parentTask :: _ =>
    let th := s.threadCreate esp (stack + stackSize) parentTask.thread.priority parentTask.thread.parent
    let s' := { s.disableScheduling with fresh := s.fresh + 1 }
    some ((s'.insertThreadToProc th.parent ⟨s.fresh, th⟩).queueInsertPrioritized s.fresh
      th).enableScheduling

/-- What `idle_task` does once: another thread of its own process. -/
def idleTask (esp : BitVec 32) (s : Sched) : Option Sched :=
  match s.readyQueue with
  | [] => none
  | current :: _ =>
    let s' := { s.enableScheduling with fresh := s.fresh + 1 }
    some (s'.startThread (s.threadCreate esp esp priorityLow current.thread.parent) s.fresh)

/-- `append_fd_to_process`, as far as it concerns the descriptor's block. -/
def appendFdToProcess (p : Nat) (s : Sched) : Sched :=
  { s with fresh := s.fresh + 1 }.updateProcess p fun proc =>
    { proc with fileDescs := proc.fileDescs ++ [s.fresh] }

/-! ### Tearing down -/

/-- The loop over the threads of a kernel process. -/
def releaseKernelThreads : List ThreadBlock → Sched → Sched
  | [], s => s
  | t :: ts, s => releaseKernelThreads ts ((s.removeByTid t.thread.tid).call (.kfree (.thread t.block)))

/-- The loop over the threads of a user process. -/
def releaseThreads (dir : BitVec 32) : List ThreadBlock → Sched → Sched
  | [], s => s
  | t :: ts, s =>
    releaseThreads dir ts (((s.call (.freeVirt dir (t.thread.initialStack - stackSize))).removeByTid
      t.thread.tid).call (.kfree (.thread t.block)))

/-- `kfree` of a name, if there is one. -/
def kfreeName (name : Option Nat) (s : Sched) : Sched :=
  match name with
  | none => s
  | some n => s.call (.kfree (.name n))

def terminateKernelProcessById (pid : Int) (s : Sched) : Sched :=
  match s.getProcessByID pid with
  | none => s
  | some p =>
    let proc := s.processes p
    let s := if proc.onTerminate then s.call .onTerminate else s
    let s := (s.call (.removeWindowsByPid proc.id)).removeProcessFromList proc.id
    let s := (s.disableScheduling.releaseKernelThreads proc.threadList).kfreeName proc.name
    (s.call (.kfree (.process p))).enableScheduling

/-- The size of the image in whole pages. -/
def imagePages (proc : Process) : BitVec 32 :=
  if proc.imageSize % stackSize ≠ 0#32 then
    proc.imageSize + (stackSize - proc.imageSize % stackSize)
  else proc.imageSize

/-- Image and heap of a process are unmapped page by page. -/
def freeImage (proc : Process) (s : Sched) : Sched :=
  let limit := proc.imageBase + imagePages proc
  (s.call (.freeVirtRange proc.pageDirectory proc.imageBase limit)).call
    (.freeVirtRange proc.pageDirectory limit (limit + sbrkLim))

/-- `volCloseFile` and `kfree` for every open file. -/
def closeFiles : List Nat → Sched → Sched
  | [], s => s
  | n :: ns, s => closeFiles ns ((s.call (.closeFile n)).call (.kfree (.fileDesc n)))

def terminateProcessById (pid : Int) (s : Sched) : Sched :=
  match s.getProcessByID pid with
  | none => s
  | some p =>
    let proc := s.processes p
    let s := (s.call (.removeWindowsByPid proc.id)).removeProcessFromList proc.id
    let s := (s.disableScheduling.freeImage proc).closeFiles proc.fileDescs
    (s.releaseThreads proc.pageDirectory proc.threadList).enableScheduling

/-- `terminateProcess`: the running process ends itself, the way its kind asks for. -/
def terminateProcess (s : Sched) : Sched :=
  match s.getRunningProcess with
  | none => s
  | some p =>
    let proc := s.processes p
    if proc.id = procInvalidId then s
    else if proc.isKernel then s.terminateKernelProcessById proc.id
    else s.terminateProcessById proc.id

end Sched

/-! ### The kernel between interrupts -/

/-- The state, and whether the processor is inside `scheduler_dispatch`. -/
structure Kernel where
  sched : Sched
  inDispatch : Bool

namespace Kernel

/-- What the kernel does next. -/
inductive Op
  | createKernelProcess (dir esp : BitVec 32)
  | createProcess (image : Option ImageInfo) (dir esp stack : BitVec 32)
  | fork (esp stack : BitVec 32)
  | idleTask (esp : BitVec 32)
  | appendFd
  | setOnTerminate
  | threadSleep (ms : BitVec 32)
  | threadWake
  | threadSuspend
  | threadUnsuspend
  | unsuspendSuspendedThreads (pid : Int)
  | terminateKernelProcessById (pid : Int)
  | terminateProcessById (pid : Int)
  | terminateProcess
  | switchPdirectory (dir : BitVec 32)
  | interrupt
  | dispatchTurn
  | adjustTimeDelta

/-- `schedule`: the interrupt returns at once when no task is current. -/
def schedule (s : Sched) : Kernel := ⟨s, s.currentTask.isSome⟩

/-- A return into the running thread. -/
def resume (s : Sched) : Kernel := ⟨s, false⟩

/-- A call by the running thread, which must be there. -/
def byCurrent (s : Sched) (k : Kernel) : Option Kernel := if s.currentTask.isSome then some k else none

/-- A call by the running process, which must be there. -/
def byProcess (s : Sched) (f : Nat → Sched) : Option Kernel := s.getRunningProcess.map fun p => resume (f p)

/-- A terminating function ends with `schedule` unless it found nothing to do. -/
def terminated (s t : Sched) (pid : Int) : Kernel :=
  if (s.getProcessByID pid).isSome then schedule t else resume t

/-- The operations outside the dispatcher. -/
def applyCall (s : Sched) : Op → Option Kernel
  | .createKernelProcess dir esp => some (resume (s.createKernelProcess dir esp))
  | .createProcess image dir esp stack => byCurrent s (resume (s.createProcess image dir esp stack))
  | .fork esp stack => (s.fork esp stack).map resume
  | .idleTask esp => (s.idleTask esp).map resume
  | .appendFd => byProcess s fun p => s.appendFdToProcess p
  | .setOnTerminate => byProcess s fun p =>
      s.updateProcess p fun proc => { proc with onTerminate := true }
  | .threadSleep ms => byCurrent s (schedule (s.threadSleep ms))
  | .threadWake => byCurrent s (resume s.threadWake)
  | .threadSuspend => byCurrent s (schedule s.threadSuspend)
  | .threadUnsuspend => byCurrent s (resume s.threadUnsuspend)
  | .unsuspendSuspendedThreads pid => some (resume (s.unsuspendSuspendedThreads (s.getProcessByID pid)))
  | .terminateKernelProcessById pid => some (terminated s (s.terminateKernelProcessById pid) pid)
  | .terminateProcessById pid => some (terminated s (s.terminateProcessById pid) pid)
  | .terminateProcess => s.getRunningProcess.map fun p => terminated s s.terminateProcess (s.processes p).id
  | .switchPdirectory dir => some (resume { s with directory := dir })
  | .interrupt => some (schedule s)
  | .adjustTimeDelta => some (resume s.adjustTimeDelta)
  | .dispatchTurn => none

/-- Inside the dispatcher interrupts are off and only its loop goes on. -/
def apply (k : Kernel) (op : Op) : Option Kernel :=
  if k.inDispatch then
    match op with
    | .dispatchTurn => k.sched.dispatchTurn.map fun r => ⟨r.2, r.1⟩
    | _ => none
  else applyCall k.sched op

def Step (k : Kernel) (op : Op) (k' : Kernel) : Prop := k.apply op = some k'

/-- Before `scheduler_initialize` there are no threads and no processes. -/
def empty (dir : BitVec 32) : Sched where
  readyQueue := []
  currentTask := none
  processes _ := ⟨0#32, 0, 0#32, 0#32, [], [], 0, false, false, none⟩
  processList := []
  directory := dir
  fresh := 0
  calls := []

/-- The kernel after `scheduler_initialize`. -/
def boot (dir idleStack launcherDir launcherStack winsysDir winsysStack : BitVec 32) : Kernel :=
  resume ((empty dir).schedulerInitialize dir idleStack launcherDir launcherStack winsysDir winsysStack)

end Kernel

end Akos
