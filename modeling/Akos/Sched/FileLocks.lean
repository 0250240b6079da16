import Akos.Sched.TeardownRuns

/-!
# The spinlocks of the file functions and dead threads

`volOpenFile`, `volReadFile` and `volWriteFile` each hold a spinlock while the file system works. A termination flags
threads wherever they stand, and a flagged thread never runs again, so it gives back no lock.
-/

namespace Akos

/-- `vfs_open_spinlock`, `vfs_read_spinlock` and `vfs_write_spinlock` -/
inductive VfsLock
  | vfsOpenSpinlock
  | vfsReadSpinlock
  | vfsWriteSpinlock
  deriving DecidableEq

/-- Where a thread stands in one of the three functions. -/
inductive FilePc
  | outside
  /-- In the loop of `acquireLock`. -/
  | acquiring (lock : VfsLock)
  /-- Between `acquireLock` and `releaseLock`. -/
  | holding (lock : VfsLock)
  deriving DecidableEq

/-- The kernel, the lock variables, and where each thread stands, by the block of its queue entry. -/
structure FileKernel where
  kernel : Kernel
  taken : VfsLock → Bool
  pc : Nat → FilePc

/-- What happens next: an operation of the kernel, or a step of the thread that runs. -/
inductive FileOp
  | kernel (op : Kernel.Op)
  | call (lock : VfsLock)
  | tryAcquire
  | work
  | releaseLock

namespace FileOp

abbrev volOpenFile : FileOp := .call .vfsOpenSpinlock

abbrev volReadFile : FileOp := .call .vfsReadSpinlock

abbrev volWriteFile : FileOp := .call .vfsWriteSpinlock

end FileOp

namespace FileKernel

open Kernel (Op)

/-- The thread that runs. -/
def running (s : FileKernel) : Option Nat := if s.kernel.inDispatch then none else s.kernel.sched.currentTask

def moveTo (block : Nat) (pc : FilePc) (s : FileKernel) : FileKernel :=
  { s with pc := Function.update s.pc block pc }

def setLock (lock : VfsLock) (value : Bool) (s : FileKernel) : FileKernel :=
  { s with taken := Function.update s.taken lock value }

/-- One turn of `acquireLock`: `xchg` stores 1 and gives what was there. -/
def xchg (block : Nat) (lock : VfsLock) (s : FileKernel) : FileKernel :=
  if s.taken lock then s.setLock lock true else (s.setLock lock true).moveTo block (.holding lock)

/-- A step of the thread `block`. -/
def applyFile (s : FileKernel) (block : Nat) : FileOp → Option FileKernel
  | .kernel _ => none
  | .call lock => if s.pc block = .outside then some (s.moveTo block (.acquiring lock)) else none
  | .tryAcquire =>
    match s.pc block with
    | .acquiring lock => some (s.xchg block lock)
    | _ => none
  | .work =>
    match s.pc block with
    | .holding _ => some s
    | _ => none
  | .releaseLock =>
    match s.pc block with
    | .holding lock => some ((s.setLock lock false).moveTo block .outside)
    | _ => none

def apply (s : FileKernel) : FileOp → Option FileKernel
  | .kernel op => (s.kernel.apply op).map fun kernel => { s with kernel }
  | op => s.running.bind fun block => s.applyFile block op

/-- No thread that holds a lock has the id of a thread of the process. -/
def Spares (s : FileKernel) (pid : Int) : Prop :=
  ∀ p, s.kernel.sched.getProcessByID pid = some p → ∀ e ∈ s.kernel.sched.readyQueue,
    ∀ lock, s.pc e.block = .holding lock → e.thread.tid ∉ (s.kernel.sched.processes p).tids

/-- A termination is not of a process with a thread that holds a lock. -/
def Meets (s : FileKernel) : FileOp → Prop
  | .kernel (.terminateKernelProcessById pid) => s.Spares pid
  | .kernel (.terminateProcessById pid) => s.Spares pid
  | .kernel .terminateProcess =>
    ∀ p, s.kernel.sched.getRunningProcess = some p → s.Spares (s.kernel.sched.processes p).id
  | _ => True

def Called (s : FileKernel) (op : FileOp) (t : FileKernel) : Prop := s.apply op = some t

def Step (s : FileKernel) (op : FileOp) (t : FileKernel) : Prop := s.Meets op ∧ s.Called op t

/-- A lock that is taken is held by a thread in the queue without the terminate flag. -/
def LocksHeld (s : FileKernel) : Prop :=
  ∀ lock, s.taken lock = true → ∃ e ∈ s.kernel.sched.readyQueue, s.pc e.block = .holding lock ∧
    e.thread.has threadTerminate = false

/-- After boot no lock is taken, and no thread is inside. -/
def Started (s : FileKernel) : Prop :=
  (∃ dir idleStack launcherDir launcherStack winsysDir winsysStack,
    s.kernel = Kernel.boot dir idleStack launcherDir launcherStack winsysDir winsysStack) ∧
    (∀ lock, s.taken lock = false) ∧ ∀ block, s.pc block = .outside

end FileKernel

/-! ### Live threads -/

/-- A thread without the terminate flag. -/
def QueueEntry.Lives (e : QueueEntry) : Prop := e.thread.has threadTerminate = false

namespace Sched

variable {s t u : Sched} {tids is js : List Int}

/-- Live threads whose ids are not among these are in the queue after as before. -/
def Carries (s t : Sched) (tids : List Int) : Prop :=
  ∀ e ∈ s.readyQueue, e.Lives → e.thread.tid ∉ tids →
    ∃ e' ∈ t.readyQueue, e'.block = e.block ∧ e'.thread.tid = e.thread.tid ∧ e'.Lives

/-- The thread at the head lives, and no other one is current. -/
structure Headed (s : Sched) : Prop where
  lives : ∀ e, s.readyQueue.head? = some e → e.Lives
  current : s.currentTask = none ∨ s.currentTask = s.queueGet

theorem Carries.of_subset (h : ∀ e ∈ s.readyQueue, e ∈ t.readyQueue) : Carries s t [] :=
  fun e he hlives _ => ⟨e, h e he, rfl, rfl, hlives⟩

theorem Carries.of_queue (h : t.readyQueue = s.readyQueue) : Carries s t [] :=
  .of_subset fun _ he => h.symm ▸ he

theorem Carries.trans (h : Carries s t is) (h' : Carries t u js) : Carries s u (is ++ js) := by
  intro e he hlives htid
  rw [List.mem_append, not_or] at htid
  obtain ⟨e₁, he₁, hblock₁, htid₁, hlives₁⟩ := h e he hlives htid.1
  obtain ⟨e₂, he₂, hblock₂, htid₂, hlives₂⟩ := h' e₁ he₁ hlives₁ (htid₁ ▸ htid.2)
  exact ⟨e₂, he₂, hblock₂.trans hblock₁, htid₂.trans htid₁, hlives₂⟩

theorem Carries.requeue (h : Carries s t is) (hqueue : u.readyQueue = t.readyQueue) : Carries s u is :=
  fun e he hlives htid => hqueue ▸ h e he hlives htid

/-! ### Changes without a termination -/

/-- No live thread is lost, and the head goes on living. -/
structure Goes (s t : Sched) : Prop where
  carries : Carries s t []
  headed : Headed s → Headed t

theorem Goes.refl (s : Sched) : Goes s s := ⟨.of_queue rfl, id⟩

theorem Goes.trans (h : Goes s t) (h' : Goes t u) : Goes s u := ⟨h.carries.trans h'.carries, h'.headed ∘ h.headed⟩

/-- Other flags change, and scheduling may come on. -/
theorem goes_of_map {g : QueueEntry → QueueEntry}
    (hg : ∀ e, (g e).block = e.block ∧ (g e).thread.tid = e.thread.tid ∧
      (g e).thread.has threadTerminate = e.thread.has threadTerminate)
    (hqueue : t.readyQueue = s.readyQueue.map g)
    (hcurrent : t.currentTask = s.currentTask ∨ t.currentTask = t.queueGet) : Goes s t where
  carries e he hlives _ :=
    ⟨g e, hqueue ▸ List.mem_map_of_mem he, (hg e).1, (hg e).2.1, (hg e).2.2.trans hlives⟩
  headed h := by
    refine ⟨fun e he => ?_, ?_⟩
    · rw [hqueue, List.head?_map] at he
      obtain ⟨e', he', rfl⟩ := Option.map_eq_some_iff.mp he
      exact (hg e').2.2.trans (h.lives e' he')
    · obtain hcurrent | hcurrent := hcurrent
      · have hblock : t.queueGet = s.queueGet := by
          rw [queueGet, queueGet, hqueue, List.head?_map, Option.map_map]
          exact congrArg (Option.map · _) (funext fun e => (hg e).1)
        rw [hcurrent, hblock]
        exact h.current
      · exact .inr hcurrent

theorem goes_of_queue (hqueue : t.readyQueue = s.readyQueue)
    (hcurrent : t.currentTask = s.currentTask ∨ t.currentTask = t.queueGet) : Goes s t :=
  goes_of_map (fun _ => ⟨rfl, rfl, rfl⟩) (hqueue.trans (List.map_id _).symm) hcurrent

/-- A live thread joins behind the head. -/
theorem goes_of_head {e : QueueEntry} (he : e.Lives) (hsubset : ∀ e' ∈ s.readyQueue, e' ∈ t.readyQueue)
    (hhead : t.readyQueue.head? = some (s.readyQueue.head?.getD e))
    (hcurrent : t.currentTask = s.currentTask ∨ t.currentTask = t.queueGet) : Goes s t where
  carries := .of_subset hsubset
  headed h := by
    refine ⟨fun e' he' => ?_, ?_⟩
    · rw [hhead] at he'
      obtain rfl := Option.some.inj he'
      cases hold : s.readyQueue.head? with
      | none => exact he
      | some e' => exact h.lives e' hold
    · obtain hcurrent | hcurrent := hcurrent
      · rw [hcurrent, queueGet, hhead]
        obtain hnone | hsome := h.current
        · exact .inl hnone
        · rw [hsome, queueGet]
          cases s.readyQueue.head? with
          | none => exact .inl rfl
          | some e' => exact .inr rfl
      · exact .inr hcurrent

theorem currentTask_withSchedulingOff (s : Sched) (f : List QueueEntry → List QueueEntry) :
    (s.withSchedulingOff f).currentTask = s.currentTask ∨
      (s.withSchedulingOff f).currentTask = (s.withSchedulingOff f).queueGet := by
  rw [withSchedulingOff]
  split
  · exact .inr rfl
  · exact .inl rfl

theorem goes_startThread {th : Thread} (hth : th.has threadTerminate = false) (block : Nat) (s : Sched) :
    Goes s (s.startThread th block) := by
  have hqueue : (s.startThread th block).readyQueue = s.readyQueue ++ [⟨block, th⟩] :=
    readyQueue_withSchedulingOff (fun q => q ++ [(⟨block, th⟩ : QueueEntry)]) s
  refine goes_of_head (e := ⟨block, th⟩) hth (fun e he => ?_) ?_ (s.currentTask_withSchedulingOff _)
  · rw [hqueue]
    exact List.mem_append_left _ he
  · rw [hqueue]
    cases s.readyQueue <;> rfl

theorem lives_threadCreate (s : Sched) (kernelESP initialStack priority : BitVec 32) (parent : Nat) :
    (s.threadCreate kernelESP initialStack priority parent).has threadTerminate = false := by
  show (threadRun &&& threadTerminate != 0#32) = false
  decide

theorem goes_enableScheduling (s : Sched) : Goes s s.enableScheduling := goes_of_queue rfl (.inr rfl)

theorem goes_createKernelProcess (s : Sched) (dir esp : BitVec 32) : Goes s (s.createKernelProcess dir esp) := by
  have hregister : Goes s (s.registerProcess (s.newProcess dir ⟨0#32, 0#32⟩ true)) := goes_of_queue rfl (.inl rfl)
  rw [Sched.createKernelProcess]
  refine (hregister.trans ?_).trans (goes_startThread (lives_threadCreate ..) _ _)
  split
  · exact goes_enableScheduling _
  · exact .refl _

theorem goes_createProcess (s : Sched) (image : Option ImageInfo) (dir esp stack : BitVec 32) :
    Goes s (s.createProcess image dir esp stack) := by
  cases image with
  | none => exact goes_of_queue rfl (.inr rfl)
  | some image =>
    have hregister : Goes s (s.enableScheduling.registerProcess (s.newProcess dir image false)) :=
      goes_of_queue rfl (.inr rfl)
    exact hregister.trans (goes_startThread (lives_threadCreate ..) _ _)

theorem goes_idleTask {esp : BitVec 32} (h : s.idleTask esp = some t) : Goes s t := by
  rw [Sched.idleTask] at h
  cases hq : s.readyQueue with
  | nil =>
    rw [hq] at h
    cases h
  | cons e q =>
    rw [hq] at h
    obtain rfl := Option.some.inj h
    have hfresh : Goes s { s.enableScheduling with fresh := s.fresh + 1 } := goes_of_queue rfl (.inr rfl)
    exact hfresh.trans (goes_startThread (lives_threadCreate ..) _ _)

theorem goes_fork {esp stack : BitVec 32} (h : s.fork esp stack = some t) : Goes s t := by
  rw [Sched.fork] at h
  cases hq : s.readyQueue with
  | nil =>
    rw [hq] at h
    cases h
  | cons e q =>
    rw [hq] at h
    obtain rfl := Option.some.inj h
    generalize hth : s.threadCreate esp (stack + stackSize) e.thread.priority e.thread.parent = th
    have hlives : QueueEntry.Lives ⟨s.fresh, th⟩ := by
      rw [← hth]
      exact lives_threadCreate ..
    obtain ⟨q', hq', hperm⟩ := Rotation.exists_insertAfter_cons priorityOf ⟨s.fresh, th⟩ e q
    refine goes_of_head hlives (fun e' he' => ?_) ?_ (.inr rfl)
    · show e' ∈ Rotation.insertAfter priorityOf ⟨s.fresh, th⟩ s.readyQueue
      exact (Rotation.insertAfter_perm priorityOf _ _).symm.subset (List.mem_cons_of_mem _ he')
    · show (Rotation.insertAfter priorityOf ⟨s.fresh, th⟩ s.readyQueue).head? = _
      rw [hq, hq']
      rfl

theorem goes_updateCurrent (s : Sched) {f : Thread → Thread}
    (hf : ∀ t, (f t).tid = t.tid ∧ (f t).has threadTerminate = t.has threadTerminate) :
    Goes s (s.updateCurrent f) := by
  refine goes_of_map (fun e => ?_) rfl (.inl rfl)
  split
  · exact ⟨rfl, hf e.thread⟩
  · exact ⟨rfl, rfl, rfl⟩

theorem goes_threadSleep (s : Sched) (ms : BitVec 32) : Goes s (s.threadSleep ms) :=
  s.goes_updateCurrent fun t => ⟨rfl, t.has_threadSetState (by decide)⟩

theorem goes_threadWake (s : Sched) : Goes s s.threadWake :=
  s.goes_updateCurrent fun t => ⟨rfl, t.has_threadRemoveState (by decide)⟩

theorem goes_threadSuspend (s : Sched) : Goes s s.threadSuspend :=
  s.goes_updateCurrent fun t => ⟨rfl, t.has_threadSetState (by decide)⟩

theorem goes_threadUnsuspend (s : Sched) : Goes s s.threadUnsuspend :=
  s.goes_updateCurrent fun t => ⟨rfl, t.has_threadRemoveState (by decide)⟩

theorem goes_unsuspendSuspendedThreads (s : Sched) (proc : Option Nat) :
    Goes s (s.unsuspendSuspendedThreads proc) := by
  cases proc with
  | none => exact .refl s
  | some p =>
    refine goes_of_map (fun e => ?_) (readyQueue_withSchedulingOff _ s) (s.currentTask_withSchedulingOff _)
    split
    · exact ⟨rfl, rfl, e.thread.has_threadRemoveState (by decide)⟩
    · exact ⟨rfl, rfl, rfl⟩

theorem goes_adjustTimeDelta (s : Sched) : Goes s s.adjustTimeDelta := by
  refine goes_of_map (g := fun e => { e with thread := tickThread e.thread }) (fun e => ⟨rfl, ?_⟩) rfl (.inl rfl)
  dsimp only
  rw [tickThread]
  split
  · split
    · exact ⟨rfl, e.thread.has_threadRemoveState (by decide)⟩
    · exact ⟨rfl, rfl⟩
  · exact ⟨rfl, rfl⟩

/-! ### Terminations -/

theorem mem_updateByTid_of_ne {f : Thread → Thread} {tid : Int} {e : QueueEntry} {q : List QueueEntry} (he : e ∈ q)
    (hne : e.thread.tid ≠ tid) : e ∈ updateByTid tid f q := by
  induction q with
  | nil => cases he
  | cons e' q ih =>
    rw [updateByTid]
    obtain rfl | he := List.mem_cons.mp he
    · rw [if_neg hne]
      exact List.mem_cons_self
    · split
      · exact List.mem_cons_of_mem _ he
      · exact List.mem_cons_of_mem _ (ih he)

theorem carries_removeByTid (s : Sched) (tid : Int) : Carries s (s.removeByTid tid) [tid] := by
  intro e he hlives htid
  refine ⟨e, ?_, rfl, rfl, hlives⟩
  rw [removeByTid, threadSetStateById, readyQueue_withSchedulingOff]
  exact mem_updateByTid_of_ne he fun heq => htid (List.mem_singleton.mpr heq)

theorem carries_releaseKernelThreads (ts : List ThreadBlock) (s : Sched) :
    Carries s (s.releaseKernelThreads ts) (ts.map fun t => t.thread.tid) := by
  induction ts generalizing s with
  | nil => exact .of_queue rfl
  | cons t ts ih =>
    have hcall : Carries (s.removeByTid t.thread.tid) ((s.removeByTid t.thread.tid).call (.kfree (.thread t.block))) [] :=
      .of_queue rfl
    exact ((s.carries_removeByTid t.thread.tid).trans hcall).trans (ih _)

theorem carries_releaseThreads (dir : BitVec 32) (ts : List ThreadBlock) (s : Sched) :
    Carries s (s.releaseThreads dir ts) (ts.map fun t => t.thread.tid) := by
  induction ts generalizing s with
  | nil => exact .of_queue rfl
  | cons t ts ih =>
    have hfree : Carries s (s.call (.freeVirt dir (t.thread.initialStack - stackSize))) [] := .of_queue rfl
    have hremove := hfree.trans (carries_removeByTid _ t.thread.tid)
    exact Carries.trans hremove (ih (Sched.call (.kfree (.thread t.block)) (removeByTid t.thread.tid _)))

theorem readyQueue_closeFiles (ns : List Nat) (s : Sched) : (s.closeFiles ns).readyQueue = s.readyQueue := by
  induction ns generalizing s with
  | nil => rfl
  | cons n ns ih => exact ih _

theorem readyQueue_kfreeName (name : Option Nat) (s : Sched) : (s.kfreeName name).readyQueue = s.readyQueue := by
  cases name <;> rfl

theorem carries_terminateKernelProcessById {pid : Int} {p : Nat} (h : s.getProcessByID pid = some p) :
    Carries s (s.terminateKernelProcessById pid) (s.processes p).tids := by
  rw [Sched.terminateKernelProcessById, h]
  dsimp only
  generalize hstart : (if (s.processes p).onTerminate then s.call .onTerminate else s) = u
  have hqueue : u.readyQueue = s.readyQueue := by
    rw [← hstart]
    split <;> rfl
  have hoff : Carries s ((u.call (.removeWindowsByPid (s.processes p).id)).removeProcessFromList
      (s.processes p).id).disableScheduling [] := .of_queue hqueue
  exact (hoff.trans (carries_releaseKernelThreads _ _)).requeue (readyQueue_kfreeName _ _)

theorem carries_terminateProcessById {pid : Int} {p : Nat} (h : s.getProcessByID pid = some p) :
    Carries s (s.terminateProcessById pid) (s.processes p).tids := by
  rw [Sched.terminateProcessById, h]
  dsimp only
  have hclose : Carries s
      ((((s.call (.removeWindowsByPid (s.processes p).id)).removeProcessFromList
          (s.processes p).id).disableScheduling.freeImage
        (s.processes p)).closeFiles (s.processes p).fileDescs) [] := .of_queue (readyQueue_closeFiles _ _)
  exact (hclose.trans (carries_releaseThreads _ _ _)).requeue rfl

/-- Both end with scheduling on. -/
theorem currentTask_terminated {pid : Int} {p : Nat} (h : s.getProcessByID pid = some p) :
    (s.terminateKernelProcessById pid).currentTask = (s.terminateKernelProcessById pid).queueGet ∧
      (s.terminateProcessById pid).currentTask = (s.terminateProcessById pid).queueGet := by
  rw [Sched.terminateKernelProcessById, Sched.terminateProcessById, h]
  exact ⟨rfl, rfl⟩

/-! ### The dispatcher -/

theorem carries_dispatchTurn {again : Bool} (h : s.dispatchTurn = some (again, t)) : Carries s t [] := by
  obtain ⟨e, q, hrot, hcases⟩ := dispatchTurn_cases h
  have hmem : ∀ e' ∈ s.readyQueue, e' ∈ e :: q := fun e' he' =>
    hrot ▸ (Rotation.rotate_perm priorityOf s.readyQueue).symm.subset he'
  obtain ⟨-, -, rfl⟩ | ⟨-, -, rfl⟩ | ⟨hdrop, -, rfl⟩ := hcases
  · exact .of_subset hmem
  · exact .of_subset hmem
  · intro e' he' hlives _
    refine ⟨e', ?_, rfl, rfl, hlives⟩
    rw [readyQueue_reaped]
    refine (List.mem_cons.mp (hmem e' he')).resolve_left ?_
    -- only a dead thread is dropped
    rintro rfl
    have hdead := (verdict_eq_drop_iff.mp hdrop).1
    rw [hlives] at hdead
    cases hdead

theorem headed_dispatchTurn (h : s.dispatchTurn = some (false, t)) : Headed t := by
  obtain ⟨e, q, -, ⟨hstop, -, rfl⟩ | ⟨-, hagain, -⟩ | ⟨-, hagain, -⟩⟩ := dispatchTurn_cases h
  · refine ⟨fun e' he' => ?_, .inr rfl⟩
    obtain rfl := Option.some.inj he'
    exact (verdict_eq_stop_iff.mp hstop).1
  · cases hagain
  · cases hagain

end Sched

/-! ### The kernel's operations -/

namespace Kernel

variable {s t : Sched} {k k' : Kernel}

/-- The threads of the process with this id. -/
def tidsOf (s : Sched) (pid : Int) : List Int := ((s.getProcessByID pid).map fun p => (s.processes p).tids).getD []

/-- The ids of the threads that an operation flags. -/
def flagged (s : Sched) : Op → List Int
  | .terminateKernelProcessById pid => tidsOf s pid
  | .terminateProcessById pid => tidsOf s pid
  | .terminateProcess => (s.getRunningProcess.map fun p => tidsOf s (s.processes p).id).getD []
  | _ => []

/-- Outside the dispatcher the thread at the head lives and no other one runs. -/
def Headed (k : Kernel) : Prop := k.inDispatch = false → k.sched.Headed

/-- What an operation does to the live threads. -/
def Flags (s : Sched) (k : Kernel) (tids : List Int) : Prop := s.Carries k.sched tids ∧ k.Headed

theorem flags_resume (hs : s.Headed) (h : s.Goes t) : Flags s (resume t) [] := ⟨h.carries, fun _ => h.headed hs⟩

theorem flags_schedule (hs : s.Headed) (h : s.Goes t) : Flags s (schedule t) [] := ⟨h.carries, fun _ => h.headed hs⟩

theorem flags_byCurrent {tids : List Int} (h : Flags s k tids) (hcall : byCurrent s k = some k') : Flags s k' tids := by
  rw [byCurrent] at hcall
  split at hcall
  · exact Option.some.inj hcall ▸ h
  · cases hcall

/-- With an empty queue nothing runs after a termination, and otherwise it ends in the dispatcher. -/
theorem headed_schedule (hcurrent : t.currentTask = t.queueGet) : (schedule t).Headed := by
  intro hout
  refine ⟨fun e he => ?_, .inr hcurrent⟩
  have hnone : t.currentTask.isSome = false := hout
  have hhead : t.readyQueue.head? = some e := he
  rw [hcurrent, Sched.queueGet, hhead] at hnone
  cases hnone

theorem flags_terminateKernelProcessById (hs : s.Headed) (pid : Int) :
    Flags s (terminated s (s.terminateKernelProcessById pid) pid) (tidsOf s pid) := by
  rw [tidsOf]
  cases hfind : s.getProcessByID pid with
  | none =>
    rw [terminated_of_none hfind, terminateKernelProcessById_of_none hfind]
    exact flags_resume hs (.refl s)
  | some p =>
    rw [terminated_of_some hfind]
    exact ⟨Sched.carries_terminateKernelProcessById hfind, headed_schedule (Sched.currentTask_terminated hfind).1⟩

theorem flags_terminateProcessById (hs : s.Headed) (pid : Int) :
    Flags s (terminated s (s.terminateProcessById pid) pid) (tidsOf s pid) := by
  rw [tidsOf]
  cases hfind : s.getProcessByID pid with
  | none =>
    rw [terminated_of_none hfind, Sched.terminateProcessById, hfind]
    exact flags_resume hs (.refl s)
  | some p =>
    rw [terminated_of_some hfind]
    exact ⟨Sched.carries_terminateProcessById hfind, headed_schedule (Sched.currentTask_terminated hfind).2⟩

theorem flags_terminateProcess (hs : s.Headed) {p : Nat} (hp : s.getRunningProcess = some p) :
    Flags s (terminated s s.terminateProcess (s.processes p).id) (tidsOf s (s.processes p).id) := by
  rw [Sched.terminateProcess, hp]
  dsimp only
  split
  · rw [terminated]
    split
    · exact ⟨fun e he hlives _ => ⟨e, he, rfl, rfl, hlives⟩, fun _ => hs⟩
    · exact ⟨fun e he hlives _ => ⟨e, he, rfl, rfl, hlives⟩, fun _ => hs⟩
  split
  · exact flags_terminateKernelProcessById hs _
  · exact flags_terminateProcessById hs _

theorem flags_applyCall (hs : s.Headed) {op : Op} (hcall : applyCall s op = some k') :
    Flags s k' (flagged s op) := by
  cases op with
  | createKernelProcess dir esp =>
    exact Option.some.inj hcall ▸ flags_resume hs (s.goes_createKernelProcess dir esp)
  | createProcess image dir esp stack =>
    exact flags_byCurrent (flags_resume hs (s.goes_createProcess image dir esp stack)) hcall
  | fork esp stack =>
    obtain ⟨t, ht, rfl⟩ := Option.map_eq_some_iff.mp hcall
    exact flags_resume hs (Sched.goes_fork ht)
  | idleTask esp =>
    obtain ⟨t, ht, rfl⟩ := Option.map_eq_some_iff.mp hcall
    exact flags_resume hs (Sched.goes_idleTask ht)
  | appendFd =>
    obtain ⟨p, -, rfl⟩ := Option.map_eq_some_iff.mp hcall
    exact flags_resume hs (Sched.goes_of_queue rfl (.inl rfl))
  | setOnTerminate =>
    obtain ⟨p, -, rfl⟩ := Option.map_eq_some_iff.mp hcall
    exact flags_resume hs (Sched.goes_of_queue rfl (.inl rfl))
  | threadSleep ms => exact flags_byCurrent (flags_schedule hs (s.goes_threadSleep ms)) hcall
  | threadWake => exact flags_byCurrent (flags_resume hs (s.goes_threadWake)) hcall
  | threadSuspend => exact flags_byCurrent (flags_schedule hs (s.goes_threadSuspend)) hcall
  | threadUnsuspend => exact flags_byCurrent (flags_resume hs (s.goes_threadUnsuspend)) hcall
  | unsuspendSuspendedThreads pid =>
    exact Option.some.inj hcall ▸ flags_resume hs (s.goes_unsuspendSuspendedThreads _)
  | terminateKernelProcessById pid => exact Option.some.inj hcall ▸ flags_terminateKernelProcessById hs pid
  | terminateProcessById pid => exact Option.some.inj hcall ▸ flags_terminateProcessById hs pid
  | terminateProcess =>
    obtain ⟨p, hp, rfl⟩ := Option.map_eq_some_iff.mp hcall
    rw [flagged, hp]
    exact flags_terminateProcess hs hp
  | switchPdirectory dir => exact Option.some.inj hcall ▸ flags_resume hs (Sched.goes_of_queue rfl (.inl rfl))
  | interrupt => exact Option.some.inj hcall ▸ flags_schedule hs (.refl s)
  | adjustTimeDelta => exact Option.some.inj hcall ▸ flags_resume hs s.goes_adjustTimeDelta
  | dispatchTurn => cases hcall

theorem flags_of_step (hk : k.Headed) {op : Op} (hstep : Step k op k') : Flags k.sched k' (flagged k.sched op) := by
  cases hphase : k.inDispatch with
  | false => exact flags_applyCall (hk hphase) (applyCall_of_step hphase hstep)
  | true =>
    obtain ⟨rfl, again, t, hturn, rfl⟩ := dispatchTurn_of_step hphase hstep
    refine ⟨Sched.carries_dispatchTurn hturn, fun hout => ?_⟩
    obtain rfl : again = false := hout
    exact Sched.headed_dispatchTurn hturn

theorem headed_boot (dir idleStack launcherDir launcherStack winsysDir winsysStack : BitVec 32) :
    (boot dir idleStack launcherDir launcherStack winsysDir winsysStack).Headed := by
  intro _
  have hempty : (empty dir).Headed := by
    refine ⟨fun e he => ?_, .inl rfl⟩
    cases he
  have hregister : Sched.Goes (empty dir) ((empty dir).registerProcess ((empty dir).newProcess dir ⟨0#32, 0#32⟩ true)) :=
    Sched.goes_of_queue rfl (.inl rfl)
  have hidle := (hregister.trans (Sched.goes_startThread (Sched.lives_threadCreate (empty dir) idleStack idleStack
    priorityLow 0) 0 _)).headed hempty
  have hlauncher := (Sched.goes_createKernelProcess _ launcherDir launcherStack).headed hidle
  exact (Sched.goes_createKernelProcess _ winsysDir winsysStack).headed hlauncher

end Kernel

/-! ### Runs -/

namespace FileKernel

variable {s t : FileKernel} {block : Nat} {lock : VfsLock}

/-- The invariant of the runs. -/
structure Inv (s : FileKernel) : Prop where
  headed : s.kernel.Headed
  held : s.LocksHeld

/-- The running thread is in the queue and not flagged. -/
theorem Inv.running (h : s.Inv) (hrun : s.running = some block) :
    ∃ e ∈ s.kernel.sched.readyQueue, e.block = block ∧ e.Lives := by
  rw [FileKernel.running] at hrun
  split at hrun
  · cases hrun
  · next hout =>
    have hheaded := h.headed (Bool.eq_false_iff.mpr hout)
    obtain hnone | hhead := hheaded.current
    · rw [hnone] at hrun
      cases hrun
    · obtain ⟨e, he, rfl⟩ := Option.map_eq_some_iff.mp (hhead.symm.trans hrun)
      exact ⟨e, List.mem_of_mem_head? he, rfl, hheaded.lives e he⟩

/-- A thread moves that holds no lock that is taken afterwards. -/
theorem LocksHeld.move (h : s.LocksHeld) {pc : FilePc} {taken : VfsLock → Bool}
    (htaken : ∀ lock, taken lock = true → s.taken lock = true ∧ s.pc block ≠ .holding lock) :
    LocksHeld (moveTo block pc { s with taken }) := by
  intro lock hlock
  obtain ⟨hold, hne⟩ := htaken lock hlock
  obtain ⟨e, he, hpc, hlives⟩ := h lock hold
  have hother : e.block ≠ block := by
    rintro rfl
    exact hne hpc
  exact ⟨e, he, (Function.update_of_ne hother _ _).trans hpc, hlives⟩

theorem Inv.xchg (h : s.Inv) (hrun : s.running = some block) (hpc : s.pc block = .acquiring lock) :
    (s.xchg block lock).LocksHeld := by
  unfold FileKernel.xchg
  split
  · next htaken =>
    have hsame : Function.update s.taken lock true = s.taken := by
      rw [← htaken]
      exact Function.update_eq_self lock s.taken
    rw [setLock, hsame]
    exact h.held
  · next hfree =>
    intro lock' hlock
    by_cases hne : lock' = lock
    · subst hne
      obtain ⟨e, he, rfl, hlives⟩ := h.running hrun
      exact ⟨e, he, Function.update_self _ _ _, hlives⟩
    · have hold : s.taken lock' = true := by
        rw [← hlock]
        exact (Function.update_of_ne hne _ _).symm
      obtain ⟨e, he, hholds, hlives⟩ := h.held lock' hold
      have hother : e.block ≠ block := by
        rintro rfl
        rw [hpc] at hholds
        cases hholds
      exact ⟨e, he, (Function.update_of_ne hother _ _).trans hholds, hlives⟩

theorem Inv.applyFile (h : s.Inv) (hrun : s.running = some block) {op : FileOp}
    (happly : s.applyFile block op = some t) : t.Inv := by
  cases op with
  | kernel op => cases happly
  | call lock =>
    rw [FileKernel.applyFile] at happly
    split at happly
    · next hpc =>
      obtain rfl := Option.some.inj happly
      exact ⟨h.headed, h.held.move fun lock hlock => ⟨hlock, by rw [hpc]; exact FilePc.noConfusion⟩⟩
    · cases happly
  | tryAcquire =>
    rw [FileKernel.applyFile] at happly
    split at happly
    · next lock hpc =>
      obtain rfl := Option.some.inj happly
      refine ⟨?_, h.xchg hrun hpc⟩
      unfold FileKernel.xchg
      split <;> exact h.headed
    · cases happly
  | work =>
    rw [FileKernel.applyFile] at happly
    split at happly
    · exact Option.some.inj happly ▸ h
    · cases happly
  | releaseLock =>
    rw [FileKernel.applyFile] at happly
    split at happly
    · next lock hpc =>
      obtain rfl := Option.some.inj happly
      refine ⟨h.headed, h.held.move fun lock' hlock => ?_⟩
      have hne : lock' ≠ lock := by
        rintro rfl
        rw [Function.update_self] at hlock
        cases hlock
      rw [Function.update_of_ne hne] at hlock
      refine ⟨hlock, fun hholds => hne ?_⟩
      exact FilePc.holding.inj (hholds.symm.trans hpc)
    · cases happly

/-- A thread that holds a lock is not among those that are flagged. -/
theorem not_mem_flagged {op : Kernel.Op} (hmeets : s.Meets (.kernel op)) {e : QueueEntry}
    (he : e ∈ s.kernel.sched.readyQueue) (hpc : s.pc e.block = .holding lock) :
    e.thread.tid ∉ Kernel.flagged s.kernel.sched op := by
  have hspares : ∀ pid, s.Spares pid → e.thread.tid ∉ Kernel.tidsOf s.kernel.sched pid := by
    intro pid hspares
    rw [Kernel.tidsOf]
    cases hfind : s.kernel.sched.getProcessByID pid with
    | none => exact List.not_mem_nil
    | some p => exact hspares p hfind e he lock hpc
  cases op with
  | terminateKernelProcessById pid => exact hspares pid hmeets
  | terminateProcessById pid => exact hspares pid hmeets
  | terminateProcess =>
    rw [Kernel.flagged]
    cases hp : s.kernel.sched.getRunningProcess with
    | none => exact List.not_mem_nil
    | some p => exact hspares _ (hmeets p hp)
  | _ => exact List.not_mem_nil

theorem Inv.step (h : s.Inv) {op : FileOp} (hstep : s.Step op t) : t.Inv := by
  obtain ⟨hmeets, hcalled⟩ := hstep
  cases op with
  | kernel op =>
    obtain ⟨kernel, hkernel, rfl⟩ := Option.map_eq_some_iff.mp hcalled
    obtain ⟨hcarries, hheaded⟩ := Kernel.flags_of_step h.headed hkernel
    refine ⟨hheaded, fun lock hlock => ?_⟩
    obtain ⟨e, he, hpc, hlives⟩ := h.held lock hlock
    obtain ⟨e', he', hblock, -, hlives'⟩ := hcarries e he hlives (not_mem_flagged hmeets he hpc)
    exact ⟨e', he', (congrArg s.pc hblock).trans hpc, hlives'⟩
  | call lock =>
    obtain ⟨block, hrun, happly⟩ := Option.bind_eq_some_iff.mp hcalled
    exact h.applyFile hrun happly
  | tryAcquire =>
    obtain ⟨block, hrun, happly⟩ := Option.bind_eq_some_iff.mp hcalled
    exact h.applyFile hrun happly
  | work =>
    obtain ⟨block, hrun, happly⟩ := Option.bind_eq_some_iff.mp hcalled
    exact h.applyFile hrun happly
  | releaseLock =>
    obtain ⟨block, hrun, happly⟩ := Option.bind_eq_some_iff.mp hcalled
    exact h.applyFile hrun happly

/-- The kernel after boot. -/
def booted : FileKernel where
  kernel := Kernel.boot 0x100000#32 0xE0001000#32 0x200000#32 0xE0002000#32 0x300000#32 0xE0003000#32
  taken _ := false
  pc _ := .outside

theorem started_booted : booted.Started := ⟨⟨_, _, _, _, _, _, rfl⟩, fun _ => rfl, fun _ => rfl⟩

end FileKernel

end Akos
