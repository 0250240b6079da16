import Akos.Lib.Transition
import Akos.Sched.Priority
import Akos.Sched.TeardownRuns

/-!
# The running thread stays at the head

The helpers of `scheduler.c` turn scheduling off while they go through the queue, if it is on, and on again by taking the
head for the current task. Between two dispatches that is the thread which is running, whatever is called and in whatever
order.
-/

namespace Akos

/-- An entry without the flags that the helpers set and remove. -/
def QueueEntry.withoutState (e : QueueEntry) : QueueEntry := { e with thread := { e.thread with state := 0#32 } }

namespace Sched

def threadRemoveStateById (tid : Int) (flags : BitVec 32) (s : Sched) : Sched :=
  s.withSchedulingOff (updateByTid tid (·.threadRemoveState flags))

/-- `get_thread_by_tid`: the copy of the first thread with the id, and `none` for the one with id -1. -/
def getThreadByTid (tid : Int) (s : Sched) : Option Thread × Sched :=
  ((s.readyQueue.find? fun e => e.thread.tid = tid).map QueueEntry.thread, s.withSchedulingOff id)

/-- A helper, with its arguments. -/
inductive Helper
  | queueInsert (t : Thread)
  | queueInsertPrioritized (t : Thread)
  | threadSetStateById (tid : Int) (flags : BitVec 32)
  | threadRemoveStateById (tid : Int) (flags : BitVec 32)
  | removeByTid (tid : Int)
  | getThreadByTid (tid : Int)
  | unsuspendSuspendedThreads (proc : Option Nat)

/-- An inserted thread gets a new block. -/
def Helper.apply (s : Sched) : Helper → Sched
  | .queueInsert t => Sched.queueInsert s.fresh t { s with fresh := s.fresh + 1 }
  | .queueInsertPrioritized t => Sched.queueInsertPrioritized s.fresh t { s with fresh := s.fresh + 1 }
  | .threadSetStateById tid flags => s.threadSetStateById tid flags
  | .threadRemoveStateById tid flags => s.threadRemoveStateById tid flags
  | .removeByTid tid => s.removeByTid tid
  | .getThreadByTid tid => (s.getThreadByTid tid).2
  | .unsuspendSuspendedThreads proc => s.unsuspendSuspendedThreads proc

/-- A call of a helper, or one end of a pair around some of them. -/
inductive Action
  | helper (h : Helper)
  | disableScheduling
  | enableScheduling

/-- The second component says whether a pair is open. Pairs are matched and not nested. -/
def ActionStep (c : Sched × Bool) (a : Action) (c' : Sched × Bool) : Prop :=
  match a with
  | .helper h => c' = (h.apply c.1, c.2)
  | .disableScheduling => c.2 = false ∧ c' = (c.1.disableScheduling, true)
  | .enableScheduling => c.2 = true ∧ c' = (c.1.enableScheduling, false)

/-- The entries that an action inserts, in blocks from a serial number on. -/
def insertedBy (fresh : Nat) : Action → List QueueEntry
  | .helper (.queueInsert t) => [⟨fresh, t⟩]
  | .helper (.queueInsertPrioritized t) => [⟨fresh, t⟩]
  | _ => []

def inserted (fresh : Nat) : List Action → List QueueEntry
  | [] => []
  | a :: actions => insertedBy fresh a ++ inserted (fresh + (insertedBy fresh a).length) actions

/-- The head is what it was and the current task, unless a pair is open, and the queue holds the old entries and the
inserted ones. -/
structure HeadStays (start : Sched) (actions : List Action) (c : Sched × Bool) : Prop where
  head : c.1.readyQueue.head?.map QueueEntry.withoutState = start.readyQueue.head?.map QueueEntry.withoutState
  entries : (c.1.readyQueue.map QueueEntry.withoutState).Perm
    ((start.readyQueue ++ inserted start.fresh actions).map QueueEntry.withoutState)
  current : c.1.currentTask = if c.2 then none else c.1.queueGet

variable {s : Sched} {f : List QueueEntry → List QueueEntry} {q : List QueueEntry}

/-! ### One helper -/

theorem map_withoutState_updateByTid (g : Thread → Thread) (hg : ∀ t, { g t with state := 0#32 } = { t with state := 0#32 })
    (tid : Int) (q : List QueueEntry) :
    (updateByTid tid g q).map QueueEntry.withoutState = q.map QueueEntry.withoutState := by
  induction q with
  | nil => rfl
  | cons e q ih =>
    rw [updateByTid]
    split
    · rw [List.map_cons, List.map_cons, QueueEntry.withoutState, hg]
      rfl
    · rw [List.map_cons, List.map_cons, ih]

theorem map_withoutState_unsuspend (p : Nat) (s : Sched) :
    (s.readyQueue.map fun e =>
      if (s.processes e.thread.parent).id = (s.processes p).id then
        { e with thread := e.thread.threadRemoveState threadSuspended }
      else e).map QueueEntry.withoutState = s.readyQueue.map QueueEntry.withoutState := by
  rw [List.map_map]
  refine List.map_congr_left fun e _ => ?_
  dsimp only [Function.comp_apply]
  split <;> rfl

/-- What a helper keeps of a state. -/
structure HelperKeeps (s : Sched) (h : Helper) (s' : Sched) : Prop where
  head : s.readyQueue ≠ [] →
    s'.readyQueue.head?.map QueueEntry.withoutState = s.readyQueue.head?.map QueueEntry.withoutState
  entries : (s'.readyQueue.map QueueEntry.withoutState).Perm
    ((s.readyQueue ++ insertedBy s.fresh (.helper h)).map QueueEntry.withoutState)
  fresh : s'.fresh = s.fresh + (insertedBy s.fresh (.helper h)).length
  off : s.currentTask = none → s'.currentTask = none
  on : s.readyQueue ≠ [] → s.currentTask = s.queueGet → s'.currentTask = s'.queueGet

theorem currentTask_withSchedulingOff_of_none (f : List QueueEntry → List QueueEntry) (hoff : s.currentTask = none) :
    (s.withSchedulingOff f).currentTask = none := by
  rw [withSchedulingOff, hoff]
  rfl

theorem currentTask_withSchedulingOff_of_head (f : List QueueEntry → List QueueEntry) (hne : s.readyQueue ≠ [])
    (hon : s.currentTask = s.queueGet) : (s.withSchedulingOff f).currentTask = (s.withSchedulingOff f).queueGet := by
  obtain ⟨e, q, hqueue⟩ := List.exists_cons_of_ne_nil hne
  have hsome : s.currentTask.isSome = true := by
    rw [hon, queueGet, hqueue]
    rfl
  rw [withSchedulingOff, if_pos hsome]
  rfl

/-- A helper that changes flags only. -/
theorem helperKeeps_of_map {h : Helper} (hnone : insertedBy s.fresh (.helper h) = [])
    (hmap : (f s.readyQueue).map QueueEntry.withoutState = s.readyQueue.map QueueEntry.withoutState) :
    HelperKeeps s h (s.withSchedulingOff f) where
  head _ := by rw [readyQueue_withSchedulingOff, ← List.head?_map, hmap, List.head?_map]
  entries := by rw [readyQueue_withSchedulingOff, hnone, List.append_nil, hmap]
  fresh := by
    rw [fresh_withSchedulingOff, hnone]
    rfl
  off := currentTask_withSchedulingOff_of_none f
  on := currentTask_withSchedulingOff_of_head f

/-- A helper that inserts a thread inserts it behind the head. -/
theorem helperKeeps (s : Sched) (h : Helper) : HelperKeeps s h (h.apply s) := by
  cases h with
  | queueInsert t =>
    have hqueue : (Helper.apply s (.queueInsert t)).readyQueue = s.readyQueue ++ [⟨s.fresh, t⟩] :=
      readyQueue_withSchedulingOff _ _
    refine ⟨fun hne => ?_, ?_, fresh_withSchedulingOff _ _, ?_, ?_⟩
    · rw [hqueue, List.head?_append_of_ne_nil _ hne]
    · rw [hqueue]
      exact List.Perm.refl _
    · exact currentTask_withSchedulingOff_of_none (s := { s with fresh := s.fresh + 1 }) _
    · exact currentTask_withSchedulingOff_of_head (s := { s with fresh := s.fresh + 1 }) _
  | queueInsertPrioritized t =>
    have hqueue : (Helper.apply s (.queueInsertPrioritized t)).readyQueue =
        Rotation.insertAfter priorityOf ⟨s.fresh, t⟩ s.readyQueue := rfl
    have hhead : s.readyQueue ≠ [] →
        (Rotation.insertAfter priorityOf ⟨s.fresh, t⟩ s.readyQueue).head? = s.readyQueue.head? := by
      intro hne
      obtain ⟨e, q, heq⟩ := List.exists_cons_of_ne_nil hne
      obtain ⟨q', hq', -⟩ := Rotation.exists_insertAfter_cons priorityOf ⟨s.fresh, t⟩ e q
      rw [heq, hq', List.head?_cons, List.head?_cons]
    refine ⟨fun hne => ?_, ?_, rfl, fun hoff => hoff, fun hne hon => ?_⟩
    · rw [hqueue, hhead hne]
    · rw [hqueue]
      exact ((Rotation.insertAfter_perm priorityOf _ _).trans (List.perm_append_singleton _ _).symm).map _
    · rw [queueGet, hqueue, hhead hne]
      exact hon
  | threadSetStateById tid flags =>
    exact helperKeeps_of_map rfl (map_withoutState_updateByTid (·.threadSetState flags) (fun t => rfl) tid _)
  | threadRemoveStateById tid flags =>
    exact helperKeeps_of_map rfl (map_withoutState_updateByTid (·.threadRemoveState flags) (fun t => rfl) tid _)
  | removeByTid tid =>
    exact helperKeeps_of_map rfl (map_withoutState_updateByTid (·.threadSetState threadTerminate) (fun t => rfl) tid _)
  | getThreadByTid tid => exact helperKeeps_of_map rfl rfl
  | unsuspendSuspendedThreads proc =>
    cases proc with
    | none =>
      refine ⟨fun _ => rfl, ?_, rfl, fun hoff => hoff, fun _ hon => hon⟩
      have hnone : insertedBy s.fresh (.helper (.unsuspendSuspendedThreads none)) = [] := rfl
      rw [hnone, List.append_nil]
      exact List.Perm.refl _
    | some p => exact helperKeeps_of_map rfl (map_withoutState_unsuspend p s)

/-! ### Any actions -/

theorem HelperKeeps.ne_nil {s' : Sched} {h : Helper} (hkeeps : HelperKeeps s h s') (hne : s.readyQueue ≠ []) :
    s'.readyQueue ≠ [] := by
  intro hnil
  have hhead := hkeeps.head hne
  rw [hnil, List.head?_nil, Option.map_none, eq_comm, Option.map_eq_none_iff, List.head?_eq_none_iff] at hhead
  exact hne hhead

theorem HelperKeeps.headStays {s' : Sched} {h : Helper} {actions : List Action} {c : Sched × Bool}
    (hkeeps : HelperKeeps s h s') (hne : s.readyQueue ≠ []) (hstays : HeadStays s' actions c) :
    HeadStays s (.helper h :: actions) c where
  head := hstays.head.trans (hkeeps.head hne)
  entries := by
    refine hstays.entries.trans ?_
    rw [inserted, ← hkeeps.fresh, List.map_append, ← List.append_assoc, List.map_append]
    exact hkeeps.entries.append_right _
  current := hstays.current

/-- The head stays from any state on in which it is the current task, or scheduling is off in an open pair. -/
theorem headStays_of_run {c c' : Sched × Bool} {actions : List Action} (hrun : Transition.Run ActionStep c actions c')
    (hne : c.1.readyQueue ≠ []) (hcurrent : c.1.currentTask = if c.2 then none else c.1.queueGet) :
    HeadStays c.1 actions c' := by
  induction hrun with
  | nil c =>
    refine ⟨rfl, ?_, hcurrent⟩
    rw [inserted, List.append_nil]
  | @cons c c₁ c' a actions hstep hrun ih =>
    obtain ⟨s, opened⟩ := c
    cases a with
    | helper h =>
      obtain rfl := hstep
      have hkeeps := helperKeeps s h
      refine hkeeps.headStays hne (ih (hkeeps.ne_nil hne) ?_)
      cases opened with
      | true => exact hkeeps.off hcurrent
      | false => exact hkeeps.on hne hcurrent
    | disableScheduling =>
      obtain ⟨-, rfl⟩ := hstep
      obtain ⟨hhead, hentries, hcur⟩ := ih hne rfl
      exact ⟨hhead, hentries, hcur⟩
    | enableScheduling =>
      obtain ⟨-, rfl⟩ := hstep
      obtain ⟨hhead, hentries, hcur⟩ := ih hne rfl
      exact ⟨hhead, hentries, hcur⟩

/-- From a queue with the running thread at its head, actions in any order leave it there, and a helper that is called
with scheduling off leaves it off. -/
theorem runningThread_stays {start : Sched} (hne : start.readyQueue ≠ []) (hcurrent : start.currentTask = start.queueGet)
    {actions : List Action} {c : Sched × Bool} (hrun : Transition.Run ActionStep (start, false) actions c) :
    HeadStays start actions c ∧ ∀ (s : Sched) (h : Helper), s.currentTask = none → (h.apply s).currentTask = none :=
  ⟨headStays_of_run hrun hne hcurrent, fun s h hoff => (helperKeeps s h).off hoff⟩

/-- Two threads, and the first one runs. -/
def twoThreads : Sched :=
  { emptyQueue with readyQueue := [⟨0, threadWith 2#32⟩, ⟨1, threadWith 1#32⟩], currentTask := some 0, fresh := 2 }

/-- A thread of a higher priority is inserted in a pair, and the threads with the id of the running one are to end. -/
theorem runningThread_stays_twoThreads : ∃ c, HeadStays twoThreads
    [.disableScheduling, .helper (.queueInsertPrioritized (threadWith 0#32)), .helper (.removeByTid 1)] c := by
  have hdisable : ActionStep (twoThreads, false) .disableScheduling (twoThreads.disableScheduling, true) := ⟨rfl, rfl⟩
  have hinsert : ActionStep (twoThreads.disableScheduling, true) (.helper (.queueInsertPrioritized (threadWith 0#32)))
      (Helper.apply twoThreads.disableScheduling (.queueInsertPrioritized (threadWith 0#32)), true) := rfl
  have hremove : ActionStep (Helper.apply twoThreads.disableScheduling (.queueInsertPrioritized (threadWith 0#32)), true)
      (.helper (.removeByTid 1)) (Helper.apply (Helper.apply twoThreads.disableScheduling
        (.queueInsertPrioritized (threadWith 0#32))) (.removeByTid 1), true) := rfl
  exact ⟨_, (runningThread_stays (List.cons_ne_nil _ _) rfl (.cons hdisable (.cons hinsert (.single hremove)))).1⟩

end Sched

end Akos
