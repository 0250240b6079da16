import Akos.Lib.RotationOrder
import Akos.Lib.Transition
import Akos.Sched.Dispatch

/-!
# Priorities and the ready queue

Threads join the queue at its end or behind the first thread of a lower priority, and every dispatch puts the
head back behind the first of a lower priority, wherever that stands. When all can run, a dispatch is a rotation,
and whether a thread is left out by one of a lower priority is read off the queue.
-/

namespace Akos.Sched

/-- What changes the queue. -/
inductive QueueOp
  | queueInsert (t : Thread)
  | queueInsertPrioritized (t : Thread)
  | schedulerDispatch

/-- An inserted thread gets a new block, and a dispatch ends after some turns. -/
def QueueStep (s : Sched) (op : QueueOp) (s' : Sched) : Prop :=
  match op with
  | .queueInsert t => s' = queueInsert s.fresh t { s with fresh := s.fresh + 1 }
  | .queueInsertPrioritized t => s' = queueInsertPrioritized s.fresh t { s with fresh := s.fresh + 1 }
  | .schedulerDispatch => ∃ turns, s.schedulerDispatch turns = some s'

/-- The queue was built from the empty one. -/
def Reached (s : Sched) : Prop := ∃ start ops, start.readyQueue = [] ∧ Transition.Run QueueStep start ops s

/-- Each state is the one before after a dispatch. -/
def DispatchRun (states : Nat → Sched) : Prop :=
  ∀ n, ∃ turns, (states n).schedulerDispatch turns = some (states (n + 1))

/-- In every run of dispatches, between two consecutive dispatches of an entry, every entry with a smaller
priority number is dispatched. -/
def RespectsPriority (s : Sched) : Prop :=
  ∀ states, states 0 = s → DispatchRun states → ∀ low ∈ s.readyQueue, ∀ high ∈ s.readyQueue,
    high.thread.priority < low.thread.priority → ∀ i j, 0 < i → i < j →
      (states i).currentTask = some low.block → (states j).currentTask = some low.block →
      (∀ k, i < k → k < j → (states k).currentTask ≠ some low.block) →
        ∃ k, i < k ∧ k < j ∧ (states k).currentTask = some high.block

/-- Behind the head there are three entries in a row, the second of a larger priority number than the first and
the third of a smaller one; or the head takes the part of the first and has a smaller number than it. -/
def Overtakes (s : Sched) : Prop :=
  ∃ x t, s.readyQueue = x :: t ∧ Rotation.Overtakes priorityOf x t

def AllRunnable (s : Sched) : Prop := ∀ e ∈ s.readyQueue, e.thread.Runnable

/-! ### Blocks of the queue -/

/-- The blocks in the queue are different ones, and none is a future one. -/
structure OwnBlocks (s : Sched) : Prop where
  nodup : (s.readyQueue.map QueueEntry.block).Nodup
  old : ∀ e ∈ s.readyQueue, e.block < s.fresh

variable {s t : Sched}

theorem OwnBlocks.insert {q : List QueueEntry} {thread : Thread} (h : s.OwnBlocks)
    (hperm : q.Perm (⟨s.fresh, thread⟩ :: s.readyQueue)) (hqueue : t.readyQueue = q) (hfresh : t.fresh = s.fresh + 1) :
    t.OwnBlocks := by
  constructor
  · rw [hqueue, (hperm.map _).nodup_iff, List.map_cons, List.nodup_cons]
    refine ⟨fun hmem => ?_, h.nodup⟩
    obtain ⟨e, he, heq⟩ := List.mem_map.mp hmem
    exact absurd heq (Nat.ne_of_lt (h.old e he))
  · intro e he
    rw [hqueue] at he
    rw [hfresh]
    rcases List.mem_cons.mp (hperm.subset he) with rfl | he
    · exact Nat.lt_succ_self _
    · exact Nat.lt_succ_of_lt (h.old e he)

/-- A dispatch loses entries at most. -/
theorem OwnBlocks.dispatch {turns : Nat} (h : s.OwnBlocks) (hdispatch : s.schedulerDispatch turns = some t) :
    t.OwnBlocks := by
  have hkeeps := keeps_of_schedulerDispatch hdispatch
  refine ⟨hkeeps.nodup h.nodup, fun e he => ?_⟩
  rw [hkeeps.fresh]
  exact h.old e (hkeeps.mem he)

theorem OwnBlocks.step {op : QueueOp} (h : s.OwnBlocks) (hstep : QueueStep s op t) : t.OwnBlocks := by
  cases op with
  | queueInsert thread =>
    obtain rfl := hstep
    refine h.insert (List.perm_append_singleton ⟨s.fresh, thread⟩ s.readyQueue) ?_ ?_
    · unfold queueInsert withSchedulingOff
      split <;> rfl
    · unfold queueInsert withSchedulingOff
      split <;> rfl
  | queueInsertPrioritized thread =>
    obtain rfl := hstep
    exact h.insert (Rotation.insertAfter_perm priorityOf _ _) rfl rfl
  | schedulerDispatch =>
    obtain ⟨turns, hdispatch⟩ := hstep
    exact h.dispatch hdispatch

theorem Reached.ownBlocks (h : s.Reached) : s.OwnBlocks := by
  obtain ⟨start, ops, hempty, hrun⟩ := h
  refine hrun.invariant OwnBlocks (fun _ _ _ hown hstep => hown.step hstep) ⟨?_, ?_⟩
  · rw [hempty]
    exact List.nodup_nil
  · intro e he
    rw [hempty] at he
    cases he

theorem OwnBlocks.queue_nodup (h : s.OwnBlocks) : s.readyQueue.Nodup := h.nodup.of_map _

theorem OwnBlocks.eq_of_block (h : s.OwnBlocks) {e e' : QueueEntry} (he : e ∈ s.readyQueue) (he' : e' ∈ s.readyQueue)
    (heq : e.block = e'.block) : e = e' := List.inj_on_of_nodup_map h.nodup he he' heq

/-! ### A dispatch is a rotation -/

theorem schedulerDispatch_of_allRunnable (h : s.AllRunnable) {turns : Nat}
    (hdispatch : s.schedulerDispatch turns = some t) :
    t.readyQueue = Rotation.rotate priorityOf s.readyQueue ∧ t.currentTask = t.readyQueue.head?.map QueueEntry.block := by
  refine ⟨?_, currentTask_of_schedulerDispatch hdispatch⟩
  cases turns with
  | zero => cases hdispatch
  | succ turns =>
    have hstop : ∀ e q, Rotation.rotate priorityOf s.readyQueue = e :: q → s.judge e = .stop := fun e q hrot =>
      verdict_eq_stop_iff.mpr (h e ((Rotation.rotate_perm priorityOf s.readyQueue).subset (hrot ▸ List.mem_cons_self)))
    obtain ⟨u, ⟨hturn, -⟩ | hturn⟩ := schedulerDispatch_succ hdispatch
    · obtain ⟨e, q, hrot, ⟨-, hagain, -⟩ | ⟨hkeep, -⟩ | ⟨hdrop, -⟩⟩ := dispatchTurn_cases hturn
      · cases hagain
      · cases (hstop e q hrot).symm.trans hkeep
      · cases (hstop e q hrot).symm.trans hdrop
    · obtain ⟨e, q, hrot, ⟨-, -, rfl⟩ | ⟨-, hagain, -⟩ | ⟨-, hagain, -⟩⟩ := dispatchTurn_cases hturn
      · exact hrot.symm
      · cases hagain
      · cases hagain

/-- The state after a dispatch that stops at the first head. -/
def next (s : Sched) : Sched :=
  match Rotation.rotate priorityOf s.readyQueue with
  | [] => s
  | e :: q => s.rotated e q

theorem readyQueue_next (s : Sched) : s.next.readyQueue = Rotation.rotate priorityOf s.readyQueue := by
  unfold next
  cases hrot : Rotation.rotate priorityOf s.readyQueue with
  | nil =>
    have hperm := Rotation.rotate_perm priorityOf s.readyQueue
    rw [hrot] at hperm
    exact hperm.symm.eq_nil
  | cons e q => rfl

theorem schedulerDispatch_next (h : s.AllRunnable) (hne : s.readyQueue ≠ []) : s.schedulerDispatch 1 = some s.next := by
  have hperm := Rotation.rotate_perm priorityOf s.readyQueue
  rw [schedulerDispatch, dispatchTurn_eq, next]
  cases hrot : Rotation.rotate priorityOf s.readyQueue with
  | nil =>
    rw [hrot] at hperm
    exact absurd hperm.symm.eq_nil hne
  | cons e q =>
    have hstop : s.judge e = .stop :=
      verdict_eq_stop_iff.mpr (h e (hperm.subset (hrot ▸ List.mem_cons_self)))
    simp only [hstop]

/-- The queues of a run of dispatches are the rotations of the first. -/
theorem DispatchRun.readyQueue {states : Nat → Sched} (h : DispatchRun states) (hrunnable : (states 0).AllRunnable)
    (n : Nat) : (states n).readyQueue = Rotation.rotations priorityOf (states 0).readyQueue n := by
  induction n with
  | zero => rfl
  | succ n ih =>
    obtain ⟨turns, hdispatch⟩ := h n
    have hrunnable' : (states n).AllRunnable := fun e he =>
      hrunnable e ((Rotation.rotations_perm _ n).subset (ih ▸ he))
    rw [(schedulerDispatch_of_allRunnable hrunnable' hdispatch).1, ih, Rotation.rotations_succ']

/-- The task dispatched last is the head of the rotation. -/
theorem DispatchRun.currentTask_iff {states : Nat → Sched} (h : DispatchRun states)
    (hrunnable : (states 0).AllRunnable) (hown : (states 0).OwnBlocks) {e : QueueEntry}
    (he : e ∈ (states 0).readyQueue) {n : Nat} (hn : 0 < n) :
    (states n).currentTask = some e.block ↔
      (Rotation.rotations priorityOf (states 0).readyQueue n).head? = some e := by
  obtain ⟨n, rfl⟩ := Nat.exists_eq_add_one.mpr hn
  obtain ⟨turns, hdispatch⟩ := h n
  rw [currentTask_of_schedulerDispatch hdispatch, queueGet, h.readyQueue hrunnable]
  constructor
  · intro hblock
    obtain ⟨e', hhead, heq⟩ := Option.map_eq_some_iff.mp hblock
    have hmem := (Rotation.rotations_perm (states 0).readyQueue (n + 1)).subset (List.mem_of_mem_head? hhead)
    rw [hhead, hown.eq_of_block hmem he heq]
  · intro hhead
    rw [hhead]
    rfl

theorem dispatchRun_next (h : s.AllRunnable) (hne : s.readyQueue ≠ []) : DispatchRun fun n => next^[n] s := by
  intro n
  have hqueue : ∀ n, (next^[n] s).readyQueue = Rotation.rotations priorityOf s.readyQueue n := by
    intro n
    induction n with
    | zero => rfl
    | succ n ih => rw [Function.iterate_succ_apply', readyQueue_next, ih, Rotation.rotations_succ']
  have hperm : (next^[n] s).readyQueue.Perm s.readyQueue := hqueue n ▸ Rotation.rotations_perm _ n
  refine ⟨1, ?_⟩
  rw [schedulerDispatch_next (fun e he => h e (hperm.subset he)) fun hnil => hne (hnil ▸ hperm).symm.eq_nil]
  exact congrArg some (Function.iterate_succ_apply' next n s).symm

/-! ### Priorities -/

theorem respectsPriority_iff_fair (hrunnable : s.AllRunnable) (hown : s.OwnBlocks) :
    s.RespectsPriority ↔ Rotation.Fair priorityOf s.readyQueue := by
  constructor
  · intro h i j a b hi hij hai haj hnone hb hlt
    have ha : a ∈ s.readyQueue := (Rotation.rotations_perm _ i).subset (List.mem_of_mem_head? hai)
    have hrun := dispatchRun_next hrunnable (List.ne_nil_of_mem ha)
    have htask := fun {e : QueueEntry} (he : e ∈ s.readyQueue) {n : Nat} (hn : 0 < n) =>
      hrun.currentTask_iff hrunnable hown he hn
    obtain ⟨k, hik, hkj, hk⟩ := h _ rfl hrun a ha b hb hlt i j hi hij ((htask ha hi).mpr hai)
      ((htask ha (hi.trans hij)).mpr haj)
      (fun k hik hkj => fun hk => hnone k hik hkj ((htask ha (hi.trans hik)).mp hk))
    exact ⟨k, hik, hkj, (htask hb (hi.trans hik)).mp hk⟩
  · intro h states hstart hrun low hlow high hhigh hlt i j hi hij hilow hjlow hnone
    subst hstart
    have htask := fun {e : QueueEntry} (he : e ∈ (states 0).readyQueue) {n : Nat} (hn : 0 < n) =>
      hrun.currentTask_iff hrunnable hown he hn
    obtain ⟨k, hik, hkj, hk⟩ := h i j low high hi hij ((htask hlow hi).mp hilow)
      ((htask hlow (hi.trans hij)).mp hjlow)
      (fun k hik hkj hk => hnone k hik hkj ((htask hlow (hi.trans hik)).mpr hk)) hhigh hlt
    exact ⟨k, hik, hkj, (htask hhigh (hi.trans hik)).mpr hk⟩

theorem overtakes_cons_iff {x : QueueEntry} {q : List QueueEntry} (hq : s.readyQueue = x :: q) :
    s.Overtakes ↔ Rotation.Overtakes priorityOf x q := by
  constructor
  · intro h
    obtain ⟨y, u, heq, h⟩ := h
    obtain ⟨rfl, rfl⟩ := List.cons.inj (hq.symm.trans heq)
    exact h
  · intro h
    exact ⟨x, q, hq, h⟩

theorem fair_iff_not_overtakes (hown : s.OwnBlocks) : Rotation.Fair priorityOf s.readyQueue ↔ ¬ s.Overtakes := by
  cases hq : s.readyQueue with
  | nil =>
    constructor
    · intro _ hovertakes
      obtain ⟨x, t, heq, -⟩ := hovertakes
      cases hq.symm.trans heq
    · intro _ i j a b _ _ _ _ _ hb
      cases hb
  | cons x q => rw [Rotation.fair_iff (hq ▸ hown.queue_nodup), overtakes_cons_iff hq]

/-- From a queue of threads that can all run, dispatching respects the priorities exactly when the head of the
queue overtakes nobody. -/
theorem respectsPriority_iff (hreached : s.Reached) (hrunnable : s.AllRunnable) :
    s.RespectsPriority ↔ ¬ s.Overtakes :=
  (respectsPriority_iff_fair hrunnable hreached.ownBlocks).trans (fair_iff_not_overtakes hreached.ownBlocks)

/-! ### Threads appended one by one -/

def emptyQueue : Sched where
  readyQueue := []
  currentTask := none
  processes _ := ⟨0#32, 0, 0#32, 0#32, [], [], 0, false, false, none⟩
  processList := []
  directory := 0x100000#32
  fresh := 0
  calls := []

def threadWith (priority : BitVec 32) : Thread := ⟨0#32, 0, priority, threadRun, 0#32, 0#32, 1⟩

/-- Threads of these priorities are inserted by `queue_insert`. -/
def appendAll : List (BitVec 32) → Sched → Sched
  | [], s => s
  | p :: ps, s => appendAll ps (queueInsert s.fresh (threadWith p) { s with fresh := s.fresh + 1 })

theorem run_appendAll (priorities : List (BitVec 32)) (s : Sched) :
    Transition.Run QueueStep s (priorities.map fun p => .queueInsert (threadWith p)) (appendAll priorities s) := by
  induction priorities generalizing s with
  | nil => exact .nil s
  | cons p ps ih => exact .cons rfl (ih _)

theorem reached_appendAll (priorities : List (BitVec 32)) : (appendAll priorities emptyQueue).Reached :=
  ⟨emptyQueue, _, rfl, run_appendAll priorities emptyQueue⟩

/-- Behind the head the priorities fall. -/
theorem respectsPriority_falling : (appendAll [3#32, 1#32, 2#32, 3#32] emptyQueue).RespectsPriority := by
  refine (respectsPriority_iff (reached_appendAll _) (by unfold AllRunnable; decide)).mpr fun h => ?_
  obtain ⟨x, t, hq, a, b, c, habc, hkeys⟩ := h
  obtain ⟨rfl, rfl⟩ := List.cons.inj (show ⟨0, threadWith 3#32⟩ :: [⟨1, threadWith 1#32⟩, ⟨2, threadWith 2#32⟩,
    ⟨3, threadWith 3#32⟩] = x :: t from hq)
  have heq := habc.eq_of_length rfl
  obtain ⟨rfl, rfl, rfl⟩ : a = ⟨1, threadWith 1#32⟩ ∧ b = ⟨2, threadWith 2#32⟩ ∧ c = ⟨3, threadWith 3#32⟩ := by
    simpa using heq
  revert hkeys
  decide

/-- The thread of priority 2 is dispatched twice before the one of priority 1. -/
theorem not_respectsPriority : ∃ s : Sched, s.Reached ∧ s.AllRunnable ∧ ¬ s.RespectsPriority := by
  have hrunnable : (appendAll [3#32, 2#32, 3#32, 1#32] emptyQueue).AllRunnable := by
    unfold AllRunnable
    decide
  have hown := (reached_appendAll [3#32, 2#32, 3#32, 1#32]).ownBlocks
  refine ⟨_, reached_appendAll _, hrunnable, fun h => ?_⟩
  refine (fair_iff_not_overtakes hown).mp ((respectsPriority_iff_fair hrunnable hown).mp h) ?_
  exact ⟨⟨0, threadWith 3#32⟩, [⟨1, threadWith 2#32⟩, ⟨2, threadWith 3#32⟩, ⟨3, threadWith 1#32⟩], rfl,
    _, _, _, List.Sublist.refl _, .inl (by decide)⟩

end Akos.Sched
