import Akos.Sched.Scheduler

/-!
# The dispatcher ends

One turn of the loop is a rotation of the queue and a verdict on the new head. The verdict reads the
entry, the loaded directory and the directories of the parents, none of which a turn changes, so the whole
loop is a run of the rotation library.
-/

namespace Akos

open Rotation (Verdict)

namespace Sched

/-- What the loop does with an entry at the head, for a loaded directory and the parents' directories. -/
def verdict (directory : BitVec 32) (pageDirectoryOf : Nat → BitVec 32) (e : QueueEntry) : Verdict :=
  if e.thread.has threadTerminate then
    if directory = pageDirectoryOf e.thread.parent then .keep else .drop
  else if e.thread.has threadBlockSleep || e.thread.has threadSuspended then .keep
  else .stop

def pageDirectoryOf (s : Sched) (p : Nat) : BitVec 32 := (s.processes p).pageDirectory

abbrev judge (s : Sched) : QueueEntry → Verdict := verdict s.directory s.pageDirectoryOf

/-- The state after a rotation that gave this queue. -/
def rotated (s : Sched) (e : QueueEntry) (q : List QueueEntry) : Sched :=
  { s with readyQueue := e :: q, currentTask := some e.block }

/-- What the loop makes of a dead thread at the head. -/
def reaped (s : Sched) (t : Thread) : Sched :=
  ((s.releaseStack t).releaseProcess t.parent).queueDeleteFirst

/-! ### The verdict -/

theorem verdict_eq_stop_iff {directory : BitVec 32} {pageDirectoryOf : Nat → BitVec 32} {e : QueueEntry} :
    verdict directory pageDirectoryOf e = .stop ↔ e.thread.Runnable := by
  rw [verdict, Thread.Runnable]
  cases e.thread.has threadTerminate with
  | true =>
    rw [if_pos rfl]
    split <;> simp
  | false =>
    rw [if_neg Bool.false_ne_true]
    cases e.thread.has threadBlockSleep <;> cases e.thread.has threadSuspended <;> simp

theorem verdict_eq_drop_iff {directory : BitVec 32} {pageDirectoryOf : Nat → BitVec 32} {e : QueueEntry} :
    verdict directory pageDirectoryOf e = .drop ↔
      e.thread.has threadTerminate = true ∧ directory ≠ pageDirectoryOf e.thread.parent := by
  rw [verdict]
  cases e.thread.has threadTerminate with
  | true =>
    rw [if_pos rfl]
    split <;> simp_all
  | false =>
    rw [if_neg Bool.false_ne_true]
    split <;> simp

/-! ### What releasing leaves alone -/

@[simp] theorem readyQueue_releaseStack (s : Sched) (t : Thread) :
    (s.releaseStack t).readyQueue = s.readyQueue := by
  rw [releaseStack]
  split <;> rfl

@[simp] theorem readyQueue_releaseProcess (s : Sched) (p : Nat) :
    (s.releaseProcess p).readyQueue = s.readyQueue := by
  rw [releaseProcess]
  split <;> rfl

@[simp] theorem directory_releaseStack (s : Sched) (t : Thread) :
    (s.releaseStack t).directory = s.directory := by
  rw [releaseStack]
  split <;> rfl

@[simp] theorem directory_releaseProcess (s : Sched) (p : Nat) :
    (s.releaseProcess p).directory = s.directory := by
  rw [releaseProcess]
  split <;> rfl

theorem pageDirectoryOf_releaseStack (s : Sched) (t : Thread) :
    (s.releaseStack t).pageDirectoryOf = s.pageDirectoryOf := by
  funext p
  rw [releaseStack]
  split
  · rfl
  · simp only [pageDirectoryOf, updateProcess, call]
    split <;> rfl

theorem pageDirectoryOf_releaseProcess (s : Sched) (p : Nat) :
    (s.releaseProcess p).pageDirectoryOf = s.pageDirectoryOf := by
  rw [releaseProcess]
  split <;> rfl

theorem judge_queueDeleteFirst (s : Sched) : s.queueDeleteFirst.judge = s.judge := by
  rw [queueDeleteFirst]
  split <;> rfl

theorem judge_reaped (s : Sched) (t : Thread) : (s.reaped t).judge = s.judge := by
  rw [reaped, judge_queueDeleteFirst, judge, directory_releaseProcess, pageDirectoryOf_releaseProcess,
    directory_releaseStack, pageDirectoryOf_releaseStack]

theorem readyQueue_reaped (s : Sched) (e : QueueEntry) (q : List QueueEntry) (t : Thread) :
    ((s.rotated e q).reaped t).readyQueue = q := by
  rw [reaped, queueDeleteFirst]
  simp only [readyQueue_releaseProcess, readyQueue_releaseStack, rotated, call]

theorem reaped_eq (s : Sched) (e : QueueEntry) (q : List QueueEntry) :
    (s.rotated e q).reaped e.thread =
      call (.kfree (.queueEntry e.block))
        { ((s.rotated e q).releaseStack e.thread).releaseProcess e.thread.parent with readyQueue := q } := by
  rw [reaped, queueDeleteFirst]
  simp only [readyQueue_releaseProcess, readyQueue_releaseStack, rotated]

/-! ### One turn -/

theorem dispatchTurn_eq (s : Sched) :
    s.dispatchTurn =
      match Rotation.rotate priorityOf s.readyQueue with
      | [] => none
      | e :: q =>
        match s.judge e with
        | .stop => some (false, s.rotated e q)
        | .keep => some (true, s.rotated e q)
        | .drop => some (true, (s.rotated e q).reaped e.thread) := by
  rw [dispatchTurn, queueRemove]
  cases hq : s.readyQueue with
  | nil => rfl
  | cons tmp rest =>
    simp only [queueInsertPrioritizedQueueEntry, enableScheduling, Rotation.rotate]
    cases hrot : Rotation.insertAfter priorityOf tmp rest with
    | nil => rfl
    | cons e q =>
      simp only [judge, verdict, queueGet, List.head?_cons, Option.map_some, pageDirectoryOf, rotated, reaped]
      cases e.thread.has threadTerminate with
      | true =>
        by_cases hdir : s.directory = (s.processes e.thread.parent).pageDirectory
        · simp [hdir]
        · simp [hdir]
      | false =>
        cases e.thread.has threadBlockSleep <;> cases e.thread.has threadSuspended <;> rfl

/-- Everything a turn can do. -/
theorem dispatchTurn_cases {s t : Sched} {again : Bool} (h : s.dispatchTurn = some (again, t)) :
    ∃ e q, Rotation.rotate priorityOf s.readyQueue = e :: q ∧
      (s.judge e = .stop ∧ again = false ∧ t = s.rotated e q ∨
        s.judge e = .keep ∧ again = true ∧ t = s.rotated e q ∨
        s.judge e = .drop ∧ again = true ∧ t = (s.rotated e q).reaped e.thread) := by
  rw [dispatchTurn_eq] at h
  cases hrot : Rotation.rotate priorityOf s.readyQueue with
  | nil => rw [hrot] at h; cases h
  | cons e q =>
    refine ⟨e, q, rfl, ?_⟩
    rw [hrot] at h
    cases hj : s.judge e with
    | stop =>
      simp only [hj, Option.some.injEq, Prod.mk.injEq] at h
      exact .inl ⟨rfl, h.1.symm, h.2.symm⟩
    | keep =>
      simp only [hj, Option.some.injEq, Prod.mk.injEq] at h
      exact .inr (.inl ⟨rfl, h.1.symm, h.2.symm⟩)
    | drop =>
      simp only [hj, Option.some.injEq, Prod.mk.injEq] at h
      exact .inr (.inr ⟨rfl, h.1.symm, h.2.symm⟩)

/-! ### The loop -/

/-- The queue of the loop is that of a run of rotations. -/
theorem schedulerDispatch_refines (n : Nat) (s : Sched) :
    (s.schedulerDispatch n).map readyQueue = Rotation.run priorityOf s.judge n s.readyQueue := by
  induction n generalizing s with
  | zero => rfl
  | succ n ih =>
    rw [schedulerDispatch, dispatchTurn_eq, Rotation.run]
    cases Rotation.rotate priorityOf s.readyQueue with
    | nil => rfl
    | cons e q =>
      cases hj : s.judge e with
      | stop => simp only [hj]; rfl
      | keep =>
        simp only [hj]
        exact ih (s.rotated e q)
      | drop =>
        simp only [hj]
        rw [ih, judge_reaped, readyQueue_reaped]
        rfl

/-- A dispatch is a turn, and after it the rest of the dispatch or nothing. -/
theorem schedulerDispatch_succ {s t : Sched} {n : Nat} (h : s.schedulerDispatch (n + 1) = some t) :
    ∃ s', (s.dispatchTurn = some (true, s') ∧ s'.schedulerDispatch n = some t) ∨
      s.dispatchTurn = some (false, t) := by
  rw [schedulerDispatch] at h
  cases hturn : s.dispatchTurn with
  | none => rw [hturn] at h; cases h
  | some r =>
    obtain ⟨again, s'⟩ := r
    rw [hturn] at h
    cases again with
    | true => exact ⟨s', .inl ⟨rfl, h⟩⟩
    | false =>
      obtain rfl := Option.some.inj h
      exact ⟨s', .inr rfl⟩

theorem schedulerDispatch_of_le {s t : Sched} {m n : Nat} (hle : m ≤ n)
    (h : s.schedulerDispatch m = some t) : s.schedulerDispatch n = some t := by
  induction m generalizing s n with
  | zero => cases h
  | succ m ih =>
    obtain ⟨n, rfl⟩ := Nat.exists_eq_succ_of_ne_zero (Nat.ne_of_gt (Nat.lt_of_lt_of_le m.succ_pos hle))
    rw [schedulerDispatch]
    obtain ⟨s', ⟨hturn, hrest⟩ | hturn⟩ := schedulerDispatch_succ h
    · rw [hturn]
      exact ih (Nat.le_of_succ_le_succ hle) hrest
    · rw [hturn]

/-- What a dispatch changes neither of the threads nor of the processes: it loses entries of the queue at most. -/
structure Keeps (s t : Sched) : Prop where
  queue : ∃ dropped, (t.readyQueue ++ dropped).Perm s.readyQueue
  processList : t.processList = s.processList
  fresh : t.fresh = s.fresh
  id : ∀ p, (t.processes p).id = (s.processes p).id

theorem Keeps.trans {s t u : Sched} (hst : Keeps s t) (htu : Keeps t u) : Keeps s u where
  queue := by
    obtain ⟨dropped, hperm⟩ := hst.queue
    obtain ⟨dropped', hperm'⟩ := htu.queue
    exact ⟨dropped' ++ dropped, (List.append_assoc ..) ▸ (hperm'.append_right dropped).trans hperm⟩
  processList := htu.processList.trans hst.processList
  fresh := htu.fresh.trans hst.fresh
  id p := (htu.id p).trans (hst.id p)

theorem Keeps.mem {s t : Sched} (h : Keeps s t) {e : QueueEntry} (he : e ∈ t.readyQueue) : e ∈ s.readyQueue := by
  obtain ⟨dropped, hperm⟩ := h.queue
  exact hperm.subset (List.mem_append_left _ he)

theorem Keeps.nodup {s t : Sched} (h : Keeps s t) {β : Type*} {f : QueueEntry → β}
    (hnodup : (s.readyQueue.map f).Nodup) : (t.readyQueue.map f).Nodup := by
  obtain ⟨dropped, hperm⟩ := h.queue
  have hall := (hperm.map f).nodup_iff.mpr hnodup
  rw [List.map_append] at hall
  exact hall.of_append_left

theorem keeps_rotated {s : Sched} {e : QueueEntry} {q : List QueueEntry}
    (hrot : Rotation.rotate priorityOf s.readyQueue = e :: q) : Keeps s (s.rotated e q) :=
  ⟨⟨[], by rw [List.append_nil, rotated, ← hrot]; exact Rotation.rotate_perm priorityOf s.readyQueue⟩, rfl, rfl,
    fun _ => rfl⟩

theorem keeps_releaseStack (s : Sched) (t : Thread) : Keeps s (s.releaseStack t) := by
  have hqueue : ∃ dropped, ((s.releaseStack t).readyQueue ++ dropped).Perm s.readyQueue :=
    ⟨[], by rw [List.append_nil, readyQueue_releaseStack]⟩
  unfold releaseStack at hqueue ⊢
  split at hqueue
  · next hnone =>
    rw [if_pos hnone]
    exact ⟨hqueue, rfl, rfl, fun _ => rfl⟩
  · next hsome =>
    rw [if_neg hsome]
    refine ⟨hqueue, rfl, rfl, fun p => ?_⟩
    dsimp only [updateProcess, call]
    split <;> rfl

theorem keeps_releaseProcess (s : Sched) (p : Nat) : Keeps s (s.releaseProcess p) := by
  unfold releaseProcess
  split <;> exact ⟨⟨[], by rw [List.append_nil]⟩, rfl, rfl, fun _ => rfl⟩

theorem keeps_queueDeleteFirst (s : Sched) : Keeps s s.queueDeleteFirst := by
  unfold queueDeleteFirst
  cases hq : s.readyQueue with
  | nil => exact ⟨⟨[], by rw [List.append_nil]⟩, rfl, rfl, fun _ => rfl⟩
  | cons e q =>
    refine ⟨⟨[e], ?_⟩, rfl, rfl, fun _ => rfl⟩
    rw [hq]
    exact List.perm_append_singleton e q

theorem keeps_of_dispatchTurn {s t : Sched} {again : Bool} (h : s.dispatchTurn = some (again, t)) : Keeps s t := by
  obtain ⟨e, q, hrot, ⟨-, -, rfl⟩ | ⟨-, -, rfl⟩ | ⟨-, -, rfl⟩⟩ := dispatchTurn_cases h
  · exact keeps_rotated hrot
  · exact keeps_rotated hrot
  · exact (keeps_rotated hrot).trans ((keeps_releaseStack _ _).trans
      ((keeps_releaseProcess _ _).trans (keeps_queueDeleteFirst _)))

theorem keeps_of_schedulerDispatch {s t : Sched} {n : Nat} (h : s.schedulerDispatch n = some t) : Keeps s t := by
  induction n generalizing s with
  | zero => cases h
  | succ n ih =>
    obtain ⟨s', ⟨hturn, hrest⟩ | hturn⟩ := schedulerDispatch_succ h
    · exact (keeps_of_dispatchTurn hturn).trans (ih hrest)
    · exact keeps_of_dispatchTurn hturn

/-- The task chosen is the head of the queue. -/
theorem currentTask_of_schedulerDispatch {n : Nat} {s t : Sched} (h : s.schedulerDispatch n = some t) :
    t.currentTask = t.queueGet := by
  induction n generalizing s with
  | zero => cases h
  | succ n ih =>
    obtain ⟨s', ⟨-, hrest⟩ | hturn⟩ := schedulerDispatch_succ h
    · exact ih hrest
    · obtain ⟨e, q, -, ⟨-, -, rfl⟩ | ⟨-, hagain, -⟩ | ⟨-, hagain, -⟩⟩ := dispatchTurn_cases hturn
      · rfl
      · cases hagain
      · cases hagain

/-- If an entry can run, the loop ends: a runnable entry is at the head and is the current task, and the
queue has lost nothing but dead threads of other address spaces. -/
theorem schedulerDispatch_of_runnable (s : Sched) (h : ∃ e ∈ s.readyQueue, e.thread.Runnable) :
    ∃ turns t, (∀ n ≥ turns, s.schedulerDispatch n = some t) ∧
      (∃ e q, t.readyQueue = e :: q ∧ t.currentTask = some e.block ∧ e.thread.Runnable) ∧
      ∃ removed, (t.readyQueue ++ removed).Perm s.readyQueue ∧
        ∀ e ∈ removed, e.thread.has threadTerminate = true ∧
          (s.processes e.thread.parent).pageDirectory ≠ s.directory := by
  obtain ⟨e, hmem, hrunnable⟩ := h
  have hends : Rotation.Ends priorityOf s.judge s.readyQueue :=
    Rotation.ends_of_mem (verdict_eq_stop_iff.mpr hrunnable) hmem
  obtain ⟨turns, r, hrun⟩ := hends
  have hrefines := schedulerDispatch_refines turns s
  rw [hrun] at hrefines
  obtain ⟨t, ht, rfl⟩ := Option.map_eq_some_iff.mp hrefines
  obtain ⟨⟨head, rest, hhead, hstop⟩, removed, hperm, hdropped⟩ := Rotation.run_spec hrun
  refine ⟨turns, t, fun n hn => schedulerDispatch_of_le hn ht, ?_, removed, hperm, ?_⟩
  · refine ⟨head, rest, hhead, ?_, verdict_eq_stop_iff.mp hstop⟩
    rw [currentTask_of_schedulerDispatch ht, queueGet, hhead]
    rfl
  · intro e he
    obtain ⟨hflag, hdir⟩ := verdict_eq_drop_iff.mp (hdropped e he)
    exact ⟨hflag, hdir.symm⟩

/-- Three entries: a sleeping one, a dead one of another address space, and one that can run. -/
def threeEntries : Sched where
  readyQueue :=
    [⟨0, ⟨0#32, 0, 1#32, threadRun ||| threadBlockSleep, 5#32, 0#32, 1⟩⟩,
      ⟨1, ⟨0xE0001000#32, 1, 2#32, threadRun ||| threadTerminate, 0#32, 0#32, 2⟩⟩,
      ⟨2, ⟨0#32, 0, 3#32, threadRun, 0#32, 0#32, 3⟩⟩]
  currentTask := some 0
  processes p :=
    { pageDirectory := if p = 0 then 0x100000#32 else 0x200000#32, id := p + 1, imageBase := 0#32,
      imageSize := 0#32, fileDescs := [], threadList := [], livingThreads := 2, isKernel := true,
      onTerminate := false, name := none }
  processList := [0]
  directory := 0x100000#32
  fresh := 3
  calls := []

theorem schedulerDispatch_of_runnable_threeEntries :
    ∃ turns t, (∀ n ≥ turns, threeEntries.schedulerDispatch n = some t) ∧
      (∃ e q, t.readyQueue = e :: q ∧ t.currentTask = some e.block ∧ e.thread.Runnable) ∧
      ∃ removed, (t.readyQueue ++ removed).Perm threeEntries.readyQueue ∧
        ∀ e ∈ removed, e.thread.has threadTerminate = true ∧
          (threeEntries.processes e.thread.parent).pageDirectory ≠ threeEntries.directory :=
  schedulerDispatch_of_runnable threeEntries
    ⟨⟨2, ⟨0#32, 0, 3#32, threadRun, 0#32, 0#32, 3⟩⟩, by decide, by decide⟩

end Sched

end Akos
