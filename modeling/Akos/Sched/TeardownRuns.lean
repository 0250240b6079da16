import Akos.Sched.Teardown

/-!
# Teardown over whole runs

Each operation of the kernel is one of the kinds of step the invariant is kept by: it changes nothing the
teardown reads, brings a process or a thread in, flags the threads of a process, or removes a dead thread.
-/

namespace Akos

/-! ### Flags -/

theorem Thread.has_threadSetState (t : Thread) {flags : BitVec 32} (h : flags &&& threadTerminate = 0#32) :
    (t.threadSetState flags).has threadTerminate = t.has threadTerminate := by
  rw [has, has, threadSetState, BitVec.and_or_distrib_right, h, BitVec.or_zero]

theorem Thread.has_threadRemoveState (t : Thread) {flags : BitVec 32}
    (h : ~~~flags &&& threadTerminate = threadTerminate) :
    (t.threadRemoveState flags).has threadTerminate = t.has threadTerminate := by
  rw [has, has, threadRemoveState, BitVec.and_assoc, h]

theorem Thread.has_threadSetState_terminate (t : Thread) :
    (t.threadSetState threadTerminate).has threadTerminate = true := by
  have hand : t.state &&& threadTerminate ||| threadTerminate = threadTerminate := by
    ext i hi
    rw [BitVec.getElem_or, BitVec.getElem_and]
    cases threadTerminate[i] <;> simp
  rw [has, threadSetState, BitVec.and_or_distrib_right, BitVec.and_self, hand]
  decide

/-- A thread with one of these ids is terminated. -/
def ThreadRef.flag (tids : List Int) (r : ThreadRef) : ThreadRef :=
  if r.tid ∈ tids then { r with dead := true } else r

theorem ThreadRef.flag_append (is js : List Int) (r : ThreadRef) :
    (r.flag is).flag js = r.flag (is ++ js) := by
  by_cases his : r.tid ∈ is <;> by_cases hjs : r.tid ∈ js <;> simp [flag, his, hjs]

@[simp] theorem ThreadRef.parent_flag (tids : List Int) (r : ThreadRef) : (r.flag tids).parent = r.parent := by
  rw [flag]
  split <;> rfl

@[simp] theorem ThreadRef.tid_flag (tids : List Int) (r : ThreadRef) : (r.flag tids).tid = r.tid := by
  rw [flag]
  split <;> rfl

namespace Sched

variable {s t : Sched}

/-! ### Changes of the queue -/

section SchedulingOff

variable (f : List QueueEntry → List QueueEntry) (s : Sched)

@[simp] theorem readyQueue_withSchedulingOff : (s.withSchedulingOff f).readyQueue = f s.readyQueue := by
  rw [withSchedulingOff]
  split <;> rfl

@[simp] theorem processes_withSchedulingOff : (s.withSchedulingOff f).processes = s.processes := by
  rw [withSchedulingOff]
  split <;> rfl

@[simp] theorem processList_withSchedulingOff : (s.withSchedulingOff f).processList = s.processList := by
  rw [withSchedulingOff]
  split <;> rfl

@[simp] theorem fresh_withSchedulingOff : (s.withSchedulingOff f).fresh = s.fresh := by
  rw [withSchedulingOff]
  split <;> rfl

@[simp] theorem calls_withSchedulingOff : (s.withSchedulingOff f).calls = s.calls := by
  rw [withSchedulingOff]
  split <;> rfl

end SchedulingOff

theorem freed_call_of_ne (s : Sched) {c : Call} {b : Block} (h : c ≠ .kfree b) :
    (s.call c).freed b = s.freed b := by
  rw [freed, call, List.count_append, List.count_singleton, if_neg (by simpa using h)]
  rfl

theorem freed_call_self (s : Sched) (b : Block) : (s.call (.kfree b)).freed b = s.freed b + 1 := by
  rw [freed, call, List.count_append, List.count_singleton_self]
  rfl

theorem refs_map (s : Sched) {g : QueueEntry → QueueEntry} (hg : ∀ e ∈ s.readyQueue, (g e).ref = e.ref) :
    (s.readyQueue.map g).map QueueEntry.ref = s.refs := by
  rw [List.map_map]
  exact List.map_congr_left hg

/-- The states agree in what the teardown reads, and the queue in its order. -/
theorem agrees_of_refs (hrefs : t.refs = s.refs) (hlist : t.processList = s.processList)
    (hproc : t.processes = s.processes) (hfresh : t.fresh = s.fresh) (hcalls : t.calls = s.calls) :
    Agrees s t where
  refs := hrefs ▸ List.Perm.refl _
  processList := hlist
  core p := by rw [hproc]
  fresh := hfresh.ge
  freed p := by rw [freed, freed, freed, freed, hcalls]; exact ⟨rfl, rfl⟩

theorem refs_updateCurrent (s : Sched) {f : Thread → Thread}
    (hf : ∀ t, (f t).tid = t.tid ∧ (f t).parent = t.parent ∧
      (f t).has threadTerminate = t.has threadTerminate) : (s.updateCurrent f).refs = s.refs := by
  refine s.refs_map fun e _ => ?_
  split
  · obtain ⟨htid, hparent, hflag⟩ := hf e.thread
    rw [QueueEntry.ref, QueueEntry.ref, htid, hparent, hflag]
  · rfl

theorem refs_threadSleep (s : Sched) (ms : BitVec 32) : (s.threadSleep ms).refs = s.refs :=
  s.refs_updateCurrent fun t => ⟨rfl, rfl, t.has_threadSetState (by decide)⟩

theorem refs_threadWake (s : Sched) : s.threadWake.refs = s.refs :=
  s.refs_updateCurrent fun t => ⟨rfl, rfl, t.has_threadRemoveState (by decide)⟩

theorem refs_threadSuspend (s : Sched) : s.threadSuspend.refs = s.refs :=
  s.refs_updateCurrent fun t => ⟨rfl, rfl, t.has_threadSetState (by decide)⟩

theorem refs_threadUnsuspend (s : Sched) : s.threadUnsuspend.refs = s.refs :=
  s.refs_updateCurrent fun t => ⟨rfl, rfl, t.has_threadRemoveState (by decide)⟩

theorem refs_unsuspendSuspendedThreads (s : Sched) (proc : Option Nat) :
    (s.unsuspendSuspendedThreads proc).refs = s.refs := by
  cases proc with
  | none => rfl
  | some p =>
    rw [unsuspendSuspendedThreads, refs, readyQueue_withSchedulingOff]
    refine s.refs_map fun e _ => ?_
    split
    · rw [QueueEntry.ref, QueueEntry.ref, Thread.has_threadRemoveState _ (by decide)]
      rfl
    · rfl

theorem refs_adjustTimeDelta (s : Sched) : s.adjustTimeDelta.refs = s.refs := by
  refine s.refs_map fun e _ => ?_
  have hflag : (tickThread e.thread).has threadTerminate = e.thread.has threadTerminate := by
    rw [tickThread]
    split
    · split
      · exact e.thread.has_threadRemoveState (by decide)
      · rfl
    · rfl
  have hrest : (tickThread e.thread).tid = e.thread.tid ∧ (tickThread e.thread).parent = e.thread.parent := by
    rw [tickThread]
    split
    · split <;> exact ⟨rfl, rfl⟩
    · exact ⟨rfl, rfl⟩
  rw [QueueEntry.ref, QueueEntry.ref, hflag, hrest.1, hrest.2]

theorem agrees_unsuspendSuspendedThreads (s : Sched) (proc : Option Nat) :
    Agrees s (s.unsuspendSuspendedThreads proc) := by
  have hrefs := s.refs_unsuspendSuspendedThreads proc
  cases proc with
  | none => exact Agrees.refl s
  | some p =>
    exact agrees_of_refs hrefs (processList_withSchedulingOff _ s) (processes_withSchedulingOff _ s)
      (fresh_withSchedulingOff _ s) (calls_withSchedulingOff _ s)

/-- A change of a descriptor that leaves what the teardown reads. -/
theorem agrees_updateProcess (s : Sched) (p : Nat) {f : Process → Process} (hf : ∀ proc, (f proc).core = proc.core) :
    Agrees s (s.updateProcess p f) where
  refs := List.Perm.refl _
  processList := rfl
  core q := by
    rw [updateProcess]
    dsimp only
    split
    · exact hf _
    · rfl
  fresh := Nat.le_refl _
  freed _ := ⟨rfl, rfl⟩

/-! ### New threads -/

theorem core_insertThreadToProc_self (s : Sched) (p : Nat) (b : ThreadBlock) :
    ((s.insertThreadToProc p b).processes p).core =
      ((s.processes p).id, (s.processes p).tids ++ [b.thread.tid], (s.processes p).livingThreads + 1,
        (s.processes p).name) := by
  rw [insertThreadToProc, updateProcess]
  dsimp only
  rw [if_pos rfl]
  simp only [Process.core, Process.tids, List.map_append, List.map_singleton]

theorem processes_insertThreadToProc_of_ne (s : Sched) {p q : Nat} (hq : q ≠ p) (b : ThreadBlock) :
    (s.insertThreadToProc p b).processes q = s.processes q := if_neg hq

theorem refs_startThread (s : Sched) (th : Thread) (block : Nat) :
    (s.startThread th block).refs = s.refs ++ [QueueEntry.ref ⟨block, th⟩] := by
  show ((s.queueInsert block th).readyQueue).map QueueEntry.ref = _
  rw [queueInsert, readyQueue_withSchedulingOff, List.map_append]
  rfl

theorem ref_threadCreate (s : Sched) (kernelESP initialStack priority : BitVec 32) (p block : Nat) :
    QueueEntry.ref ⟨block, s.threadCreate kernelESP initialStack priority p⟩ = ⟨s.getFreeTid, p, false⟩ := by
  have hflag : (s.threadCreate kernelESP initialStack priority p).has threadTerminate = false := by
    show (threadRun &&& threadTerminate != 0#32) = false
    decide
  rw [QueueEntry.ref, hflag]
  rfl

theorem joins_startThread (s : Sched) (kernelESP initialStack priority : BitVec 32) (p block : Nat) :
    Joins s (s.startThread (s.threadCreate kernelESP initialStack priority p) block) p s.getFreeTid where
  refs := by
    rw [refs_startThread, ref_threadCreate]
    exact List.perm_append_comm
  processList := processList_withSchedulingOff _ s
  other q hq := by
    rw [startThread]
    show ((insertThreadToProc p _ _).processes q).core = _
    rw [processes_insertThreadToProc_of_ne _ hq, queueInsert, processes_withSchedulingOff]
  self := by
    rw [startThread]
    show ((insertThreadToProc p _ _).processes p).core = _
    rw [core_insertThreadToProc_self, queueInsert, processes_withSchedulingOff]
    rfl
  fresh := (fresh_withSchedulingOff _ s).ge
  freed q := by
    have hcalls : (s.startThread (s.threadCreate kernelESP initialStack priority p) block).calls = s.calls :=
      calls_withSchedulingOff _ s
    rw [freed, freed, freed, freed, hcalls]
    exact ⟨rfl, rfl⟩

/-- The state between two calls: the thread at the head, which runs, is not dead. -/
structure Ready (s : Sched) : Prop where
  inv : Inv s
  staffed : Staffed s
  head : ∀ r, s.refs.head? = some r → r.dead = false

theorem Ready.of_agrees (hs : Ready s) (h : Agrees s t) (hrefs : t.refs = s.refs) : Ready t where
  inv := h.inv hs.inv
  staffed := h.staffed hs.staffed
  head r hr := hs.head r (hrefs ▸ hr)

theorem Ready.of_refs (hs : Ready s) (hrefs : t.refs = s.refs) (hlist : t.processList = s.processList)
    (hproc : t.processes = s.processes) (hfresh : t.fresh = s.fresh) (hcalls : t.calls = s.calls) : Ready t :=
  hs.of_agrees (agrees_of_refs hrefs hlist hproc hfresh hcalls) hrefs

/-- The process of the thread at the head is listed. -/
theorem Ready.head_mem (hs : Ready s) {e : QueueEntry} {q : List QueueEntry} (hq : s.readyQueue = e :: q) :
    e.thread.parent ∈ s.processList := by
  have hrefs : s.refs = e.ref :: q.map QueueEntry.ref := by rw [refs, hq, List.map_cons]
  have hdead : e.ref.dead = false := hs.head e.ref (by rw [hrefs, List.head?_cons])
  by_contra hnot
  have htrue := (hs.inv.dead_iff e.ref (hrefs ▸ List.mem_cons_self)).mpr hnot
  exact Bool.false_ne_true (hdead.symm.trans htrue)

theorem Ready.startThread (hs : Ready s) {p : Nat} (hp : p ∈ s.processList)
    (kernelESP initialStack priority : BitVec 32) (block : Nat) :
    Ready (s.startThread (s.threadCreate kernelESP initialStack priority p) block) := by
  have hjoins := s.joins_startThread kernelESP initialStack priority p block
  refine ⟨hjoins.inv hp hs.inv, hjoins.staffed fun q hq _ => hs.staffed q hq, fun r hr => ?_⟩
  rw [refs_startThread, ref_threadCreate] at hr
  cases hrefs : s.refs with
  | nil =>
    rw [hrefs] at hr
    exact Option.some.inj hr ▸ rfl
  | cons r' rest =>
    rw [hrefs] at hr
    exact hs.head r (hrefs ▸ hr)

/-- A new process with its main thread. -/
theorem Ready.spawn (hs : Ready s) {proc : Process} (hid : proc.id = s.getFreeID) (htids : proc.threadList = [])
    (hname : proc.name = some s.fresh) (current : Option Nat) (kernelESP initialStack priority : BitVec 32) :
    Ready ({ s.registerProcess proc with currentTask := current }.startThread
      (s.threadCreate kernelESP initialStack priority s.fresh) s.fresh) := by
  generalize hs' : { s.registerProcess proc with currentTask := current } = s'
  have hrefs : s'.refs = s.refs := by rw [← hs']; rfl
  have hlist : s'.processList = s.processList ++ [s.fresh] := by rw [← hs']; rfl
  have hthread : s.threadCreate kernelESP initialStack priority s.fresh =
      s'.threadCreate kernelESP initialStack priority s.fresh := by rw [← hs']; rfl
  have hagrees : Agrees (s.registerProcess proc) s' := by
    rw [← hs']
    exact agrees_of_refs rfl rfl rfl rfl rfl
  have hinv : Inv s' := hagrees.inv (hs.inv.registerProcess hid htids hname)
  have hjoins := s'.joins_startThread kernelESP initialStack priority s.fresh s.fresh
  rw [hthread]
  refine ⟨hjoins.inv (hlist ▸ List.mem_append_right _ List.mem_cons_self) hinv, ?_, fun r hr => ?_⟩
  · refine hjoins.staffed fun q hq hne => ?_
    rw [hlist] at hq
    have hold : q ∈ s.processList := (List.mem_append.mp hq).resolve_right fun h => hne (List.mem_singleton.mp h)
    rw [hrefs]
    exact hs.staffed q hold
  · rw [refs_startThread, ref_threadCreate, hrefs] at hr
    cases hold : s.refs with
    | nil =>
      rw [hold] at hr
      exact Option.some.inj hr ▸ rfl
    | cons r' rest =>
      rw [hold] at hr
      exact hs.head r (hold ▸ hr)

theorem Ready.createKernelProcess (hs : Ready s) (dir esp : BitVec 32) : Ready (s.createKernelProcess dir esp) := by
  rw [Sched.createKernelProcess]
  split
  · exact hs.spawn rfl rfl rfl _ esp esp priorityHigh
  · exact hs.spawn rfl rfl rfl s.currentTask esp esp priorityHigh

theorem Ready.createProcess (hs : Ready s) (image : Option ImageInfo) (dir esp stack : BitVec 32) :
    Ready (s.createProcess image dir esp stack) := by
  cases image with
  | none =>
    refine hs.of_agrees ⟨List.Perm.refl _, rfl, fun _ => rfl, Nat.le_refl _, fun p => ?_⟩ rfl
    show ((s.call _).call _).freed _ = _ ∧ ((s.call _).call _).freed _ = _
    simp [freed_call_of_ne]
  | some image => exact hs.spawn rfl rfl rfl _ esp (stack + stackSize) priorityMid

theorem Ready.idleTask (hs : Ready s) {esp : BitVec 32} (h : s.idleTask esp = some t) : Ready t := by
  rw [Sched.idleTask] at h
  cases hq : s.readyQueue with
  | nil => rw [hq] at h; cases h
  | cons e q =>
    rw [hq] at h
    cases h
    have hagrees : Agrees s { s.enableScheduling with fresh := s.fresh + 1 } :=
      ⟨List.Perm.refl _, rfl, fun _ => rfl, Nat.le_succ _, fun _ => ⟨rfl, rfl⟩⟩
    have hready : Ready { s.enableScheduling with fresh := s.fresh + 1 } := hs.of_agrees hagrees rfl
    exact hready.startThread (hs.head_mem hq) esp esp priorityLow s.fresh

theorem Ready.fork (hs : Ready s) {esp stack : BitVec 32} (h : s.fork esp stack = some t) : Ready t := by
  rw [Sched.fork] at h
  cases hq : s.readyQueue with
  | nil => rw [hq] at h; cases h
  | cons e q =>
    rw [hq] at h
    dsimp only at h
    generalize hth : s.threadCreate esp (stack + stackSize) e.thread.priority e.thread.parent = th at h
    have href : QueueEntry.ref ⟨s.fresh, th⟩ = ⟨s.getFreeTid, e.thread.parent, false⟩ := by
      rw [← hth, ref_threadCreate]
    have hparent : th.parent = e.thread.parent := by rw [← hth]; rfl
    obtain ⟨q', hq', hperm⟩ := Rotation.exists_insertAfter_cons priorityOf ⟨s.fresh, th⟩ e q
    have hqueue : t.readyQueue = e :: q' := by
      rw [← Option.some.inj h, ← hq', ← hq]
      rfl
    have hrefs : t.refs.Perm (⟨s.getFreeTid, e.thread.parent, false⟩ :: s.refs) := by
      rw [refs, refs, hqueue, hq, ← href]
      exact ((hperm.cons e).trans (List.Perm.swap _ e q)).map QueueEntry.ref
    have hjoins : Joins s t e.thread.parent s.getFreeTid := by
      refine ⟨hrefs, ?_, fun p hp => ?_, ?_, ?_, fun p => ?_⟩
      · rw [← Option.some.inj h]; rfl
      · rw [← Option.some.inj h]
        exact congrArg Process.core (processes_insertThreadToProc_of_ne _ (hparent ▸ hp) _)
      · rw [← Option.some.inj h, ← hparent]
        refine (core_insertThreadToProc_self _ _ _).trans ?_
        rw [show th.tid = s.getFreeTid from by rw [← hth]; rfl]
        rfl
      · rw [← Option.some.inj h]; exact Nat.le_succ _
      · rw [← Option.some.inj h]; exact ⟨rfl, rfl⟩
    refine ⟨hjoins.inv (hs.head_mem hq) hs.inv, hjoins.staffed fun p hp _ => hs.staffed p hp, fun r hr => ?_⟩
    refine hs.head r ?_
    rw [refs, hqueue] at hr
    rw [refs, hq]
    exact hr

/-! ### Terminating -/

theorem map_ref_updateByTid (tid : Int) {q : List QueueEntry} (hq : ((q.map QueueEntry.ref).map ThreadRef.tid).Nodup) :
    (updateByTid tid (·.threadSetState threadTerminate) q).map QueueEntry.ref =
      (q.map QueueEntry.ref).map (ThreadRef.flag [tid]) := by
  induction q with
  | nil => rfl
  | cons e q ih =>
    obtain ⟨hnot, htail⟩ := List.nodup_cons.mp hq
    rw [updateByTid]
    by_cases htid : e.thread.tid = tid
    · have hrest : (q.map QueueEntry.ref).map (ThreadRef.flag [tid]) = q.map QueueEntry.ref := by
        conv_rhs => rw [← List.map_id (q.map QueueEntry.ref)]
        refine List.map_congr_left fun r hr => if_neg fun hmem => hnot ?_
        rw [List.mem_singleton] at hmem
        exact List.mem_map.mpr ⟨r, hr, hmem.trans htid.symm⟩
      have hself : QueueEntry.ref { e with thread := e.thread.threadSetState threadTerminate } = e.ref.flag [tid] := by
        have hmem : e.ref.tid ∈ [tid] := List.mem_singleton.mpr htid
        rw [ThreadRef.flag, if_pos hmem, QueueEntry.ref, Thread.has_threadSetState_terminate]
        rfl
      rw [if_pos htid, List.map_cons, List.map_cons, List.map_cons, hrest, hself]
    · have hself : e.ref.flag [tid] = e.ref := if_neg fun hmem => htid (List.mem_singleton.mp hmem)
      rw [if_neg htid, List.map_cons, List.map_cons, List.map_cons, ih htail, hself]

/-- Threads with these ids are flagged and nothing else changes. -/
structure Flags (s t : Sched) (tids : List Int) : Prop where
  refs : t.refs = s.refs.map (ThreadRef.flag tids)
  processList : t.processList = s.processList
  processes : t.processes = s.processes
  fresh : t.fresh = s.fresh
  freed : ∀ p, t.freed (.process p) = s.freed (.process p) ∧ t.freed (.name p) = s.freed (.name p)

namespace Flags

variable {u : Sched} {is js : List Int}

theorem of_refs (hrefs : t.refs = s.refs) (hlist : t.processList = s.processList)
    (hproc : t.processes = s.processes) (hfresh : t.fresh = s.fresh)
    (hfreed : ∀ p, t.freed (.process p) = s.freed (.process p) ∧ t.freed (.name p) = s.freed (.name p)) :
    Flags s t [] := by
  refine ⟨?_, hlist, hproc, hfresh, hfreed⟩
  rw [hrefs]
  exact (List.map_id'' (fun r => if_neg List.not_mem_nil) s.refs).symm

theorem call (s : Sched) {c : Call} (hproc : ∀ p, c ≠ .kfree (.process p)) (hname : ∀ p, c ≠ .kfree (.name p)) :
    Flags s (s.call c) [] :=
  of_refs rfl rfl rfl rfl fun p => ⟨s.freed_call_of_ne (hproc p), s.freed_call_of_ne (hname p)⟩

theorem trans (h : Flags s t is) (h' : Flags t u js) : Flags s u (is ++ js) where
  refs := by
    rw [h'.refs, h.refs, List.map_map]
    exact List.map_congr_left fun r _ => r.flag_append is js
  processList := h'.processList.trans h.processList
  processes := h'.processes.trans h.processes
  fresh := h'.fresh.trans h.fresh
  freed p := ⟨(h'.freed p).1.trans (h.freed p).1, (h'.freed p).2.trans (h.freed p).2⟩

theorem tids (h : Flags s t is) : t.refs.map ThreadRef.tid = s.refs.map ThreadRef.tid := by
  rw [h.refs, List.map_map]
  exact List.map_congr_left fun r _ => r.tid_flag is

theorem removeByTid (hs : (s.refs.map ThreadRef.tid).Nodup) (tid : Int) : Flags s (s.removeByTid tid) [tid] where
  refs := by
    rw [Sched.removeByTid, threadSetStateById, Sched.refs, readyQueue_withSchedulingOff]
    exact map_ref_updateByTid tid hs
  processList := processList_withSchedulingOff _ s
  processes := processes_withSchedulingOff _ s
  fresh := fresh_withSchedulingOff _ s
  freed p := by
    rw [Sched.removeByTid, threadSetStateById, Sched.freed, Sched.freed, Sched.freed, Sched.freed,
      calls_withSchedulingOff]
    exact ⟨rfl, rfl⟩

theorem releaseThreads (dir : BitVec 32) (ts : List ThreadBlock) (hs : (s.refs.map ThreadRef.tid).Nodup) :
    Flags s (s.releaseThreads dir ts) (ts.map fun t => t.thread.tid) := by
  induction ts generalizing s with
  | nil => exact of_refs rfl rfl rfl rfl fun _ => ⟨rfl, rfl⟩
  | cons t ts ih =>
    rw [Sched.releaseThreads]
    have hunmap :=
      call s (c := .freeVirt dir (t.thread.initialStack - stackSize)) (fun _ h => by cases h) fun _ h => by cases h
    have hflag := hunmap.trans (removeByTid (hunmap.tids ▸ hs) t.thread.tid)
    have hfree := hflag.trans (call _ (c := .kfree (.thread t.block)) (fun _ h => by cases h) fun _ h => by cases h)
    exact hfree.trans (ih (hfree.tids ▸ hs))

theorem releaseKernelThreads (ts : List ThreadBlock) (hs : (s.refs.map ThreadRef.tid).Nodup) :
    Flags s (s.releaseKernelThreads ts) (ts.map fun t => t.thread.tid) := by
  induction ts generalizing s with
  | nil => exact of_refs rfl rfl rfl rfl fun _ => ⟨rfl, rfl⟩
  | cons t ts ih =>
    rw [Sched.releaseKernelThreads]
    have hfree := (removeByTid hs t.thread.tid).trans
      (call _ (c := .kfree (.thread t.block)) (fun _ h => by cases h) fun _ h => by cases h)
    exact hfree.trans (ih (hfree.tids ▸ hs))

theorem closeFiles (ns : List Nat) (s : Sched) : Flags s (s.closeFiles ns) [] := by
  induction ns generalizing s with
  | nil => exact of_refs rfl rfl rfl rfl fun _ => ⟨rfl, rfl⟩
  | cons n ns ih =>
    have hclose := (call s (c := .closeFile n) (fun _ h => by cases h) fun _ h => by cases h).trans
      (call _ (c := .kfree (.fileDesc n)) (fun _ h => by cases h) fun _ h => by cases h)
    exact hclose.trans (ih _)

end Flags

/-- With distinct keys, erasing the first entry of a key takes out that entry only. -/
theorem mem_eraseP_of_nodup {β : Type*} [DecidableEq β] (f : Nat → β) {l : List Nat} (hl : (l.map f).Nodup)
    {p : Nat} (hp : p ∈ l) (q : Nat) : (q ∈ l.eraseP fun x => f x = f p) ↔ q ∈ l ∧ q ≠ p := by
  induction l with
  | nil => exact absurd hp List.not_mem_nil
  | cons x l ih =>
    obtain ⟨hnot, htail⟩ := List.nodup_cons.mp hl
    have hkey : ∀ y ∈ l, f y ≠ f x := fun y hy heq => hnot (heq ▸ List.mem_map_of_mem hy)
    cases List.mem_cons.mp hp with
    | inl heq =>
      subst heq
      have herase : ((p :: l).eraseP fun x => f x = f p) = l := List.eraseP_cons_of_pos (by simp)
      rw [herase, List.mem_cons, or_and_right]
      have hne : q ∈ l → q ≠ p := fun hq heq => hkey q hq (congrArg f heq)
      constructor
      · exact fun hq => .inr ⟨hq, hne hq⟩
      · rintro (⟨heq, hneq⟩ | ⟨hq, -⟩)
        · exact absurd heq hneq
        · exact hq
    | inr hmem =>
      have hxp : f x ≠ f p := (hkey p hmem).symm
      have herase : ((x :: l).eraseP fun x => f x = f p) = x :: l.eraseP fun x => f x = f p :=
        List.eraseP_cons_of_neg (by simpa using hxp)
      rw [herase, List.mem_cons, List.mem_cons, ih htail hmem, or_and_right]
      refine or_congr_left (iff_self_and.mpr ?_)
      rintro rfl rfl
      exact hxp rfl

theorem getProcessByID_eq_some {pid : Int} {p : Nat} (h : s.getProcessByID pid = some p) :
    p ∈ s.processList ∧ (s.processes p).id = pid := by
  rw [getProcessByID] at h
  have hid := List.find?_some h
  exact ⟨List.mem_of_find?_eq_some h, of_decide_eq_true hid⟩

/-- Out of the list, and every thread the process knows flagged. -/
theorem Inv.terminates (hs : Inv s) {p : Nat} (hp : p ∈ s.processList) {a : Sched} (hcalls : Flags s a [])
    (hflags : Flags (a.removeProcessFromList (s.processes p).id) t (s.processes p).tids) : Terminates s t p where
  refs := by
    have hrefs : (a.removeProcessFromList (s.processes p).id).refs = s.refs :=
      hcalls.refs.trans (List.map_id'' (fun r => if_neg List.not_mem_nil) s.refs)
    rw [hflags.refs, hrefs]
    refine List.map_congr_left fun r hr => ?_
    rw [ThreadRef.flag, ThreadRef.kill]
    exact if_congr (hs.threads p hp r hr) rfl rfl
  sublist := by
    rw [hflags.processList, removeProcessFromList, hcalls.processList]
    exact List.eraseP_sublist
  mem q := by
    rw [hflags.processList, removeProcessFromList, hcalls.processList, hcalls.processes]
    exact mem_eraseP_of_nodup (fun q => (s.processes q).id) hs.ids hp q
  processes := hflags.processes.trans hcalls.processes
  fresh := hflags.fresh.trans hcalls.fresh
  freed q := ⟨(hflags.freed q).1.trans (hcalls.freed q).1, (hflags.freed q).2.trans (hcalls.freed q).2⟩

theorem Flags.disableScheduling (s : Sched) : Flags s s.disableScheduling [] :=
  of_refs rfl rfl rfl rfl fun _ => ⟨rfl, rfl⟩

theorem Flags.enableScheduling (s : Sched) : Flags s s.enableScheduling [] :=
  of_refs rfl rfl rfl rfl fun _ => ⟨rfl, rfl⟩

theorem Flags.removeWindows (s : Sched) (id : Int) : Flags s (s.call (.removeWindowsByPid id)) [] :=
  Flags.call s (fun _ h => by cases h) fun _ h => by cases h

theorem Flags.freeImage (s : Sched) (proc : Process) : Flags s (s.freeImage proc) [] := by
  rw [Sched.freeImage]
  have himage := Flags.call s
    (c := .freeVirtRange proc.pageDirectory proc.imageBase (proc.imageBase + imagePages proc))
    (fun _ h => by cases h) fun _ h => by cases h
  exact himage.trans (Flags.call _ (fun _ h => by cases h) fun _ h => by cases h)

theorem Inv.terminateProcessById (hs : Inv s) {pid : Int} {p : Nat} (hfind : s.getProcessByID pid = some p) :
    Terminates s (s.terminateProcessById pid) p := by
  obtain ⟨hp, -⟩ := getProcessByID_eq_some hfind
  have hwindows := Flags.removeWindows s (s.processes p).id
  refine hs.terminates hp hwindows ?_
  rw [Sched.terminateProcessById, hfind]
  have hopen := ((Flags.disableScheduling ((s.call (.removeWindowsByPid (s.processes p).id)).removeProcessFromList
    (s.processes p).id)).trans (Flags.freeImage _ (s.processes p))).trans
      (Flags.closeFiles (s.processes p).fileDescs _)
  have hnodup : ((s.call (.removeWindowsByPid (s.processes p).id)).refs.map ThreadRef.tid).Nodup :=
    hwindows.tids ▸ hs.tids
  have hthreads := hopen.trans (Flags.releaseThreads (s.processes p).pageDirectory (s.processes p).threadList
    (hopen.tids ▸ hnodup))
  have hall := hthreads.trans (Flags.enableScheduling _)
  rw [List.nil_append, List.nil_append, List.append_nil] at hall
  exact hall

/-- Termination of a kernel process frees its descriptor at once, with its threads still in the queue. -/
theorem Inv.not_sound_terminateKernelProcessById (hs : Inv s) (hst : Staffed s) {pid : Int} {p : Nat}
    (hfind : s.getProcessByID pid = some p) : ¬ Sound (s.terminateKernelProcessById pid) := by
  obtain ⟨hp, -⟩ := getProcessByID_eq_some hfind
  obtain ⟨r, hr, hparent⟩ := hst p hp
  intro hsound
  rw [Sched.terminateKernelProcessById, hfind] at hsound
  dsimp only at hsound
  generalize hcalled : (if (s.processes p).onTerminate = true then s.call .onTerminate else s) = a at hsound
  have ha : Flags s a [] := by
    rw [← hcalled]
    split
    · exact Flags.call s (fun _ h => by cases h) fun _ h => by cases h
    · exact Flags.of_refs rfl rfl rfl rfl fun _ => ⟨rfl, rfl⟩
  have hwindows := ha.trans (Flags.removeWindows a (s.processes p).id)
  generalize hb : (a.call (.removeWindowsByPid (s.processes p).id)).removeProcessFromList (s.processes p).id = b
    at hsound
  have hbrefs : b.refs.map ThreadRef.tid = s.refs.map ThreadRef.tid := by
    rw [← hb]
    exact hwindows.tids
  have hparents : b.refs.map ThreadRef.parent = s.refs.map ThreadRef.parent := by
    rw [← hb]
    show (a.call (.removeWindowsByPid (s.processes p).id)).refs.map ThreadRef.parent = _
    rw [hwindows.refs, List.map_map]
    exact List.map_congr_left fun r _ => r.parent_flag _
  have hthreads := (Flags.disableScheduling b).trans
    (Flags.releaseKernelThreads (s.processes p).threadList (hbrefs ▸ hs.tids))
  generalize hc : b.disableScheduling.releaseKernelThreads (s.processes p).threadList = c at hsound hthreads
  generalize hd : c.kfreeName (s.processes p).name = d at hsound
  have hqueue : d.readyQueue = c.readyQueue := by
    rw [← hd]
    cases (s.processes p).name <;> rfl
  have hfinal : ∃ e ∈ (d.call (.kfree (.process p))).enableScheduling.readyQueue, e.thread.parent = p := by
    have hmem : p ∈ c.refs.map ThreadRef.parent := by
      have hflagged : c.refs.map ThreadRef.parent = b.refs.map ThreadRef.parent := by
        rw [hthreads.refs, List.map_map]
        exact List.map_congr_left fun r _ => r.parent_flag _
      rw [hflagged, hparents]
      exact List.mem_map.mpr ⟨r, hr, hparent⟩
    obtain ⟨r', hr', heq⟩ := List.mem_map.mp hmem
    obtain ⟨e, he, rfl⟩ := List.mem_map.mp hr'
    exact ⟨e, hqueue ▸ he, heq⟩
  obtain ⟨e, he, heq⟩ := hfinal
  have hkept := hsound.parent_kept e he
  rw [heq] at hkept
  have hfreed : (d.call (.kfree (.process p))).enableScheduling.freed (.process p) = d.freed (.process p) + 1 :=
    d.freed_call_self (.process p)
  omega

/-! ### Turns of the dispatcher -/

theorem agrees_rotated {e : QueueEntry} {q : List QueueEntry}
    (hrot : Rotation.rotate priorityOf s.readyQueue = e :: q) : Agrees s (s.rotated e q) where
  refs := (hrot ▸ Rotation.rotate_perm priorityOf s.readyQueue).map QueueEntry.ref
  processList := rfl
  core _ := rfl
  fresh := Nat.le_refl _
  freed _ := ⟨rfl, rfl⟩

theorem freed_releaseProcess (s : Sched) (p : Nat) (b : Block) :
    (s.releaseProcess p).freed b =
      s.freed b + if (s.processes p).livingThreads = 0 then (releaseCalls p (s.processes p)).count (.kfree b) else 0 := by
  rw [releaseProcess]
  split
  · exact List.count_append
  · rfl

theorem count_releaseCalls_process (p : Nat) (proc : Process) (q : Nat) :
    (releaseCalls p proc).count (.kfree (.process q)) = if q = p then 1 else 0 := by
  rw [releaseCalls]
  by_cases hq : q = p
  · cases proc.name <;> simp [hq]
  · cases proc.name <;> simp [hq, Ne.symm hq]

theorem count_releaseCalls_name (p : Nat) (proc : Process) (q : Nat) :
    (releaseCalls p proc).count (.kfree (.name q)) = if proc.name = some q then 1 else 0 := by
  rw [releaseCalls]
  cases proc.name with
  | none => simp
  | some n => by_cases hq : n = q <;> simp [hq]

theorem removes_reaped {e : QueueEntry} {q : List QueueEntry}
    (hrot : Rotation.rotate priorityOf s.readyQueue = e :: q) (hdead : e.thread.has threadTerminate = true) :
    Removes s ((s.rotated e q).reaped e.thread) e.ref := by
  have hperm : (e.ref :: ((s.rotated e q).reaped e.thread).refs).Perm s.refs := by
    rw [refs, readyQueue_reaped]
    exact (hrot ▸ Rotation.rotate_perm priorityOf s.readyQueue).map QueueEntry.ref
  rw [reaped_eq] at hperm ⊢
  generalize ha : (s.rotated e q).releaseStack e.thread = a at hperm ⊢
  have hlist : a.processList = s.processList := by rw [← ha, releaseStack]; split <;> rfl
  have hfresh : a.fresh = s.fresh := by rw [← ha, releaseStack]; split <;> rfl
  have hother : ∀ p, p ≠ e.thread.parent → a.processes p = s.processes p := by
    intro p hp
    rw [← ha, releaseStack]
    split
    · rfl
    · exact if_neg hp
  have hself : ∃ n, a.processes e.thread.parent = { s.processes e.thread.parent with livingThreads := n } ∧
      (n = (s.processes e.thread.parent).livingThreads ∨
        n = decrement (s.processes e.thread.parent).livingThreads) := by
    rw [← ha, releaseStack]
    split
    · exact ⟨_, rfl, .inl rfl⟩
    · exact ⟨_, if_pos rfl, .inr rfl⟩
  have hfreed : ∀ b, a.freed b = s.freed b := by
    intro b
    rw [← ha, releaseStack]
    split
    · rfl
    · exact freed_call_of_ne (s.rotated e q) (fun h => by cases h)
  obtain ⟨n, hproc, hn⟩ := hself
  have hname : (a.processes e.thread.parent).name = (s.processes e.thread.parent).name := by rw [hproc]
  have hprocesses : (a.releaseProcess e.thread.parent).processes = a.processes := by
    rw [releaseProcess]
    split <;> rfl
  refine ⟨hperm, hdead, ?_, fun p hp => ?_, ⟨n, ?_, hn⟩, ?_, fun p => ?_, fun p => ?_⟩
  · refine Eq.trans ?_ hlist
    show (a.releaseProcess e.thread.parent).processList = a.processList
    rw [releaseProcess]
    split <;> rfl
  · exact (congrFun hprocesses p).trans (hother p hp)
  · exact (congrFun hprocesses _).trans hproc
  · refine Eq.trans ?_ hfresh
    show (a.releaseProcess e.thread.parent).fresh = a.fresh
    rw [releaseProcess]
    split <;> rfl
  · rw [freed_call_of_ne _ (show Call.kfree (.queueEntry e.block) ≠ .kfree (.process p) from (fun h => by cases h))]
    show (a.releaseProcess e.thread.parent).freed (.process p) =
      s.freed (.process p) + if p = e.thread.parent ∧
        ((a.releaseProcess e.thread.parent).processes e.thread.parent).livingThreads = 0 then 1 else 0
    rw [freed_releaseProcess, hfreed, count_releaseCalls_process, hprocesses]
    by_cases hzero : (a.processes e.thread.parent).livingThreads = 0 <;> simp [hzero]
  · rw [freed_call_of_ne _ (show Call.kfree (.queueEntry e.block) ≠ .kfree (.name p) from (fun h => by cases h))]
    show (a.releaseProcess e.thread.parent).freed (.name p) =
      s.freed (.name p) + if (s.processes e.thread.parent).name = some p ∧
        ((a.releaseProcess e.thread.parent).processes e.thread.parent).livingThreads = 0 then 1 else 0
    rw [freed_releaseProcess, hfreed, count_releaseCalls_name, hname, hprocesses]
    by_cases hzero : (a.processes e.thread.parent).livingThreads = 0 <;> simp [hzero]

end Sched

namespace Kernel

open Sched (Ready Inv Staffed Agrees agrees_rotated removes_reaped verdict_eq_stop_iff verdict_eq_drop_iff)

/-- The condition on a run: no process is torn down as a kernel process while it is listed. -/
def Spares (k : Kernel) : Op → Prop
  | .terminateKernelProcessById pid => k.sched.getProcessByID pid = none
  | .terminateProcess => ∀ p, k.sched.getRunningProcess = some p → (k.sched.processes p).isKernel = true →
      (k.sched.processes p).id = procInvalidId ∨ k.sched.getProcessByID (k.sched.processes p).id = none
  | _ => True

def SparingStep (k : Kernel) (op : Op) (k' : Kernel) : Prop := k.Spares op ∧ Step k op k'

/-- The invariant of the kernel: outside the dispatcher the thread at the head is not dead. -/
structure Good (k : Kernel) : Prop where
  inv : Inv k.sched
  staffed : Staffed k.sched
  head : k.inDispatch = false → ∀ r, k.sched.refs.head? = some r → r.dead = false

variable {k k' : Kernel} {s : Sched}

theorem Good.of_ready (h : Ready s) (b : Bool) : Good ⟨s, b⟩ := ⟨h.inv, h.staffed, fun _ => h.head⟩

theorem Good.ready (h : Good k) (hout : k.inDispatch = false) : Ready k.sched := ⟨h.inv, h.staffed, h.head hout⟩

theorem good_schedule (h : Ready s) : Good (schedule s) := Good.of_ready h _

theorem good_resume (h : Ready s) : Good (resume s) := Good.of_ready h _

theorem good_byCurrent {h : Good k'} {k'' : Kernel} (hcall : byCurrent s k' = some k'') : Good k'' := by
  rw [byCurrent] at hcall
  split at hcall
  · exact Option.some.inj hcall ▸ h
  · cases hcall

/-- A process that is not listed is not torn down. -/
theorem terminateKernelProcessById_of_none {pid : Int} (h : s.getProcessByID pid = none) :
    s.terminateKernelProcessById pid = s := by
  rw [Sched.terminateKernelProcessById, h]

theorem terminated_of_none {t : Sched} {pid : Int} (h : s.getProcessByID pid = none) :
    terminated s t pid = resume t := by
  rw [terminated, h]
  rfl

theorem terminated_of_some {t : Sched} {pid : Int} {p : Nat} (h : s.getProcessByID pid = some p) :
    terminated s t pid = schedule t := by
  rw [terminated, h]
  rfl

/-- With scheduling on and a thread in the queue, `schedule` enters the dispatcher. -/
theorem schedule_enableScheduling {t : Sched} {e : QueueEntry} (he : e ∈ t.readyQueue) :
    (schedule t.enableScheduling).inDispatch = true := by
  rw [schedule, Sched.enableScheduling, Sched.queueGet]
  cases hq : t.readyQueue with
  | nil =>
    rw [hq] at he
    exact absurd he List.not_mem_nil
  | cons _ _ => rfl

theorem good_terminateProcessById (hs : Ready s) (pid : Int) :
    Good (terminated s (s.terminateProcessById pid) pid) := by
  cases hfind : s.getProcessByID pid with
  | none =>
    rw [terminated_of_none hfind, Sched.terminateProcessById, hfind]
    exact good_resume hs
  | some p =>
    have hterm := hs.inv.terminateProcessById hfind
    rw [terminated_of_some hfind]
    refine ⟨hterm.inv hs.inv, hterm.staffed hs.staffed, fun hout => ?_⟩
    -- its own threads are still queued, so the call ends in the dispatcher
    obtain ⟨r, hr, -⟩ := hs.staffed p (Sched.getProcessByID_eq_some hfind).1
    have hmem : r.kill p ∈ (s.terminateProcessById pid).refs := hterm.refs ▸ List.mem_map_of_mem hr
    obtain ⟨e, he, -⟩ := List.mem_map.mp hmem
    have hcurrent : ∃ t : Sched, s.terminateProcessById pid = t.enableScheduling := by
      rw [Sched.terminateProcessById, hfind]
      exact ⟨_, rfl⟩
    obtain ⟨t, ht⟩ := hcurrent
    rw [ht] at hout he
    exact absurd (schedule_enableScheduling (t := t) he) (by rw [hout]; exact Bool.false_ne_true)

theorem good_terminateKernelProcessById (hs : Ready s) {pid : Int} (hfind : s.getProcessByID pid = none) :
    Good (terminated s (s.terminateKernelProcessById pid) pid) := by
  rw [terminated_of_none hfind, terminateKernelProcessById_of_none hfind]
  exact good_resume hs

theorem good_dispatchTurn (hk : Good k) {again : Bool} (hturn : k.sched.dispatchTurn = some (again, s)) :
    Good ⟨s, again⟩ := by
  obtain ⟨e, q, hrot, ⟨hstop, rfl, rfl⟩ | ⟨-, rfl, rfl⟩ | ⟨hdrop, rfl, rfl⟩⟩ := Sched.dispatchTurn_cases hturn
  · have hagrees := agrees_rotated hrot
    refine ⟨hagrees.inv hk.inv, hagrees.staffed hk.staffed, fun _ r hr => ?_⟩
    obtain rfl := Option.some.inj hr
    exact (verdict_eq_stop_iff.mp hstop).1
  · have hagrees := agrees_rotated hrot
    exact ⟨hagrees.inv hk.inv, hagrees.staffed hk.staffed, fun hout => by cases hout⟩
  · have hremoves := removes_reaped hrot (verdict_eq_drop_iff.mp hdrop).1
    exact ⟨hremoves.inv hk.inv, hremoves.staffed hk.inv hk.staffed, fun hout => by cases hout⟩

/-- Every operation outside the dispatcher keeps the invariant. -/
theorem good_applyCall (hs : Ready s) {op : Op} (hspares : (resume s).Spares op)
    (hcall : applyCall s op = some k') : Good k' := by
  cases op with
  | createKernelProcess dir esp => exact Option.some.inj hcall ▸ good_resume (hs.createKernelProcess dir esp)
  | createProcess image dir esp stack =>
    exact good_byCurrent (h := good_resume (hs.createProcess image dir esp stack)) hcall
  | fork esp stack =>
    obtain ⟨t, ht, rfl⟩ := Option.map_eq_some_iff.mp hcall
    exact good_resume (hs.fork ht)
  | idleTask esp =>
    obtain ⟨t, ht, rfl⟩ := Option.map_eq_some_iff.mp hcall
    exact good_resume (hs.idleTask ht)
  | appendFd =>
    obtain ⟨p, -, rfl⟩ := Option.map_eq_some_iff.mp hcall
    have hfresh : Agrees s { s with fresh := s.fresh + 1 } :=
      ⟨List.Perm.refl _, rfl, fun _ => rfl, Nat.le_succ _, fun _ => ⟨rfl, rfl⟩⟩
    exact good_resume (hs.of_agrees (hfresh.trans (Sched.agrees_updateProcess _ p fun _ => rfl)) rfl)
  | setOnTerminate =>
    obtain ⟨p, -, rfl⟩ := Option.map_eq_some_iff.mp hcall
    exact good_resume (hs.of_agrees (Sched.agrees_updateProcess s p fun _ => rfl) rfl)
  | threadSleep ms =>
    exact good_byCurrent (h := good_schedule (hs.of_refs (s.refs_threadSleep ms) rfl rfl rfl rfl)) hcall
  | threadWake => exact good_byCurrent (h := good_resume (hs.of_refs s.refs_threadWake rfl rfl rfl rfl)) hcall
  | threadSuspend =>
    exact good_byCurrent (h := good_schedule (hs.of_refs s.refs_threadSuspend rfl rfl rfl rfl)) hcall
  | threadUnsuspend =>
    exact good_byCurrent (h := good_resume (hs.of_refs s.refs_threadUnsuspend rfl rfl rfl rfl)) hcall
  | unsuspendSuspendedThreads pid =>
    exact Option.some.inj hcall ▸ good_resume
      (hs.of_agrees (s.agrees_unsuspendSuspendedThreads _) (s.refs_unsuspendSuspendedThreads _))
  | terminateKernelProcessById pid =>
    exact Option.some.inj hcall ▸ good_terminateKernelProcessById hs hspares
  | terminateProcessById pid => exact Option.some.inj hcall ▸ good_terminateProcessById hs pid
  | terminateProcess =>
    obtain ⟨p, hp, rfl⟩ := Option.map_eq_some_iff.mp hcall
    rw [Sched.terminateProcess, hp]
    dsimp only
    by_cases hinvalid : (s.processes p).id = procInvalidId
    · rw [if_pos hinvalid, terminated]
      split
      · exact good_schedule hs
      · exact good_resume hs
    · rw [if_neg hinvalid]
      cases hkernel : (s.processes p).isKernel with
      | true => exact good_terminateKernelProcessById hs ((hspares p hp hkernel).resolve_left hinvalid)
      | false => exact good_terminateProcessById hs _
  | switchPdirectory dir => exact Option.some.inj hcall ▸ good_resume (hs.of_refs rfl rfl rfl rfl rfl)
  | interrupt => exact Option.some.inj hcall ▸ good_schedule hs
  | adjustTimeDelta =>
    exact Option.some.inj hcall ▸ good_resume (hs.of_refs s.refs_adjustTimeDelta rfl rfl rfl rfl)
  | dispatchTurn => cases hcall

theorem applyCall_of_step {op : Op} (hout : k.inDispatch = false) (hstep : Step k op k') :
    applyCall k.sched op = some k' := by
  simp only [Step, apply, hout, Bool.false_eq_true, if_false] at hstep
  exact hstep

/-- In the dispatcher only its loop goes on. -/
theorem dispatchTurn_of_step {op : Op} (hin : k.inDispatch = true) (hstep : Step k op k') :
    op = .dispatchTurn ∧ ∃ again s, k.sched.dispatchTurn = some (again, s) ∧ k' = ⟨s, again⟩ := by
  simp only [Step, apply, hin, if_true] at hstep
  cases op with
  | dispatchTurn =>
    obtain ⟨⟨again, s⟩, hturn, rfl⟩ := Option.map_eq_some_iff.mp hstep
    exact ⟨rfl, again, s, hturn, rfl⟩
  | _ => cases hstep

theorem good_of_step (hk : Good k) {op : Op} (hstep : SparingStep k op k') : Good k' := by
  obtain ⟨hspares, hstep⟩ := hstep
  cases hphase : k.inDispatch with
  | false =>
    refine good_applyCall (hk.ready hphase) ?_ (applyCall_of_step hphase hstep)
    cases op <;> exact hspares
  | true =>
    obtain ⟨-, again, s, hturn, rfl⟩ := dispatchTurn_of_step hphase hstep
    exact good_dispatchTurn hk hturn

/-! ### From boot -/

theorem ready_empty (dir : BitVec 32) : Ready (empty dir) where
  inv := by
    have hnone : ∀ p, ¬ (empty dir).Alive p := by
      rintro p (hp | ⟨r, hr, -⟩)
      · exact List.not_mem_nil hp
      · exact List.not_mem_nil hr
    exact ⟨List.nodup_nil, List.nodup_nil, fun p hp => absurd hp (hnone p), fun r hr => absurd hr List.not_mem_nil,
      fun p hp => absurd hp List.not_mem_nil, fun p hp => absurd hp List.not_mem_nil,
      fun p hp => absurd hp (hnone p), fun p hp => absurd hp (hnone p), fun _ _ => ⟨rfl, rfl⟩,
      fun _ => ⟨Nat.zero_le _, Nat.zero_le _⟩⟩
  staffed _ hp := absurd hp List.not_mem_nil
  head _ hr := by cases hr

theorem good_boot (dir idleStack launcherDir launcherStack winsysDir winsysStack : BitVec 32) :
    Good (boot dir idleStack launcherDir launcherStack winsysDir winsysStack) := by
  have hid : ((empty dir).newProcess dir ⟨0#32, 0#32⟩ true).id = (empty dir).getFreeID := rfl
  have hidle := (ready_empty dir).spawn hid rfl rfl none idleStack idleStack priorityLow
  exact good_resume ((hidle.createKernelProcess launcherDir launcherStack).createKernelProcess winsysDir
    winsysStack)

variable {dir idleStack launcherDir launcherStack winsysDir winsysStack : BitVec 32} {ops : List Op}

theorem good_of_run (h : Transition.Run SparingStep
    (boot dir idleStack launcherDir launcherStack winsysDir winsysStack) ops k) : Good k :=
  h.invariant Good (fun _ _ _ hs hstep => good_of_step hs hstep)
    (good_boot dir idleStack launcherDir launcherStack winsysDir winsysStack)

theorem sched_terminated (s t : Sched) (pid : Int) : (terminated s t pid).sched = t := by
  rw [terminated]
  split <;> rfl

/-- Tearing a listed process down as a kernel process leaves its threads with a freed parent. -/
theorem not_sound_of_not_spares (hk : Good k) {op : Op} (hstep : Step k op k') (hspares : ¬ k.Spares op) :
    ¬ k'.sched.Sound := by
  have hkernel : ∀ {pid : Int}, k.sched.getProcessByID pid ≠ none →
      ¬ (k.sched.terminateKernelProcessById pid).Sound := by
    intro pid hne
    obtain ⟨p, hfind⟩ := Option.ne_none_iff_exists'.mp hne
    exact hk.inv.not_sound_terminateKernelProcessById hk.staffed hfind
  cases hphase : k.inDispatch with
  | true =>
    obtain ⟨rfl, -⟩ := dispatchTurn_of_step hphase hstep
    exact absurd trivial hspares
  | false =>
    have hcall := applyCall_of_step hphase hstep
    cases op with
    | terminateKernelProcessById pid =>
      rw [← Option.some.inj hcall, sched_terminated]
      exact hkernel hspares
    | terminateProcess =>
      obtain ⟨p, hp, rfl⟩ := Option.map_eq_some_iff.mp hcall
      rw [Spares] at hspares
      push Not at hspares
      obtain ⟨p', hp', hisKernel, hinvalid, hlisted⟩ := hspares
      obtain rfl : p = p' := Option.some.inj (hp.symm.trans hp')
      rw [sched_terminated, Sched.terminateProcess, hp]
      dsimp only
      rw [if_neg hinvalid, if_pos hisKernel]
      exact hkernel hlisted
    | createKernelProcess | createProcess | fork | idleTask | appendFd | setOnTerminate | threadSleep
    | threadWake | threadSuspend | threadUnsuspend | unsuspendSuspendedThreads | terminateProcessById
    | switchPdirectory | interrupt | dispatchTurn | adjustTimeDelta => exact absurd trivial hspares

/-- After any run that spares the listed kernel processes, no descriptor and no name has been freed twice or
under a queued thread, and the next operation keeps this exactly if it spares them too. -/
theorem teardownSound_of_run (h : Transition.Run SparingStep
    (boot dir idleStack launcherDir launcherStack winsysDir winsysStack) ops k) :
    k.sched.Sound ∧ ∀ op k', Step k op k' → (k'.sched.Sound ↔ k.Spares op) := by
  have hk := good_of_run h
  refine ⟨hk.inv.sound, fun op k' hstep => ⟨fun hsound => ?_, fun hspares => ?_⟩⟩
  · by_contra hnot
    exact not_sound_of_not_spares hk hstep hnot hsound
  · exact (good_of_step hk ⟨hspares, hstep⟩).inv.sound

/-- Boot with the directories of the three processes and their stacks. -/
abbrev smallBoot : Kernel := boot 0x100000#32 0xE0001000#32 0x101000#32 0xE0002000#32 0x102000#32 0xE0003000#32

/-- The operations one after another. -/
def exec (k : Kernel) : List Op → Option Kernel
  | [] => some k
  | op :: ops => (k.apply op).bind fun k' => exec k' ops

theorem run_of_exec {step : Kernel → Op → Kernel → Prop}
    (hstep : ∀ k op k', op ∈ ops → Step k op k' → step k op k') (h : exec k ops = some k') :
    Transition.Run step k ops k' := by
  induction ops generalizing k with
  | nil => exact Option.some.inj h ▸ Transition.Run.nil k
  | cons op ops ih =>
    obtain ⟨t, ht, hrest⟩ := Option.bind_eq_some_iff.mp h
    refine Transition.Run.cons (hstep k op t List.mem_cons_self ht) (ih (fun k op k' hop => ?_) hrest)
    exact hstep k op k' (List.mem_cons_of_mem _ hop)

/-- A user process starts and is terminated by the idle process, and the dispatcher runs until it has removed
the one thread of it. -/
def userTeardown : List Op :=
  [.idleTask 0xE0004000#32, .threadSuspend, .dispatchTurn, .threadSuspend, .dispatchTurn,
    .createProcess (some ⟨0x400000#32, 0x2000#32⟩) 0x103000#32 0x80001000#32 0x7FFFF000#32, .threadSuspend,
    .dispatchTurn, .terminateProcessById 4, .dispatchTurn, .dispatchTurn, .dispatchTurn, .dispatchTurn,
    .dispatchTurn, .dispatchTurn]

theorem teardownSound_of_run_userTeardown : ∃ k, exec smallBoot userTeardown = some k ∧ k.sched.Sound ∧
    k.sched.freed (.process 4) = 1 ∧ k.sched.freed (.name 4) = 1 ∧ k.sched.entriesOf 4 = 0 := by
  have hfinal : ((exec smallBoot userTeardown).map fun k =>
      (k.sched.freed (.process 4), k.sched.freed (.name 4), k.sched.entriesOf 4)) = some (1, 1, 0) := by decide
  obtain ⟨k, hk, hcounts⟩ := Option.map_eq_some_iff.mp hfinal
  have hrun : Transition.Run SparingStep smallBoot userTeardown k := by
    refine run_of_exec (fun k op k' hop hstep => ⟨?_, hstep⟩) hk
    have hall : ∀ op ∈ userTeardown, ∀ k : Kernel, k.Spares op := by
      rw [userTeardown]
      simp [Spares]
    exact hall op hop k
  simp only [Prod.mk.injEq] at hcounts
  obtain ⟨hprocess, hname, hentries⟩ := hcounts
  exact ⟨k, hk, (teardownSound_of_run hrun).1, hprocess, hname, hentries⟩

theorem not_sound_of_freed {p : Nat} (hfreed : 0 < s.freed (.process p)) (hentries : 0 < s.entriesOf p) :
    ¬ s.Sound := by
  intro hsound
  obtain ⟨r, hr, hparent⟩ := List.countP_pos_iff.mp hentries
  obtain ⟨e, he, rfl⟩ := List.mem_map.mp hr
  have hkept := hsound.parent_kept e he
  have hp : e.thread.parent = p := of_decide_eq_true hparent
  rw [hp] at hkept
  omega

/-- The launcher is terminated as a kernel process: its descriptor is freed under its queued thread, and the
dispatcher frees it once more. -/
theorem terminateKernelProcessById_frees_twice :
    (∃ k, exec smallBoot [.idleTask 0xE0004000#32, .terminateKernelProcessById 2] = some k ∧ ¬ k.sched.Sound ∧
      k.sched.freed (.process 1) = 1 ∧ k.sched.entriesOf 1 = 1) ∧
    ∃ k, exec smallBoot [.idleTask 0xE0004000#32, .terminateKernelProcessById 2, .dispatchTurn] = some k ∧
      ¬ k.sched.Sound ∧ k.sched.freed (.process 1) = 2 ∧ k.sched.freed (.name 1) = 2 := by
  constructor
  · have hfinal : ((exec smallBoot [.idleTask 0xE0004000#32, .terminateKernelProcessById 2]).map fun k =>
        (k.sched.freed (.process 1), k.sched.entriesOf 1)) = some (1, 1) := by decide
    obtain ⟨k, hk, hcounts⟩ := Option.map_eq_some_iff.mp hfinal
    simp only [Prod.mk.injEq] at hcounts
    obtain ⟨hfreed, hentries⟩ := hcounts
    exact ⟨k, hk, not_sound_of_freed (p := 1) (by omega) (by omega), hfreed, hentries⟩
  · have hfinal : ((exec smallBoot [.idleTask 0xE0004000#32, .terminateKernelProcessById 2, .dispatchTurn]).map
        fun k => (k.sched.freed (.process 1), k.sched.freed (.name 1))) = some (2, 2) := by decide
    obtain ⟨k, hk, hcounts⟩ := Option.map_eq_some_iff.mp hfinal
    simp only [Prod.mk.injEq] at hcounts
    obtain ⟨hprocess, hname⟩ := hcounts
    refine ⟨k, hk, fun hsound => ?_, hprocess, hname⟩
    have honce := hsound.descriptor_once 1
    omega

end Kernel

end Akos
