import Akos.Lib.Exclusion
import Akos.Lib.Linked
import Akos.Lib.Transition
import Akos.Sched.Dispatch

/-!
# Threads that create processes at the same time

`createKernelProcess` and `createProcess` step by step, with a step for each access to the list of processes or to
the ready queue that another thread can come before or after. What is done with scheduling off is one step. The
number of a process is computed by one access and the process joins the list by a later one, and the same is true of
its thread and the queue.
-/

namespace Akos

/-- Where a thread stands in one of the two functions, with its local variables. -/
inductive Progress
  | idle
  /-- `createKernelProcess`: the loop of `getFreeID`. -/
  | scanning (p : BitVec 32) (id : Int) (tmp : BitVec 32)
  /-- `createKernelProcess`: the new process has its id. -/
  | numbered (p : BitVec 32)
  /-- `createProcess`: scheduling is on again. -/
  | inserting (p : BitVec 32) (mainThread : Thread)
  /-- `insert_process` found an empty list. -/
  | first (p : BitVec 32) (mainThread : Thread)
  /-- The loop of `insert_process`. -/
  | walking (p : BitVec 32) (mainThread : Thread) (tmp : BitVec 32)
  /-- The loop ended at the last process. -/
  | linking (p : BitVec 32) (mainThread : Thread) (tmp : BitVec 32)
  /-- Both functions, before `queue_insert`. -/
  | queueing (mainThread : Thread)

namespace Progress

/-- An id is being computed, or is computed and not in the list yet. -/
def idWindow : Progress → Prop
  | .idle | .queueing _ => False
  | _ => True

/-- The thread that is created and not in the queue yet. -/
def mainThread : Progress → Option Thread
  | .idle | .scanning .. | .numbered _ => none
  | .inserting _ th | .first _ th | .walking _ th _ | .linking _ th _ | .queueing th => some th

/-- The process that is created and not in the list yet. -/
def descriptor : Progress → Option (BitVec 32)
  | .idle | .queueing _ => none
  | .scanning p .. | .numbered p | .inserting p _ | .first p _ | .walking p .. | .linking p .. => some p

/-- A thread id is computed and not in the queue yet. -/
def tidWindow (g : Progress) : Prop := g.mainThread.isSome

end Progress

/-- The ids of the processes at their addresses, `processList`, the ready queue, and where each thread stands. -/
structure Creations where
  nodes : Linked.Store Int
  processList : BitVec 32
  readyQueue : List QueueEntry
  progress : Nat → Progress

namespace Creations

/-- One turn of the loop of `getFreeID`. -/
def nextId (id n : Int) : Int := if id ≤ n then n + 1 else id

/-- `getFreeID` with scheduling off. -/
def getFreeID (s : Creations) : Option Int :=
  Linked.foldFrom s.nodes (fun id e => nextId id e.2) Linked.maxSteps 1 s.processList

/-- `get_free_tid` -/
def getFreeTid (s : Creations) : Int := s.readyQueue.foldl (fun id e => nextId id e.thread.tid) 1

/-- `insert_process` with scheduling off. -/
def insertProcess (p : BitVec 32) (s : Creations) : Option Creations :=
  if s.processList = 0#32 then some { s with processList := p }
  else do
    let tmp ← Linked.lastFrom s.nodes Linked.maxSteps s.processList
    let nodes ← Linked.setNext s.nodes tmp p
    some { s with nodes }

/-- `removeProcessFromList` -/
def removeProcessFromList (id : Int) (s : Creations) : Option Creations := do
  let tmp ← Linked.load s.nodes s.processList
  if tmp.value = id then some { s with processList := tmp.next }
  else if tmp.next = 0#32 then some s
  else
    let prev ← Linked.findBefore s.nodes (fun n => n = id) Linked.maxSteps s.processList
    if prev = 0#32 then some s
    else
      let before ← Linked.load s.nodes prev
      let gone ← Linked.load s.nodes before.next
      let nodes ← Linked.setNext s.nodes prev gone.next
      some { s with nodes }

/-- `remove_by_tid` for the threads of a process. -/
def removeByTids (tids : List Int) (q : List QueueEntry) : List QueueEntry :=
  tids.foldl (fun q tid => Sched.updateByTid tid (·.threadSetState threadTerminate) q) q

/-- What the thread `t` does next: it gets to a place in the code. -/
def moveTo (t : Nat) (g : Progress) (s : Creations) : Creations :=
  { s with progress := Function.update s.progress t g }

/-- The steps of the two functions, the dispatcher, a termination with the ids of the threads it marks, and the end
of a descriptor. The heap gives the blocks, and of a new thread the rest is known at once. -/
inductive Op
  | createKernelProcess (t : Nat) (p : BitVec 32)
  | scan (t : Nat)
  | insertKernelProcess (t : Nat) (mainThread : Thread)
  | createProcess (t : Nat) (p : BitVec 32) (mainThread : Thread)
  | beginInsert (t : Nat)
  | walk (t : Nat)
  | link (t : Nat)
  | queueInsert (t : Nat) (block : Nat)
  | schedulerDispatch (judge : QueueEntry → Rotation.Verdict) (turns : Nat)
  | terminate (id : Int) (tids : List Int)
  | kfree (p : BitVec 32)

/-- A step, where the thread stands at the place that it starts from. -/
def apply (s : Creations) : Op → Option Creations
  | .createKernelProcess t p =>
    match s.progress t with
    | .idle => some (moveTo t (.scanning p 1 s.processList) { s with nodes := Linked.store s.nodes p ⟨0, 0#32⟩ })
    | _ => none
  | .scan t =>
    match s.progress t with
    | .scanning p id tmp =>
      if tmp = 0#32 then some (moveTo t (.numbered p) { s with nodes := Linked.store s.nodes p ⟨id, 0#32⟩ })
      -- the id of a process in the list does not change, so it can be read together with the link
      else (Linked.load s.nodes tmp).map fun node => moveTo t (.scanning p (nextId id node.value) node.next) s
    | _ => none
  | .insertKernelProcess t mainThread =>
    match s.progress t with
    | .numbered p => (s.insertProcess p).map (moveTo t (.queueing { mainThread with tid := s.getFreeTid }))
    | _ => none
  | .createProcess t p mainThread =>
    match s.progress t with
    | .idle => s.getFreeID.map fun id => moveTo t (.inserting p { mainThread with tid := s.getFreeTid })
        { s with nodes := Linked.store s.nodes p ⟨id, 0#32⟩ }
    | _ => none
  | .beginInsert t =>
    match s.progress t with
    | .inserting p th => some (moveTo t (if s.processList = 0#32 then .first p th else .walking p th s.processList) s)
    | _ => none
  | .walk t =>
    match s.progress t with
    | .walking p th tmp => (Linked.load s.nodes tmp).map fun node =>
        moveTo t (if node.next = 0#32 then .linking p th tmp else .walking p th node.next) s
    | _ => none
  | .link t =>
    match s.progress t with
    | .first p th => some (moveTo t (.queueing th) { s with processList := p })
    | .linking p th tmp => (Linked.setNext s.nodes tmp p).map fun nodes => moveTo t (.queueing th) { s with nodes }
    | _ => none
  | .queueInsert t block =>
    match s.progress t with
    | .queueing th => some (moveTo t .idle { s with readyQueue := s.readyQueue ++ [⟨block, th⟩] })
    | _ => none
  | .schedulerDispatch judge turns =>
    (Rotation.run Sched.priorityOf judge turns s.readyQueue).map fun readyQueue => { s with readyQueue }
  | .terminate id tids =>
    (s.removeProcessFromList id).map fun s' => { s' with readyQueue := removeByTids tids s'.readyQueue }
  | .kfree p => some { s with nodes := Linked.free s.nodes p }

/-- The kernel heap gives out no block that is in use, terminations belong to the time before, and a process is freed
when it is out of the list. -/
def Permitted (s : Creations) : Op → Prop
  | .createKernelProcess _ p => p ≠ 0#32 ∧ s.nodes p = none
  | .createProcess _ p _ => p ≠ 0#32 ∧ s.nodes p = none
  | .terminate _ _ => ∀ t, s.progress t = .idle
  | .kfree p => (∀ l, Linked.Chain s.nodes s.processList l → p ∉ Linked.addresses l) ∧
      ∀ t, (s.progress t).descriptor ≠ some p
  | _ => True

/-- No thread begins to compute an id, of a process or a thread, while another one has not published its own. -/
def Meets (s : Creations) : Op → Prop
  | .createKernelProcess _ _ => ∀ t, ¬ (s.progress t).idWindow
  | .insertKernelProcess _ _ => ∀ t, ¬ (s.progress t).tidWindow
  | .createProcess _ _ _ => ∀ t, ¬ (s.progress t).idWindow ∧ ¬ (s.progress t).tidWindow
  | _ => True

def Called (s : Creations) (op : Op) (s' : Creations) : Prop := s.Permitted op ∧ s.apply op = some s'

def Step (s : Creations) (op : Op) (s' : Creations) : Prop := s.Meets op ∧ s.Called op s'

/-- The ids in the list of processes are distinct, and so are those of the threads in the queue. -/
def UniqueIds (s : Creations) : Prop :=
  ∃ l, Linked.Chain s.nodes s.processList l ∧ (l.map Prod.snd).Nodup ∧
    (s.readyQueue.map fun e => e.thread.tid).Nodup

/-! ### The scheduler's own functions -/

theorem getFreeTid_eq {s : Creations} {sched : Sched} (h : s.readyQueue = sched.readyQueue) :
    s.getFreeTid = sched.getFreeTid := by
  rw [getFreeTid, h]
  rfl

/-- A dispatch of the scheduler is a step here. -/
theorem called_schedulerDispatch {s : Creations} {sched sched' : Sched} {turns : Nat}
    (h : s.readyQueue = sched.readyQueue) (hdispatch : sched.schedulerDispatch turns = some sched') :
    s.Called (.schedulerDispatch sched.judge turns) { s with readyQueue := sched'.readyQueue } := by
  refine ⟨trivial, ?_⟩
  rw [apply, h, ← Sched.schedulerDispatch_refines, hdispatch]
  rfl

/-! ### What the list functions leave alone -/

theorem insertProcess_keeps {s s' : Creations} {p : BitVec 32} (h : s.insertProcess p = some s') :
    s'.readyQueue = s.readyQueue ∧ s'.progress = s.progress := by
  rw [insertProcess] at h
  split at h
  · obtain rfl := Option.some.inj h
    exact ⟨rfl, rfl⟩
  · obtain ⟨tmp, -, h⟩ := Option.bind_eq_some_iff.mp h
    obtain ⟨nodes, -, h⟩ := Option.bind_eq_some_iff.mp h
    obtain rfl := Option.some.inj h
    exact ⟨rfl, rfl⟩

theorem removeProcessFromList_keeps {s s' : Creations} {id : Int} (h : s.removeProcessFromList id = some s') :
    s'.readyQueue = s.readyQueue ∧ s'.progress = s.progress := by
  rw [removeProcessFromList] at h
  obtain ⟨tmp, -, h⟩ := Option.bind_eq_some_iff.mp h
  split at h
  · obtain rfl := Option.some.inj h
    exact ⟨rfl, rfl⟩
  split at h
  · obtain rfl := Option.some.inj h
    exact ⟨rfl, rfl⟩
  obtain ⟨prev, -, h⟩ := Option.bind_eq_some_iff.mp h
  split at h
  · obtain rfl := Option.some.inj h
    exact ⟨rfl, rfl⟩
  obtain ⟨before, -, h⟩ := Option.bind_eq_some_iff.mp h
  obtain ⟨gone, -, h⟩ := Option.bind_eq_some_iff.mp h
  obtain ⟨nodes, -, h⟩ := Option.bind_eq_some_iff.mp h
  obtain rfl := Option.some.inj h
  exact ⟨rfl, rfl⟩

/-! ### Ids of processes -/

open Exclusion

variable {nodes : Linked.Store Int} {head p tmp : BitVec 32} {l : List (BitVec 32 × Int)}
  {progress : Nat → Progress} {t : Nat} {g : Progress}

/-- A descriptor with an id above those in the list, ready to be linked. -/
def Ready (nodes : Linked.Store Int) (l : List (BitVec 32 × Int)) (p : BitVec 32) : Prop :=
  p ∉ Linked.addresses l ∧ ∃ id, Linked.load nodes p = some ⟨id, 0#32⟩ ∧ ∀ e ∈ l, e.2 < id

/-- What a thread inside the window knows of the list. -/
def IdFits (nodes : Linked.Store Int) (l : List (BitVec 32 × Int)) : Progress → Prop
  | .scanning p id tmp => p ≠ 0#32 ∧ p ∉ Linked.addresses l ∧
      ∃ l₁ l₂, l = l₁ ++ l₂ ∧ Linked.Chain nodes tmp l₂ ∧ ∀ e ∈ l₁, e.2 < id
  | .numbered p | .inserting p _ => Ready nodes l p
  | .first p _ => Ready nodes l p ∧ l = []
  | .walking p _ tmp => Ready nodes l p ∧ ∃ l₁ v l₂, l = l₁ ++ (tmp, v) :: l₂
  | .linking p _ tmp => Ready nodes l p ∧ ∃ l₁ v, l = l₁ ++ [(tmp, v)]
  | .idle | .queueing _ => True

/-- The invariant of the list and of those that work on it. -/
structure IdInv (nodes : Linked.Store Int) (head : BitVec 32) (l : List (BitVec 32 × Int))
    (progress : Nat → Progress) : Prop where
  chain : Linked.Chain nodes head l
  distinct : (l.map Prod.snd).Nodup
  alone : Alone Progress.idWindow progress
  fits : ∀ t, IdFits nodes l (progress t)

theorem idFits_of_not_idWindow (h : ¬ g.idWindow) : IdFits nodes l g := by
  cases g <;> first | trivial | exact absurd trivial h

/-- A thread changes the list while no other one is inside. -/
theorem IdInv.update {l' : List (BitVec 32 × Int)} (hchain : Linked.Chain nodes head l')
    (hdistinct : (l'.map Prod.snd).Nodup) (hothers : ∀ u ≠ t, ¬ (progress u).idWindow) (hfits : IdFits nodes l' g) :
    IdInv nodes head l' (Function.update progress t g) where
  chain := hchain
  distinct := hdistinct
  alone := alone_update hothers
  fits := forall_update hfits fun u hu => idFits_of_not_idWindow (hothers u hu)

/-- A thread outside goes on outside. -/
theorem IdInv.outside (h : IdInv nodes head l progress) (hg : ¬ g.idWindow) :
    IdInv nodes head l (Function.update progress t g) where
  chain := h.chain
  distinct := h.distinct
  alone := h.alone.update fun hin => absurd hin hg
  fits := forall_update (idFits_of_not_idWindow hg) fun u _ => h.fits u

theorem lt_nextId (id n : Int) : n < nextId id n ∧ id ≤ nextId id n := by
  unfold nextId
  split <;> omega

/-- `getFreeID` is above all ids of the list. -/
theorem getFreeID_eq {s : Creations} (h : Linked.Chain s.nodes s.processList l) :
    ∃ id, s.getFreeID = some id ∧ ∀ e ∈ l, e.2 < id :=
  ⟨_, h.foldFrom_eq _ 1 h.length_lt,
    (Linked.lt_foldl_above id (fun e : BitVec 32 × Int => e.2) (· + 1) (fun _ _ => rfl) (fun _ _ => by simp) 1).2⟩

theorem Ready.nodup (h : Ready nodes l p) (hdistinct : (l.map Prod.snd).Nodup) {id : Int}
    (hload : Linked.load nodes p = some ⟨id, 0#32⟩) : ((l ++ [(p, id)]).map Prod.snd).Nodup := by
  obtain ⟨-, id', hload', habove⟩ := h
  obtain ⟨rfl, -⟩ := Linked.Node.mk.inj (Option.some.inj (hload.symm.trans hload'))
  rw [List.map_append, List.nodup_append]
  refine ⟨hdistinct, List.nodup_singleton _, fun n hn m hm => ?_⟩
  obtain ⟨e, he, rfl⟩ := List.mem_map.mp hn
  obtain rfl := List.mem_singleton.mp hm
  exact Int.ne_of_lt (habove e he)

/-- The last process of the list gets a successor. -/
theorem Ready.link {l₁ : List (BitVec 32 × Int)} {v : Int} (h : Ready nodes (l₁ ++ [(tmp, v)]) p)
    (hchain : Linked.Chain nodes head (l₁ ++ [(tmp, v)])) :
    ∃ id nodes', Linked.load nodes p = some ⟨id, 0#32⟩ ∧ Linked.setNext nodes tmp p = some nodes' ∧
      Linked.Chain nodes' head (l₁ ++ [(tmp, v)] ++ [(p, id)]) := by
  obtain ⟨hout, id, hload, -⟩ := h
  obtain ⟨q, htmp⟩ := hchain.load_of_mem (List.mem_append_right l₁ List.mem_cons_self)
  have hp := Linked.ne_zero_of_load hload
  have hnew : Linked.Chain nodes p [(p, id)] := .cons hp ((Linked.load_of_ne hp).symm.trans hload) .nil
  refine ⟨id, _, hload, congrArg (Option.map _) htmp, ?_⟩
  rw [List.append_assoc]
  refine hchain.relink hnew (fun hmem => hout ?_) v
  rw [List.mem_singleton.mp hmem]
  exact List.mem_map_of_mem (List.mem_append_right l₁ List.mem_cons_self)

/-- `insert_process` in one step. -/
theorem Ready.insertProcess_eq {s : Creations} (h : Ready s.nodes l p)
    (hchain : Linked.Chain s.nodes s.processList l) :
    ∃ id s', Linked.load s.nodes p = some ⟨id, 0#32⟩ ∧ s.insertProcess p = some s' ∧
      Linked.Chain s'.nodes s'.processList (l ++ [(p, id)]) := by
  rw [insertProcess]
  rcases List.eq_nil_or_concat l with rfl | ⟨l₁, ⟨tmp, v⟩, rfl⟩
  · obtain ⟨-, id, hload, -⟩ := h
    have hp := Linked.ne_zero_of_load hload
    rw [if_pos (hchain.eq_zero_iff.mpr rfl)]
    exact ⟨id, _, hload, rfl, .cons hp ((Linked.load_of_ne hp).symm.trans hload) .nil⟩
  · rw [List.concat_eq_append] at h hchain ⊢
    obtain ⟨id, nodes', hload, hset, hchain'⟩ := h.link hchain
    have hlen := hchain.length_lt
    rw [List.length_append] at hlen
    rw [if_neg fun hzero => by simpa using hchain.eq_zero_iff.mp hzero,
      hchain.lastFrom_eq (Nat.lt_of_le_of_lt (Nat.le_add_right _ _) hlen)]
    dsimp only [Option.bind_eq_bind, Option.bind_some]
    rw [hset]
    exact ⟨id, _, hload, rfl, hchain'⟩

/-- What is removed from the list leaves the rest in order. -/
theorem removeProcessFromList_spec {s s' : Creations} {id : Int} (h : Linked.Chain s.nodes s.processList l)
    (hremove : s.removeProcessFromList id = some s') :
    ∃ l', Linked.Chain s'.nodes s'.processList l' ∧ l'.Sublist l := by
  rw [removeProcessFromList] at hremove
  obtain ⟨tmp, htmp, hremove⟩ := Option.bind_eq_some_iff.mp hremove
  cases l with
  | nil => exact absurd (h.eq_zero_iff.mpr rfl) (Linked.ne_zero_of_load htmp)
  | cons e l =>
    obtain ⟨hhead, q, hload, hrest⟩ := h.head_eq
    rw [hhead, hload] at htmp
    obtain rfl := Option.some.inj htmp
    dsimp only at hremove
    split at hremove
    · obtain rfl := Option.some.inj hremove
      exact ⟨l, hrest, List.sublist_cons_self e l⟩
    split at hremove
    · obtain rfl := Option.some.inj hremove
      exact ⟨_, h, .refl _⟩
    obtain ⟨hfind, -⟩ | ⟨l₁, a, v, b, w, l₂, hsplit, -, hfind⟩ := h.findBefore_cases fun n => n = id
    · rw [hfind] at hremove
      obtain rfl := Option.some.inj hremove
      exact ⟨_, h, .refl _⟩
    · rw [hsplit] at h ⊢
      obtain ⟨-, ha, q', hb, -⟩ := h.neighbours
      rw [hfind] at hremove
      dsimp only [Option.bind_eq_bind, Option.bind_some] at hremove
      rw [if_neg (Linked.ne_zero_of_load ha), ha, Option.bind_some, hb, Option.bind_some, Linked.setNext, ha] at hremove
      obtain rfl := Option.some.inj hremove
      exact ⟨l₁ ++ (a, v) :: l₂, h.unlink hb, ((List.sublist_cons_self _ _).cons_cons _).append_left l₁⟩

/-- A block outside the list is freed. -/
theorem IdFits.free (h : IdFits nodes l g) (hp : p ∉ Linked.addresses l) (hg : g.descriptor ≠ some p) :
    IdFits (Linked.free nodes p) l g := by
  have hready : ∀ {p'}, some p' ≠ some p → Ready nodes l p' → Ready (Linked.free nodes p) l p' := by
    intro p' hne hready
    obtain ⟨hout, id, hload, habove⟩ := hready
    exact ⟨hout, id, (Linked.load_free_of_ne fun heq => hne (congrArg some heq)).trans hload, habove⟩
  cases g with
  | idle => trivial
  | scanning p' id tmp =>
    obtain ⟨hne, hout, l₁, l₂, rfl, hchain, habove⟩ := h
    refine ⟨hne, hout, l₁, l₂, rfl, hchain.free fun hmem => hp ?_, habove⟩
    rw [Linked.addresses, List.map_append]
    exact List.mem_append_right _ hmem
  | numbered p' => exact hready hg h
  | inserting p' _ => exact hready hg h
  | first p' _ => exact ⟨hready hg h.1, h.2⟩
  | walking p' _ tmp => exact ⟨hready hg h.1, h.2⟩
  | linking p' _ tmp => exact ⟨hready hg h.1, h.2⟩
  | queueing _ => trivial

/-- A thread that is inside is the only one. -/
theorem IdInv.others (h : IdInv nodes head l progress) (hg : progress t = g) (hin : g.idWindow) :
    ∀ u ≠ t, ¬ (progress u).idWindow := h.alone.others (hg.symm ▸ hin)

theorem IdInv.fits_of_eq (h : IdInv nodes head l progress) (hg : progress t = g) : IdFits nodes l g := hg ▸ h.fits t

theorem IdInv.scan {s s' : Creations} (h : IdInv s.nodes s.processList l s.progress)
    (happly : s.apply (.scan t) = some s') : IdInv s'.nodes s'.processList l s'.progress := by
  rw [apply] at happly
  split at happly
  · next p id tmp hg =>
    obtain ⟨hp, hout, l₁, l₂, rfl, hchain, habove⟩ := h.fits_of_eq hg
    have hothers := h.others hg trivial
    split at happly
    · next hend =>
      -- the loop has seen the whole list
      obtain rfl := Option.some.inj happly
      subst hend
      obtain rfl := hchain.eq_nil
      rw [List.append_nil] at h hout ⊢
      refine IdInv.update (h.chain.store hout _) h.distinct hothers ⟨hout, id, ?_, habove⟩
      rw [Linked.load_of_ne hp]
      exact Function.update_self _ _ _
    · next hmore =>
      obtain ⟨node, hload, rfl⟩ := Option.map_eq_some_iff.mp happly
      cases hchain with
      | nil => exact absurd rfl hmore
      | @cons _ q v l₂ hne hnode hrest =>
        rw [Linked.load_of_ne hne, hnode] at hload
        obtain rfl := Option.some.inj hload
        refine IdInv.update h.chain h.distinct hothers ⟨hp, hout, l₁ ++ [(tmp, v)], l₂, ?_, hrest, ?_⟩
        · rw [List.append_assoc]
          rfl
        · intro e he
          rcases List.mem_append.mp he with he | he
          · exact Int.lt_of_lt_of_le (habove e he) (lt_nextId id v).2
          · rw [List.mem_singleton.mp he]
            exact (lt_nextId id v).1
  · cases happly

/-- A new descriptor outside the list. -/
theorem not_mem_of_none (h : Linked.Chain nodes head l) (hp : p ≠ 0#32) (hnone : nodes p = none) :
    p ∉ Linked.addresses l := by
  intro hmem
  obtain ⟨e, he, rfl⟩ := List.mem_map.mp hmem
  obtain ⟨q, hload⟩ := h.load_of_mem he
  rw [Linked.load_of_ne hp, hnone] at hload
  cases hload

theorem IdInv.createKernelProcess {s s' : Creations} (h : IdInv s.nodes s.processList l s.progress)
    (hfree : ∀ u, ¬ (s.progress u).idWindow) (hp : p ≠ 0#32) (hnone : s.nodes p = none)
    (happly : s.apply (.createKernelProcess t p) = some s') : IdInv s'.nodes s'.processList l s'.progress := by
  have hout := not_mem_of_none h.chain hp hnone
  rw [apply] at happly
  split at happly
  · obtain rfl := Option.some.inj happly
    refine IdInv.update (h.chain.store hout _) h.distinct (fun u _ => hfree u) ⟨hp, hout, [], l, rfl, ?_, ?_⟩
    · exact h.chain.store hout _
    · exact fun e he => absurd he List.not_mem_nil
  · cases happly

theorem IdInv.createProcess {s s' : Creations} {th : Thread} (h : IdInv s.nodes s.processList l s.progress)
    (hfree : ∀ u, ¬ (s.progress u).idWindow) (hp : p ≠ 0#32) (hnone : s.nodes p = none)
    (happly : s.apply (.createProcess t p th) = some s') : IdInv s'.nodes s'.processList l s'.progress := by
  have hout := not_mem_of_none h.chain hp hnone
  rw [apply] at happly
  split at happly
  · obtain ⟨id, hid, rfl⟩ := Option.map_eq_some_iff.mp happly
    obtain ⟨id', hid', habove⟩ := getFreeID_eq h.chain
    obtain rfl := Option.some.inj (hid.symm.trans hid')
    refine IdInv.update (h.chain.store hout _) h.distinct (fun u _ => hfree u) ⟨hout, id, ?_, habove⟩
    rw [Linked.load_of_ne hp]
    exact Function.update_self _ _ _
  · cases happly

theorem IdInv.insertKernelProcess {s s' : Creations} {th : Thread} (h : IdInv s.nodes s.processList l s.progress)
    (happly : s.apply (.insertKernelProcess t th) = some s') :
    ∃ l', IdInv s'.nodes s'.processList l' s'.progress := by
  rw [apply] at happly
  split at happly
  · next p hg =>
    have hready : Ready s.nodes l p := h.fits_of_eq hg
    obtain ⟨s₁, hinsert, rfl⟩ := Option.map_eq_some_iff.mp happly
    obtain ⟨id, s₂, hload, hinsert', hchain⟩ := hready.insertProcess_eq h.chain
    obtain rfl := Option.some.inj (hinsert.symm.trans hinsert')
    refine ⟨l ++ [(p, id)], IdInv.update hchain (hready.nodup h.distinct hload) ?_ trivial⟩
    rw [(insertProcess_keeps hinsert).2]
    exact h.others hg trivial
  · cases happly

theorem IdInv.beginInsert {s s' : Creations} (h : IdInv s.nodes s.processList l s.progress)
    (happly : s.apply (.beginInsert t) = some s') : IdInv s'.nodes s'.processList l s'.progress := by
  rw [apply] at happly
  split at happly
  · next p th hg =>
    have hready : Ready s.nodes l p := h.fits_of_eq hg
    obtain rfl := Option.some.inj happly
    refine IdInv.update h.chain h.distinct (h.others hg trivial) ?_
    cases l with
    | nil =>
      rw [if_pos (h.chain.eq_zero_iff.mpr rfl)]
      exact ⟨hready, rfl⟩
    | cons e l =>
      rw [if_neg fun hzero => List.cons_ne_nil e l (h.chain.eq_zero_iff.mp hzero), h.chain.head_eq.1]
      exact ⟨hready, [], e.2, l, rfl⟩
  · cases happly

theorem IdInv.walk {s s' : Creations} (h : IdInv s.nodes s.processList l s.progress)
    (happly : s.apply (.walk t) = some s') : IdInv s'.nodes s'.processList l s'.progress := by
  rw [apply] at happly
  split at happly
  · next p th tmp hg =>
    obtain ⟨hready, l₁, v, l₂, rfl⟩ := h.fits_of_eq hg
    obtain ⟨node, hload, rfl⟩ := Option.map_eq_some_iff.mp happly
    obtain ⟨-, q, hload', hrest⟩ := h.chain.drop'.head_eq
    obtain rfl := Option.some.inj (hload.symm.trans hload')
    refine IdInv.update h.chain h.distinct (h.others hg trivial) ?_
    cases l₂ with
    | nil =>
      rw [if_pos (hrest.eq_zero_iff.mpr rfl)]
      exact ⟨hready, l₁, v, rfl⟩
    | cons e l₂ =>
      rw [if_neg fun hzero => List.cons_ne_nil e l₂ (hrest.eq_zero_iff.mp hzero)]
      refine ⟨hready, l₁ ++ [(tmp, v)], e.2, l₂, ?_⟩
      rw [List.append_assoc, show q = e.1 from hrest.head_eq.1]
      rfl
  · cases happly

theorem IdInv.link {s s' : Creations} (h : IdInv s.nodes s.processList l s.progress)
    (happly : s.apply (.link t) = some s') : ∃ l', IdInv s'.nodes s'.processList l' s'.progress := by
  rw [apply] at happly
  split at happly
  · next p th hg =>
    obtain ⟨hready, rfl⟩ := h.fits_of_eq hg
    obtain ⟨hout, id, hload, habove⟩ := hready
    obtain rfl := Option.some.inj happly
    have hp := Linked.ne_zero_of_load hload
    exact ⟨[(p, id)], IdInv.update (.cons hp ((Linked.load_of_ne hp).symm.trans hload) .nil)
      (List.nodup_singleton _) (h.others hg trivial) trivial⟩
  · next p th tmp hg =>
    obtain ⟨hready, l₁, v, rfl⟩ := h.fits_of_eq hg
    obtain ⟨nodes', hset, rfl⟩ := Option.map_eq_some_iff.mp happly
    obtain ⟨id, nodes'', hload, hset', hchain⟩ := hready.link h.chain
    obtain rfl := Option.some.inj (hset.symm.trans hset')
    exact ⟨_, IdInv.update hchain (hready.nodup h.distinct hload) (h.others hg trivial) trivial⟩
  · cases happly

theorem IdInv.step {s s' : Creations} {op : Op} (h : IdInv s.nodes s.processList l s.progress)
    (hstep : s.Step op s') : ∃ l', IdInv s'.nodes s'.processList l' s'.progress := by
  obtain ⟨hmeets, hpermitted, happly⟩ := hstep
  cases op with
  | createKernelProcess t p =>
    exact ⟨l, h.createKernelProcess hmeets hpermitted.1 hpermitted.2 happly⟩
  | scan t => exact ⟨l, h.scan happly⟩
  | insertKernelProcess t th => exact h.insertKernelProcess happly
  | createProcess t p th =>
    exact ⟨l, h.createProcess (fun u => (hmeets u).1) hpermitted.1 hpermitted.2 happly⟩
  | beginInsert t => exact ⟨l, h.beginInsert happly⟩
  | walk t => exact ⟨l, h.walk happly⟩
  | link t => exact h.link happly
  | queueInsert t block =>
    rw [apply] at happly
    split at happly
    · obtain rfl := Option.some.inj happly
      exact ⟨l, h.outside id⟩
    · cases happly
  | schedulerDispatch judge turns =>
    obtain ⟨q, -, rfl⟩ := Option.map_eq_some_iff.mp happly
    exact ⟨l, h⟩
  | terminate id tids =>
    obtain ⟨s₁, hremove, rfl⟩ := Option.map_eq_some_iff.mp happly
    obtain ⟨l', hchain, hsub⟩ := removeProcessFromList_spec h.chain hremove
    have hidle : ∀ u, s₁.progress u = .idle := fun u =>
      (congrFun (removeProcessFromList_keeps hremove).2 u).trans (hpermitted u)
    refine ⟨l', hchain, h.distinct.sublist (hsub.map _), fun u v hu => ?_, fun u => ?_⟩
    · rw [hidle u] at hu
      exact hu.elim
    · rw [hidle u]
      trivial
  | kfree p =>
    obtain rfl := Option.some.inj happly
    have hout := hpermitted.1 l h.chain
    exact ⟨l, h.chain.free hout, h.distinct, h.alone, fun u => (h.fits u).free hout (hpermitted.2 u)⟩

/-! ### Ids of threads -/

variable {queue : List QueueEntry}

/-- The thread that is created has an id above those in the queue. -/
def TidFits (queue : List QueueEntry) (g : Progress) : Prop :=
  ∀ th, g.mainThread = some th → ∀ e ∈ queue, e.thread.tid < th.tid

/-- The invariant of the queue and of those that will insert into it. -/
structure TidInv (queue : List QueueEntry) (progress : Nat → Progress) : Prop where
  distinct : (queue.map fun e => e.thread.tid).Nodup
  alone : Alone Progress.tidWindow progress
  fits : ∀ t, TidFits queue (progress t)

theorem tidFits_of_none (h : g.mainThread = none) : TidFits queue g := by
  intro th hth
  rw [h] at hth
  cases hth

/-- A thread goes on with the same new thread in hand. -/
theorem TidInv.keep (h : TidInv queue progress) (hg : g.mainThread = (progress t).mainThread) :
    TidInv queue (Function.update progress t g) where
  distinct := h.distinct
  alone := h.alone.update fun hin => by rwa [Progress.tidWindow, ← hg]
  fits := forall_update (fun th hth => h.fits t th (hg.symm.trans hth)) fun u _ => h.fits u

/-- A new thread gets its id while nobody else has one in hand. -/
theorem TidInv.begin (h : TidInv queue progress) (hfree : ∀ u, ¬ (progress u).tidWindow) (hg : TidFits queue g) :
    TidInv queue (Function.update progress t g) where
  distinct := h.distinct
  alone := alone_update fun u _ => hfree u
  fits := forall_update hg fun u _ => h.fits u

/-- The queue loses entries, or gets other flags. -/
theorem TidInv.requeue (h : TidInv queue progress) {queue' : List QueueEntry}
    (hdistinct : (queue'.map fun e => e.thread.tid).Nodup)
    (hmem : ∀ e' ∈ queue', ∃ e ∈ queue, e.thread.tid = e'.thread.tid) : TidInv queue' progress where
  distinct := hdistinct
  alone := h.alone
  fits t th hth e' he' := by
    obtain ⟨e, he, heq⟩ := hmem e' he'
    exact heq ▸ h.fits t th hth e he

/-- `get_free_tid` is above all ids of the queue. -/
theorem lt_getFreeTid (s : Creations) : ∀ e ∈ s.readyQueue, e.thread.tid < s.getFreeTid :=
  (Linked.lt_foldl_above id (fun e : QueueEntry => e.thread.tid) (· + 1) (fun _ _ => rfl) (fun _ _ => by simp) 1).2

theorem tidFits_getFreeTid (s : Creations) (th : Thread) (hg : g.mainThread = some { th with tid := s.getFreeTid }) :
    TidFits s.readyQueue g := by
  intro th' hth'
  obtain rfl := Option.some.inj (hg.symm.trans hth')
  exact s.lt_getFreeTid

theorem map_tid_updateByTid (tid : Int) (queue : List QueueEntry) :
    (Sched.updateByTid tid (·.threadSetState threadTerminate) queue).map (fun e => e.thread.tid)
      = queue.map fun e => e.thread.tid := by
  induction queue with
  | nil => rfl
  | cons e queue ih =>
    rw [Sched.updateByTid]
    split
    · rfl
    · rw [List.map_cons, ih, List.map_cons]

theorem map_tid_removeByTids (tids : List Int) (queue : List QueueEntry) :
    (removeByTids tids queue).map (fun e => e.thread.tid) = queue.map fun e => e.thread.tid := by
  induction tids generalizing queue with
  | nil => rfl
  | cons tid tids ih => exact (ih _).trans (map_tid_updateByTid tid queue)

theorem TidInv.queueInsert {s s' : Creations} {block : Nat} (h : TidInv s.readyQueue s.progress)
    (happly : s.apply (.queueInsert t block) = some s') : TidInv s'.readyQueue s'.progress := by
  rw [apply] at happly
  split at happly
  · next th hg =>
    obtain rfl := Option.some.inj happly
    have habove : ∀ e ∈ s.readyQueue, e.thread.tid < th.tid := h.fits t th (hg ▸ rfl)
    have hothers : ∀ u ≠ t, ¬ (s.progress u).tidWindow := h.alone.others (by rw [hg]; rfl)
    refine { distinct := ?_, alone := alone_update hothers, fits := ?_ }
    · show ((s.readyQueue ++ [(⟨block, th⟩ : QueueEntry)]).map _).Nodup
      rw [List.map_append, List.nodup_append]
      refine ⟨h.distinct, List.nodup_singleton _, fun n hn m hm => ?_⟩
      obtain ⟨e, he, rfl⟩ := List.mem_map.mp hn
      obtain rfl := List.mem_singleton.mp hm
      exact Int.ne_of_lt (habove e he)
    · refine forall_update (tidFits_of_none rfl) fun u hu th' hth' => ?_
      exact absurd (Option.isSome_iff_exists.mpr ⟨th', hth'⟩) (hothers u hu)
  · cases happly

theorem TidInv.step {s s' : Creations} {op : Op} (h : TidInv s.readyQueue s.progress) (hstep : s.Step op s') :
    TidInv s'.readyQueue s'.progress := by
  obtain ⟨hmeets, hpermitted, happly⟩ := hstep
  cases op with
  | createKernelProcess t p =>
    rw [apply] at happly
    split at happly
    · next hg =>
      obtain rfl := Option.some.inj happly
      exact h.keep (hg ▸ rfl)
    · cases happly
  | scan t =>
    rw [apply] at happly
    split at happly
    · next p id tmp hg =>
      split at happly
      · obtain rfl := Option.some.inj happly
        exact h.keep (hg ▸ rfl)
      · obtain ⟨node, -, rfl⟩ := Option.map_eq_some_iff.mp happly
        exact h.keep (hg ▸ rfl)
    · cases happly
  | insertKernelProcess t th =>
    rw [apply] at happly
    split at happly
    · next p hg =>
      obtain ⟨s₁, hinsert, rfl⟩ := Option.map_eq_some_iff.mp happly
      obtain ⟨hqueue, hprogress⟩ := insertProcess_keeps hinsert
      show TidInv s₁.readyQueue (Function.update s₁.progress t _)
      rw [hqueue, hprogress]
      exact h.begin hmeets (s.tidFits_getFreeTid th rfl)
    · cases happly
  | createProcess t p th =>
    rw [apply] at happly
    split at happly
    · obtain ⟨id, -, rfl⟩ := Option.map_eq_some_iff.mp happly
      exact h.begin (fun u => (hmeets u).2) (s.tidFits_getFreeTid th rfl)
    · cases happly
  | beginInsert t =>
    rw [apply] at happly
    split at happly
    · next p th hg =>
      obtain rfl := Option.some.inj happly
      refine h.keep ?_
      rw [hg]
      split <;> rfl
    · cases happly
  | walk t =>
    rw [apply] at happly
    split at happly
    · next p th tmp hg =>
      obtain ⟨node, -, rfl⟩ := Option.map_eq_some_iff.mp happly
      refine h.keep ?_
      rw [hg]
      split <;> rfl
    · cases happly
  | link t =>
    rw [apply] at happly
    split at happly
    · next p th hg =>
      obtain rfl := Option.some.inj happly
      exact h.keep (hg ▸ rfl)
    · next p th tmp hg =>
      obtain ⟨nodes', -, rfl⟩ := Option.map_eq_some_iff.mp happly
      exact h.keep (hg ▸ rfl)
    · cases happly
  | queueInsert t block => exact h.queueInsert happly
  | schedulerDispatch judge turns =>
    obtain ⟨queue', hrun, rfl⟩ := Option.map_eq_some_iff.mp happly
    obtain ⟨-, dropped, hperm, -⟩ := Rotation.run_spec hrun
    refine h.requeue ?_ fun e he => ⟨e, hperm.subset (List.mem_append_left _ he), rfl⟩
    have hall := (hperm.map fun e => e.thread.tid).nodup_iff.mpr h.distinct
    rw [List.map_append] at hall
    exact hall.of_append_left
  | terminate id tids =>
    obtain ⟨s₁, hremove, rfl⟩ := Option.map_eq_some_iff.mp happly
    obtain ⟨hqueue, hprogress⟩ := removeProcessFromList_keeps hremove
    have hmap := map_tid_removeByTids tids s₁.readyQueue
    rw [hqueue] at hmap
    show TidInv (removeByTids tids s₁.readyQueue) s₁.progress
    rw [hqueue, hprogress]
    refine h.requeue (hmap ▸ h.distinct) fun e he => ?_
    have hin : e.thread.tid ∈ s.readyQueue.map fun e => e.thread.tid := hmap ▸ List.mem_map_of_mem he
    exact List.mem_map.mp hin
  | kfree p =>
    obtain rfl := Option.some.inj happly
    exact h

/-! ### Runs -/

/-- The ids are distinct, and nobody is creating a process. -/
def Orderly (s : Creations) : Prop := s.UniqueIds ∧ ∀ t, s.progress t = .idle

/-- The main thread of a new process. -/
def mainThreadWith (tid : Int) : Thread := ⟨0xE0001000#32, 0, 1#32, threadRun, 0#32, 0#32, tid⟩

/-- The kernel process, the launcher and the window system. -/
def booted : Creations where
  nodes := Linked.store (Linked.store (Linked.store (fun _ => none)
    0x1000#32 ⟨1, 0x2000#32⟩) 0x2000#32 ⟨2, 0x3000#32⟩) 0x3000#32 ⟨3, 0#32⟩
  processList := 0x1000#32
  readyQueue := [⟨0, mainThreadWith 1⟩, ⟨1, mainThreadWith 2⟩, ⟨2, mainThreadWith 3⟩]
  progress _ := .idle

theorem orderly_booted : booted.Orderly :=
  ⟨⟨[(0x1000#32, 1), (0x2000#32, 2), (0x3000#32, 3)],
    .cons (by decide) rfl (.cons (by decide) rfl (.cons (by decide) rfl .nil)), by decide, by decide⟩, fun _ => rfl⟩

end Creations

end Akos
