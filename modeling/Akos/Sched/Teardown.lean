import Akos.Lib.Transition
import Akos.Sched.Dispatch
import Akos.Sched.Process

/-!
# Tearing processes down

Over any order of creating, terminating and dispatching, the descriptor of a process and its name are freed
once at most, and not while a thread of the process is in the ready queue. The dispatcher frees a process
when it removes its last thread. `terminateKernelProcessById` frees it at once, with the threads still
queued, so the result is about runs that spare the kernel processes.
-/

namespace Akos

/-- What the teardown reads of a queue entry. -/
structure ThreadRef where
  tid : Int
  parent : Nat
  dead : Bool
  deriving DecidableEq

namespace ThreadRef

/-- A thread of a terminated process. -/
def kill (p : Nat) (r : ThreadRef) : ThreadRef := if r.parent = p then { r with dead := true } else r

@[simp] theorem tid_kill (p : Nat) (r : ThreadRef) : (r.kill p).tid = r.tid := by
  rw [kill]
  split <;> rfl

@[simp] theorem parent_kill (p : Nat) (r : ThreadRef) : (r.kill p).parent = r.parent := by
  rw [kill]
  split <;> rfl

end ThreadRef

def QueueEntry.ref (e : QueueEntry) : ThreadRef :=
  ⟨e.thread.tid, e.thread.parent, e.thread.has threadTerminate⟩

namespace Process

/-- The ids of the threads in the process's own list. -/
def tids (proc : Process) : List Int := proc.threadList.map fun t => t.thread.tid

/-- What the teardown reads of a descriptor. -/
def core (proc : Process) : Int × List Int × Nat × Option Nat :=
  (proc.id, proc.tids, proc.livingThreads, proc.name)

end Process

namespace Sched

def refs (s : Sched) : List ThreadRef := s.readyQueue.map QueueEntry.ref

/-- How often a block was passed to `kfree`. -/
def freed (s : Sched) (b : Block) : Nat := s.calls.count (.kfree b)

/-- The process is in the list or has a thread in the queue. -/
def Alive (s : Sched) (p : Nat) : Prop := p ∈ s.processList ∨ ∃ r ∈ s.refs, r.parent = p

def entriesOf (s : Sched) (p : Nat) : Nat := s.refs.countP fun r => r.parent = p

/-- No descriptor and no name is freed twice, or while a thread of its process is in the queue. -/
structure Sound (s : Sched) : Prop where
  descriptor_once : ∀ p, s.freed (.process p) ≤ 1
  name_once : ∀ n, s.freed (.name n) ≤ 1
  parent_kept : ∀ e ∈ s.readyQueue, s.freed (.process e.thread.parent) = 0
  name_kept : ∀ e ∈ s.readyQueue, ∀ n, (s.processes e.thread.parent).name = some n → s.freed (.name n) = 0

/-- The invariant. Threads of listed processes are exactly those without the terminate flag, a listed
process knows its threads, and a process counts at least the threads it has in the queue. -/
structure Inv (s : Sched) : Prop where
  tids : (s.refs.map ThreadRef.tid).Nodup
  ids : (s.processList.map fun p => (s.processes p).id).Nodup
  fresh : ∀ p, s.Alive p → p < s.fresh
  dead_iff : ∀ r ∈ s.refs, r.dead = true ↔ r.parent ∉ s.processList
  threads : ∀ p ∈ s.processList, ∀ r ∈ s.refs, r.tid ∈ (s.processes p).tids ↔ r.parent = p
  queued : ∀ p ∈ s.processList, ∀ tid ∈ (s.processes p).tids, ∃ r ∈ s.refs, r.tid = tid
  living : ∀ p, s.Alive p → s.entriesOf p ≤ (s.processes p).livingThreads
  name : ∀ p, s.Alive p → ∀ n, (s.processes p).name = some n → n = p
  kept : ∀ p, s.Alive p ∨ s.fresh ≤ p → s.freed (.process p) = 0 ∧ s.freed (.name p) = 0
  once : ∀ p, s.freed (.process p) ≤ 1 ∧ s.freed (.name p) ≤ 1

/-- Every listed process has a thread in the queue. -/
def Staffed (s : Sched) : Prop := ∀ p ∈ s.processList, ∃ r ∈ s.refs, r.parent = p

variable {s t : Sched}

theorem mem_refs {e : QueueEntry} (he : e ∈ s.readyQueue) : e.ref ∈ s.refs := List.mem_map_of_mem he

theorem alive_of_mem {e : QueueEntry} (he : e ∈ s.readyQueue) : s.Alive e.thread.parent :=
  .inr ⟨e.ref, mem_refs he, rfl⟩

theorem Inv.sound (h : Inv s) : Sound s where
  descriptor_once p := (h.once p).1
  name_once n := (h.once n).2
  parent_kept _ he := (h.kept _ (.inl (alive_of_mem he))).1
  name_kept e he n hn := by
    rw [h.name _ (alive_of_mem he) n hn]
    exact (h.kept _ (.inl (alive_of_mem he))).2

/-! ### What teardown does not read -/

/-- The states agree in what the teardown reads, up to the order of the queue. -/
structure Agrees (s t : Sched) : Prop where
  refs : t.refs.Perm s.refs
  processList : t.processList = s.processList
  core : ∀ p, (t.processes p).core = (s.processes p).core
  fresh : s.fresh ≤ t.fresh
  freed : ∀ p, t.freed (.process p) = s.freed (.process p) ∧ t.freed (.name p) = s.freed (.name p)

namespace Agrees

theorem alive_iff (h : Agrees s t) (p : Nat) : t.Alive p ↔ s.Alive p := by
  rw [Alive, Alive, h.processList]
  simp only [h.refs.mem_iff]

theorem entriesOf (h : Agrees s t) (p : Nat) : t.entriesOf p = s.entriesOf p := h.refs.countP_eq _

theorem id (h : Agrees s t) (p : Nat) : (t.processes p).id = (s.processes p).id :=
  congrArg Prod.fst (h.core p)

theorem tids (h : Agrees s t) (p : Nat) : (t.processes p).tids = (s.processes p).tids :=
  congrArg (fun c => c.2.1) (h.core p)

theorem livingThreads (h : Agrees s t) (p : Nat) :
    (t.processes p).livingThreads = (s.processes p).livingThreads :=
  congrArg (fun c => c.2.2.1) (h.core p)

theorem name (h : Agrees s t) (p : Nat) : (t.processes p).name = (s.processes p).name :=
  congrArg (fun c => c.2.2.2) (h.core p)

theorem inv (h : Agrees s t) (hs : Inv s) : Inv t where
  tids := (h.refs.map _).nodup_iff.mpr hs.tids
  ids := by
    have hmap : (t.processList.map fun p => (t.processes p).id) =
        s.processList.map fun p => (s.processes p).id := by
      rw [h.processList]
      exact List.map_congr_left fun p _ => h.id p
    rw [hmap]
    exact hs.ids
  fresh p hp := Nat.lt_of_lt_of_le (hs.fresh p ((h.alive_iff p).mp hp)) h.fresh
  dead_iff r hr := by
    rw [h.processList]
    exact hs.dead_iff r (h.refs.mem_iff.mp hr)
  threads p hp r hr := by
    rw [h.tids]
    exact hs.threads p (h.processList ▸ hp) r (h.refs.mem_iff.mp hr)
  queued p hp tid htid := by
    rw [h.tids] at htid
    obtain ⟨r, hr, heq⟩ := hs.queued p (h.processList ▸ hp) tid htid
    exact ⟨r, h.refs.mem_iff.mpr hr, heq⟩
  living p hp := by
    rw [h.entriesOf, h.livingThreads]
    exact hs.living p ((h.alive_iff p).mp hp)
  name p hp n hn := hs.name p ((h.alive_iff p).mp hp) n (by rwa [← h.name])
  kept p hp := by
    rw [(h.freed p).1, (h.freed p).2]
    exact hs.kept p (hp.imp (h.alive_iff p).mp h.fresh.trans)
  once p := by
    rw [(h.freed p).1, (h.freed p).2]
    exact hs.once p

theorem staffed (h : Agrees s t) (hs : Staffed s) : Staffed t := by
  intro p hp
  rw [h.processList] at hp
  obtain ⟨r, hr, heq⟩ := hs p hp
  exact ⟨r, h.refs.mem_iff.mpr hr, heq⟩

theorem refl (s : Sched) : Agrees s s := ⟨List.Perm.refl _, rfl, fun _ => rfl, Nat.le_refl _, fun _ => ⟨rfl, rfl⟩⟩

theorem trans {u : Sched} (h : Agrees s t) (h' : Agrees t u) : Agrees s u where
  refs := h'.refs.trans h.refs
  processList := h'.processList.trans h.processList
  core p := (h'.core p).trans (h.core p)
  fresh := h.fresh.trans h'.fresh
  freed p := ⟨(h'.freed p).1.trans (h.freed p).1, (h'.freed p).2.trans (h.freed p).2⟩

end Agrees

/-! ### Numbers that are not taken -/

theorem foldl_succ_max {α : Type*} (f : α → Int) (l : List α) (start : Int) :
    start ≤ l.foldl (fun id x => if f x ≥ id then f x + 1 else id) start ∧
      ∀ x ∈ l, f x < l.foldl (fun id x => if f x ≥ id then f x + 1 else id) start := by
  induction l generalizing start with
  | nil => exact ⟨le_refl _, fun x hx => absurd hx List.not_mem_nil⟩
  | cons y l ih =>
    rw [List.foldl_cons]
    obtain ⟨hle, hall⟩ := ih (if f y ≥ start then f y + 1 else start)
    have hstart : start ≤ if f y ≥ start then f y + 1 else start := by split <;> omega
    have hy : f y < if f y ≥ start then f y + 1 else start := by split <;> omega
    refine ⟨hstart.trans hle, fun x hx => ?_⟩
    cases List.mem_cons.mp hx with
    | inl heq => rw [heq]; exact lt_of_lt_of_le hy hle
    | inr hmem => exact hall x hmem

theorem tid_lt_getFreeTid (s : Sched) {r : ThreadRef} (hr : r ∈ s.refs) : r.tid < s.getFreeTid := by
  obtain ⟨e, he, rfl⟩ := List.mem_map.mp hr
  exact (foldl_succ_max (fun e : QueueEntry => e.thread.tid) s.readyQueue 1).2 e he

theorem id_lt_getFreeID (s : Sched) {p : Nat} (hp : p ∈ s.processList) :
    (s.processes p).id < s.getFreeID :=
  (foldl_succ_max (fun p => (s.processes p).id) s.processList 1).2 p hp

/-! ### Creating processes and threads -/

/-- A process without threads joins the list. -/
theorem Inv.registerProcess (hs : Inv s) {proc : Process} (hid : proc.id = s.getFreeID)
    (htids : proc.threadList = []) (hname : proc.name = some s.fresh) : Inv (s.registerProcess proc) := by
  have hprocess : ∀ p, p ≠ s.fresh → (s.registerProcess proc).processes p = s.processes p :=
    fun p hp => if_neg hp
  have hnew : (s.registerProcess proc).processes s.fresh = proc := if_pos rfl
  have hlist : ∀ p, p ∈ (s.registerProcess proc).processList ↔ p ∈ s.processList ∨ p = s.fresh := by
    intro p
    show p ∈ s.processList ++ [s.fresh] ↔ _
    rw [List.mem_append, List.mem_singleton]
  have hlt : ∀ p ∈ s.processList, p ≠ s.fresh := fun p hp => Nat.ne_of_lt (hs.fresh p (.inl hp))
  have hparent : ∀ r ∈ s.refs, r.parent ≠ s.fresh := fun r hr =>
    Nat.ne_of_lt (hs.fresh r.parent (.inr ⟨r, hr, rfl⟩))
  have halive : ∀ p, (s.registerProcess proc).Alive p → s.Alive p ∨ p = s.fresh := by
    rintro p (hp | hp)
    · exact ((hlist p).mp hp).imp Or.inl id
    · exact .inl (.inr hp)
  have hnone : s.entriesOf s.fresh = 0 :=
    List.countP_eq_zero.mpr fun r hr => by simpa using hparent r hr
  refine ⟨hs.tids, ?_, ?_, ?_, ?_, ?_, ?_, ?_, ?_, hs.once⟩
  · show ((s.processList ++ [s.fresh]).map fun p => ((s.registerProcess proc).processes p).id).Nodup
    have hmap : (s.processList.map fun p => ((s.registerProcess proc).processes p).id) =
        s.processList.map fun p => (s.processes p).id :=
      List.map_congr_left fun p hp => by rw [hprocess p (hlt p hp)]
    rw [List.map_append, List.map_singleton, hmap, hnew, hid]
    refine List.Nodup.append hs.ids (List.nodup_singleton _) ?_
    intro i hi hfree
    obtain ⟨p, hp, rfl⟩ := List.mem_map.mp hi
    exact absurd (List.mem_singleton.mp hfree) (ne_of_lt (s.id_lt_getFreeID hp))
  · intro p hp
    show p < s.fresh + 1
    cases halive p hp with
    | inl h => exact (hs.fresh p h).trans (Nat.lt_succ_self _)
    | inr h => exact h ▸ Nat.lt_succ_self _
  · intro r hr
    rw [hs.dead_iff r hr, hlist, not_or]
    exact (and_iff_left (hparent r hr)).symm
  · intro p hp r hr
    cases (hlist p).mp hp with
    | inl h =>
      rw [hprocess p (hlt p h)]
      exact hs.threads p h r hr
    | inr h =>
      rw [h, hnew, Process.tids, htids]
      exact iff_of_false List.not_mem_nil (hparent r hr)
  · intro p hp tid htid
    cases (hlist p).mp hp with
    | inl h =>
      rw [hprocess p (hlt p h)] at htid
      exact hs.queued p h tid htid
    | inr h =>
      rw [h, hnew, Process.tids, htids] at htid
      exact absurd htid List.not_mem_nil
  · intro p hp
    by_cases hp' : p = s.fresh
    · rw [hp']
      exact hnone.trans_le (Nat.zero_le _)
    · rw [hprocess p hp']
      exact hs.living p ((halive p hp).resolve_right hp')
  · intro p hp n hn
    by_cases hp' : p = s.fresh
    · rw [hp', hnew, hname] at hn
      rw [hp']
      exact (Option.some.inj hn).symm
    · rw [hprocess p hp'] at hn
      exact hs.name p ((halive p hp).resolve_right hp') n hn
  · intro p hp
    refine hs.kept p ?_
    cases hp with
    | inl h =>
      cases halive p h with
      | inl h => exact .inl h
      | inr h => exact .inr h.ge
    | inr h => exact .inr ((Nat.le_succ _).trans h)

/-- A new thread of a listed process. -/
structure Joins (s t : Sched) (p : Nat) (tid : Int) : Prop where
  refs : t.refs.Perm (⟨tid, p, false⟩ :: s.refs)
  processList : t.processList = s.processList
  other : ∀ q, q ≠ p → (t.processes q).core = (s.processes q).core
  self : (t.processes p).core =
    ((s.processes p).id, (s.processes p).tids ++ [tid], (s.processes p).livingThreads + 1, (s.processes p).name)
  fresh : s.fresh ≤ t.fresh
  freed : ∀ p, t.freed (.process p) = s.freed (.process p) ∧ t.freed (.name p) = s.freed (.name p)

namespace Joins

variable {p : Nat} {tid : Int}

theorem id (h : Joins s t p tid) (q : Nat) : (t.processes q).id = (s.processes q).id := by
  by_cases hq : q = p
  · rw [hq]
    exact congrArg Prod.fst h.self
  · exact congrArg Prod.fst (h.other q hq)

theorem name (h : Joins s t p tid) (q : Nat) : (t.processes q).name = (s.processes q).name := by
  by_cases hq : q = p
  · rw [hq]
    exact congrArg (fun c => c.2.2.2) h.self
  · exact congrArg (fun c => c.2.2.2) (h.other q hq)

theorem mem_tids (h : Joins s t p tid) (q : Nat) (i : Int) :
    i ∈ (t.processes q).tids ↔ i ∈ (s.processes q).tids ∨ q = p ∧ i = tid := by
  by_cases hq : q = p
  · have htids : (t.processes p).tids = (s.processes p).tids ++ [tid] :=
      congrArg (fun c => c.2.1) h.self
    rw [hq, htids, List.mem_append, List.mem_singleton]
    simp
  · have htids : (t.processes q).tids = (s.processes q).tids := congrArg (fun c => c.2.1) (h.other q hq)
    rw [htids]
    simp [hq]

theorem alive_iff (h : Joins s t p tid) (hp : p ∈ s.processList) (q : Nat) : t.Alive q ↔ s.Alive q := by
  rw [Alive, Alive, h.processList]
  constructor
  · rintro (hq | ⟨r, hr, rfl⟩)
    · exact .inl hq
    · cases List.mem_cons.mp (h.refs.mem_iff.mp hr) with
      | inl heq => exact .inl (heq ▸ hp)
      | inr hmem => exact .inr ⟨r, hmem, rfl⟩
  · rintro (hq | ⟨r, hr, rfl⟩)
    · exact .inl hq
    · exact .inr ⟨r, h.refs.mem_iff.mpr (List.mem_cons_of_mem _ hr), rfl⟩

theorem inv (h : Joins s t p s.getFreeTid) (hp : p ∈ s.processList) (hs : Inv s) : Inv t := by
  have htid : ∀ r ∈ s.refs, r.tid ≠ s.getFreeTid := fun r hr => ne_of_lt (s.tid_lt_getFreeTid hr)
  refine ⟨?_, ?_, ?_, ?_, ?_, ?_, ?_, ?_, ?_, ?_⟩
  · rw [(h.refs.map _).nodup_iff, List.map_cons, List.nodup_cons]
    refine ⟨fun hmem => ?_, hs.tids⟩
    obtain ⟨r, hr, heq⟩ := List.mem_map.mp hmem
    exact htid r hr heq
  · have hmap : (t.processList.map fun q => (t.processes q).id) =
        s.processList.map fun q => (s.processes q).id := by
      rw [h.processList]
      exact List.map_congr_left fun q _ => h.id q
    rw [hmap]
    exact hs.ids
  · exact fun q hq => (hs.fresh q ((h.alive_iff hp q).mp hq)).trans_le h.fresh
  · intro r hr
    rw [h.processList]
    cases List.mem_cons.mp (h.refs.mem_iff.mp hr) with
    | inl heq => rw [heq]; exact iff_of_false Bool.false_ne_true (not_not_intro hp)
    | inr hmem => exact hs.dead_iff r hmem
  · intro q hq r hr
    rw [h.processList] at hq
    rw [h.mem_tids]
    cases List.mem_cons.mp (h.refs.mem_iff.mp hr) with
    | inl heq =>
      rw [heq]
      constructor
      · rintro (hold | ⟨hqp, -⟩)
        · obtain ⟨r', hr', htid'⟩ := hs.queued q hq _ hold
          exact absurd htid' (htid r' hr')
        · exact hqp.symm
      · exact fun hpq => .inr ⟨hpq.symm, rfl⟩
    | inr hmem =>
      rw [or_iff_left fun hnew => htid r hmem hnew.2]
      exact hs.threads q hq r hmem
  · intro q hq i hi
    rw [h.processList] at hq
    cases (h.mem_tids q i).mp hi with
    | inl hold =>
      obtain ⟨r, hr, heq⟩ := hs.queued q hq i hold
      exact ⟨r, h.refs.mem_iff.mpr (List.mem_cons_of_mem _ hr), heq⟩
    | inr hnew => exact ⟨_, h.refs.mem_iff.mpr List.mem_cons_self, hnew.2.symm⟩
  · intro q hq
    have hle := hs.living q ((h.alive_iff hp q).mp hq)
    rw [entriesOf, h.refs.countP_eq, List.countP_cons, ← entriesOf]
    by_cases hqp : q = p
    · have hliving : (t.processes p).livingThreads = (s.processes p).livingThreads + 1 :=
        congrArg (fun c => c.2.2.1) h.self
      rw [hqp] at hle ⊢
      simp only [hliving, decide_true, if_true]
      exact Nat.succ_le_succ hle
    · have hliving : (t.processes q).livingThreads = (s.processes q).livingThreads :=
        congrArg (fun c => c.2.2.1) (h.other q hqp)
      rw [hliving, if_neg (by simpa using Ne.symm hqp)]
      exact hle
  · intro q hq n hn
    exact hs.name q ((h.alive_iff hp q).mp hq) n (by rwa [← h.name])
  · intro q hq
    rw [(h.freed q).1, (h.freed q).2]
    exact hs.kept q (hq.imp (h.alive_iff hp q).mp h.fresh.trans)
  · intro q
    rw [(h.freed q).1, (h.freed q).2]
    exact hs.once q

theorem staffed (h : Joins s t p tid) (hs : ∀ q ∈ s.processList, q ≠ p → ∃ r ∈ s.refs, r.parent = q) :
    Staffed t := by
  intro q hq
  rw [h.processList] at hq
  by_cases hqp : q = p
  · exact ⟨_, h.refs.mem_iff.mpr List.mem_cons_self, hqp.symm⟩
  · obtain ⟨r, hr, heq⟩ := hs q hq hqp
    exact ⟨r, h.refs.mem_iff.mpr (List.mem_cons_of_mem _ hr), heq⟩

end Joins

/-! ### Terminating and removing -/

/-- A process leaves the list and its threads are flagged. -/
structure Terminates (s t : Sched) (p : Nat) : Prop where
  refs : t.refs = s.refs.map (ThreadRef.kill p)
  sublist : t.processList.Sublist s.processList
  mem : ∀ q, q ∈ t.processList ↔ q ∈ s.processList ∧ q ≠ p
  processes : t.processes = s.processes
  fresh : t.fresh = s.fresh
  freed : ∀ p, t.freed (.process p) = s.freed (.process p) ∧ t.freed (.name p) = s.freed (.name p)

namespace Terminates

variable {p : Nat}

theorem mem_refs (h : Terminates s t p) {r : ThreadRef} (hr : r ∈ t.refs) :
    ∃ r' ∈ s.refs, r = r'.kill p := by
  rw [h.refs] at hr
  obtain ⟨r', hr', heq⟩ := List.mem_map.mp hr
  exact ⟨r', hr', heq.symm⟩

theorem alive (h : Terminates s t p) {q : Nat} (hq : t.Alive q) : s.Alive q := by
  cases hq with
  | inl hlist => exact .inl ((h.mem q).mp hlist).1
  | inr hentry =>
    obtain ⟨r, hr, rfl⟩ := hentry
    obtain ⟨r', hr', rfl⟩ := h.mem_refs hr
    exact .inr ⟨r', hr', (ThreadRef.parent_kill p r').symm⟩

theorem inv (h : Terminates s t p) (hs : Inv s) : Inv t where
  tids := by
    have hmap : (s.refs.map (ThreadRef.kill p)).map ThreadRef.tid = s.refs.map ThreadRef.tid := by
      rw [List.map_map]
      exact List.map_congr_left fun r _ => ThreadRef.tid_kill p r
    rw [h.refs, hmap]
    exact hs.tids
  ids := by
    rw [h.processes]
    exact hs.ids.sublist (h.sublist.map _)
  fresh q hq := by
    rw [h.fresh]
    exact hs.fresh q (h.alive hq)
  dead_iff r hr := by
    obtain ⟨r', hr', rfl⟩ := h.mem_refs hr
    rw [ThreadRef.parent_kill, h.mem, ThreadRef.kill]
    by_cases hp : r'.parent = p
    · rw [if_pos hp]
      exact iff_of_true rfl fun hlist => hlist.2 hp
    · rw [if_neg hp, hs.dead_iff r' hr', and_iff_left hp]
  threads q hq r hr := by
    obtain ⟨r', hr', rfl⟩ := h.mem_refs hr
    rw [ThreadRef.tid_kill, ThreadRef.parent_kill, h.processes]
    exact hs.threads q ((h.mem q).mp hq).1 r' hr'
  queued q hq tid htid := by
    rw [h.processes] at htid
    obtain ⟨r, hr, heq⟩ := hs.queued q ((h.mem q).mp hq).1 tid htid
    exact ⟨r.kill p, h.refs ▸ List.mem_map_of_mem hr, (ThreadRef.tid_kill p r).trans heq⟩
  living q hq := by
    have hcount : t.entriesOf q = s.entriesOf q := by
      rw [entriesOf, h.refs, List.countP_map, entriesOf]
      exact List.countP_congr fun r _ => by simp
    rw [hcount, h.processes]
    exact hs.living q (h.alive hq)
  name q hq n hn := hs.name q (h.alive hq) n (by rwa [← h.processes])
  kept q hq := by
    rw [(h.freed q).1, (h.freed q).2]
    exact hs.kept q (hq.imp h.alive fun hle => h.fresh ▸ hle)
  once q := by
    rw [(h.freed q).1, (h.freed q).2]
    exact hs.once q

theorem staffed (h : Terminates s t p) (hs : Staffed s) : Staffed t := by
  intro q hq
  obtain ⟨r, hr, heq⟩ := hs q ((h.mem q).mp hq).1
  exact ⟨r.kill p, h.refs ▸ List.mem_map_of_mem hr, (ThreadRef.parent_kill p r).trans heq⟩

end Terminates

/-- A dead thread leaves the queue, and its process is freed if it counts no thread any more. -/
structure Removes (s t : Sched) (r : ThreadRef) : Prop where
  refs : (r :: t.refs).Perm s.refs
  dead : r.dead = true
  processList : t.processList = s.processList
  other : ∀ q, q ≠ r.parent → t.processes q = s.processes q
  self : ∃ n, t.processes r.parent = { s.processes r.parent with livingThreads := n } ∧
    (n = (s.processes r.parent).livingThreads ∨ n = decrement (s.processes r.parent).livingThreads)
  fresh : t.fresh = s.fresh
  freed : ∀ q, t.freed (.process q) = s.freed (.process q) +
    if q = r.parent ∧ (t.processes r.parent).livingThreads = 0 then 1 else 0
  freed_name : ∀ q, t.freed (.name q) = s.freed (.name q) +
    if (s.processes r.parent).name = some q ∧ (t.processes r.parent).livingThreads = 0 then 1 else 0

namespace Removes

variable {r : ThreadRef}

theorem mem (h : Removes s t r) {r' : ThreadRef} (hr' : r' ∈ t.refs) : r' ∈ s.refs :=
  h.refs.mem_iff.mp (List.mem_cons_of_mem r hr')

theorem mem_self (h : Removes s t r) : r ∈ s.refs := h.refs.mem_iff.mp List.mem_cons_self

theorem alive (h : Removes s t r) {q : Nat} (hq : t.Alive q) : s.Alive q := by
  cases hq with
  | inl hlist => exact .inl (h.processList ▸ hlist)
  | inr hentry =>
    obtain ⟨r', hr', rfl⟩ := hentry
    exact .inr ⟨r', h.mem hr', rfl⟩

theorem alive_self (h : Removes s t r) : s.Alive r.parent := .inr ⟨r, h.mem_self, rfl⟩

theorem not_mem (h : Removes s t r) (hs : Inv s) : r.parent ∉ s.processList :=
  (hs.dead_iff r h.mem_self).mp h.dead

theorem processes_of_mem (h : Removes s t r) (hs : Inv s) {q : Nat} (hq : q ∈ s.processList) :
    t.processes q = s.processes q :=
  h.other q fun heq => h.not_mem hs (heq ▸ hq)

theorem entriesOf (h : Removes s t r) (q : Nat) :
    s.entriesOf q = t.entriesOf q + if r.parent = q then 1 else 0 := by
  rw [Sched.entriesOf, ← h.refs.countP_eq, List.countP_cons, ← Sched.entriesOf]
  simp only [decide_eq_true_eq]

/-- The count stays at least the number of entries. -/
theorem living_self (h : Removes s t r) (hs : Inv s) :
    t.entriesOf r.parent ≤ (t.processes r.parent).livingThreads := by
  have hle := hs.living r.parent h.alive_self
  have hcount := h.entriesOf r.parent
  rw [if_pos rfl] at hcount
  obtain ⟨n, hn, hcase⟩ := h.self
  rw [hn]
  show t.entriesOf r.parent ≤ n
  cases hcase with
  | inl heq => omega
  | inr heq =>
    rw [decrement, if_neg (by omega)] at heq
    omega

/-- When the process is freed, its last thread was this one. -/
theorem not_alive_of_freed (h : Removes s t r) (hs : Inv s)
    (hzero : (t.processes r.parent).livingThreads = 0) : ¬ t.Alive r.parent := by
  have hle := h.living_self hs
  rw [hzero, Nat.le_zero] at hle
  rintro (hlist | ⟨r', hr', heq⟩)
  · exact h.not_mem hs (h.processList ▸ hlist)
  · have hnone := List.countP_eq_zero.mp hle r' hr'
    exact hnone (decide_eq_true heq)

theorem name (h : Removes s t r) (q : Nat) : (t.processes q).name = (s.processes q).name := by
  by_cases hq : q = r.parent
  · obtain ⟨n, hn, -⟩ := h.self
    rw [hq, hn]
  · rw [h.other q hq]

theorem inv (h : Removes s t r) (hs : Inv s) : Inv t := by
  have hdead : ∀ q, t.Alive q ∨ t.fresh ≤ q →
      ¬ (q = r.parent ∧ (t.processes r.parent).livingThreads = 0) := by
    rintro q (hq | hq) ⟨rfl, hzero⟩
    · exact h.not_alive_of_freed hs hzero hq
    · have hlt := hs.fresh _ h.alive_self
      rw [h.fresh] at hq
      exact absurd hlt (Nat.not_lt.mpr hq)
  have hname : ∀ q, (s.processes r.parent).name = some q → q = r.parent := hs.name _ h.alive_self
  refine ⟨?_, ?_, ?_, ?_, ?_, ?_, ?_, ?_, ?_, ?_⟩
  · have hnodup := (h.refs.map ThreadRef.tid).nodup_iff.mpr hs.tids
    exact (List.nodup_cons.mp hnodup).2
  · have hmap : (t.processList.map fun q => (t.processes q).id) =
        s.processList.map fun q => (s.processes q).id := by
      rw [h.processList]
      exact List.map_congr_left fun q hq => by rw [h.processes_of_mem hs hq]
    rw [hmap]
    exact hs.ids
  · intro q hq
    rw [h.fresh]
    exact hs.fresh q (h.alive hq)
  · intro r' hr'
    rw [h.processList]
    exact hs.dead_iff r' (h.mem hr')
  · intro q hq r' hr'
    rw [h.processList] at hq
    rw [h.processes_of_mem hs hq]
    exact hs.threads q hq r' (h.mem hr')
  · intro q hq tid htid
    rw [h.processList] at hq
    rw [h.processes_of_mem hs hq] at htid
    obtain ⟨r', hr', heq⟩ := hs.queued q hq tid htid
    refine ⟨r', ?_, heq⟩
    cases List.mem_cons.mp (h.refs.mem_iff.mpr hr') with
    | inl hsame =>
      have hparent := (hs.threads q hq r' hr').mp (heq ▸ htid)
      rw [hsame] at hparent
      exact absurd (hparent ▸ hq) (h.not_mem hs)
    | inr hmem => exact hmem
  · intro q hq
    by_cases hqp : q = r.parent
    · rw [hqp]
      exact h.living_self hs
    · have hcount := h.entriesOf q
      rw [if_neg (Ne.symm hqp), Nat.add_zero] at hcount
      rw [h.other q hqp, ← hcount]
      exact hs.living q (h.alive hq)
  · intro q hq n hn
    rw [h.name] at hn
    exact hs.name q (h.alive hq) n hn
  · intro q hq
    have hs' := hs.kept q (hq.imp h.alive fun hle => h.fresh ▸ hle)
    rw [h.freed, h.freed_name, if_neg (hdead q hq), if_neg fun hn => hdead q hq ⟨hname q hn.1, hn.2⟩]
    exact hs'
  · intro q
    rw [h.freed, h.freed_name]
    by_cases hq : q = r.parent
    · obtain ⟨hdesc, hnm⟩ := hs.kept q (.inl (hq ▸ h.alive_self))
      rw [hdesc, hnm]
      constructor <;> split <;> omega
    · rw [if_neg fun hc => hq hc.1, if_neg fun hc => hq (hname q hc.1)]
      exact hs.once q

theorem staffed (h : Removes s t r) (hs : Inv s) (hst : Staffed s) : Staffed t := by
  intro q hq
  rw [h.processList] at hq
  obtain ⟨r', hr', heq⟩ := hst q hq
  refine ⟨r', ?_, heq⟩
  cases List.mem_cons.mp (h.refs.mem_iff.mpr hr') with
  | inl hsame =>
    rw [hsame] at heq
    exact absurd (heq ▸ hq) (h.not_mem hs)
  | inr hmem => exact hmem

end Removes

end Sched

end Akos
