import Akos.Lib.Transition
import Akos.Sched.Priority

/-!
# Sleeping threads

`thread_sleep` sets the flag, then the counter, then asks for another task, and the timer may come between any two
of these. The flag is taken back by the tick that brings the counter from one to zero. A thread whose counter is
zero when another task runs is never woken.
-/

namespace Akos

/-- Where a thread stands in `thread_sleep`. -/
inductive SleepPc
  | outside
  | flagged (ms : BitVec 32)
  | counted
  deriving DecidableEq

/-- The scheduler, where each thread stands, and of its last sleep the argument and the ticks since the counter
was set. -/
structure Sleepers where
  sched : Sched
  pc : Nat → SleepPc
  slept : Nat → Option (BitVec 32 × Nat)

namespace Sleepers

/-- The three statements of `thread_sleep`, the last of which any thread may call, and the timer. -/
inductive Op
  | setFlag (ms : BitVec 32)
  | setCounter
  | schedule
  | tick

/-- A step of the running thread or of the timer. -/
def Step (s : Sleepers) (op : Op) (t : Sleepers) : Prop :=
  ∃ b, s.sched.currentTask = some b ∧
    match op with
    | .setFlag ms => s.pc b = .outside ∧
        t = { s with
          sched := s.sched.updateCurrent (·.threadSetState threadBlockSleep)
          pc := Function.update s.pc b (.flagged ms) }
    | .setCounter => ∃ ms, s.pc b = .flagged ms ∧
        t = { sched := s.sched.updateCurrent fun thread => { thread with sleepTimeDelta := ms / 10#32 }
              pc := Function.update s.pc b .counted
              slept := Function.update s.slept b (some (ms, 0)) }
    | .schedule => (∀ ms, s.pc b ≠ .flagged ms) ∧ ∃ turns u, s.sched.schedulerDispatch turns = some u ∧
        t = { s with sched := u, pc := Function.update s.pc b .outside }
    | .tick => ∃ turns u, s.sched.schedulerTick turns = some u ∧
        t = { s with sched := u, slept := fun p => (s.slept p).map fun ms => (ms.1, ms.2 + 1) }

/-- Without an interrupt between them, flag and counter are what `thread_sleep` sets. -/
theorem threadSleep_eq (ms : BitVec 32) (s : Sched) : s.threadSleep ms =
    (s.updateCurrent (·.threadSetState threadBlockSleep)).updateCurrent fun thread =>
      { thread with sleepTimeDelta := ms / 10#32 } := by
  unfold Sched.threadSleep Sched.updateCurrent
  dsimp only
  rw [List.map_map]
  congr 1
  apply List.map_congr_left
  intro e _
  by_cases hcurrent : s.currentTask = some e.block <;> simp [hcurrent, Thread.threadSetState]

/-- A thread sleeps for a tick at least, and the timer does not come between flag and counter. -/
def Careful (s : Sleepers) : Op → Prop
  | .setFlag ms => 10 ≤ ms.toNat
  | .setCounter | .schedule => True
  | .tick => ∀ b ms, s.sched.currentTask = some b → s.pc b ≠ .flagged ms

/-- Any queue of threads of which none sleeps. -/
structure Start (s : Sleepers) : Prop where
  nodup : (s.sched.readyQueue.map QueueEntry.block).Nodup
  awake : ∀ e ∈ s.sched.readyQueue, e.thread.has threadBlockSleep = false
  outside : ∀ b, s.pc b = .outside

/-- What is left of the last sleep of an entry. -/
def Remains (s : Sleepers) (e : QueueEntry) : Prop :=
  ∃ ms n, s.slept e.block = some (ms, n) ∧ e.thread.sleepTimeDelta.toNat + n = ms.toNat / 10 ∧
    0 < e.thread.sleepTimeDelta.toNat

/-- While another thread runs, each sleeping entry has some of its ticks left. -/
def OnTime (s : Sleepers) : Prop :=
  ∀ e ∈ s.sched.readyQueue, e.thread.has threadBlockSleep = true →
    (∃ b, s.sched.currentTask = some b ∧ b ≠ e.block) → s.Remains e

/-- A tick wakes exactly the sleeping entries whose last tick it is. -/
def WakesOnTime (s t : Sleepers) : Prop :=
  ∀ e ∈ s.sched.readyQueue, e.thread.has threadBlockSleep = true →
    (∃ b, s.sched.currentTask = some b ∧ b ≠ e.block) →
    ∀ e' ∈ t.sched.readyQueue, e'.block = e.block → ∃ ms n, s.slept e.block = some (ms, n) ∧
      (e'.thread.has threadBlockSleep = false ↔ n + 1 = ms.toNat / 10)

/-! ### Flags and counters -/

theorem has_threadRemoveState (t : Thread) (flags : BitVec 32) : (t.threadRemoveState flags).has flags = false := by
  unfold Thread.has Thread.threadRemoveState
  rw [BitVec.and_assoc, BitVec.and_comm (~~~flags), BitVec.and_not_self]
  simp

theorem toNat_pos_of_lt {n : BitVec 32} : 0#32 < n ↔ 0 < n.toNat := Iff.rfl

/-- What a tick does to a sleeping thread with ticks left. -/
theorem tickThread_spec {t : Thread} (hpos : 0 < t.sleepTimeDelta.toNat) (hsleeps : t.has threadBlockSleep = true) :
    (Sched.tickThread t).sleepTimeDelta.toNat + 1 = t.sleepTimeDelta.toNat ∧
      ((Sched.tickThread t).has threadBlockSleep = false ↔ t.sleepTimeDelta.toNat = 1) := by
  have hsub : (t.sleepTimeDelta - 1#32).toNat = t.sleepTimeDelta.toNat - 1 := by
    rw [BitVec.toNat_sub_of_le (show (1#32).toNat ≤ t.sleepTimeDelta.toNat from hpos)]
    rfl
  unfold Sched.tickThread
  rw [if_pos (toNat_pos_of_lt.mpr hpos)]
  split
  · next hlast =>
    have hone : t.sleepTimeDelta.toNat = 1 := by
      have hzero := congrArg BitVec.toNat hlast
      rw [hsub, BitVec.toNat_zero] at hzero
      omega
    refine ⟨?_, iff_of_true (has_threadRemoveState _ _) hone⟩
    show (0#32).toNat + 1 = _
    rw [hone]
    rfl
  · next hmore =>
    refine ⟨?_, iff_of_false ?_ fun hone => hmore ?_⟩
    · show (t.sleepTimeDelta - 1#32).toNat + 1 = _
      omega
    · exact fun hawake => Bool.false_ne_true (hawake.symm.trans hsleeps)
    · apply BitVec.eq_of_toNat_eq
      rw [hsub, hone]
      rfl

/-- A tick puts no thread to sleep. -/
theorem has_of_tickThread {t : Thread} (h : (Sched.tickThread t).has threadBlockSleep = true) :
    t.has threadBlockSleep = true := by
  unfold Sched.tickThread at h
  split at h
  · split at h
    · rw [show (({ t.threadRemoveState threadBlockSleep with sleepTimeDelta := 0#32 } : Thread).has threadBlockSleep)
        = false from has_threadRemoveState _ _] at h
      cases h
    · exact h
  · exact h

variable {s t : Sleepers} {e : QueueEntry}

/-! ### The invariant -/

/-- A sleeping thread is about to set its counter, or it has ticks left. -/
structure Inv (s : Sleepers) : Prop where
  nodup : (s.sched.readyQueue.map QueueEntry.block).Nodup
  current : ∀ b ms, s.pc b = .flagged ms → s.sched.currentTask = some b ∧ 10 ≤ ms.toNat
  remains : ∀ e ∈ s.sched.readyQueue, e.thread.has threadBlockSleep = true →
    (∃ ms, s.pc e.block = .flagged ms) ∨ s.Remains e

theorem Start.inv (h : s.Start) : s.Inv where
  nodup := h.nodup
  current b ms hpc := by
    rw [h.outside b] at hpc
    cases hpc
  remains e he hsleeps := by
    rw [h.awake e he] at hsleeps
    cases hsleeps

/-- In every state with the invariant. -/
theorem Inv.onTime (h : s.Inv) : s.OnTime := by
  intro e he hsleeps hother
  obtain ⟨b, hcurrent, hne⟩ := hother
  rcases h.remains e he hsleeps with ⟨ms, hpc⟩ | hremains
  · rw [(h.current e.block ms hpc).1] at hcurrent
    exact absurd (Option.some.inj hcurrent).symm hne
  · exact hremains

theorem blocks_updateCurrent (f : Thread → Thread) (s : Sched) :
    (s.updateCurrent f).readyQueue.map QueueEntry.block = s.readyQueue.map QueueEntry.block := by
  rw [Sched.updateCurrent, List.map_map]
  apply List.map_congr_left
  intro e _
  simp only [Function.comp_apply]
  split <;> rfl

/-- An entry after a change of the running thread. -/
theorem mem_updateCurrent {f : Thread → Thread} {s : Sched} {b : Nat} (hcurrent : s.currentTask = some b)
    (he : e ∈ (s.updateCurrent f).readyQueue) : ∃ e' ∈ s.readyQueue, e'.block = e.block ∧
      (e.block = b ∧ e.thread = f e'.thread ∨ e.block ≠ b ∧ e = e') := by
  obtain ⟨e', he', rfl⟩ := List.mem_map.mp he
  refine ⟨e', he', ?_⟩
  rw [hcurrent]
  by_cases hb : e'.block = b
  · rw [if_pos (congrArg some hb.symm)]
    exact ⟨rfl, .inl ⟨hb, rfl⟩⟩
  · rw [if_neg fun heq => hb (Option.some.inj heq).symm]
    exact ⟨rfl, .inr ⟨hb, rfl⟩⟩

theorem Inv.setFlag {ms : BitVec 32} (h : s.Inv) (hcareful : 10 ≤ ms.toNat) (hstep : Step s (.setFlag ms) t) :
    t.Inv := by
  obtain ⟨b, hcurrent, -, rfl⟩ := hstep
  constructor
  · exact (blocks_updateCurrent _ s.sched).symm ▸ h.nodup
  · intro p ms' hpc
    dsimp only at hpc ⊢
    by_cases hp : p = b
    · subst hp
      rw [Function.update_self] at hpc
      obtain rfl := SleepPc.flagged.inj hpc
      exact ⟨hcurrent, hcareful⟩
    · rw [Function.update_of_ne hp] at hpc
      exact h.current p ms' hpc
  · intro e he hsleeps
    obtain ⟨e', he', hblock, ⟨hb, -⟩ | ⟨hb, rfl⟩⟩ := mem_updateCurrent hcurrent he
    · exact .inl ⟨ms, by rw [hb]; exact Function.update_self ..⟩
    · rcases h.remains e he' hsleeps with ⟨ms', hpc⟩ | hremains
      · exact .inl ⟨ms', (Function.update_of_ne hb ..).trans hpc⟩
      · exact .inr hremains

theorem Inv.setCounter (h : s.Inv) (hstep : Step s .setCounter t) : t.Inv := by
  obtain ⟨b, hcurrent, ms, hpc, rfl⟩ := hstep
  have hms := (h.current b ms hpc).2
  constructor
  · exact (blocks_updateCurrent _ s.sched).symm ▸ h.nodup
  · intro p ms' hpc'
    dsimp only at hpc' ⊢
    by_cases hp : p = b
    · rw [hp, Function.update_self] at hpc'
      cases hpc'
    · rw [Function.update_of_ne hp] at hpc'
      exact h.current p ms' hpc'
  · intro e he hsleeps
    right
    obtain ⟨e', he', hblock, ⟨hb, hthread⟩ | ⟨hb, rfl⟩⟩ := mem_updateCurrent hcurrent he
    · have hcounter : e.thread.sleepTimeDelta.toNat = ms.toNat / 10 := by
        rw [hthread]
        exact BitVec.toNat_udiv
      refine ⟨ms, 0, ?_, by omega, by omega⟩
      rw [hb]
      exact Function.update_self ..
    · rcases h.remains e he' hsleeps with ⟨ms', hpc'⟩ | ⟨ms', n, hslept, hcounter⟩
      · have hother := (h.current e.block ms' hpc').1
        rw [hcurrent] at hother
        exact absurd (Option.some.inj hother).symm hb
      · exact ⟨ms', n, (Function.update_of_ne hb ..).trans hslept, hcounter⟩

/-- A dispatch that does not come between flag and counter. -/
theorem Inv.dispatched {u : Sched} {turns : Nat} (h : s.Inv) (hdispatch : s.sched.schedulerDispatch turns = some u)
    (hcalm : ∀ p ms, s.pc p ≠ .flagged ms) {pc : Nat → SleepPc} (hpc : ∀ p ms, pc p ≠ .flagged ms) :
    Inv ⟨u, pc, s.slept⟩ where
  nodup := (Sched.keeps_of_schedulerDispatch hdispatch).nodup h.nodup
  current p ms hp := absurd hp (hpc p ms)
  remains e he hsleeps := by
    rcases h.remains e ((Sched.keeps_of_schedulerDispatch hdispatch).mem he) hsleeps with ⟨ms, hp⟩ | hremains
    · exact absurd hp (hcalm _ ms)
    · exact .inr hremains

theorem Inv.calm (h : s.Inv) {b : Nat} (hcurrent : s.sched.currentTask = some b)
    (hpc : ∀ ms, s.pc b ≠ .flagged ms) (p : Nat) (ms : BitVec 32) : s.pc p ≠ .flagged ms := by
  intro hp
  have hother := (h.current p ms hp).1
  rw [hcurrent] at hother
  obtain rfl := Option.some.inj hother
  exact hpc ms hp

theorem Inv.schedule (h : s.Inv) (hstep : Step s .schedule t) : t.Inv := by
  obtain ⟨b, hcurrent, hpc, turns, u, hdispatch, rfl⟩ := hstep
  have hcalm := h.calm hcurrent hpc
  refine h.dispatched hdispatch hcalm fun p ms hp => ?_
  by_cases hb : p = b
  · rw [hb, Function.update_self] at hp
    cases hp
  · rw [Function.update_of_ne hb] at hp
    exact hcalm p ms hp

/-- The entries after a tick. -/
theorem mem_of_schedulerTick {s u : Sched} {turns : Nat} (h : s.schedulerTick turns = some u)
    (he : e ∈ u.readyQueue) :
    ∃ e' ∈ s.readyQueue, e'.block = e.block ∧ e.thread = Sched.tickThread e'.thread := by
  obtain ⟨v, hdispatch, rfl⟩ := Option.map_eq_some_iff.mp h
  obtain ⟨e', he', rfl⟩ := List.mem_map.mp he
  exact ⟨e', (Sched.keeps_of_schedulerDispatch hdispatch).mem he', rfl, rfl⟩

theorem Inv.tick (h : s.Inv) (hcareful : s.Careful .tick) (hstep : Step s .tick t) : t.Inv := by
  obtain ⟨b, hcurrent, turns, u, htick, rfl⟩ := hstep
  have hcalm := h.calm hcurrent fun ms => hcareful b ms hcurrent
  constructor
  · obtain ⟨v, hdispatch, rfl⟩ := Option.map_eq_some_iff.mp htick
    show ((v.readyQueue.map fun e => { e with thread := Sched.tickThread e.thread }).map QueueEntry.block).Nodup
    rw [List.map_map]
    exact (Sched.keeps_of_schedulerDispatch hdispatch).nodup h.nodup
  · exact fun p ms hp => absurd hp (hcalm p ms)
  · intro e he hsleeps
    right
    obtain ⟨e', he', hblock, hthread⟩ := mem_of_schedulerTick htick he
    rw [hthread] at hsleeps
    have hsleeps' := has_of_tickThread hsleeps
    rcases h.remains e' he' hsleeps' with ⟨ms, hp⟩ | ⟨ms, n, hslept, hcounter, hpos⟩
    · exact absurd hp (hcalm _ ms)
    obtain ⟨hdown, hwakes⟩ := tickThread_spec hpos hsleeps'
    -- it was not the last tick
    have hmore : e'.thread.sleepTimeDelta.toNat ≠ 1 := fun hone =>
      Bool.false_ne_true ((hwakes.mpr hone).symm.trans hsleeps)
    refine ⟨ms, n + 1, ?_, ?_, ?_⟩
    · rw [← hblock]
      dsimp only
      rw [hslept]
      rfl
    · rw [hthread]
      omega
    · rw [hthread]
      omega

theorem Inv.step {op : Op} (h : s.Inv) (hcareful : s.Careful op) (hstep : Step s op t) : t.Inv := by
  cases op with
  | setFlag ms => exact h.setFlag hcareful hstep
  | setCounter => exact h.setCounter hstep
  | schedule => exact h.schedule hstep
  | tick => exact h.tick hcareful hstep

theorem Inv.wakesOnTime (h : s.Inv) (hstep : Step s .tick t) : s.WakesOnTime t := by
  obtain ⟨b, -, turns, u, htick, rfl⟩ := hstep
  intro e he hsleeps hother e' he' hblock
  obtain ⟨ms, n, hslept, hcounter, hpos⟩ := h.onTime e he hsleeps hother
  obtain ⟨e'', he'', hblock', hthread⟩ := mem_of_schedulerTick htick he'
  obtain rfl : e'' = e := List.inj_on_of_nodup_map h.nodup he'' he (hblock'.trans hblock)
  refine ⟨ms, n, hslept, ?_⟩
  rw [hthread, (tickThread_spec hpos hsleeps).2]
  omega

/-! ### Runs -/

/-- A step with the two precautions. -/
def CarefulStep (s : Sleepers) (op : Op) (t : Sleepers) : Prop := s.Careful op ∧ Step s op t

/-- Two threads, of which the first runs. -/
def twoThreads : Sleepers where
  sched := (Sched.appendAll [1#32, 2#32] Sched.emptyQueue).enableScheduling
  pc _ := .outside
  slept _ := none

theorem start_twoThreads : twoThreads.Start := ⟨by decide, by decide, fun _ => rfl⟩

end Sleepers

end Akos
