import Akos.Winsys.WindowList

/-!
# Raising a window

`winsys_set_working_window_operation` with the lock of the list. Everything that leaves it gives the lock back, also
where there is no such window or nothing to move.
-/

namespace Akos.Winsys

/-- The windows, and `winsys_win_list_lock`. -/
structure LockedWindows where
  windows : Windows
  winsysWinListLock : Bool

namespace LockedWindows

/-- `acquireLock` returns when the lock is its caller's. -/
def acquireLock (s : LockedWindows) : LockedWindows := { s with winsysWinListLock := true }

def releaseLock (s : LockedWindows) : LockedWindows := { s with winsysWinListLock := false }

/-- The operation, with what it returns. -/
def winsysSetWorkingWindowOperation (s : LockedWindows) (wid : BitVec 32) : Option (LockedWindows × BitVec 32) := do
  let s := s.acquireLock
  let tmp ← s.windows.winsysGetWindowById wid
  if tmp = 0#32 then some (s.releaseLock, 0#32)
  else
    let oldWorking := s.windows.workingWindow
    let s := { s with windows := { s.windows with workingWindow := tmp } }
    if tmp = oldWorking then some (s.releaseLock, 1#32)
    else
      let head ← Linked.load s.windows.nodes s.windows.winList
      if head.next = 0#32 then some (s.releaseLock, 1#32)
      else
        let windows ← s.windows.moveToEnd wid tmp
        windows.paintOldWorking oldWorking
        windows.winsysPaintWindow tmp
        some (releaseLock { s with windows }, 1#32)

variable {s : LockedWindows} {t : Windows} {l : List (BitVec 32 × Window)} {wid : BitVec 32}

/-- The windows are those of the operation without the lock, and the lock is free. -/
theorem operation_eq (h : s.windows.winsysSetWorkingWindowOperation wid = some t) :
    ∃ r, s.winsysSetWorkingWindowOperation wid = some (⟨t, false⟩, r) := by
  rw [Windows.winsysSetWorkingWindowOperation] at h
  rw [winsysSetWorkingWindowOperation]
  dsimp only [acquireLock, Option.bind_eq_bind] at h ⊢
  obtain ⟨tmp, hget, h⟩ := Option.bind_eq_some_iff.mp h
  rw [hget, Option.bind_some]
  split at h
  · next hzero =>
    obtain rfl := Option.some.inj h
    exact ⟨_, if_pos hzero⟩
  · next hne =>
    rw [if_neg hne]
    split at h
    · next hold =>
      obtain rfl := Option.some.inj h
      exact ⟨_, if_pos hold⟩
    · next hold =>
      rw [if_neg hold]
      obtain ⟨head, hhead, h⟩ := Option.bind_eq_some_iff.mp h
      rw [hhead, Option.bind_some]
      split at h
      · next hone =>
        obtain rfl := Option.some.inj h
        exact ⟨_, if_pos hone⟩
      · next hmore =>
        rw [if_neg hmore]
        obtain ⟨t', hmove, h⟩ := Option.bind_eq_some_iff.mp h
        obtain ⟨_, hpaintOld, h⟩ := Option.bind_eq_some_iff.mp h
        obtain ⟨_, hpaint, h⟩ := Option.bind_eq_some_iff.mp h
        obtain rfl := Option.some.inj h
        rw [hmove, Option.bind_some, hpaintOld, Option.bind_some, hpaint]
        exact ⟨_, rfl⟩

end LockedWindows

/-- What raising the window with an id does to the list and the working window. -/
structure Raises (wid : BitVec 32) (l : List (BitVec 32 × Window)) (s s' : Windows) : Prop where
  absent : (∀ e ∈ l, e.2.id ≠ wid) → Linked.Chain s'.nodes s'.winList l ∧ s'.workingWindow = s.workingWindow
  same : ∀ e ∈ l, e.2.id = wid → e.1 = s.workingWindow ∨ l.length = 1 →
    Linked.Chain s'.nodes s'.winList l ∧ s'.workingWindow = e.1
  raised : ∀ e ∈ l, e.2.id = wid → e.1 ≠ s.workingWindow → 2 ≤ l.length →
    Linked.Chain s'.nodes s'.winList (l.filter (fun e => e.2.id ≠ wid) ++ [e]) ∧ s'.workingWindow = e.1

variable {s : LockedWindows} {l l₁ l₂ : List (BitVec 32 × Window)} {e : BitVec 32 × Window} {wid : BitVec 32}

/-- The others are the rest of a list of distinct ids. -/
theorem filter_id_ne (h : ((l₁ ++ e :: l₂).map fun e => e.2.id).Nodup) :
    (l₁ ++ e :: l₂).filter (fun e' => e'.2.id ≠ e.2.id) = l₁ ++ l₂ := by
  rw [List.map_append, List.map_cons, List.nodup_middle, List.nodup_cons, ← List.map_append] at h
  have hothers : ∀ e' ∈ l₁ ++ l₂, e'.2.id ≠ e.2.id := fun e' he' heq => h.1 (heq ▸ List.mem_map_of_mem he')
  rw [List.filter_append, List.filter_cons_of_neg (by simp), ← List.filter_append, List.filter_eq_self]
  simpa using hothers

/-- The operation ends with the lock free, and it raises the window. -/
theorem setWorkingWindow_raises (h : s.windows.Listed l)
    (hworking : s.windows.workingWindow = 0#32 ∨ s.windows.workingWindow ∈ Linked.addresses l) (wid : BitVec 32) :
    ∃ s' r, s.winsysSetWorkingWindowOperation wid = some (s', r) ∧ s'.winsysWinListLock = false ∧
      Raises wid l s.windows s'.windows := by
  obtain ⟨hnone, hset⟩ | ⟨e, he, rfl, hsame, hset⟩ | ⟨l₁, e, l₂, t, rfl, rfl, hold, hother, hset, hlisted, hnow⟩ :=
    h.setWorkingWindow_cases hworking wid
  · obtain ⟨r, hop⟩ := LockedWindows.operation_eq hset
    refine ⟨_, r, hop, rfl, fun _ => ⟨h.chain, rfl⟩, fun e he hid => ?_, fun e he hid => ?_⟩
    · exact absurd hid (hnone e he)
    · exact absurd hid (hnone e he)
  · obtain ⟨r, hop⟩ := LockedWindows.operation_eq hset
    refine ⟨_, r, hop, rfl, fun hnone => absurd rfl (hnone e he), fun e' he' hid _ => ?_, fun e' he' hid hne hlen => ?_⟩
    · exact ⟨h.chain, congrArg Prod.fst (h.eq_of_id he he' hid.symm)⟩
    · obtain rfl := h.eq_of_id he he' hid.symm
      obtain heq | rfl := hsame
      · exact absurd heq hne
      · rw [List.length_singleton] at hlen
        omega
  · obtain ⟨r, hop⟩ := LockedWindows.operation_eq hset
    have he : e ∈ l₁ ++ e :: l₂ := List.mem_append_right _ List.mem_cons_self
    refine ⟨_, r, hop, rfl, fun hnone => absurd rfl (hnone e he), fun e' he' hid hor => ?_, fun e' he' hid _ _ => ?_⟩
    · obtain rfl := h.eq_of_id he he' hid.symm
      obtain heq | hone := hor
      · exact absurd heq hold
      · rw [List.length_append, List.length_cons] at hone
        refine absurd (List.length_eq_zero_iff.mp ?_) hother
        rw [List.length_append]
        omega
    · obtain rfl := h.eq_of_id he he' hid.symm
      rw [filter_id_ne h.distinct]
      exact ⟨hlisted.chain, hnow⟩

/-- A window over the top bar. -/
def twoWindows : Windows where
  nodes := Linked.store (Linked.store (fun _ => none) 0x1000#32 ⟨Windows.topBarWindow, 0x2000#32⟩) 0x2000#32
    ⟨Windows.kernelWindow 0x6000#32 0x8000#32 0 50 80 80 true 2#32 2#32, 0#32⟩
  winList := 0x1000#32
  workingWindow := 0x2000#32

theorem listed_twoWindows : twoWindows.Listed [(0x1000#32, Windows.topBarWindow),
    (0x2000#32, Windows.kernelWindow 0x6000#32 0x8000#32 0 50 80 80 true 2#32 2#32)] where
  chain := .cons (by decide) rfl (.cons (by decide) rfl .nil)
  distinct := by decide
  readable := by decide

theorem setWorkingWindow_raises_topBar : ∃ s' r,
    LockedWindows.winsysSetWorkingWindowOperation ⟨twoWindows, false⟩ 1#32 = some (s', r) ∧
      s'.winsysWinListLock = false ∧
      Raises 1#32 [(0x1000#32, Windows.topBarWindow),
        (0x2000#32, Windows.kernelWindow 0x6000#32 0x8000#32 0 50 80 80 true 2#32 2#32)] twoWindows s'.windows :=
  @setWorkingWindow_raises ⟨twoWindows, false⟩ _ listed_twoWindows (.inr (by decide)) 1#32

end Akos.Winsys
