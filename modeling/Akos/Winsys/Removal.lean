import Akos.Winsys.WindowList

/-!
# The windows of a terminated process

`winsys_remove_windows_by_pid` walks the list and queues a removal, and the listener removes the window later. The
walk ends with the first window it finds.
-/

namespace Akos.Winsys.Windows

/-- `winsys_remove_windows_by_pid`: what it queues. -/
def winsysRemoveWindowsByPid (s : Windows) (pid : BitVec 32) : Option (List WindowOp) := do
  let toRemove ← Linked.findFrom s.nodes (fun w => w.parentPid = pid) Linked.maxSteps s.winList
  if toRemove = 0#32 then some []
  else do
    let node ← Linked.load s.nodes toRemove
    some [.remove node.value.id]

/-- The listener does the operations one after another. -/
def doOperations (s : Windows) (ops : List WindowOp) : Option Windows := ops.foldlM apply s

/-- After the operations that are queued for a process it has no window, and the others are there in the same
order, but for the working window. -/
def RemovesWindows (s : Windows) (l : List (BitVec 32 × Window)) (pid : BitVec 32) : Prop :=
  ∃ ops s' l', s.winsysRemoveWindowsByPid pid = some ops ∧ s.doOperations ops = some s' ∧
    Linked.Chain s'.nodes s'.winList l' ∧ (∀ e ∈ l', e.2.parentPid ≠ pid) ∧
    (∀ e ∈ l, e.2.parentPid ≠ pid → e ∈ l') ∧
    SameOrder s'.workingWindow l' (l.filter fun e => e.2.parentPid ≠ pid)

/-- The process has no window, or one. In this case there is a working window, and the window is a kernel window
if it is the last one of all. -/
def OneWindow (s : Windows) (l : List (BitVec 32 × Window)) (pid : BitVec 32) : Prop :=
  (∀ e ∈ l, e.2.parentPid ≠ pid) ∨
    ∃ e, l.filter (fun e => e.2.parentPid = pid) = [e] ∧ s.workingWindow ≠ 0#32 ∧ (l = [e] → e.2.isUser = false)

variable {s : Windows} {l l₁ l₂ : List (BitVec 32 × Window)} {win pid : BitVec 32} {w : Window}

/-! ### What is queued -/

theorem winsysRemoveWindowsByPid_of_none (h : s.Listed l) (hnone : ∀ e ∈ l, e.2.parentPid ≠ pid) :
    s.winsysRemoveWindowsByPid pid = some [] := by
  have hfound := h.chain.findFrom_eq (fun w => w.parentPid = pid) h.chain.length_lt
  have hfind : l.find? (fun e => e.2.parentPid = pid) = none :=
    List.find?_eq_none.mpr fun e he => by simpa using hnone e he
  rw [winsysRemoveWindowsByPid, hfound, Linked.Chain.found, hfind]
  rfl

theorem winsysRemoveWindowsByPid_of_first (h : s.Listed (l₁ ++ (win, w) :: l₂)) (hpid : w.parentPid = pid)
    (hfirst : ∀ e ∈ l₁, e.2.parentPid ≠ pid) : s.winsysRemoveWindowsByPid pid = some [.remove w.id] := by
  have hfound := h.chain.findFrom_eq (fun w => w.parentPid = pid) h.chain.length_lt
  have hfind : (l₁ ++ (win, w) :: l₂).find? (fun e => e.2.parentPid = pid) = some (win, w) :=
    List.find?_eq_some_iff_append.mpr ⟨decide_eq_true hpid, l₁, l₂, rfl, fun e he => by simpa using hfirst e he⟩
  have hmem : (win, w) ∈ l₁ ++ (win, w) :: l₂ := List.mem_append_right l₁ List.mem_cons_self
  obtain ⟨q, hload⟩ := h.chain.load_of_mem hmem
  rw [winsysRemoveWindowsByPid, hfound, Linked.Chain.found, hfind]
  dsimp only [Option.bind_eq_bind, Option.bind_some, Option.map_some, Option.getD_some]
  rw [if_neg (h.chain.ne_zero (List.mem_map_of_mem hmem)), hload]
  rfl

theorem apply_remove (h : s.Listed (l₁ ++ (win, w) :: l₂)) :
    s.apply (.remove w.id) = s.winsysRemoveWindowOperation win := by
  have hmem : (win, w) ∈ l₁ ++ (win, w) :: l₂ := List.mem_append_right l₁ List.mem_cons_self
  rw [apply, h.getWindowById_of_mem hmem]
  rfl

/-! ### Removing the last window -/

/-- Without a working window a removal follows a null pointer. -/
theorem removeWindow_of_no_working (h : s.Listed (l₁ ++ (win, w) :: l₂)) (hworking : s.workingWindow = 0#32) :
    s.winsysRemoveWindowOperation win = none := by
  have hmem : (win, w) ∈ l₁ ++ (win, w) :: l₂ := List.mem_append_right l₁ List.mem_cons_self
  obtain ⟨q, hload⟩ := h.chain.load_of_mem hmem
  obtain ⟨r, s₁, -, -, hunlink, -, -, -, -, -, hworking₁⟩ := h.unlinkWindow_eq hload
  rw [winsysRemoveWindowOperation, if_neg (h.chain.ne_zero (List.mem_map_of_mem hmem)), hload]
  dsimp only [Option.bind_eq_bind, Option.bind_some]
  rw [hunlink]
  dsimp only [Option.bind_some]
  rw [replaceWorking, hworking₁, hworking]
  rfl

/-- The only window goes if it is one of the kernel; otherwise the search for the last window starts at null. -/
theorem removeWindow_only (h : s.Listed [(win, w)]) (hworking : s.workingWindow = win) :
    (w.isUser = false →
        ∃ s', s.winsysRemoveWindowOperation win = some s' ∧ s'.Listed [] ∧ s'.workingWindow = 0#32) ∧
      (w.isUser = true → s.winsysRemoveWindowOperation win = none) := by
  have hmem : (win, w) ∈ [(win, w)] := List.mem_cons_self
  obtain ⟨hhead, q, hload, hrest⟩ := h.chain.head_eq
  obtain rfl : q = 0#32 := hrest.eq_zero_iff.mpr rfl
  have hwin : win ≠ 0#32 := h.chain.ne_zero (List.mem_map_of_mem hmem)
  have hunlink : s.unlinkWindow w.id 0#32 = some (0#32, { s with winList := 0#32 }) := by
    rw [unlinkWindow, hhead, hload]
    exact if_pos rfl
  rw [winsysRemoveWindowOperation, if_neg hwin, hload]
  dsimp only [Option.bind_eq_bind, Option.bind_some]
  rw [hunlink]
  dsimp only [Option.bind_some]
  rw [replaceWorking]
  dsimp only
  rw [hworking, hload]
  dsimp only [Option.bind_eq_bind, Option.bind_some]
  rw [if_neg (not_not_intro rfl)]
  constructor
  · intro hkernel
    have hempty : ({ s with winList := 0#32, workingWindow := 0#32 } : Windows).Listed [] :=
      ⟨.nil, List.nodup_nil, fun e he => absurd he List.not_mem_nil⟩
    rw [if_pos ⟨rfl, hkernel⟩, Option.bind_some, hempty.displayCollidedWindows_eq]
    exact ⟨_, rfl, ⟨.nil, List.nodup_nil, fun e he => absurd he List.not_mem_nil⟩, rfl⟩
  · intro huser
    rw [if_neg (by simp [huser])]
    rfl

/-! ### All windows of a process -/

theorem SameOrder.refl (win : BitVec 32) (l : List (BitVec 32 × Window)) : SameOrder win l l := rfl

/-- The windows of other processes, when the process has one. -/
theorem filter_of_one (hpid : w.parentPid = pid) (hother : ∀ e ∈ l₁ ++ l₂, e.2.parentPid ≠ pid) :
    (l₁ ++ (win, w) :: l₂).filter (fun e => e.2.parentPid ≠ pid) = l₁ ++ l₂ := by
  have hkept : (l₁ ++ l₂).filter (fun e => e.2.parentPid ≠ pid) = l₁ ++ l₂ :=
    List.filter_eq_self.mpr fun e he => by simpa using hother e he
  rw [List.filter_append, List.filter_cons_of_neg (by simpa using hpid), ← List.filter_append, hkept]

theorem removesWindows_of_none (h : s.Listed l) (hnone : ∀ e ∈ l, e.2.parentPid ≠ pid) : s.RemovesWindows l pid := by
  have hkept : l.filter (fun e => e.2.parentPid ≠ pid) = l :=
    List.filter_eq_self.mpr fun e he => by simpa using hnone e he
  refine ⟨[], s, l, winsysRemoveWindowsByPid_of_none h hnone, rfl, h.chain, hnone, fun e he _ => he, ?_⟩
  rw [hkept]
  exact .refl _ l

/-- The process has one window. -/
theorem removesWindows_of_one (h : s.Listed (l₁ ++ (win, w) :: l₂))
    (hworking : s.workingWindow ∈ Linked.addresses (l₁ ++ (win, w) :: l₂)) (hpid : w.parentPid = pid)
    (hother : ∀ e ∈ l₁ ++ l₂, e.2.parentPid ≠ pid) (honly : l₁ ++ l₂ = [] → w.isUser = false) :
    s.RemovesWindows (l₁ ++ (win, w) :: l₂) pid := by
  have hqueued := winsysRemoveWindowsByPid_of_first h hpid fun e he => hother e (List.mem_append_left _ he)
  have hmem : ∀ e ∈ l₁ ++ (win, w) :: l₂, e.2.parentPid ≠ pid → e ∈ l₁ ++ l₂ := by
    intro e he hne
    have hkept : e ∈ (l₁ ++ (win, w) :: l₂).filter fun e => e.2.parentPid ≠ pid :=
      List.mem_filter.mpr ⟨he, decide_eq_true hne⟩
    rwa [filter_of_one hpid hother] at hkept
  by_cases hempty : l₁ ++ l₂ = []
  · obtain ⟨rfl, rfl⟩ := List.append_eq_nil_iff.mp hempty
    obtain ⟨s', hremove, hlisted, -⟩ := (removeWindow_only h (List.mem_singleton.mp hworking)).1 (honly rfl)
    refine ⟨_, s', [], hqueued, ?_, hlisted.chain, fun e he => absurd he List.not_mem_nil, hmem, ?_⟩
    · rw [doOperations, List.foldlM_cons, apply_remove h, hremove]
      rfl
    · rw [filter_of_one hpid hother]
      exact .refl _ []
  · obtain ⟨s', l', hremove, hlisted, hperm, horder, -⟩ := h.removeWindow_eq hworking hempty
    refine ⟨_, s', l', hqueued, ?_, hlisted.chain, fun e he => hother e (hperm.subset he),
      fun e he hne => hperm.symm.subset (hmem e he hne), ?_⟩
    · rw [doOperations, List.foldlM_cons, apply_remove h, hremove]
      rfl
    · rwa [filter_of_one hpid hother]

/-- A process whose windows go has one at most. -/
theorem oneWindow_of_removesWindows (h : s.Listed l)
    (hworking : s.workingWindow = 0#32 ∨ s.workingWindow ∈ Linked.addresses l) (hremoves : s.RemovesWindows l pid) :
    s.OneWindow l pid := by
  by_cases hnone : ∀ e ∈ l, e.2.parentPid ≠ pid
  · exact .inl hnone
  have hsome : (l.find? fun e => e.2.parentPid = pid).isSome = true := by
    simp only [not_forall, Classical.not_not] at hnone
    obtain ⟨e, he, hpid⟩ := hnone
    exact List.find?_isSome.mpr ⟨e, he, decide_eq_true hpid⟩
  obtain ⟨⟨win, w⟩, hfind⟩ := Option.isSome_iff_exists.mp hsome
  obtain ⟨hpid, l₁, l₂, rfl, hfirst⟩ := List.find?_eq_some_iff_append.mp hfind
  replace hpid : w.parentPid = pid := of_decide_eq_true hpid
  replace hfirst : ∀ e ∈ l₁, e.2.parentPid ≠ pid := fun e he => by simpa using hfirst e he
  obtain ⟨ops, s', l', hops, hdone, hchain, hgone, -, -⟩ := hremoves
  rw [winsysRemoveWindowsByPid_of_first h hpid hfirst] at hops
  obtain rfl := Option.some.inj hops
  rw [doOperations, List.foldlM_cons, apply_remove h] at hdone
  have hne : s.workingWindow ≠ 0#32 := by
    intro hzero
    rw [removeWindow_of_no_working h hzero] at hdone
    cases hdone
  replace hworking := hworking.resolve_left hne
  refine .inr ⟨(win, w), ?_, hne, fun hl => ?_⟩
  · -- another window of the process would still be there
    have hrest : ∀ e ∈ l₂, e.2.parentPid ≠ pid := by
      intro e he hpid'
      have hin : e ∈ l₁ ++ l₂ := List.mem_append_right _ he
      obtain ⟨s₁, l'', hremove, hlisted, hperm, -⟩ := h.removeWindow_eq hworking (List.ne_nil_of_mem hin)
      rw [hremove] at hdone
      obtain rfl := Option.some.inj hdone
      rw [hchain.unique hlisted.chain] at hgone
      exact hgone e (hperm.symm.subset hin) hpid'
    rw [List.filter_append, List.filter_cons_of_pos (by simpa using hpid),
      List.filter_eq_nil_iff.mpr fun e he => by simpa using hfirst e he,
      List.filter_eq_nil_iff.mpr fun e he => by simpa using hrest e he]
    rfl
  · rw [hl] at h hworking
    by_contra huser
    rw [(removeWindow_only h (List.mem_singleton.mp hworking)).2 (Bool.not_eq_false _ ▸ huser)] at hdone
    cases hdone

/-- The windows of a process go and the others stay exactly when the process has at most one, with the provisos of
`OneWindow`. -/
theorem removesWindows_iff (h : s.Listed l)
    (hworking : s.workingWindow = 0#32 ∨ s.workingWindow ∈ Linked.addresses l) (pid : BitVec 32) :
    s.RemovesWindows l pid ↔ s.OneWindow l pid := by
  constructor
  · exact oneWindow_of_removesWindows h hworking
  · intro hone
    obtain hnone | ⟨⟨win, w⟩, hfilter, hne, honly⟩ := hone
    · exact removesWindows_of_none h hnone
    have hmem : (win, w) ∈ l.filter fun e => e.2.parentPid = pid := hfilter ▸ List.mem_cons_self
    have hpid : w.parentPid = pid := of_decide_eq_true (List.mem_filter.mp hmem).2
    obtain ⟨l₁, l₂, rfl⟩ := List.append_of_mem (List.mem_filter.mp hmem).1
    rw [List.filter_append, List.filter_cons_of_pos (by simpa using hpid)] at hfilter
    have hother : ∀ e ∈ l₁ ++ l₂, e.2.parentPid ≠ pid := by
      have hlen := congrArg List.length hfilter
      rw [List.length_append, List.length_cons, List.length_singleton] at hlen
      intro e he hpid'
      have hin : e ∈ (l₁ ++ l₂).filter fun e => e.2.parentPid = pid :=
        List.mem_filter.mpr ⟨he, decide_eq_true hpid'⟩
      have hpos := List.length_pos_of_mem hin
      rw [List.filter_append, List.length_append] at hpos
      omega
    refine removesWindows_of_one h (hworking.resolve_left hne) hpid hother fun hempty => honly ?_
    obtain ⟨rfl, rfl⟩ := List.append_eq_nil_iff.mp hempty
    rfl

/-- A window of a program. -/
def programWindow (id parentPid : BitVec 32) : Window :=
  userWindow 0x6000#32 0x7000#32 0x8000#32 0 50 80 80 parentPid id

/-- The top bar, two windows of process 2 and the working window of process 3. -/
def fourWindows : Windows where
  nodes := Linked.store (Linked.store (Linked.store (Linked.store (fun _ => none)
    0x1000#32 ⟨topBarWindow, 0x2000#32⟩) 0x2000#32 ⟨programWindow 2#32 2#32, 0x3000#32⟩)
    0x3000#32 ⟨programWindow 3#32 2#32, 0x4000#32⟩) 0x4000#32 ⟨programWindow 4#32 3#32, 0#32⟩
  winList := 0x1000#32
  workingWindow := 0x4000#32

/-- The list of `fourWindows`. -/
def fourListed : List (BitVec 32 × Window) :=
  [(0x1000#32, topBarWindow), (0x2000#32, programWindow 2#32 2#32), (0x3000#32, programWindow 3#32 2#32),
    (0x4000#32, programWindow 4#32 3#32)]

theorem listed_fourWindows : fourWindows.Listed fourListed where
  chain := .cons (by decide) rfl (.cons (by decide) rfl (.cons (by decide) rfl (.cons (by decide) rfl .nil)))
  distinct := by decide
  readable := by decide

/-- Process 3 has one window. -/
theorem removesWindows_iff_fourWindows :
    (fourWindows.RemovesWindows fourListed 3#32 ↔ fourWindows.OneWindow fourListed 3#32) ∧
      fourWindows.OneWindow fourListed 3#32 :=
  ⟨removesWindows_iff listed_fourWindows (.inr (by decide)) 3#32,
    .inr ⟨(0x4000#32, programWindow 4#32 3#32), rfl, by decide, fun h => absurd (congrArg List.length h) (by decide)⟩⟩

/-- Process 2 has two windows, and the second one stays. -/
theorem not_removesWindows : fourWindows.Listed fourListed ∧ fourWindows.workingWindow ∈ Linked.addresses fourListed ∧
    fourWindows.winsysRemoveWindowsByPid 2#32 = some [.remove 2#32] ∧ ¬ fourWindows.RemovesWindows fourListed 2#32 := by
  refine ⟨listed_fourWindows, by decide, ?_, fun h => ?_⟩
  · have hlisted : fourWindows.Listed ([(0x1000#32, topBarWindow)] ++ (0x2000#32, programWindow 2#32 2#32) ::
        [(0x3000#32, programWindow 3#32 2#32), (0x4000#32, programWindow 4#32 3#32)]) := listed_fourWindows
    exact winsysRemoveWindowsByPid_of_first hlisted rfl (by decide)
  · obtain hnone | ⟨e, hone, -⟩ := oneWindow_of_removesWindows listed_fourWindows (.inr (by decide)) h
    · exact hnone (0x2000#32, programWindow 2#32 2#32) (by simp [fourListed]) rfl
    · have htwo : (fourListed.filter fun e => e.2.parentPid = 2#32).length = 2 := by decide
      rw [hone] at htwo
      cases htwo

end Akos.Winsys.Windows
