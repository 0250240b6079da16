import Akos.Lib.Linked
import Akos.Lib.Transition
import Akos.Memory.Heap

/-!
# The list of windows

`window_sys.c`: windows are a linked list in stacking order, the last one on top. The working window is moved to
the end of the list, and removing it makes the last window the working one. Every function here gives nothing
when it follows a null pointer. Of the drawing there are only the pointers that it follows.
-/

namespace Akos.Winsys

/-- `WIN_FRAME_SIZE` -/
abbrev winFrameSize : Int := 2

/-- `TITLE_BAR_HEIGHT` -/
abbrev titleBarHeight : Int := 30

/-- `WINDOW` without its link and its queue of events. A sum of coordinates that leaves the 32 bits is undefined
in the source. -/
structure Window where
  x : Int
  y : Int
  width : Int
  height : Int
  wBuffer : BitVec 32
  wsysBuffer : BitVec 32
  wName : BitVec 32
  id : BitVec 32
  parentPid : BitVec 32
  isUser : Bool
  closable : Bool
  hasFrame : Bool

/-- `winsys_check_collide_rect_rect` -/
def checkCollideRectRect (x₁ y₁ w₁ h₁ x₂ y₂ w₂ h₂ : Int) : Bool :=
  x₂ + w₂ > x₁ ∧ y₂ + h₂ > y₁ ∧ x₁ + w₁ > x₂ ∧ y₁ + h₁ > y₂

/-- `winsys_check_collide_whole` -/
def checkCollideWhole (w₁ w₂ : Window) : Bool :=
  checkCollideRectRect (w₁.x - winFrameSize) (w₁.y - titleBarHeight) (w₁.width + winFrameSize * 2)
    (w₁.height + titleBarHeight + winFrameSize) (w₂.x - winFrameSize) (w₂.y - titleBarHeight)
    (w₂.width + winFrameSize * 2) (w₂.height + titleBarHeight + winFrameSize)

/-- The buffer a window is drawn from. -/
def Window.buffer (w : Window) : BitVec 32 := if w.isUser then w.wsysBuffer else w.wBuffer

/-- The windows in memory, `win_list` and `working_window`. -/
structure Windows where
  nodes : Linked.Store Window
  winList : BitVec 32
  workingWindow : BitVec 32

namespace Windows

def winsysGetFreeId (s : Windows) : Option (BitVec 32) :=
  Linked.foldFrom s.nodes (fun id e => if id.sle e.2.id then e.2.id + 1#32 else id) Linked.maxSteps 1#32 s.winList

/-- The window, or 0. -/
def winsysGetWindowById (s : Windows) (wid : BitVec 32) : Option (BitVec 32) :=
  Linked.findFrom s.nodes (fun w => w.id = wid) Linked.maxSteps s.winList

/-! ### What drawing follows -/

/-- A read through a pointer. -/
def follow (p : BitVec 32) : Option Unit := if p = 0#32 then none else some ()

/-- `winsys_paint_window_section` reads the window's buffer. -/
def winsysPaintWindowSection (w : Window) : Option Unit := follow w.buffer

/-- `winsys_paint_window_frame` reads its name. -/
def winsysPaintWindowFrame (w : Window) : Option Unit := follow w.wName

def winsysPaintWindow (s : Windows) (win : BitVec 32) : Option Unit :=
  if win = 0#32 then some ()
  else do
    let node ← Linked.load s.nodes win
    winsysPaintWindowSection node.value
    if node.value.hasFrame then winsysPaintWindowFrame node.value else some ()

/-- The test on `overlap_w` and `overlap_h`. -/
def overlaps (w tmp : Window) : Bool :=
  min (w.x + w.width + winFrameSize * 2) (tmp.x + tmp.width) - max (w.x - winFrameSize) tmp.x > 0 ∧
    min (w.y + w.height + titleBarHeight + winFrameSize) (tmp.y + tmp.height) - max (w.y - titleBarHeight) tmp.y > 0

/-- One turn of the loop over the windows. It is left with the window behind. -/
def displayCollided (win : BitVec 32) (w : Window) (acc : Option (Option (BitVec 32 × Window)))
    (tmp : BitVec 32 × Window) : Option (Option (BitVec 32 × Window)) := do
  let prev ← acc
  if tmp.1 ≠ win ∧ checkCollideWhole w tmp.2 then do
    if overlaps w tmp.2 then winsysPaintWindowSection tmp.2 else some ()
    if tmp.2.hasFrame then winsysPaintWindowFrame tmp.2 else some ()
  else some ()
  if tmp.1 ≠ win ∧ prev.any fun prev =>
      prev.1 ≠ win ∧ prev.2.hasFrame ∧ checkCollideWhole w prev.2 ∧ overlaps prev.2 tmp.2 then
    winsysPaintWindowSection tmp.2
  else some ()
  some (some tmp)

/-- `winsys_display_collided_windows` -/
def winsysDisplayCollidedWindows (s : Windows) (win : BitVec 32) (w : Window) : Option Unit := do
  let acc ← Linked.foldFrom s.nodes (displayCollided win w) Linked.maxSteps (some none) s.winList
  let _ ← acc
  some ()

/-! ### Creating -/

/-- The new window joins at the end of the list. -/
def insertWindow (s : Windows) (win : BitVec 32) (w : Window) : Option Windows :=
  let nodes := Linked.store s.nodes win ⟨w, 0#32⟩
  if s.winList ≠ 0#32 then do
    let last ← Linked.lastFrom nodes Linked.maxSteps s.winList
    let nodes ← Linked.setNext nodes last win
    some { s with nodes }
  else some { s with nodes, winList := win }

/-- The fields that `winsys_create_win` sets. -/
def kernelWindow (wBuffer wName : BitVec 32) (x y width height : Int) (closable : Bool)
    (parentPid id : BitVec 32) : Window :=
  { x, y, width, height, wBuffer, wsysBuffer := 0#32, wName, id, parentPid,
    isUser := false, closable, hasFrame := true }

/-- The fields that `winsys_create_win_user` sets. -/
def userWindow (wBuffer wsysBuffer wName : BitVec 32) (x y width height : Int) (parentPid id : BitVec 32) :
    Window :=
  { x, y, width, height, wBuffer, wsysBuffer, wName, id, parentPid,
    isUser := true, closable := true, hasFrame := true }

/-- `winsys_create_win`, with the blocks of `kcalloc`, which clears them at once. The request to make it the
working window is an operation of its own. -/
def winsysCreateWin (s : Windows) (win wBuffer wName : BitVec 32) (x y width height : Int) (name : BitVec 32)
    (closable : Bool) (parentPid : BitVec 32) : Option Windows :=
  if win = 0#32 ∨ wBuffer = 0#32 ∨ name = 0#32 ∨ wName = 0#32 then none
  else do
    let id ← s.winsysGetFreeId
    s.insertWindow win (kernelWindow wBuffer wName x y width height closable parentPid id)

/-- `winsys_create_win_user`, with the blocks of `kcalloc` and the pages of the two address spaces. The caller's
window `localWin` has the name. -/
def winsysCreateWinUser (s : Windows) (win wBuffer wsysBuffer wName : BitVec 32) (localWin name : BitVec 32)
    (x y width height : Int) (parentPid : BitVec 32) : Option Windows :=
  if win = 0#32 ∨ wBuffer = 0#32 ∨ wsysBuffer = 0#32 ∨ localWin = 0#32 ∨ name = 0#32 ∨ wName = 0#32 then none
  else do
    let id ← s.winsysGetFreeId
    s.insertWindow win (userWindow wBuffer wsysBuffer wName x y width height parentPid id)

/-! ### Operations -/

/-- A window leaves the list: the head moves on, or the node before it is found by the window's id. The result
has the node where the search for the end goes on. -/
def unlinkWindow (s : Windows) (wid next : BitVec 32) : Option (BitVec 32 × Windows) := do
  let head ← Linked.load s.nodes s.winList
  if head.value.id = wid then some (next, { s with winList := next })
  else
    let before ← Linked.beforeFrom s.nodes (fun w => w.id = wid) Linked.maxSteps s.winList
    let nodes ← Linked.setNext s.nodes before next
    some (before, { s with nodes })

/-- `if (old_working && winsys_get_window_by_id(old_working->id)) winsys_paint_window(old_working);` -/
def paintOldWorking (s : Windows) (oldWorking : BitVec 32) : Option Unit :=
  if oldWorking = 0#32 then some ()
  else do
    let old ← Linked.load s.nodes oldWorking
    let still ← s.winsysGetWindowById old.value.id
    if still = 0#32 then some () else s.winsysPaintWindow oldWorking

/-- The window leaves its place and joins at the end. -/
def moveToEnd (s : Windows) (wid tmp : BitVec 32) : Option Windows := do
  let node ← Linked.load s.nodes tmp
  let unlinked ← s.unlinkWindow wid node.next
  let last ← Linked.lastFrom unlinked.2.nodes Linked.maxSteps unlinked.1
  let nodes ← Linked.setNext unlinked.2.nodes last tmp
  let nodes ← Linked.setNext nodes tmp 0#32
  some { unlinked.2 with nodes }

def winsysSetWorkingWindowOperation (s : Windows) (wid : BitVec 32) : Option Windows := do
  let tmp ← s.winsysGetWindowById wid
  if tmp = 0#32 then some s
  else
    let oldWorking := s.workingWindow
    let s := { s with workingWindow := tmp }
    if tmp = oldWorking then some s
    else
      let head ← Linked.load s.nodes s.winList
      if head.next = 0#32 then some s
      else
        let s ← s.moveToEnd wid tmp
        s.paintOldWorking oldWorking
        s.winsysPaintWindow tmp
        some s

def winsysMoveWindowOperation (s : Windows) (win : BitVec 32) (x y : Int) : Option Windows :=
  if win = 0#32 then some s
  else do
    let node ← Linked.load s.nodes win
    s.winsysDisplayCollidedWindows win node.value
    let s := { s with nodes := Linked.store s.nodes win ⟨{ node.value with x, y }, node.next⟩ }
    if s.workingWindow ≠ win then s.winsysSetWorkingWindowOperation node.value.id
    else do
      s.winsysPaintWindow win
      some s

/-- The last window becomes the working one if the one taken out was. A kernel window can be the only one. -/
def replaceWorking (s : Windows) (w : Window) : Option Windows := do
  let working ← Linked.load s.nodes s.workingWindow
  if working.value.id ≠ w.id then some s
  else if s.winList = 0#32 ∧ w.isUser = false then some { s with workingWindow := 0#32 }
  else
    let last ← Linked.lastFrom s.nodes Linked.maxSteps s.winList
    let node ← Linked.load s.nodes last
    { s with workingWindow := 0#32 }.winsysSetWorkingWindowOperation node.value.id

/-- `winsys_remove_window_operation` and `winsys_remove_window_user`, which differ in the memory that they give
back beside the window. -/
def winsysRemoveWindowOperation (s : Windows) (win : BitVec 32) : Option Windows :=
  if win = 0#32 then some s
  else do
    let node ← Linked.load s.nodes win
    let unlinked ← s.unlinkWindow node.value.id node.next
    let s ← unlinked.2.replaceWorking node.value
    s.winsysDisplayCollidedWindows win node.value
    some { s with nodes := Linked.free s.nodes win }

/-! ### The list and what is read through it -/

/-- The windows in stacking order: their ids are distinct, and each can be drawn. -/
structure Listed (s : Windows) (l : List (BitVec 32 × Window)) : Prop where
  chain : Linked.Chain s.nodes s.winList l
  distinct : (l.map fun e => e.2.id).Nodup
  readable : ∀ e ∈ l, e.2.buffer ≠ 0#32 ∧ e.2.wName ≠ 0#32

/-- The window with an id. -/
def windowUnder (l : List (BitVec 32 × Window)) (wid : BitVec 32) : Option (BitVec 32 × Window) :=
  l.find? fun e => e.2.id = wid

variable {s : Windows} {l l₁ l₂ : List (BitVec 32 × Window)} {e : BitVec 32 × Window} {wid win : BitVec 32}
  {w : Window}

theorem windowUnder_eq_some_iff (hdistinct : (l.map fun e => e.2.id).Nodup) :
    windowUnder l wid = some e ↔ e ∈ l ∧ e.2.id = wid := by
  constructor
  · intro h
    exact ⟨List.mem_of_find?_eq_some h, by simpa using List.find?_some h⟩
  · rintro ⟨he, rfl⟩
    obtain ⟨l₁, l₂, rfl⟩ := List.append_of_mem he
    refine List.find?_eq_some_iff_append.mpr ⟨by simp, l₁, l₂, rfl, fun e' he' => ?_⟩
    rw [List.map_append, List.nodup_append] at hdistinct
    have hne : e'.2.id ≠ e.2.id :=
      hdistinct.2.2 _ (List.mem_map_of_mem he') _ (List.mem_map.mpr ⟨e, List.mem_cons_self, rfl⟩)
    simpa using hne

/-- The windows but for one are in the same order. -/
def SameOrder (win : BitVec 32) (l l' : List (BitVec 32 × Window)) : Prop :=
  l.filter (fun e => e.1 ≠ win) = l'.filter fun e => e.1 ≠ win

theorem follow_eq {p : BitVec 32} (hp : p ≠ 0#32) : follow p = some () := if_neg hp

theorem displayCollided_eq (hread : e.2.buffer ≠ 0#32 ∧ e.2.wName ≠ 0#32) (win : BitVec 32) (w : Window)
    (prev : Option (BitVec 32 × Window)) : displayCollided win w (some prev) e = some (some e) := by
  have hsection : winsysPaintWindowSection e.2 = some () := follow_eq hread.1
  have hframe : winsysPaintWindowFrame e.2 = some () := follow_eq hread.2
  simp [displayCollided, hsection, hframe]

theorem foldl_displayCollided (hread : ∀ e ∈ l, e.2.buffer ≠ 0#32 ∧ e.2.wName ≠ 0#32) (win : BitVec 32)
    (w : Window) (prev : Option (BitVec 32 × Window)) :
    ∃ last, l.foldl (displayCollided win w) (some prev) = some last := by
  induction l generalizing prev with
  | nil => exact ⟨prev, rfl⟩
  | cons e l ih =>
    rw [List.foldl_cons, displayCollided_eq (hread e List.mem_cons_self)]
    exact ih (fun e' he' => hread e' (List.mem_cons_of_mem e he')) (some e)

namespace Listed

theorem getWindowById_cases (h : s.Listed l) (wid : BitVec 32) :
    (s.winsysGetWindowById wid = some 0#32 ∧ ∀ e ∈ l, e.2.id ≠ wid) ∨
    ∃ e ∈ l, e.2.id = wid ∧ s.winsysGetWindowById wid = some e.1 := by
  have hget := h.chain.findFrom_eq (fun w => w.id = wid) h.chain.length_lt
  unfold Linked.Chain.found at hget
  cases hfind : l.find? fun e => e.2.id = wid with
  | none =>
    rw [hfind] at hget
    exact .inl ⟨hget, by simpa using hfind⟩
  | some e =>
    rw [hfind] at hget
    exact .inr ⟨e, List.mem_of_find?_eq_some hfind, by simpa using List.find?_some hfind, hget⟩

theorem not_mem_of_get (h : s.Listed l) (hget : s.winsysGetWindowById wid = some 0#32) :
    ∀ e ∈ l, e.2.id ≠ wid := by
  obtain ⟨-, hnone⟩ | ⟨e, he, -, hget'⟩ := h.getWindowById_cases wid
  · exact hnone
  · exact absurd (Option.some.inj (hget'.symm.trans hget)) (h.chain.ne_zero (List.mem_map_of_mem he))

theorem eq_of_id (h : s.Listed l) {e' : BitVec 32 × Window} (he : e ∈ l) (he' : e' ∈ l) (hid : e.2.id = e'.2.id) :
    e = e' :=
  Option.some.inj (((windowUnder_eq_some_iff h.distinct).mpr ⟨he, hid⟩).symm.trans
    ((windowUnder_eq_some_iff h.distinct).mpr ⟨he', rfl⟩))

theorem getWindowById_of_mem (h : s.Listed l) (he : e ∈ l) : s.winsysGetWindowById e.2.id = some e.1 := by
  obtain ⟨-, hnone⟩ | ⟨e', he', hid, hget⟩ := h.getWindowById_cases e.2.id
  · exact absurd rfl (hnone e he)
  · rw [hget, h.eq_of_id he' he hid]

theorem paintWindow_eq (h : s.Listed l) (he : e ∈ l) : s.winsysPaintWindow e.1 = some () := by
  obtain ⟨q, hload⟩ := h.chain.load_of_mem he
  have hsection : winsysPaintWindowSection e.2 = some () := follow_eq (h.readable e he).1
  have hframe : winsysPaintWindowFrame e.2 = some () := follow_eq (h.readable e he).2
  simp [winsysPaintWindow, hload, hsection, hframe]

theorem paintOldWorking_eq (h : s.Listed l) {old : BitVec 32} (hold : old = 0#32 ∨ old ∈ Linked.addresses l) :
    s.paintOldWorking old = some () := by
  obtain rfl | hold := hold
  · exact if_pos rfl
  · obtain ⟨e, he, rfl⟩ := List.mem_map.mp hold
    obtain ⟨q, hload⟩ := h.chain.load_of_mem he
    rw [paintOldWorking, if_neg (h.chain.ne_zero hold), hload]
    simp [h.getWindowById_of_mem he, h.paintWindow_eq he]

theorem displayCollidedWindows_eq (h : s.Listed l) (win : BitVec 32) (w : Window) :
    s.winsysDisplayCollidedWindows win w = some () := by
  have hfold := h.chain.foldFrom_eq (displayCollided win w) (some none) h.chain.length_lt
  obtain ⟨last, hlast⟩ := foldl_displayCollided h.readable win w none
  rw [hlast] at hfold
  rw [winsysDisplayCollidedWindows, hfold]
  rfl

/-- The same windows in another order. -/
theorem perm (h : s.Listed l) {s' : Windows} {l' : List (BitVec 32 × Window)} (hperm : l'.Perm l)
    (hchain : Linked.Chain s'.nodes s'.winList l') : s'.Listed l' where
  chain := hchain
  distinct := (hperm.map _).nodup_iff.mpr h.distinct
  readable e he := h.readable e (hperm.mem_iff.mp he)

/-! ### What the operations do to the list -/

/-- The window is out of the list and unchanged in memory, and the pointer that is returned leads to the last
windows of what is left. -/
theorem unlinkWindow_eq (h : s.Listed (l₁ ++ (win, w) :: l₂)) {q : BitVec 32}
    (hload : Linked.load s.nodes win = some ⟨w, q⟩) :
    ∃ r s' l l', s.unlinkWindow w.id q = some (r, s') ∧ l₁ ++ l₂ = l ++ l' ∧
      Linked.Chain s'.nodes s'.winList (l ++ l') ∧ Linked.Chain s'.nodes r l' ∧ (l' = [] → l = []) ∧
      Linked.load s'.nodes win = some ⟨w, q⟩ ∧ s'.workingWindow = s.workingWindow := by
  rcases List.eq_nil_or_concat l₁ with rfl | ⟨l₁, ⟨a, v⟩, rfl⟩
  · obtain ⟨hhead, q', hload', hrest⟩ := h.chain.head_eq
    obtain ⟨-, rfl⟩ := Linked.Node.mk.inj (Option.some.inj (hload.symm.trans hload'))
    refine ⟨q, { s with winList := q }, [], l₂, ?_, rfl, hrest, hrest, fun _ => rfl, hload, rfl⟩
    rw [unlinkWindow, hhead, hload]
    exact if_pos rfl
  · rw [List.concat_eq_append, List.append_assoc, List.singleton_append] at h ⊢
    obtain ⟨hne, hloada, -⟩ := h.chain.neighbours
    have hother : ∀ e ∈ l₁ ++ [(a, v)], e.2.id ≠ w.id := by
      intro e he heq
      have hdistinct := h.distinct
      rw [List.append_cons, List.map_append, List.nodup_append] at hdistinct
      exact hdistinct.2.2 _ (List.mem_map_of_mem he) _ (List.mem_map.mpr ⟨(win, w), List.mem_cons_self, rfl⟩) heq
    have hlen : l₁.length < Linked.maxSteps := by
      have := h.chain.length_lt
      rw [List.length_append] at this
      omega
    have hfound : Linked.findBefore s.nodes (fun x => x.id = w.id) Linked.maxSteps s.winList = some a :=
      h.chain.findBefore_eq (fun e he => decide_eq_false (hother e (List.mem_of_mem_tail he))) (decide_eq_true rfl)
        hlen
    have hbefore := Linked.beforeFrom_of_findBefore hfound (Linked.ne_zero_of_load hloada)
    obtain ⟨⟨b, u⟩, l', hsplit⟩ : ∃ e l', l₁ ++ (a, v) :: (win, w) :: l₂ = e :: l' := by
      cases l₁ <;> exact ⟨_, _, rfl⟩
    have hb : u.id ≠ w.id := by
      refine hother (b, u) ?_
      cases l₁ with
      | nil => exact (List.cons.inj hsplit).1 ▸ List.mem_cons_self
      | cons e l₁ => exact (List.cons.inj hsplit).1 ▸ List.mem_cons_self
    obtain ⟨hhead, r, hloadb, -⟩ := (hsplit ▸ h.chain).head_eq
    have hchain := h.chain.unlink hload
    refine ⟨a, { s with nodes := Linked.store s.nodes a ⟨v, q⟩ }, l₁, (a, v) :: l₂, ?_, rfl, hchain,
      hchain.drop', fun hnil => absurd hnil (List.cons_ne_nil _ _), ?_, rfl⟩
    · rw [unlinkWindow, hhead, hloadb]
      dsimp only [Option.bind_eq_bind, Option.bind_some]
      rw [if_neg hb, ← hhead, hbefore, Option.bind_some, Linked.setNext, hloada]
      rfl
    · rw [← hload]
      exact Linked.load_store_of_ne hne.symm _

theorem moveToEnd_eq (h : s.Listed (l₁ ++ (win, w) :: l₂)) (hother : l₁ ++ l₂ ≠ []) :
    ∃ s', s.moveToEnd w.id win = some s' ∧ s'.Listed ((l₁ ++ l₂) ++ [(win, w)]) ∧
      s'.workingWindow = s.workingWindow := by
  obtain ⟨q, hload⟩ := h.chain.load_of_mem (List.mem_append_right l₁ List.mem_cons_self)
  obtain ⟨r, s', k, k', hunlink, hk, hchain, hchain', hempty, hload', hworking⟩ := h.unlinkWindow_eq hload
  rw [moveToEnd, hload]
  dsimp only [Option.bind_eq_bind, Option.bind_some]
  rw [hunlink]
  dsimp only [Option.bind_some]
  have hk' : k' ≠ [] := fun hnil => hother (by rw [hk, hempty hnil, hnil, List.append_nil])
  obtain ⟨k', ⟨z, u⟩, rfl⟩ := (List.eq_nil_or_concat k').resolve_left hk'
  rw [List.concat_eq_append] at hchain hchain' hk
  have hlen := hchain'.length_lt
  rw [List.length_append] at hlen
  rw [hchain'.lastFrom_eq (Nat.lt_of_le_of_lt (Nat.le_add_right _ _) hlen), Option.bind_some]
  rw [← List.append_assoc] at hchain hk
  obtain ⟨nodes₁, nodes₂, hset, hset', hfinal⟩ := hchain.appendNode hload' (hk ▸ h.chain.not_mem_unlink)
  rw [hset, Option.bind_some, hset', Option.bind_some]
  have hlist : (k ++ k') ++ [(z, u), (win, w)] = (l₁ ++ l₂) ++ [(win, w)] := by
    rw [hk]
    simp
  refine ⟨_, rfl, h.perm ?_ (hlist ▸ hfinal), hworking⟩
  exact (List.perm_append_singleton _ _).trans List.perm_middle.symm

/-- The window with this id, if there is one, comes to the end of the list and is the working window. The list stays
as it is when there is none, when it is the working window already, or when it is the only one. -/
theorem setWorkingWindow_cases (h : s.Listed l)
    (hworking : s.workingWindow = 0#32 ∨ s.workingWindow ∈ Linked.addresses l) (wid : BitVec 32) :
    ((∀ e ∈ l, e.2.id ≠ wid) ∧ s.winsysSetWorkingWindowOperation wid = some s) ∨
    (∃ e ∈ l, e.2.id = wid ∧ (e.1 = s.workingWindow ∨ l = [e]) ∧
      s.winsysSetWorkingWindowOperation wid = some { s with workingWindow := e.1 }) ∨
    ∃ l₁ e l₂ s', l = l₁ ++ e :: l₂ ∧ e.2.id = wid ∧ e.1 ≠ s.workingWindow ∧ l₁ ++ l₂ ≠ [] ∧
      s.winsysSetWorkingWindowOperation wid = some s' ∧ s'.Listed ((l₁ ++ l₂) ++ [e]) ∧ s'.workingWindow = e.1 := by
  rw [winsysSetWorkingWindowOperation]
  obtain ⟨hget, hnone⟩ | ⟨⟨tmp, w⟩, he, rfl, hget⟩ := h.getWindowById_cases wid
  · rw [hget]
    exact .inl ⟨hnone, rfl⟩
  rw [hget]
  dsimp only [Option.bind_eq_bind, Option.bind_some]
  have hsame : ({ s with workingWindow := tmp } : Windows).Listed l := h.perm (.refl l) h.chain
  rw [if_neg (h.chain.ne_zero (List.mem_map_of_mem he))]
  by_cases hold : tmp = s.workingWindow
  · rw [if_pos hold]
    exact .inr (.inl ⟨_, he, rfl, .inl hold, rfl⟩)
  rw [if_neg hold]
  obtain ⟨⟨p, v⟩, rest, hl⟩ := List.exists_cons_of_ne_nil (List.ne_nil_of_mem he)
  obtain ⟨hhead, q, hloadhead, hrest⟩ := (hl ▸ h.chain).head_eq
  rw [hhead, hloadhead, Option.bind_some]
  by_cases hone : q = 0#32
  · rw [if_pos hone, ← hhead]
    rw [hrest.eq_zero_iff.mp hone] at hl
    have honly : (tmp, w) = (p, v) := List.mem_singleton.mp (hl ▸ he)
    exact .inr (.inl ⟨_, he, rfl, .inr (honly ▸ hl), rfl⟩)
  rw [if_neg hone, ← hhead]
  obtain ⟨l₁, l₂, rfl⟩ := List.append_of_mem he
  have hother : l₁ ++ l₂ ≠ [] := by
    intro hnil
    rw [(List.append_eq_nil_iff.mp hnil).1, (List.append_eq_nil_iff.mp hnil).2] at hl
    exact hone (hrest.eq_zero_iff.mpr (List.cons.inj hl).2.symm)
  obtain ⟨s', hmove, hlisted, hworking'⟩ := hsame.moveToEnd_eq hother
  have hperm : ((l₁ ++ l₂) ++ [(tmp, w)]).Perm (l₁ ++ (tmp, w) :: l₂) :=
    (List.perm_append_singleton _ _).trans List.perm_middle.symm
  have hpaintOld := hlisted.paintOldWorking_eq (hworking.imp_right fun hmem => (hperm.map _).mem_iff.mpr hmem)
  have hpaint := hlisted.paintWindow_eq (List.mem_append_right _ (List.mem_singleton_self (tmp, w)))
  rw [hmove, Option.bind_some, hpaintOld, Option.bind_some, hpaint, Option.bind_some]
  exact .inr (.inr ⟨l₁, _, l₂, s', rfl, rfl, hold, hother, rfl, hlisted, hworking'⟩)

theorem setWorkingWindow_eq (h : s.Listed l)
    (hworking : s.workingWindow = 0#32 ∨ s.workingWindow ∈ Linked.addresses l) (wid : BitVec 32) :
    ∃ s' l', s.winsysSetWorkingWindowOperation wid = some s' ∧ s'.Listed l' ∧ l'.Perm l ∧
      SameOrder s'.workingWindow l' l ∧
      ((∀ e ∈ l, e.2.id ≠ wid) ∧ s'.workingWindow = s.workingWindow ∨
        ∃ e ∈ l, e.2.id = wid ∧ s'.workingWindow = e.1) := by
  obtain ⟨hnone, hset⟩ | ⟨e, he, hid, -, hset⟩ | ⟨l₁, e, l₂, s', rfl, hid, -, -, hset, hlisted, hnow⟩ :=
    h.setWorkingWindow_cases hworking wid
  · exact ⟨s, l, hset, h, .refl l, rfl, .inl ⟨hnone, rfl⟩⟩
  · exact ⟨_, l, hset, h.perm (.refl l) h.chain, .refl l, rfl, .inr ⟨e, he, hid, rfl⟩⟩
  · refine ⟨s', _, hset, hlisted, (List.perm_append_singleton _ _).trans List.perm_middle.symm, ?_,
      .inr ⟨e, List.mem_append_right _ List.mem_cons_self, hid, hnow⟩⟩
    simp [SameOrder, hnow, List.filter_append]

theorem getFreeId_eq (h : s.Listed l) (hmax : ∀ e ∈ l, e.2.id ≠ 0x7FFFFFFF#32) :
    ∃ id, s.winsysGetFreeId = some id ∧ ∀ e ∈ l, e.2.id ≠ id := by
  refine ⟨_, h.chain.foldFrom_eq _ 1#32 h.chain.length_lt, fun e he heq => ?_⟩
  have hnext : ∀ e ∈ l, e.2.id.toInt < (e.2.id + 1#32).toInt := by
    intro e he
    have hne : e.2.id.toNat ≠ 0x7FFFFFFF := fun heq => hmax e he (BitVec.eq_of_toNat_eq heq)
    rw [BitVec.toInt_eq_toNat_cond, BitVec.toInt_eq_toNat_cond, BitVec.toNat_add, show (1#32).toNat = 1 from rfl]
    split <;> split <;> omega
  obtain ⟨-, habove⟩ := Linked.lt_foldl_above BitVec.toInt (fun e : BitVec 32 × Window => e.2.id) (· + 1#32)
    (f := fun id e => if id.sle e.2.id then e.2.id + 1#32 else id)
    (fun id e => by simp only [BitVec.sle_iff_toInt_le]) hnext 1#32
  exact Int.lt_irrefl _ (heq ▸ habove e he)

theorem not_mem_addresses (h : s.Listed l) (hnew : s.nodes win = none) : win ∉ Linked.addresses l := by
  intro hmem
  obtain ⟨e, he, rfl⟩ := List.mem_map.mp hmem
  obtain ⟨q, hload⟩ := h.chain.load_of_mem he
  rw [Linked.load_of_ne (h.chain.ne_zero hmem), hnew] at hload
  cases hload

/-- A list with a window more. -/
theorem concat (h : s.Listed l) {s' : Windows} (hchain : Linked.Chain s'.nodes s'.winList (l ++ [(win, w)]))
    (hfresh : ∀ e ∈ l, e.2.id ≠ w.id) (hread : w.buffer ≠ 0#32 ∧ w.wName ≠ 0#32) :
    s'.Listed (l ++ [(win, w)]) where
  chain := hchain
  distinct := by
    rw [List.map_append, List.nodup_append]
    refine ⟨h.distinct, List.nodup_singleton _, fun n hn m hm => ?_⟩
    obtain ⟨e, he, rfl⟩ := List.mem_map.mp hn
    obtain rfl := List.mem_singleton.mp hm
    exact hfresh e he
  readable e he := by
    obtain he | he := List.mem_append.mp he
    · exact h.readable e he
    · obtain rfl := List.mem_singleton.mp he
      exact hread

theorem insertWindow_eq (h : s.Listed l) (hwin : win ≠ 0#32) (hnew : s.nodes win = none)
    (hfresh : ∀ e ∈ l, e.2.id ≠ w.id) (hread : w.buffer ≠ 0#32 ∧ w.wName ≠ 0#32) :
    ∃ s', s.insertWindow win w = some s' ∧ s'.Listed (l ++ [(win, w)]) ∧ s'.workingWindow = s.workingWindow := by
  have hout := h.not_mem_addresses hnew
  rw [insertWindow]
  rcases List.eq_nil_or_concat l with rfl | ⟨l, ⟨a, v⟩, rfl⟩
  · rw [if_neg (fun hne => hne (h.chain.eq_zero_iff.mpr rfl))]
    exact ⟨_, rfl, h.concat (.cons hwin (Function.update_self _ _ _) .nil) hfresh hread, rfl⟩
  · rw [List.concat_eq_append] at h hout hfresh ⊢
    have hlen := h.chain.length_lt
    rw [List.length_append] at hlen
    obtain ⟨nodes, hset, hchain⟩ := h.chain.append hwin hout w
    rw [if_pos (fun hzero => by simpa using h.chain.eq_zero_iff.mp hzero),
      (h.chain.store hout ⟨w, 0#32⟩).lastFrom_eq (Nat.lt_of_le_of_lt (Nat.le_add_right _ _) hlen)]
    dsimp only [Option.bind_eq_bind, Option.bind_some]
    rw [hset]
    refine ⟨{ s with nodes }, rfl, h.concat ?_ hfresh hread, rfl⟩
    rw [List.append_assoc]
    exact hchain

/-- A window with new coordinates. -/
theorem moved (h : s.Listed (l₁ ++ (win, w) :: l₂)) {s' : Windows} {w' : Window}
    (hchain : Linked.Chain s'.nodes s'.winList (l₁ ++ (win, w') :: l₂)) (hid : w'.id = w.id)
    (hbuffer : w'.buffer = w.buffer) (hname : w'.wName = w.wName) : s'.Listed (l₁ ++ (win, w') :: l₂) where
  chain := hchain
  distinct := by
    have hdistinct := h.distinct
    rw [List.map_append, List.map_cons] at hdistinct ⊢
    rwa [hid]
  readable e he := by
    obtain he | he := List.mem_append.mp he
    · exact h.readable e (List.mem_append_left _ he)
    obtain rfl | he := List.mem_cons.mp he
    · have hread := h.readable (win, w) (List.mem_append_right _ List.mem_cons_self)
      exact ⟨hbuffer ▸ hread.1, hname ▸ hread.2⟩
    · exact h.readable e (List.mem_append_right _ (List.mem_cons_of_mem _ he))

theorem moveWindow_eq (h : s.Listed (l₁ ++ (win, w) :: l₂))
    (hworking : s.workingWindow = 0#32 ∨ s.workingWindow ∈ Linked.addresses (l₁ ++ (win, w) :: l₂)) (x y : Int) :
    ∃ s' l', s.winsysMoveWindowOperation win x y = some s' ∧ s'.Listed l' ∧
      l'.Perm (l₁ ++ (win, { w with x, y }) :: l₂) ∧ s'.workingWindow ∈ Linked.addresses l' := by
  have hmem : (win, w) ∈ l₁ ++ (win, w) :: l₂ := List.mem_append_right l₁ List.mem_cons_self
  obtain ⟨q, hload⟩ := h.chain.load_of_mem hmem
  rw [winsysMoveWindowOperation, if_neg (h.chain.ne_zero (List.mem_map_of_mem hmem)), hload]
  dsimp only [Option.bind_eq_bind, Option.bind_some]
  rw [h.displayCollidedWindows_eq, Option.bind_some]
  have hmoved : ({ s with nodes := Linked.store s.nodes win ⟨{ w with x, y }, q⟩ } : Windows).Listed
      (l₁ ++ (win, { w with x, y }) :: l₂) := h.moved (h.chain.setValue hload { w with x, y }) rfl rfl rfl
  have hmem' : (win, { w with x, y }) ∈ l₁ ++ (win, { w with x, y }) :: l₂ :=
    List.mem_append_right l₁ List.mem_cons_self
  have hworking' : s.workingWindow = 0#32 ∨
      s.workingWindow ∈ Linked.addresses (l₁ ++ (win, { w with x, y }) :: l₂) := by
    rw [Linked.addresses, List.map_append, List.map_cons] at hworking ⊢
    exact hworking
  by_cases hsame : s.workingWindow = win
  · rw [if_neg (fun hne => hne hsame), hmoved.paintWindow_eq hmem', Option.bind_some]
    have hin : win ∈ Linked.addresses (l₁ ++ (win, { w with x, y }) :: l₂) := List.mem_map_of_mem hmem'
    exact ⟨_, _, rfl, hmoved, .refl _, hsame.symm ▸ hin⟩
  · rw [if_pos hsame]
    obtain ⟨s', l', hset, hlisted, hperm, -, ⟨hnone, -⟩ | ⟨e, he, -, hworking''⟩⟩ :=
      hmoved.setWorkingWindow_eq hworking' w.id
    · exact absurd rfl (hnone _ hmem')
    · refine ⟨s', l', hset, hlisted, hperm, (hperm.map _).mem_iff.mpr ?_⟩
      rw [hworking'']
      exact List.mem_map_of_mem he

/-- A list without one of its windows. -/
theorem removed (h : s.Listed (l₁ ++ (win, w) :: l₂)) {s' : Windows}
    (hchain : Linked.Chain s'.nodes s'.winList (l₁ ++ l₂)) : s'.Listed (l₁ ++ l₂) := by
  have hsub := (List.sublist_cons_self (win, w) l₂).append_left l₁
  exact ⟨hchain, h.distinct.sublist (hsub.map _), fun e he => h.readable e (hsub.subset he)⟩

/-- The state between the two assignments: the window is out of the list, but may still be the working one. -/
theorem replaceWorking_eq (h : s.Listed l) (hl : l ≠ []) {q : BitVec 32}
    (hload : Linked.load s.nodes win = some ⟨w, q⟩) (hother : ∀ e ∈ l, e.2.id ≠ w.id)
    (hworking : s.workingWindow = win ∨ s.workingWindow ∈ Linked.addresses l) :
    ∃ s' l', s.replaceWorking w = some s' ∧ s'.Listed l' ∧ l'.Perm l ∧ SameOrder s'.workingWindow l' l ∧
      s'.workingWindow ∈ Linked.addresses l' := by
  rw [replaceWorking]
  obtain hworking | hworking := hworking
  · obtain ⟨k, ⟨z, u⟩, rfl⟩ := (List.eq_nil_or_concat l).resolve_left hl
    rw [List.concat_eq_append] at h hl ⊢
    have hlen := h.chain.length_lt
    rw [List.length_append] at hlen
    have hmem : (z, u) ∈ k ++ [(z, u)] := List.mem_append_right k (List.mem_singleton_self _)
    obtain ⟨r, hloadz⟩ := h.chain.load_of_mem hmem
    rw [hworking, hload]
    dsimp only [Option.bind_eq_bind, Option.bind_some]
    rw [if_neg (fun hne => hne rfl), if_neg (fun hzero => hl (h.chain.eq_zero_iff.mp hzero.1)),
      h.chain.lastFrom_eq (Nat.lt_of_le_of_lt (Nat.le_add_right _ _) hlen), Option.bind_some, hloadz, Option.bind_some]
    have hnone : ({ s with workingWindow := 0#32 } : Windows).Listed (k ++ [(z, u)]) := h.perm (.refl _) h.chain
    obtain ⟨s', l', hset, hlisted, hperm, horder, ⟨habsent, -⟩ | ⟨e, he, -, hworking'⟩⟩ :=
      hnone.setWorkingWindow_eq (.inl rfl) u.id
    · exact absurd rfl (habsent _ hmem)
    · refine ⟨s', l', hset, hlisted, hperm, horder, (hperm.map _).mem_iff.mpr ?_⟩
      rw [hworking']
      exact List.mem_map_of_mem he
  · obtain ⟨e, he, heq⟩ := List.mem_map.mp hworking
    obtain ⟨r, hloade⟩ := h.chain.load_of_mem he
    rw [← heq, hloade]
    dsimp only [Option.bind_eq_bind, Option.bind_some]
    rw [if_pos (hother e he)]
    exact ⟨s, l, rfl, h, .refl l, rfl, hworking⟩

theorem removeWindow_eq (h : s.Listed (l₁ ++ (win, w) :: l₂))
    (hworking : s.workingWindow ∈ Linked.addresses (l₁ ++ (win, w) :: l₂)) (hother : l₁ ++ l₂ ≠ []) :
    ∃ s' l', s.winsysRemoveWindowOperation win = some s' ∧ s'.Listed l' ∧ l'.Perm (l₁ ++ l₂) ∧
      SameOrder s'.workingWindow l' (l₁ ++ l₂) ∧ s'.workingWindow ∈ Linked.addresses l' := by
  have hmem : (win, w) ∈ l₁ ++ (win, w) :: l₂ := List.mem_append_right l₁ List.mem_cons_self
  have hout := h.chain.not_mem_unlink
  obtain ⟨q, hload⟩ := h.chain.load_of_mem hmem
  obtain ⟨r, s₁, k, k', hunlink, hk, hchain, -, -, hload₁, hworking₁⟩ := h.unlinkWindow_eq hload
  have hlisted₁ : s₁.Listed (l₁ ++ l₂) := h.removed (hk ▸ hchain)
  have hids : ∀ e ∈ l₁ ++ l₂, e.2.id ≠ w.id := by
    intro e he heq
    have hmem' := ((List.sublist_cons_self (win, w) l₂).append_left l₁).subset he
    obtain rfl := h.eq_of_id hmem' hmem heq
    exact hout (List.mem_map.mpr ⟨_, he, rfl⟩)
  have hworking' : s₁.workingWindow = win ∨ s₁.workingWindow ∈ Linked.addresses (l₁ ++ l₂) := by
    rw [hworking₁]
    simpa [Linked.addresses, or_left_comm] using hworking
  obtain ⟨s₂, l', hreplace, hlisted₂, hperm, horder, hworking₂⟩ :=
    hlisted₁.replaceWorking_eq hother hload₁ hids hworking'
  rw [winsysRemoveWindowOperation, if_neg (h.chain.ne_zero (List.mem_map_of_mem hmem)), hload]
  dsimp only [Option.bind_eq_bind, Option.bind_some]
  rw [hunlink]
  dsimp only [Option.bind_some]
  rw [hreplace, Option.bind_some, hlisted₂.displayCollidedWindows_eq, Option.bind_some]
  have hout' : win ∉ Linked.addresses l' := fun hin => hout ((hperm.map _).mem_iff.mp hin)
  exact ⟨_, l', rfl, hlisted₂.perm (.refl l') (hlisted₂.chain.free hout'), hperm, horder, hworking₂⟩

end Listed

/-! ### Runs -/

/-- What happens to the windows: creations, with what the allocators gave, and operations from the queue. -/
inductive WindowOp
  | create (win wBuffer wName name : BitVec 32) (x y width height : Int) (closable : Bool) (parentPid : BitVec 32)
  | createUser (win wBuffer wsysBuffer wName localWin name : BitVec 32) (x y width height : Int)
      (parentPid : BitVec 32)
  | setWorking (wid : BitVec 32)
  | move (wid : BitVec 32) (x y : Int)
  | remove (wid : BitVec 32)

/-- A creation, or `winsys_do_operation`. -/
def apply (s : Windows) : WindowOp → Option Windows
  | .create win wBuffer wName name x y width height closable parentPid =>
    s.winsysCreateWin win wBuffer wName x y width height name closable parentPid
  | .createUser win wBuffer wsysBuffer wName localWin name x y width height parentPid =>
    s.winsysCreateWinUser win wBuffer wsysBuffer wName localWin name x y width height parentPid
  | .setWorking wid => s.winsysSetWorkingWindowOperation wid
  | .move wid x y => (s.winsysGetWindowById wid).bind fun win => s.winsysMoveWindowOperation win x y
  | .remove wid => (s.winsysGetWindowById wid).bind fun win => s.winsysRemoveWindowOperation win

/-- The kernel heap gives out no block that is in use, and nobody removes the top bar. -/
def Permitted (topId : BitVec 32) (s : Windows) : WindowOp → Prop
  | .create win _ _ _ _ _ _ _ _ _ => s.nodes win = none
  | .createUser win _ _ _ _ _ _ _ _ _ _ => s.nodes win = none
  | .remove wid => wid ≠ topId
  | _ => True

/-- A creation gets its memory and a name, and the largest id there is is not in use. -/
def Meets (s : Windows) : WindowOp → Prop
  | .create win wBuffer wName name _ _ _ _ _ _ =>
    (win ≠ 0#32 ∧ wBuffer ≠ 0#32 ∧ name ≠ 0#32 ∧ wName ≠ 0#32) ∧
      s.winsysGetWindowById 0x7FFFFFFF#32 = some 0#32
  | .createUser win wBuffer wsysBuffer wName localWin name _ _ _ _ _ =>
    (win ≠ 0#32 ∧ wBuffer ≠ 0#32 ∧ wsysBuffer ≠ 0#32 ∧ localWin ≠ 0#32 ∧ name ≠ 0#32 ∧ wName ≠ 0#32) ∧
      s.winsysGetWindowById 0x7FFFFFFF#32 = some 0#32
  | _ => True

def Called (topId : BitVec 32) (s : Windows) (op : WindowOp) (s' : Windows) : Prop :=
  s.Permitted topId op ∧ s.apply op = some s'

def Step (topId : BitVec 32) (s : Windows) (op : WindowOp) (s' : Windows) : Prop :=
  s.Meets op ∧ s.Called topId op s'

/-! ### The windows it stands for -/

/-- The windows by their ids, with the address of each. -/
abbrev WindowMap := BitVec 32 → Option (BitVec 32 × Window)

/-- A window with a new id comes in, one gets other coordinates, or one goes; the rest stays as it is. -/
def WindowMap.Step (m : WindowMap) : WindowOp → WindowMap → Prop
  | .create win wBuffer wName _ x y width height closable parentPid, m' =>
    ∃ id, m id = none ∧
      m' = Function.update m id (some (win, kernelWindow wBuffer wName x y width height closable parentPid id))
  | .createUser win wBuffer wsysBuffer wName _ _ x y width height parentPid, m' =>
    ∃ id, m id = none ∧
      m' = Function.update m id (some (win, userWindow wBuffer wsysBuffer wName x y width height parentPid id))
  | .setWorking _, m' => m' = m
  | .move wid x y, m' =>
    m' = Function.update m wid ((m wid).map fun e => (e.1, { e.2 with x, y }))
  | .remove wid, m' => m' = Function.update m wid none

/-- The invariant of the runs. -/
structure Represents (topId : BitVec 32) (s : Windows) (l : List (BitVec 32 × Window)) : Prop
    extends s.Listed l where
  working : s.workingWindow ∈ Linked.addresses l
  topBar : ∃ e ∈ l, e.2.id = topId

/-! ### The map of a list -/

theorem windowUnder_ext {m : WindowMap} (hdistinct : (l.map fun e => e.2.id).Nodup)
    (h : ∀ wid e, m wid = some e ↔ e ∈ l ∧ e.2.id = wid) : windowUnder l = m := by
  funext wid
  exact Option.ext fun e => (windowUnder_eq_some_iff hdistinct).trans (h wid e).symm

theorem windowUnder_perm {l' : List (BitVec 32 × Window)} (hperm : l'.Perm l)
    (hdistinct : (l.map fun e => e.2.id).Nodup) : windowUnder l' = windowUnder l :=
  windowUnder_ext ((hperm.map _).nodup_iff.mpr hdistinct) fun wid e => by
    rw [windowUnder_eq_some_iff hdistinct, hperm.mem_iff]

/-- Another window in the place of one with the same id, or none. -/
theorem windowUnder_update {m m' : WindowMap} {l' : List (BitVec 32 × Window)} {new : Option (BitVec 32 × Window)}
    (hm : ∀ wid' e, m wid' = some e ↔ e ∈ l' ∧ e.2.id = wid') (hnew : ∀ e ∈ new, e.2.id = wid)
    (hl : ∀ e, e ∈ l ↔ e ∈ l' ∧ e.2.id ≠ wid ∨ e ∈ new) (hm' : m' = Function.update m wid new)
    (hdistinct : (l.map fun e => e.2.id).Nodup) : windowUnder l = m' := by
  subst hm'
  refine windowUnder_ext hdistinct fun wid' e => ?_
  rw [Function.update_apply, hl]
  split
  · next heq =>
    subst heq
    constructor
    · intro he
      exact ⟨.inr he, hnew e he⟩
    · rintro ⟨⟨-, hne⟩ | he, rfl⟩
      · exact absurd rfl hne
      · exact he
  · next hne =>
    rw [hm]
    constructor
    · rintro ⟨he, rfl⟩
      exact ⟨.inl ⟨he, hne⟩, rfl⟩
    · rintro ⟨⟨he, -⟩ | he, rfl⟩
      · exact ⟨he, rfl⟩
      · exact absurd (hnew e he) hne

theorem windowUnder_concat (hfresh : ∀ e ∈ l, e.2.id ≠ w.id)
    (hdistinct : ((l ++ [(win, w)]).map fun e => e.2.id).Nodup) :
    windowUnder (l ++ [(win, w)]) = Function.update (windowUnder l) w.id (some (win, w)) := by
  have hold : (l.map fun e => e.2.id).Nodup := by
    rw [List.map_append, List.nodup_append] at hdistinct
    exact hdistinct.1
  refine windowUnder_update (fun wid' e => windowUnder_eq_some_iff hold) (fun e he => ?_) (fun e => ?_) rfl hdistinct
  · obtain rfl := Option.some.inj he
    rfl
  · rw [List.mem_append, List.mem_singleton, Option.mem_some_iff, eq_comm (a := e)]
    exact or_congr_left ⟨fun he => ⟨he, hfresh e he⟩, And.left⟩

theorem mem_remove_iff (hdistinct : ((l₁ ++ (win, w) :: l₂).map fun e => e.2.id).Nodup) :
    e ∈ l₁ ++ l₂ ↔ e ∈ l₁ ++ (win, w) :: l₂ ∧ e.2.id ≠ w.id := by
  have hperm : (l₁ ++ (win, w) :: l₂).Perm ((win, w) :: (l₁ ++ l₂)) := List.perm_middle
  have hother := (List.nodup_cons.mp ((hperm.map fun e => e.2.id).nodup_iff.mp hdistinct)).1
  simp only [List.mem_append, List.mem_cons]
  constructor
  · intro he
    refine ⟨he.imp_right .inr, fun heq => hother (List.mem_map.mpr ⟨e, List.mem_append.mpr he, heq⟩)⟩
  · rintro ⟨he | rfl | he, hne⟩
    · exact .inl he
    · exact absurd rfl hne
    · exact .inr he

theorem windowUnder_removed (hdistinct : ((l₁ ++ (win, w) :: l₂).map fun e => e.2.id).Nodup) :
    windowUnder (l₁ ++ l₂) = Function.update (windowUnder (l₁ ++ (win, w) :: l₂)) w.id none :=
  windowUnder_update (fun wid' e => windowUnder_eq_some_iff hdistinct) (fun e he => absurd he (Option.not_mem_none e))
    (fun e => by rw [mem_remove_iff hdistinct]; simp) rfl
    (hdistinct.sublist (((List.sublist_cons_self (win, w) l₂).append_left l₁).map _))

theorem windowUnder_moved (hdistinct : ((l₁ ++ (win, w) :: l₂).map fun e => e.2.id).Nodup) (x y : Int) :
    windowUnder (l₁ ++ (win, { w with x, y }) :: l₂)
      = Function.update (windowUnder (l₁ ++ (win, w) :: l₂)) w.id (some (win, { w with x, y })) := by
  have hdistinct' : ((l₁ ++ (win, { w with x, y }) :: l₂).map fun e => e.2.id).Nodup := by
    rw [List.map_append, List.map_cons] at hdistinct ⊢
    exact hdistinct
  refine windowUnder_update (fun wid' e => windowUnder_eq_some_iff hdistinct) (fun e he => ?_) (fun e => ?_) rfl
    hdistinct'
  · obtain rfl := Option.some.inj he
    rfl
  · rw [← mem_remove_iff hdistinct, List.mem_append, List.mem_cons, List.mem_append, Option.mem_some_iff,
      eq_comm (a := e)]
    tauto

/-! ### The invariant over a run -/

namespace Represents

variable {topId : BitVec 32}

theorem perm (h : s.Represents topId l) {s' : Windows} {l' : List (BitVec 32 × Window)} (hlisted : s'.Listed l')
    (hids : ∀ e ∈ l, e.2.id = topId → ∃ e' ∈ l', e'.2.id = topId)
    (hworking : s'.workingWindow ∈ Linked.addresses l') : s'.Represents topId l' where
  toListed := hlisted
  working := hworking
  topBar := by
    obtain ⟨e, he, hid⟩ := h.topBar
    exact hids e he hid

theorem insert (h : s.Represents topId l) (hwin : win ≠ 0#32) (hnew : s.nodes win = none)
    (hfresh : ∀ e ∈ l, e.2.id ≠ w.id) (hread : w.buffer ≠ 0#32 ∧ w.wName ≠ 0#32) :
    ∃ s', s.insertWindow win w = some s' ∧ s'.Represents topId (l ++ [(win, w)]) ∧ windowUnder l w.id = none ∧
      windowUnder (l ++ [(win, w)]) = Function.update (windowUnder l) w.id (some (win, w)) := by
  obtain ⟨s', hinsert, hlisted, hworking⟩ := h.insertWindow_eq hwin hnew hfresh hread
  refine ⟨s', hinsert, h.perm hlisted (fun e he hid => ⟨e, List.mem_append_left _ he, hid⟩) ?_, ?_,
    windowUnder_concat hfresh hlisted.distinct⟩
  · rw [hworking, Linked.addresses, List.map_append]
    exact List.mem_append_left _ h.working
  · exact List.find?_eq_none.mpr fun e he => by simpa using hfresh e he

/-- Every operation that may happen does what the map says, and the invariant holds after it. -/
theorem apply (h : s.Represents topId l) {op : WindowOp} (hpermitted : s.Permitted topId op)
    (hmeets : s.Meets op) : ∃ s' l', s.apply op = some s' ∧ s'.Represents topId l' ∧
      WindowMap.Step (windowUnder l) op (windowUnder l') := by
  cases op with
  | create win wBuffer wName name x y width height closable parentPid =>
    obtain ⟨⟨hwin, hbuffer, hname, hwName⟩, hmax⟩ := hmeets
    obtain ⟨id, hid, hfresh⟩ := h.getFreeId_eq (h.not_mem_of_get hmax)
    obtain ⟨s', hinsert, h', hnone, hmap⟩ := h.insert
      (w := kernelWindow wBuffer wName x y width height closable parentPid id) hwin hpermitted hfresh ⟨hbuffer, hwName⟩
    refine ⟨s', _, ?_, h', id, hnone, hmap⟩
    rw [Windows.apply, winsysCreateWin, if_neg (by simp [hwin, hbuffer, hname, hwName]), hid]
    exact hinsert
  | createUser win wBuffer wsysBuffer wName localWin name x y width height parentPid =>
    obtain ⟨⟨hwin, hbuffer, hwsys, hlocal, hname, hwName⟩, hmax⟩ := hmeets
    obtain ⟨id, hid, hfresh⟩ := h.getFreeId_eq (h.not_mem_of_get hmax)
    obtain ⟨s', hinsert, h', hnone, hmap⟩ := h.insert
      (w := userWindow wBuffer wsysBuffer wName x y width height parentPid id) hwin hpermitted hfresh ⟨hwsys, hwName⟩
    refine ⟨s', _, ?_, h', id, hnone, hmap⟩
    rw [Windows.apply, winsysCreateWinUser, if_neg (by simp [hwin, hbuffer, hwsys, hlocal, hname, hwName]), hid]
    exact hinsert
  | setWorking wid =>
    obtain ⟨s', l', hset, hlisted, hperm, -, hworking⟩ := h.setWorkingWindow_eq (.inr h.working) wid
    refine ⟨s', l', hset, h.perm hlisted (fun e he hid => ⟨e, hperm.mem_iff.mpr he, hid⟩) ?_,
      windowUnder_perm hperm h.distinct⟩
    rw [Linked.addresses, (hperm.map _).mem_iff]
    obtain ⟨-, hsame⟩ | ⟨e, he, -, hnew⟩ := hworking
    · exact hsame ▸ h.working
    · exact hnew ▸ List.mem_map_of_mem he
  | move wid x y =>
    obtain ⟨hget, hnone⟩ | ⟨⟨win, w⟩, he, rfl, hget⟩ := h.getWindowById_cases wid
    · refine ⟨s, l, by rw [Windows.apply, hget]; rfl, h, ?_⟩
      have hunder : windowUnder l wid = none := List.find?_eq_none.mpr fun e he => by simpa using hnone e he
      show windowUnder l = _
      rw [hunder, Option.map_none, ← hunder, Function.update_eq_self]
    · obtain ⟨l₁, l₂, rfl⟩ := List.append_of_mem he
      obtain ⟨s', l', hmove, hlisted, hperm, hworking⟩ := h.moveWindow_eq (.inr h.working) x y
      have hunder := (windowUnder_eq_some_iff h.distinct).mpr ⟨he, rfl⟩
      refine ⟨s', l', by rw [Windows.apply, hget]; exact hmove, h.perm hlisted (fun e he' hid => ?_) hworking, ?_⟩
      · obtain rfl | hne := eq_or_ne e (win, w)
        · exact ⟨_, hperm.mem_iff.mpr (List.mem_append_right _ List.mem_cons_self), hid⟩
        · refine ⟨e, hperm.mem_iff.mpr ?_, hid⟩
          obtain he' | he' := List.mem_append.mp he'
          · exact List.mem_append_left _ he'
          · exact List.mem_append_right _ (List.mem_cons_of_mem _ ((List.mem_cons.mp he').resolve_left hne))
      · show windowUnder l' = _
        rw [windowUnder_perm hperm ?_, windowUnder_moved h.distinct, hunder]
        · rfl
        · exact (hperm.map _).nodup_iff.mp hlisted.distinct
  | remove wid =>
    obtain ⟨hget, hnone⟩ | ⟨⟨win, w⟩, he, rfl, hget⟩ := h.getWindowById_cases wid
    · refine ⟨s, l, by rw [Windows.apply, hget]; rfl, h, ?_⟩
      have hunder : windowUnder l wid = none := List.find?_eq_none.mpr fun e he => by simpa using hnone e he
      show windowUnder l = _
      rw [← hunder, Function.update_eq_self]
    · obtain ⟨l₁, l₂, rfl⟩ := List.append_of_mem he
      -- the top bar is another window
      obtain ⟨top, htop, htopId⟩ := h.topBar
      have htop' : top ∈ l₁ ++ l₂ :=
        (mem_remove_iff h.distinct).mpr ⟨htop, fun heq => hpermitted (heq.symm.trans htopId)⟩
      obtain ⟨s', l', hremove, hlisted, hperm, -, hworking⟩ :=
        h.removeWindow_eq h.working (List.ne_nil_of_mem htop')
      refine ⟨s', l', by rw [Windows.apply, hget]; exact hremove,
        h.perm hlisted (fun _ _ _ => ⟨top, hperm.mem_iff.mpr htop', htopId⟩) hworking, ?_⟩
      show windowUnder l' = _
      rw [windowUnder_perm hperm ((hperm.map _).nodup_iff.mp hlisted.distinct), windowUnder_removed h.distinct]

end Represents

/-- In every run in which each creation gets its memory and a name and the largest id is not in use, the list
ends, its ids are distinct and are those of the windows created and not removed, the working window is one of
them, and no operation follows a null pointer. -/
theorem windowMap_of_run {topId : BitVec 32} {s₀ : Windows} {l₀ : List (BitVec 32 × Window)} {ops : List WindowOp}
    (h₀ : s₀.Represents topId l₀) (hrun : Transition.Run (Step topId) s₀ ops s) :
    ∃ (m : WindowMap) (l : List (BitVec 32 × Window)),
      Transition.Run WindowMap.Step (windowUnder l₀) ops m ∧ Linked.Chain s.nodes s.winList l ∧
      (l.map fun e => e.2.id).Nodup ∧ (∀ wid e, m wid = some e ↔ e ∈ l ∧ e.2.id = wid) ∧
      s.workingWindow ≠ 0#32 ∧ s.workingWindow ∈ Linked.addresses l ∧
      ∀ op, s.Permitted topId op → s.Meets op → ∃ s', s.apply op = some s' := by
  obtain ⟨m, hm, l, rfl, h⟩ := hrun.refine WindowMap.Step
    (fun s m => ∃ l, m = windowUnder l ∧ s.Represents topId l) (windowUnder l₀)
    (fun s m op t => by
      rintro ⟨l, rfl, h⟩ ⟨hmeets, hpermitted, happly⟩
      obtain ⟨s', l', heq, h', hmap⟩ := h.apply hpermitted hmeets
      obtain rfl := Option.some.inj (heq.symm.trans happly)
      exact ⟨_, hmap, l', rfl, h'⟩)
    ⟨l₀, rfl, h₀⟩
  refine ⟨_, l, hm, h.chain, h.distinct, fun wid e => windowUnder_eq_some_iff h.distinct, h.chain.ne_zero h.working,
    h.working, fun op hpermitted hmeets => ?_⟩
  obtain ⟨s', -, heq, -⟩ := h.apply hpermitted hmeets
  exact ⟨s', heq⟩

/-- The window of the top bar. -/
def topBarWindow : Window := kernelWindow 0x4000#32 0x5000#32 0 50 32 16 false 1#32 1#32

/-- The top bar alone. -/
def topBarOnly : Windows where
  nodes := Linked.store (fun _ => none) 0x1000#32 ⟨topBarWindow, 0#32⟩
  winList := 0x1000#32
  workingWindow := 0x1000#32

theorem represents_topBarOnly : topBarOnly.Represents 1#32 [(0x1000#32, topBarWindow)] where
  chain := .cons (by decide) rfl .nil
  distinct := List.nodup_singleton _
  readable e he := by
    obtain rfl := List.mem_singleton.mp he
    exact ⟨by decide, by decide⟩
  working := List.mem_singleton_self _
  topBar := ⟨_, List.mem_singleton_self _, rfl⟩

/-- A window is created and becomes the working one. -/
theorem windowMap_of_run_topBarOnly : ∃ s, Transition.Run (Step 1#32) topBarOnly
      [.create 0x2000#32 0x6000#32 0x7000#32 0x8000#32 0 50 80 80 true 2#32, .setWorking 2#32] s ∧
    ∃ (m : WindowMap) (l : List (BitVec 32 × Window)),
      Transition.Run WindowMap.Step (windowUnder [(0x1000#32, topBarWindow)])
        [.create 0x2000#32 0x6000#32 0x7000#32 0x8000#32 0 50 80 80 true 2#32, .setWorking 2#32] m ∧
      Linked.Chain s.nodes s.winList l ∧ (l.map fun e => e.2.id).Nodup ∧
      (∀ wid e, m wid = some e ↔ e ∈ l ∧ e.2.id = wid) ∧ s.workingWindow ≠ 0#32 ∧
      s.workingWindow ∈ Linked.addresses l ∧
      ∀ op, s.Permitted 1#32 op → s.Meets op → ∃ s', s.apply op = some s' := by
  have hmeets : topBarOnly.Meets (.create 0x2000#32 0x6000#32 0x7000#32 0x8000#32 0 50 80 80 true 2#32) :=
    ⟨by decide, by decide +kernel⟩
  obtain ⟨s₁, l₁, happly, h₁, -⟩ := represents_topBarOnly.apply (by exact rfl) hmeets
  obtain ⟨s₂, l₂, happly', -⟩ := h₁.apply (show s₁.Permitted 1#32 (.setWorking 2#32) from trivial) trivial
  have hrun : Transition.Run (Step 1#32) topBarOnly
      [.create 0x2000#32 0x6000#32 0x7000#32 0x8000#32 0 50 80 80 true 2#32, .setWorking 2#32] s₂ :=
    .cons ⟨hmeets, rfl, happly⟩ (.cons ⟨trivial, trivial, happly'⟩ (.nil _))
  exact ⟨s₂, hrun, windowMap_of_run represents_topBarOnly hrun⟩

/-- A window as large as the screen: even an empty kernel heap has no block for its buffer, and `kcalloc` clears
memory through the null pointer it got. -/
theorem not_windowMap_of_run : topBarOnly.Represents 1#32 [(0x1000#32, topBarWindow)] ∧
    (∀ memory, ((Heap.empty memory).kmalloc (BitVec.ofNat 32 (1280 * 1024 * 3))).1 = 0#32) ∧
    topBarOnly.Permitted 1#32 (.create 0x2000#32 0#32 0x7000#32 0x8000#32 0 0 1280 1024 true 2#32) ∧
    topBarOnly.apply (.create 0x2000#32 0#32 0x7000#32 0x8000#32 0 0 1280 1024 true 2#32) = none := by
  refine ⟨represents_topBarOnly, fun memory => ?_, rfl, rfl⟩
  have hsize : (BitVec.ofNat 32 (1280 * 1024 * 3)).toNat ≤ 0xFFFFFFF4 := by decide
  obtain ⟨block, hle, -⟩ | hnone := (Heap.empty memory).kmalloc_cases hsize
  · have hblocks : Heap.blocksFor (BitVec.ofNat 32 (1280 * 1024 * 3)) = 491521 := by decide
    omega
  · rw [hnone]

end Windows

end Akos.Winsys
