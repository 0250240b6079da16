import Akos.Winsys.Removal
import Akos.Winsys.TerminalCursor

/-!
# Dragging a window

`mouse_handler` keeps the window that it drags from one packet to the next, and the listener removes windows and
gives their memory back in between. Packets, operations of the listener, creations and terminations happen one at a
time, in any order.
-/

namespace Akos.Winsys

/-- `PIXEL_WIDTH` -/
abbrev pixelWidth : Int := 1280

/-- `PIXEL_HEIGHT` -/
abbrev pixelHeight : Int := 1024

/-! ### Where the mouse is -/

/-- The comparison with the far side is one of unsigned numbers, that with the near side is not. -/
def checkCollidePoint (wx wy ww wh x y : Int) : Bool :=
  x < (wx + ww) % 2 ^ 32 ∧ x > wx ∧ y < (wy + wh) % 2 ^ 32 ∧ y > wy

/-- `winsys_check_collide_coords` -/
def checkCollideCoords (w : Window) (x y : Int) : Bool :=
  checkCollidePoint (w.x - winFrameSize) (w.y - titleBarHeight) (w.width + winFrameSize * 2)
    (w.height + titleBarHeight + winFrameSize) x y

/-- `winsys_check_title_collide` -/
def checkTitleCollide (w : Window) (x y : Int) : Bool :=
  checkCollidePoint (w.x - winFrameSize) (w.y - titleBarHeight) (w.width + winFrameSize * 2) titleBarHeight x y

/-- `winsys_check_close_collide` -/
def checkCloseCollide (w : Window) (x y : Int) : Bool :=
  w.closable && checkCollidePoint (w.x + w.width - charWidth) (w.y - titleBarHeight) charWidth titleBarHeight x y

/-- The last window of the list that passes a test, or 0. -/
def Windows.topCollision (s : Windows) (test : Window → Bool) : Option (BitVec 32) :=
  Linked.foldFrom s.nodes (fun top e => if test e.2 then e.1 else top) Linked.maxSteps 0#32 s.winList

def Windows.winsysGetWindowFromCollision (s : Windows) (x y : Int) : Option (BitVec 32) :=
  s.topCollision fun w => checkCollideCoords w x y

/-! ### The desktop -/

/-- What is queued for the listener. To display a window or a section of it is to paint only. -/
inductive Request
  | display (wid : BitVec 32)
  | move (wid : BitVec 32) (x y : Int)
  | setWorking (wid : BitVec 32)
  | remove (wid : BitVec 32)

/-- A packet of the mouse without the wheel, which does nothing. -/
structure Packet where
  flags : BitVec 8
  xmov : BitVec 8
  ymov : BitVec 8

/-- `int8_t rel_x = xmov - ((flags << 4) & 0x100);` -/
def Packet.relX (p : Packet) : Int :=
  (BitVec.ofInt 8 (p.xmov.toNat - ((p.flags.toNat <<< 4) &&& 0x100 : Nat))).toInt

/-- `int8_t rel_y = ymov - ((flags << 3) & 0x100);` -/
def Packet.relY (p : Packet) : Int :=
  (BitVec.ofInt 8 (p.ymov.toNat - ((p.flags.toNat <<< 3) &&& 0x100 : Nat))).toInt

def Packet.leftClick (p : Packet) : Bool := p.flags.getLsbD 0

def Packet.rightClick (p : Packet) : Bool := p.flags.getLsbD 1

/-- The windows, the requests in the queue, the ids of the processes, and what `mouse.c` keeps. -/
structure Desktop where
  windows : Windows
  queue : List Request
  processes : List (BitVec 32)
  mouseEnabled : Bool
  mouseX : Int
  mouseY : Int
  draggingWindow : BitVec 32

namespace Desktop

/-- `winsys_enqueue_to_winsys_listener`: a request from an interrupt in the middle of the listener's own access is
dropped. -/
def enqueue (s : Desktop) (dropped : Bool) (r : Request) : Desktop :=
  if dropped then s else { s with queue := s.queue ++ [r] }

def winsysSetWorkingWindow (s : Desktop) (dropped : Bool) (wid : BitVec 32) : Desktop :=
  s.enqueue dropped (.setWorking wid)

def winsysMoveWindow (s : Desktop) (dropped : Bool) (win : BitVec 32) (x y : Int) : Option Desktop :=
  if win = 0#32 then some s
  else do
    let node ← Linked.load s.windows.nodes win
    some (s.enqueue dropped (.move node.value.id x y))

def winsysRemoveWindow (s : Desktop) (dropped : Bool) (win : BitVec 32) : Option Desktop :=
  if win = 0#32 then some s
  else do
    let node ← Linked.load s.windows.nodes win
    some (s.enqueue dropped (.remove node.value.id))

/-- `winsys_remove_windows_by_pid` returns after the first window. -/
def winsysRemoveWindowsByPid (s : Desktop) (dropped : Bool) (pid : BitVec 32) : Option Desktop := do
  let toRemove ← Linked.findFrom s.windows.nodes (fun w => w.parentPid = pid) Linked.maxSteps s.windows.winList
  s.winsysRemoveWindow dropped toRemove

/-- What `terminateProcessById` and `terminateKernelProcessById` do with windows. -/
def terminate (s : Desktop) (dropped : Bool) (pid : BitVec 32) : Option Desktop :=
  if pid ∈ s.processes then do
    let s ← s.winsysRemoveWindowsByPid dropped pid
    some { s with processes := s.processes.erase pid }
  else some s

/-- `winsys_get_window_from_title_collision`: a click on the close box ends the process of the window, or asks for
the window's removal. -/
def winsysGetWindowFromTitleCollision (s : Desktop) (dropped : Bool) : Option (BitVec 32 × Desktop) := do
  let top ← s.windows.topCollision fun w => checkTitleCollide w s.mouseX s.mouseY
  if top = 0#32 then some (0#32, s)
  else do
    let node ← Linked.load s.windows.nodes top
    if checkCloseCollide node.value s.mouseX s.mouseY then do
      let s ←
        if node.value.isUser ∨ node.value.parentPid ≠ 0#32 then s.terminate dropped node.value.parentPid
        else s.winsysRemoveWindow dropped top
      some (0#32, s)
    else some (top, s)

/-- A packet with the left button down. -/
def click (s : Desktop) (dropped : Bool) : Option Desktop := do
  let win ← s.windows.winsysGetWindowFromCollision s.mouseX s.mouseY
  if win ≠ 0#32 ∧ s.windows.workingWindow ≠ win then do
    let node ← Linked.load s.windows.nodes win
    some (s.winsysSetWorkingWindow dropped node.value.id)
  else if s.draggingWindow = 0#32 then do
    let (win, s) ← s.winsysGetWindowFromTitleCollision dropped
    some (if win ≠ 0#32 then { s with draggingWindow := win } else s)
  else do
    let node ← Linked.load s.windows.nodes s.draggingWindow
    s.winsysMoveWindow dropped s.draggingWindow (s.mouseX - node.value.width.tdiv 2)
      (max (s.mouseY + titleBarHeight.tdiv 2) (charHeight + titleBarHeight))

/-- `if (left_click) ... else dragging_window = 0;` -/
def button (s : Desktop) (p : Packet) (dropped : Bool) : Option Desktop :=
  if p.leftClick then s.click dropped else some { s with draggingWindow := 0#32 }

/-- The top row of characters is not for the mouse. -/
def moveMouse (s : Desktop) (relX relY : Int) : Desktop :=
  { s with
    mouseX := max 0 (min (pixelWidth - 1) (s.mouseX + relX * 2))
    mouseY := max charHeight (min (pixelHeight - 1) (s.mouseY - relY * 2)) }

/-- `mouse_handler`. At the end it looks at what events the working window wants. -/
def mouseHandler (s : Desktop) (p : Packet) (dropped : Bool) : Option Desktop :=
  if s.mouseEnabled = false then some s
  else
    let s := s.moveMouse p.relX p.relY
    if p.relX = 0 ∧ p.relY = 0 ∧ p.leftClick = false ∧ p.rightClick = false then some s
    else do
      let s ← s.button p dropped
      if s.windows.workingWindow = 0#32 then some s
      else do
        let _ ← Linked.load s.windows.nodes s.windows.workingWindow
        some s

/-- `winsys_do_operation` -/
def doOperation (s : Desktop) : Request → Option Desktop
  | .display _ => some s
  | .move wid x y => (s.windows.apply (.move wid x y)).map fun windows => { s with windows }
  | .setWorking wid => (s.windows.apply (.setWorking wid)).map fun windows => { s with windows }
  | .remove wid => (s.windows.apply (.remove wid)).map fun windows => { s with windows }

/-- What happens. A request can come from any program through a system call. -/
inductive Event
  | packet (p : Packet) (dropped : Bool)
  | setMouse (enabled : Bool)
  | start (pid : BitVec 32)
  | terminate (pid : BitVec 32) (dropped : Bool)
  | create (op : Windows.WindowOp) (dropped : Bool)
  | request (r : Request)
  | process

def apply (s : Desktop) : Event → Option Desktop
  | .packet p dropped => s.mouseHandler p dropped
  | .setMouse enabled => some { s with mouseEnabled := enabled }
  | .start pid => some { s with processes := pid :: s.processes }
  | .terminate pid dropped => s.terminate dropped pid
  | .create op dropped => do
    let id ← s.windows.winsysGetFreeId
    let windows ← s.windows.apply op
    some ({ s with windows }.winsysSetWorkingWindow dropped id)
  | .request r => some (s.enqueue false r)
  | .process =>
    match s.queue with
    | [] => some s
    | r :: queue => { s with queue }.doOperation r

/-- The address of the window that an operation creates. -/
def created : Windows.WindowOp → Option (BitVec 32)
  | .create win _ _ _ _ _ _ _ _ _ => some win
  | .createUser win _ _ _ _ _ _ _ _ _ _ => some win
  | _ => none

/-- The kernel heap gives out no block that is in use, and the next id is not beyond the 32 bits. -/
def possible (s : Desktop) : Event → Bool
  | .create op _ => (created op).any fun win =>
      (s.windows.nodes win).isNone ∧ s.windows.winsysGetWindowById 0x7FFFFFFF#32 = some 0#32
  | _ => true

def Called (s : Desktop) (e : Event) (s' : Desktop) : Prop := s.possible e ∧ s.apply e = some s'

/-- The operation that is done is not the removal of the window that is dragged. -/
def spares (s : Desktop) : Event → Bool
  | .process =>
    match s.queue with
    | .remove wid :: _ =>
      s.draggingWindow = 0#32 ∨ s.windows.winsysGetWindowById wid ≠ some s.draggingWindow
    | _ => true
  | _ => true

def Step (s : Desktop) (e : Event) (s' : Desktop) : Prop := s.spares e ∧ s.Called e s'

/-- `dragging_window` is null or points to a window of the list. -/
def DragsListed (s : Desktop) : Prop :=
  s.draggingWindow = 0#32 ∨
    ∃ l, Linked.Chain s.windows.nodes s.windows.winList l ∧ s.draggingWindow ∈ Linked.addresses l

/-- Before any process runs. -/
def initial : Desktop where
  windows := { nodes := fun _ => none, winList := 0#32, workingWindow := 0#32 }
  queue := []
  processes := []
  mouseEnabled := false
  mouseX := 0
  mouseY := 0
  draggingWindow := 0#32

/-- A null pointer, or one to a window of a list. -/
def PointsInto (p : BitVec 32) (l : List (BitVec 32 × Window)) : Prop := p = 0#32 ∨ p ∈ Linked.addresses l

/-- The invariant of the runs. -/
structure Sound (s : Desktop) (l : List (BitVec 32 × Window)) : Prop where
  listed : s.windows.Listed l
  working : PointsInto s.windows.workingWindow l
  dragging : PointsInto s.draggingWindow l

/-- The windows and the one that is dragged are the same. -/
def Keeps (s s' : Desktop) : Prop := s'.windows = s.windows ∧ s'.draggingWindow = s.draggingWindow

variable {s s' : Desktop} {l l' : List (BitVec 32 × Window)} {win pid : BitVec 32} {dropped : Bool}

/-! ### What a packet does -/

theorem keeps_enqueue (s : Desktop) (dropped : Bool) (r : Request) : Keeps s (s.enqueue dropped r) := by
  rw [enqueue]
  split
  · exact ⟨rfl, rfl⟩
  · exact ⟨rfl, rfl⟩

theorem PointsInto.mono {p : BitVec 32} (h : PointsInto p l) (hsub : Linked.addresses l ⊆ Linked.addresses l') :
    PointsInto p l' :=
  h.imp_right fun hmem => hsub hmem

theorem load_of_mem (h : s.windows.Listed l) (hwin : win ∈ Linked.addresses l) :
    ∃ node, Linked.load s.windows.nodes win = some node := by
  obtain ⟨e, he, rfl⟩ := List.mem_map.mp hwin
  obtain ⟨q, hload⟩ := h.chain.load_of_mem he
  exact ⟨_, hload⟩

/-- The last entry that passes a test is one of the list. -/
theorem pointsInto_foldl (test : Window → Bool) {top : BitVec 32} (htop : PointsInto top l') (hsub : l ⊆ l') :
    PointsInto (l.foldl (fun top e => if test e.2 then e.1 else top) top) l' := by
  induction l generalizing top with
  | nil => exact htop
  | cons e l ih =>
    rw [List.foldl_cons]
    refine ih ?_ (List.subset_of_cons_subset hsub)
    split
    · exact .inr (List.mem_map_of_mem (hsub List.mem_cons_self))
    · exact htop

theorem topCollision_eq {s : Windows} (h : s.Listed l) (test : Window → Bool) :
    ∃ top, s.topCollision test = some top ∧ PointsInto top l :=
  ⟨_, h.chain.foldFrom_eq _ 0#32 h.chain.length_lt, pointsInto_foldl test (.inl rfl) (List.Subset.refl l)⟩

theorem removeWindow_eq (h : s.windows.Listed l) (hwin : PointsInto win l) (dropped : Bool) :
    ∃ s', s.winsysRemoveWindow dropped win = some s' ∧ Keeps s s' := by
  rw [winsysRemoveWindow]
  by_cases hzero : win = 0#32
  · rw [if_pos hzero]
    exact ⟨s, rfl, rfl, rfl⟩
  · obtain ⟨node, hload⟩ := load_of_mem h (hwin.resolve_left hzero)
    rw [if_neg hzero, hload]
    exact ⟨_, rfl, keeps_enqueue s dropped _⟩

theorem terminate_eq (h : s.windows.Listed l) (dropped : Bool) (pid : BitVec 32) :
    ∃ s', s.terminate dropped pid = some s' ∧ Keeps s s' := by
  rw [terminate, winsysRemoveWindowsByPid]
  split
  · have hfound := h.chain.findFrom_eq (fun w => w.parentPid = pid) h.chain.length_lt
    have hfirst : PointsInto (Linked.Chain.found (fun w => decide (w.parentPid = pid)) l) l := by
      rw [Linked.Chain.found]
      cases hfind : l.find? fun e => e.2.parentPid = pid with
      | none => exact .inl rfl
      | some e => exact .inr (List.mem_map_of_mem (List.mem_of_find?_eq_some hfind))
    obtain ⟨s₁, hremove, hwindows, hdragging⟩ := removeWindow_eq h hfirst dropped
    rw [hfound]
    dsimp only [Option.bind_eq_bind, Option.bind_some]
    rw [hremove]
    exact ⟨_, rfl, hwindows, hdragging⟩
  · exact ⟨s, rfl, rfl, rfl⟩

/-- A window that is found by its title is one of the list. -/
theorem titleCollision_eq (h : s.windows.Listed l) (dropped : Bool) :
    ∃ win s', s.winsysGetWindowFromTitleCollision dropped = some (win, s') ∧ Keeps s s' ∧ PointsInto win l := by
  obtain ⟨top, htop, hmem⟩ := topCollision_eq h fun w => checkTitleCollide w s.mouseX s.mouseY
  rw [winsysGetWindowFromTitleCollision, htop]
  dsimp only [Option.bind_eq_bind, Option.bind_some]
  by_cases hzero : top = 0#32
  · rw [if_pos hzero]
    exact ⟨_, s, rfl, ⟨rfl, rfl⟩, .inl rfl⟩
  obtain ⟨node, hload⟩ := load_of_mem h (hmem.resolve_left hzero)
  rw [if_neg hzero, hload]
  dsimp only [Option.bind_some]
  split
  · split
    · obtain ⟨s', hterminate, hkeeps⟩ := terminate_eq h dropped node.value.parentPid
      rw [hterminate]
      exact ⟨_, s', rfl, hkeeps, .inl rfl⟩
    · obtain ⟨s', hremove, hkeeps⟩ := removeWindow_eq h hmem dropped
      rw [hremove]
      exact ⟨_, s', rfl, hkeeps, .inl rfl⟩
  · exact ⟨top, s, rfl, ⟨rfl, rfl⟩, hmem⟩

theorem click_eq (h : s.Sound l) (dropped : Bool) :
    ∃ s', s.click dropped = some s' ∧ s'.windows = s.windows ∧ PointsInto s'.draggingWindow l := by
  obtain ⟨win, hcollision, hwin⟩ := topCollision_eq h.listed fun w => checkCollideCoords w s.mouseX s.mouseY
  rw [click, Windows.winsysGetWindowFromCollision, hcollision]
  dsimp only [Option.bind_eq_bind, Option.bind_some]
  split
  · next hother =>
    obtain ⟨node, hload⟩ := load_of_mem h.listed (hwin.resolve_left hother.1)
    obtain ⟨hwindows, hdragging⟩ := keeps_enqueue s dropped (.setWorking node.value.id)
    rw [hload]
    exact ⟨_, rfl, hwindows, hdragging.symm ▸ h.dragging⟩
  · split
    · obtain ⟨top, s', htitle, ⟨hwindows, hdragging⟩, htop⟩ := titleCollision_eq h.listed dropped
      rw [htitle]
      refine ⟨_, rfl, ?_⟩
      dsimp only
      split
      · exact ⟨hwindows, htop⟩
      · exact ⟨hwindows, hdragging.symm ▸ h.dragging⟩
    · next hzero =>
      obtain ⟨node, hload⟩ := load_of_mem h.listed (h.dragging.resolve_left hzero)
      rw [hload]
      dsimp only [Option.bind_some]
      rw [winsysMoveWindow, if_neg hzero, hload]
      obtain ⟨hwindows, hdragging⟩ := keeps_enqueue s dropped
        (.move node.value.id (s.mouseX - node.value.width.tdiv 2)
          (max (s.mouseY + titleBarHeight.tdiv 2) (charHeight + titleBarHeight)))
      exact ⟨_, rfl, hwindows, hdragging.symm ▸ h.dragging⟩

theorem button_eq (h : s.Sound l) (p : Packet) (dropped : Bool) :
    ∃ s', s.button p dropped = some s' ∧ s'.windows = s.windows ∧ PointsInto s'.draggingWindow l := by
  rw [button]
  split
  · exact click_eq h dropped
  · exact ⟨_, rfl, rfl, .inl rfl⟩

/-- The handler follows no pointer to memory that was given back, and drags a window of the list afterwards. -/
theorem mouseHandler_eq (h : s.Sound l) (p : Packet) (dropped : Bool) :
    ∃ s', s.mouseHandler p dropped = some s' ∧ s'.Sound l := by
  rw [mouseHandler]
  split
  · exact ⟨s, rfl, h⟩
  have hmoved : (s.moveMouse p.relX p.relY).Sound l := ⟨h.listed, h.working, h.dragging⟩
  dsimp only
  split
  · exact ⟨_, rfl, hmoved⟩
  obtain ⟨s₁, hbutton, hwindows, hdragging⟩ := button_eq hmoved p dropped
  rw [hbutton]
  dsimp only [Option.bind_eq_bind, Option.bind_some]
  have hsound : s₁.Sound l := ⟨hwindows ▸ h.listed, hwindows ▸ h.working, hdragging⟩
  split
  · exact ⟨s₁, rfl, hsound⟩
  · next hworking =>
    obtain ⟨node, hload⟩ := load_of_mem hsound.listed (hsound.working.resolve_left hworking)
    rw [hload]
    exact ⟨s₁, rfl, hsound⟩

/-! ### What the listener does -/

theorem PointsInto.perm {p : BitVec 32} (h : PointsInto p l) (hperm : l'.Perm l) : PointsInto p l' :=
  h.mono (hperm.map _).symm.subset

theorem setWorking_sound (h : s.Sound l) {wid : BitVec 32} {windows : Windows}
    (hset : s.windows.winsysSetWorkingWindowOperation wid = some windows) :
    ∃ l', { s with windows }.Sound l' := by
  obtain ⟨s₁, l', hset', hlisted, hperm, -, hworking⟩ := h.listed.setWorkingWindow_eq h.working wid
  obtain rfl := Option.some.inj (hset.symm.trans hset')
  refine ⟨l', hlisted, ?_, h.dragging.perm hperm⟩
  obtain ⟨-, hsame⟩ | ⟨e, he, -, hnew⟩ := hworking
  · exact hsame.symm ▸ h.working.perm hperm
  · exact .inr (hnew.symm ▸ List.mem_map_of_mem (hperm.symm.subset he))

theorem move_sound (h : s.Sound l) {wid : BitVec 32} {x y : Int} {windows : Windows}
    (hmove : s.windows.apply (.move wid x y) = some windows) : ∃ l', { s with windows }.Sound l' := by
  rw [Windows.apply] at hmove
  obtain ⟨hget, -⟩ | ⟨⟨win, w⟩, he, rfl, hget⟩ := h.listed.getWindowById_cases wid
  · rw [hget, Option.bind_some, Windows.winsysMoveWindowOperation, if_pos rfl] at hmove
    obtain rfl := Option.some.inj hmove
    exact ⟨l, h⟩
  obtain ⟨l₁, l₂, rfl⟩ := List.append_of_mem he
  obtain ⟨s₁, l', hmove', hlisted, hperm, hworking⟩ := h.listed.moveWindow_eq h.working x y
  rw [hget, Option.bind_some, hmove'] at hmove
  obtain rfl := Option.some.inj hmove
  have hsame : Linked.addresses (l₁ ++ (win, { w with x, y }) :: l₂) = Linked.addresses (l₁ ++ (win, w) :: l₂) := by
    simp [Linked.addresses]
  exact ⟨l', hlisted, .inr hworking, h.dragging.mono (hsame ▸ (hperm.map _).symm.subset)⟩

/-- A removal that ends leaves a working window of the list, or none. -/
theorem removeWindow_kept {s s' : Windows} {l₁ l₂ : List (BitVec 32 × Window)} {w : Window}
    (h : s.Listed (l₁ ++ (win, w) :: l₂)) (hworking : PointsInto s.workingWindow (l₁ ++ (win, w) :: l₂))
    (hremove : s.winsysRemoveWindowOperation win = some s') :
    ∃ l', s'.Listed l' ∧ l'.Perm (l₁ ++ l₂) ∧ PointsInto s'.workingWindow l' := by
  obtain hzero | hworking := hworking
  · rw [Windows.removeWindow_of_no_working h hzero] at hremove
    cases hremove
  by_cases hother : l₁ ++ l₂ = []
  · obtain ⟨rfl, rfl⟩ := List.append_eq_nil_iff.mp hother
    obtain ⟨hkernel, huser⟩ := Windows.removeWindow_only h (List.mem_singleton.mp hworking)
    cases hw : w.isUser with
    | true =>
      rw [huser hw] at hremove
      cases hremove
    | false =>
      obtain ⟨s₁, hremove', hlisted, hnone⟩ := hkernel hw
      obtain rfl := Option.some.inj (hremove.symm.trans hremove')
      exact ⟨[], hlisted, .refl [], .inl hnone⟩
  · obtain ⟨s₁, l', hremove', hlisted, hperm, -, hin⟩ := h.removeWindow_eq hworking hother
    obtain rfl := Option.some.inj (hremove.symm.trans hremove')
    exact ⟨l', hlisted, hperm, .inr hin⟩

/-- The window that is dragged stays in the list when another one is removed. -/
theorem remove_sound (h : s.Sound l) {wid : BitVec 32} {windows : Windows}
    (hspares : s.draggingWindow = 0#32 ∨ s.windows.winsysGetWindowById wid ≠ some s.draggingWindow)
    (hremove : s.windows.apply (.remove wid) = some windows) : ∃ l', { s with windows }.Sound l' := by
  rw [Windows.apply] at hremove
  obtain ⟨hget, -⟩ | ⟨⟨win, w⟩, he, rfl, hget⟩ := h.listed.getWindowById_cases wid
  · rw [hget, Option.bind_some, Windows.winsysRemoveWindowOperation, if_pos rfl] at hremove
    obtain rfl := Option.some.inj hremove
    exact ⟨l, h⟩
  obtain ⟨l₁, l₂, rfl⟩ := List.append_of_mem he
  rw [hget, Option.bind_some] at hremove
  obtain ⟨l', hlisted, hperm, hworking⟩ := removeWindow_kept h.listed h.working hremove
  refine ⟨l', hlisted, hworking, ?_⟩
  obtain hnone | hother := hspares
  · exact .inl hnone
  refine PointsInto.perm ?_ hperm
  -- a window of the list other than the removed one
  refine h.dragging.imp_right fun hin => ?_
  rw [hget] at hother
  simp only [Linked.addresses, List.map_append, List.map_cons, List.mem_append, List.mem_cons] at hin ⊢
  exact hin.imp_right fun hin => hin.resolve_left fun heq => hother (congrArg some heq.symm)

theorem process_sound (h : s.Sound l) (hspares : s.spares .process) (hprocess : s.apply .process = some s') :
    ∃ l', s'.Sound l' := by
  rw [apply] at hprocess
  split at hprocess
  · obtain rfl := Option.some.inj hprocess
    exact ⟨l, h⟩
  next r queue hqueue =>
  have hrest : { s with queue }.Sound l := ⟨h.listed, h.working, h.dragging⟩
  cases r with
  | display wid =>
    obtain rfl := Option.some.inj hprocess
    exact ⟨l, hrest⟩
  | move wid x y =>
    obtain ⟨windows, hmove, rfl⟩ := Option.map_eq_some_iff.mp hprocess
    exact move_sound hrest hmove
  | setWorking wid =>
    obtain ⟨windows, hset, rfl⟩ := Option.map_eq_some_iff.mp hprocess
    exact setWorking_sound hrest hset
  | remove wid =>
    obtain ⟨windows, hremove, rfl⟩ := Option.map_eq_some_iff.mp hprocess
    rw [spares, hqueue] at hspares
    exact remove_sound hrest (of_decide_eq_true hspares) hremove

/-! ### Runs -/

/-- A new window joins at the end of the list. -/
theorem insertWindow_sound (h : s.Sound l) {w : Window} {windows : Windows} (hwin : win ≠ 0#32)
    (hnew : s.windows.nodes win = none) (hfresh : ∀ e ∈ l, e.2.id ≠ w.id) (hread : w.buffer ≠ 0#32 ∧ w.wName ≠ 0#32)
    (hinsert : s.windows.insertWindow win w = some windows) : { s with windows }.Sound (l ++ [(win, w)]) := by
  obtain ⟨s₁, hinsert', hlisted, hworking⟩ := h.listed.insertWindow_eq hwin hnew hfresh hread
  obtain rfl := Option.some.inj (hinsert.symm.trans hinsert')
  have hsub : Linked.addresses l ⊆ Linked.addresses (l ++ [(win, w)]) :=
    List.map_subset _ (List.subset_append_left l _)
  exact ⟨hlisted, hworking.symm ▸ h.working.mono hsub, h.dragging.mono hsub⟩

theorem createWindow_sound (h : s.Sound l) {op : Windows.WindowOp} (hpossible : s.possible (.create op dropped))
    {windows : Windows} (hcreate : s.windows.apply op = some windows) : ∃ l', { s with windows }.Sound l' := by
  cases op with
  | create win wBuffer wName name x y width height closable pid =>
    rw [possible, created, Option.any_some, decide_eq_true_eq] at hpossible
    obtain ⟨id, hid, hfresh⟩ := h.listed.getFreeId_eq (h.listed.not_mem_of_get hpossible.2)
    rw [Windows.apply, Windows.winsysCreateWin, hid] at hcreate
    split at hcreate
    · cases hcreate
    next hmemory =>
    simp only [not_or] at hmemory
    exact ⟨_, insertWindow_sound h (w := Windows.kernelWindow wBuffer wName x y width height closable pid id)
      hmemory.1 (Option.isNone_iff_eq_none.mp hpossible.1) hfresh ⟨hmemory.2.1, hmemory.2.2.2⟩ hcreate⟩
  | createUser win wBuffer wsysBuffer wName localWin name x y width height pid =>
    rw [possible, created, Option.any_some, decide_eq_true_eq] at hpossible
    obtain ⟨id, hid, hfresh⟩ := h.listed.getFreeId_eq (h.listed.not_mem_of_get hpossible.2)
    rw [Windows.apply, Windows.winsysCreateWinUser, hid] at hcreate
    split at hcreate
    · cases hcreate
    next hmemory =>
    simp only [not_or] at hmemory
    exact ⟨_, insertWindow_sound h (w := Windows.userWindow wBuffer wsysBuffer wName x y width height pid id)
      hmemory.1 (Option.isNone_iff_eq_none.mp hpossible.1) hfresh ⟨hmemory.2.2.1, hmemory.2.2.2.2.2⟩ hcreate⟩
  | setWorking wid => cases hpossible
  | move wid x y => cases hpossible
  | remove wid => cases hpossible

theorem Sound.keeps (h : s.Sound l) (hkeeps : Keeps s s') : s'.Sound l :=
  ⟨hkeeps.1.symm ▸ h.listed, hkeeps.1.symm ▸ h.working, hkeeps.2.symm ▸ h.dragging⟩

theorem sound_initial : initial.Sound [] where
  listed := ⟨.nil, List.nodup_nil, fun _ he => absurd he List.not_mem_nil⟩
  working := .inl rfl
  dragging := .inl rfl

/-- What one event keeps. -/
theorem step_sound (h : s.Sound l) {e : Event} (hstep : s.Step e s') : ∃ l', s'.Sound l' := by
  obtain ⟨hspares, hpossible, happly⟩ := hstep
  cases e with
  | packet p dropped =>
    obtain ⟨s₁, hpacket, hsound⟩ := mouseHandler_eq h p dropped
    obtain rfl := Option.some.inj (hpacket.symm.trans happly)
    exact ⟨l, hsound⟩
  | setMouse enabled =>
    obtain rfl := Option.some.inj happly
    exact ⟨l, h.keeps ⟨rfl, rfl⟩⟩
  | start pid =>
    obtain rfl := Option.some.inj happly
    exact ⟨l, h.keeps ⟨rfl, rfl⟩⟩
  | terminate pid dropped =>
    obtain ⟨s₁, hterminate, hkeeps⟩ := terminate_eq h.listed dropped pid
    obtain rfl := Option.some.inj (hterminate.symm.trans happly)
    exact ⟨l, h.keeps hkeeps⟩
  | create op dropped =>
    obtain ⟨id, -, hrest⟩ := Option.bind_eq_some_iff.mp happly
    obtain ⟨windows, hcreate, hend⟩ := Option.bind_eq_some_iff.mp hrest
    obtain rfl := Option.some.inj hend
    obtain ⟨l', hsound⟩ := createWindow_sound h hpossible hcreate
    exact ⟨l', hsound.keeps (keeps_enqueue _ dropped _)⟩
  | request r =>
    obtain rfl := Option.some.inj happly
    exact ⟨l, h.keeps (keeps_enqueue s false r)⟩
  | process => exact process_sound h hspares happly

/-- In every run in which the listener never removes the window that is dragged, that window is one of the list
in every state, and the mouse handler reads no window that is gone. -/
theorem dragsListed_of_run {events : List Event} (hrun : Transition.Run Step initial events s) :
    s.DragsListed ∧ ∀ p dropped, ∃ s', s.mouseHandler p dropped = some s' := by
  have hkept : ∀ (s : Desktop) (e : Event) (s' : Desktop), (∃ l, s.Sound l) → s.Step e s' → ∃ l, s'.Sound l := by
    intro s e s' hs hstep
    obtain ⟨l, h⟩ := hs
    exact step_sound h hstep
  obtain ⟨l, h⟩ := hrun.invariant (fun s => ∃ l, s.Sound l) hkept ⟨[], sound_initial⟩
  refine ⟨h.dragging.imp_right fun hin => ⟨l, h.listed.chain, hin⟩, fun p dropped => ?_⟩
  obtain ⟨s', hpacket, -⟩ := mouseHandler_eq h p dropped
  exact ⟨s', hpacket⟩

/-- The left button goes down at (100, 16). -/
def leftButton : Packet where
  flags := 1#8
  xmov := 50#8
  ymov := 0#8

/-- The left button is held. -/
def heldButton : Packet where
  flags := 1#8
  xmov := 0#8
  ymov := 0#8

/-- A window of the kernel, and one of process 2 whose title bar is taken. -/
def dragging : List Event :=
  [.start 2#32, .setMouse true, .create (.create 0x1000#32 0x4000#32 0x5000#32 0x6000#32 300 200 300 100 false 0#32) false,
    .process, .create (.createUser 0x2000#32 0xA0000000#32 0xA0000000#32 0x7000#32 0x400000#32 0x400100#32 10 40 200 100
      2#32) false, .process, .packet leftButton false]

/-- The window that is dragged is moved. -/
theorem dragsListed_of_run_dragging :
    ∃ s, Transition.Run Step initial (dragging ++ [.packet heldButton false, .process]) s ∧
    s.draggingWindow = 0x2000#32 ∧ s.DragsListed ∧ ∀ p dropped, ∃ s', s.mouseHandler p dropped = some s' := by
  have hexec : (Transition.exec apply (fun s e => s.spares e && s.possible e) initial
      (dragging ++ [.packet heldButton false, .process])).any (fun s => s.draggingWindow = 0x2000#32) = true := by
    decide +kernel
  obtain ⟨s, hs, hdragging⟩ := (Option.any_eq_true _ _).mp hexec
  have hrun : Transition.Run Step initial (dragging ++ [.packet heldButton false, .process]) s :=
    Transition.run_of_exec (fun s e t htest happly =>
      ⟨(Bool.and_eq_true_iff.mp htest).1, (Bool.and_eq_true_iff.mp htest).2, happly⟩) hs
  exact ⟨s, hrun, of_decide_eq_true hdragging, dragsListed_of_run hrun⟩

/-- The process of the window that is dragged is terminated, and the next packet reads the window. -/
theorem not_dragsListed_of_run : ∃ s, Transition.Run Called initial (dragging ++ [.terminate 2#32 false, .process]) s ∧
    ¬ s.DragsListed ∧ s.mouseHandler heldButton false = none := by
  have hexec : (Transition.exec apply (fun s e => s.possible e) initial
      (dragging ++ [.terminate 2#32 false, .process])).any (fun s => s.draggingWindow ≠ 0#32 ∧
        (Linked.load s.windows.nodes s.draggingWindow).isNone ∧ (s.mouseHandler heldButton false).isNone) = true := by
    decide +kernel
  obtain ⟨s, hs, hstate⟩ := (Option.any_eq_true _ _).mp hexec
  obtain ⟨hne, hfreed, hnone⟩ := of_decide_eq_true hstate
  refine ⟨s, Transition.run_of_exec (fun s e t htest happly => ⟨htest, happly⟩) hs, fun hlisted => ?_,
    Option.isNone_iff_eq_none.mp hnone⟩
  obtain ⟨l, hchain, hin⟩ := hlisted.resolve_left hne
  obtain ⟨e, he, hwin⟩ := List.mem_map.mp hin
  obtain ⟨q, hload⟩ := hchain.load_of_mem he
  rw [← hwin, hload] at hfreed
  cases hfreed

end Desktop

end Akos.Winsys
