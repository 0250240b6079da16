import Akos.Winsys.Dragging

/-!
# The window under a point

The tests of `window_sys.c` whether the frame or the title of a window contains a point, in 32 bits: the far edges are
unsigned sums, and a comparison with one is unsigned. The window is the last one in the list that passes the test.
-/

namespace Akos.Winsys.HitTest

/-! ### The tests -/

/-- `x < w_x + w_w && x > w_x && y < w_y + w_h && y > w_y`, where `w_w` and `w_h` are unsigned. -/
def checkCollidePoint (wX wY wW wH x y : BitVec 32) : Bool :=
  x.ult (wX + wW) && wX.slt x && y.ult (wY + wH) && wY.slt y

/-- `winsys_check_collide_coords` -/
def checkCollideCoords (w : Window) (x y : BitVec 32) : Bool :=
  checkCollidePoint (BitVec.ofInt 32 w.x - BitVec.ofInt 32 winFrameSize)
    (BitVec.ofInt 32 w.y - BitVec.ofInt 32 titleBarHeight)
    (BitVec.ofInt 32 w.width + BitVec.ofInt 32 (winFrameSize * 2))
    (BitVec.ofInt 32 w.height + BitVec.ofInt 32 titleBarHeight + BitVec.ofInt 32 winFrameSize) x y

/-- `winsys_check_title_collide` of a window. -/
def checkTitleCollide (w : Window) (x y : BitVec 32) : Bool :=
  checkCollidePoint (BitVec.ofInt 32 w.x - BitVec.ofInt 32 winFrameSize)
    (BitVec.ofInt 32 w.y - BitVec.ofInt 32 titleBarHeight)
    (BitVec.ofInt 32 w.width + BitVec.ofInt 32 (winFrameSize * 2)) (BitVec.ofInt 32 titleBarHeight) x y

/-! ### The searches -/

section

variable (s : Windows)

/-- `while (tmp && !check(tmp)) tmp = tmp->next;` -/
def nextCollision (test : Window → Bool) (tmp : BitVec 32) : Option (BitVec 32) :=
  Linked.findFrom s.nodes test Linked.maxSteps tmp

/-- `winsys_check_title_collide`, which is false for no window. -/
def titleTest (test : Window → Bool) (tmp : BitVec 32) : Option Bool :=
  if tmp = 0#32 then some false else (Linked.load s.nodes tmp).map fun node => test node.value

/-- `while (!check(tmp) && tmp) tmp = tmp->next;`, with the turns that are left. -/
def nextTitleCollision (test : Window → Bool) : Nat → BitVec 32 → Option (BitVec 32)
  | 0, _ => none
  | turns + 1, tmp => do
    let hit ← titleTest s test tmp
    if hit = false ∧ tmp ≠ 0#32 then do
      let node ← Linked.load s.nodes tmp
      nextTitleCollision test turns node.next
    else some tmp

/-- `while (tmp)`: each turn goes on to the next window that passes the test. -/
def lastCollision (next : BitVec 32 → Option (BitVec 32)) : Nat → BitVec 32 → BitVec 32 → Option (BitVec 32)
  | 0, _, _ => none
  | turns + 1, tmp, topCollision =>
    if tmp = 0#32 then some topCollision
    else do
      let hit ← next tmp
      if hit = 0#32 then some topCollision
      else do
        let node ← Linked.load s.nodes hit
        lastCollision next turns node.next hit

def winsysGetWindowFromCollision (x y : BitVec 32) : Option (BitVec 32) :=
  if s.winList = 0#32 then some 0#32
  else lastCollision s (nextCollision s fun w => checkCollideCoords w x y) Linked.maxSteps s.winList 0#32

/-- `winsys_get_window_from_title_collision` up to its test of the close box. -/
def titleCollision (x y : BitVec 32) : Option (BitVec 32) :=
  if s.winList = 0#32 then some 0#32
  else lastCollision s (nextTitleCollision s (fun w => checkTitleCollide w x y) Linked.maxSteps) Linked.maxSteps
    s.winList 0#32

end

/-! ### What they should find -/

/-- Strictly between two edges. -/
def Between (near far p : Int) : Prop := near < p ∧ p < far

/-- The frame of the window contains the point. -/
def FrameContains (w : Window) (x y : Int) : Prop :=
  Between (w.x - winFrameSize) (w.x - winFrameSize + (w.width + winFrameSize * 2)) x ∧
    Between (w.y - titleBarHeight) (w.y - titleBarHeight + (w.height + titleBarHeight + winFrameSize)) y

/-- So does its title. -/
def TitleContains (w : Window) (x y : Int) : Prop :=
  Between (w.x - winFrameSize) (w.x - winFrameSize + (w.width + winFrameSize * 2)) x ∧
    Between (w.y - titleBarHeight) (w.y - titleBarHeight + titleBarHeight) y

instance (near far p : Int) : Decidable (Between near far p) := inferInstanceAs (Decidable (_ ∧ _))

instance (w : Window) (x y : Int) : Decidable (FrameContains w x y) := inferInstanceAs (Decidable (_ ∧ _))

instance (w : Window) (x y : Int) : Decidable (TitleContains w x y) := inferInstanceAs (Decidable (_ ∧ _))

/-- The last window of a list with a property, or 0. -/
def topmost (P : Window → Prop) [DecidablePred P] (l : List (BitVec 32 × Window)) : BitVec 32 :=
  ((l.filter fun e => P e.2).getLast?.map Prod.fst).getD 0#32

/-- Fields of type `int`, no negative sizes, and sums without an overflow. -/
structure Sized (w : Window) : Prop where
  left : -2 ^ 31 ≤ w.x
  width : 0 ≤ w.width ∧ w.width < 2 ^ 31
  right : w.x + w.width < 2 ^ 31
  top : -2 ^ 31 ≤ w.y
  height : 0 ≤ w.height ∧ w.height < 2 ^ 31
  bottom : w.y + w.height < 2 ^ 31

/-- What the comparisons in 32 bits come to: a near edge below the range of `int` is one at the other end, a negative
far edge is beyond every point that is not negative, and a far edge that is not is not beyond a negative one. -/
def Passes (near far p : Int) : Prop :=
  (if near < -2 ^ 31 then near + 2 ^ 32 < p else near < p) ∧
    (if p < 0 then (far < 0 ∧ p < far) ∨ p + 2 ^ 32 < far else far < 0 ∨ p < far)

/-- `FrameContains` with these comparisons. -/
def FramePasses (w : Window) (x y : Int) : Prop :=
  Passes (w.x - winFrameSize) (w.x - winFrameSize + (w.width + winFrameSize * 2)) x ∧
    Passes (w.y - titleBarHeight) (w.y - titleBarHeight + (w.height + titleBarHeight + winFrameSize)) y

def TitlePasses (w : Window) (x y : Int) : Prop :=
  Passes (w.x - winFrameSize) (w.x - winFrameSize + (w.width + winFrameSize * 2)) x ∧
    Passes (w.y - titleBarHeight) (w.y - titleBarHeight + titleBarHeight) y

/-- Down from the top to the first window with a property, two properties agree. -/
def AgreeToTop (P Q : Window → Prop) (l : List (BitVec 32 × Window)) : Prop :=
  ∀ l₁ e l₂, l = l₁ ++ e :: l₂ → (∀ e' ∈ l₂, ¬ P e'.2) → (Q e.2 ↔ P e.2)

/-! ### Edges -/

theorem toNat_edge {far : Int} (h : -2 ^ 31 ≤ far ∧ far < 2 ^ 32) :
    ((BitVec.ofInt 32 far).toNat : Int) = if far < 0 then far + 2 ^ 32 else far := by
  rw [BitVec.toNat_ofInt]
  split <;> omega

theorem toInt_edge {near : Int} (h : -2 ^ 32 ≤ near ∧ near < 2 ^ 31) :
    (BitVec.ofInt 32 near).toInt = if near < -2 ^ 31 then near + 2 ^ 32 else near := by
  rw [BitVec.toInt_ofInt, Int.bmod_def]
  split <;> split <;> omega

/-- One direction of the tests. -/
theorem passes_iff {near far : Int} (hnear : -2 ^ 32 ≤ near ∧ near < 2 ^ 31) (hfar : -2 ^ 31 ≤ far ∧ far < 2 ^ 32)
    (p : BitVec 32) : p.ult (BitVec.ofInt 32 far) = true ∧ (BitVec.ofInt 32 near).slt p = true ↔
      Passes near far p.toInt := by
  have hp := p.isLt
  have hfar' := toNat_edge hfar
  rw [BitVec.ult_iff_lt, BitVec.lt_def, BitVec.slt_iff_toInt_lt, toInt_edge hnear, Passes, and_comm,
    BitVec.toInt_eq_toNat_cond]
  refine and_congr (by split <;> rfl) ?_
  split <;> split at hfar' <;> split <;> omega

/-- Both directions. -/
theorem checkCollidePoint_iff {x y width height : Int} (hx : -2 ^ 32 ≤ x ∧ x < 2 ^ 31)
    (hright : -2 ^ 31 ≤ x + width ∧ x + width < 2 ^ 32) (hy : -2 ^ 32 ≤ y ∧ y < 2 ^ 31)
    (hbottom : -2 ^ 31 ≤ y + height ∧ y + height < 2 ^ 32) (px py : BitVec 32) :
    checkCollidePoint (BitVec.ofInt 32 x) (BitVec.ofInt 32 y) (BitVec.ofInt 32 width) (BitVec.ofInt 32 height) px py =
      true ↔ Passes x (x + width) px.toInt ∧ Passes y (y + height) py.toInt := by
  rw [checkCollidePoint, ← BitVec.ofInt_add, ← BitVec.ofInt_add, Bool.and_eq_true, Bool.and_eq_true, Bool.and_eq_true,
    and_assoc, passes_iff hx hright, passes_iff hy hbottom]

theorem ofInt_sub (a b : Int) : BitVec.ofInt 32 a - BitVec.ofInt 32 b = BitVec.ofInt 32 (a - b) := by
  rw [BitVec.sub_eq_add_neg, ← BitVec.ofInt_neg, ← BitVec.ofInt_add, Int.sub_eq_add_neg]

theorem checkCollideCoords_iff {w : Window} (h : Sized w) (x y : BitVec 32) :
    checkCollideCoords w x y = true ↔ FramePasses w x.toInt y.toInt := by
  obtain ⟨hleft, hwidth, hright, htop, hheight, hbottom⟩ := h
  have hframe : winFrameSize = 2 := rfl
  have htitle : titleBarHeight = 30 := rfl
  rw [checkCollideCoords, ofInt_sub, ofInt_sub, ← BitVec.ofInt_add, ← BitVec.ofInt_add, ← BitVec.ofInt_add]
  exact checkCollidePoint_iff (by omega) (by omega) (by omega) (by omega) x y

theorem checkTitleCollide_iff {w : Window} (h : Sized w) (x y : BitVec 32) :
    checkTitleCollide w x y = true ↔ TitlePasses w x.toInt y.toInt := by
  obtain ⟨hleft, hwidth, hright, htop, hheight, hbottom⟩ := h
  have hframe : winFrameSize = 2 := rfl
  have htitle : titleBarHeight = 30 := rfl
  rw [checkTitleCollide, ofInt_sub, ofInt_sub, ← BitVec.ofInt_add]
  exact checkCollidePoint_iff (by omega) (by omega) (by omega) (by omega) x y

/-- For a point of the screen, and a frame whose near edges do not leave the range of `int`, these are the tests of
the mouse. -/
theorem checkCollideCoords_eq {w : Window} (h : Sized w) (hx : -2 ^ 31 ≤ w.x - winFrameSize)
    (hy : -2 ^ 31 ≤ w.y - titleBarHeight) {x y : BitVec 32} (hpx : 0 ≤ x.toInt) (hpy : 0 ≤ y.toInt) :
    Winsys.checkCollideCoords w x.toInt y.toInt = checkCollideCoords w x y := by
  have hxlt := BitVec.toInt_lt (x := x)
  have hylt := BitVec.toInt_lt (x := y)
  rw [Bool.eq_iff_iff, checkCollideCoords_iff h, Winsys.checkCollideCoords, Winsys.checkCollidePoint, decide_eq_true_eq,
    FramePasses, Passes, Passes, if_neg (Int.not_lt.mpr hx), if_neg (Int.not_lt.mpr hy), if_neg (Int.not_lt.mpr hpx),
    if_neg (Int.not_lt.mpr hpy)]
  obtain ⟨hleft, hwidth, hright, htop, hheight, hbottom⟩ := h
  have hframe : winFrameSize = 2 := rfl
  have htitle : titleBarHeight = 30 := rfl
  omega

/-! ### The loops on a list of windows -/

variable {s : Windows} {l : List (BitVec 32 × Window)} {e : BitVec 32 × Window} {test : Window → Bool}
  {P Q : Window → Prop} {p top : BitVec 32} {turns : Nat}

theorem found_cases (test : Window → Bool) (l : List (BitVec 32 × Window)) :
    (Linked.Chain.found test l = 0#32 ∧ ∀ e ∈ l, test e.2 = false) ∨
      ∃ l₁ w l₂, l = l₁ ++ (Linked.Chain.found test l, w) :: l₂ ∧ test w = true ∧ ∀ e ∈ l₁, test e.2 = false := by
  cases hfind : l.find? fun e => test e.2 with
  | none =>
    refine .inl ⟨?_, by simpa using hfind⟩
    rw [Linked.Chain.found, hfind]
    rfl
  | some e =>
    obtain ⟨htest, l₁, l₂, hl, hbefore⟩ := List.find?_eq_some_iff_append.mp hfind
    refine .inr ⟨l₁, e.2, l₂, ?_, htest, by simpa using hbefore⟩
    rw [Linked.Chain.found, hfind]
    exact hl

theorem nextTitleCollision_eq (h : Linked.Chain s.nodes p l) (test : Window → Bool) (hturns : l.length < turns) :
    nextTitleCollision s test turns p = some (Linked.Chain.found test l) := by
  induction h generalizing turns with
  | nil =>
    obtain ⟨turns, rfl⟩ := Nat.exists_eq_add_of_lt hturns
    rfl
  | @cons p q v l hp hs _ ih =>
    obtain ⟨turns, rfl⟩ : ∃ k, turns = k + 1 := ⟨turns - 1, by omega⟩
    have hrest := ih (Nat.lt_of_succ_lt_succ hturns)
    rw [nextTitleCollision, titleTest, if_neg hp, Linked.load_of_ne hp, hs]
    cases htest : test v with
    | true => simp [Linked.Chain.found, htest]
    | false => simpa [Linked.Chain.found, htest, hp] using hrest

/-- The window of the last turn that has passed the test. -/
def lastOf (test : Window → Bool) (top : BitVec 32) (l : List (BitVec 32 × Window)) : BitVec 32 :=
  l.foldl (fun top e => if test e.2 then e.1 else top) top

theorem lastOf_of_none (h : ∀ e ∈ l, test e.2 = false) (top : BitVec 32) : lastOf test top l = top := by
  induction l generalizing top with
  | nil => rfl
  | cons e l ih =>
    rw [lastOf, List.foldl_cons, h e List.mem_cons_self]
    exact ih (fun e' he' => h e' (List.mem_cons_of_mem e he')) top

/-- The outer loop comes to the last window that passes the test. -/
theorem lastCollision_eq {next : BitVec 32 → Option (BitVec 32)} (h : Linked.Chain s.nodes p l)
    (hnext : ∀ p l, Linked.Chain s.nodes p l → next p = some (Linked.Chain.found test l)) (hturns : l.length < turns) :
    lastCollision s next turns p top = some (lastOf test top l) := by
  induction turns generalizing p l top with
  | zero => exact absurd hturns (Nat.not_lt_zero _)
  | succ turns ih =>
    rw [lastCollision]
    by_cases hp : p = 0#32
    · obtain rfl := h.eq_zero_iff.mp hp
      exact if_pos hp
    · rw [if_neg hp, hnext p l h, Option.bind_eq_bind, Option.bind_some]
      obtain ⟨hfound, hnone⟩ | ⟨l₁, w, l₂, hl, htest, hnone⟩ := found_cases test l
      · rw [if_pos hfound, lastOf_of_none hnone]
      · generalize Linked.Chain.found test l = hit at hl
        subst hl
        obtain ⟨q, hload, hrest⟩ := h.drop
        have hne : hit ≠ 0#32 := h.ne_zero (List.mem_map_of_mem (List.mem_append_right l₁ List.mem_cons_self))
        have hshort : l₂.length < turns := by
          rw [List.length_append, List.length_cons] at hturns
          omega
        have hlast : lastOf test top (l₁ ++ (hit, w) :: l₂) = lastOf test hit l₂ := by
          rw [lastOf, List.foldl_append, List.foldl_cons, if_pos htest]
          rfl
        rw [if_neg hne, Linked.load_of_ne hne, hload, hlast]
        exact ih hrest hshort

/-! ### The last window with a property -/

theorem topmost_concat [DecidablePred P] (l : List (BitVec 32 × Window)) (e : BitVec 32 × Window) :
    topmost P (l ++ [e]) = if P e.2 then e.1 else topmost P l := by
  rw [topmost, List.filter_append]
  by_cases he : P e.2
  · simp [he]
  · simp [he, topmost]

theorem topmost_mem [DecidablePred P] (l : List (BitVec 32 × Window)) :
    topmost P l = 0#32 ∨ topmost P l ∈ Linked.addresses l := by
  induction l using List.reverseRecOn with
  | nil => exact .inl rfl
  | append_singleton l e ih =>
    rw [topmost_concat, Linked.addresses, List.map_append, List.mem_append]
    split
    · exact .inr (.inr (List.mem_singleton_self e.1))
    · exact ih.imp_right .inl

theorem lastOf_eq_topmost [DecidablePred P] (h : ∀ e ∈ l, test e.2 = true ↔ P e.2) :
    lastOf test 0#32 l = topmost P l := by
  induction l using List.reverseRecOn with
  | nil => rfl
  | append_singleton l e ih =>
    have hlast := ih fun e' he' => h e' (List.mem_append_left [e] he')
    rw [topmost_concat, ← hlast, lastOf, List.foldl_append]
    exact if_congr (h e (List.mem_append_right l (List.mem_singleton_self e))) rfl rfl

theorem agreeToTop_concat : AgreeToTop P Q (l ++ [e]) ↔ (Q e.2 ↔ P e.2) ∧ (¬ P e.2 → AgreeToTop P Q l) := by
  constructor
  · intro h
    refine ⟨h l e [] rfl fun e' he' => absurd he' List.not_mem_nil, fun he l₁ e' l₂ hl hnone => ?_⟩
    refine h l₁ e' (l₂ ++ [e]) (by rw [hl, List.append_assoc, List.cons_append]) fun e'' he'' => ?_
    obtain he'' | he'' := List.mem_append.mp he''
    · exact hnone e'' he''
    · exact List.mem_singleton.mp he'' ▸ he
  · intro h l₁ e' l₂ hl hnone
    obtain rfl | ⟨l₃, e'', rfl⟩ := List.eq_nil_or_concat l₂
    · obtain ⟨-, hlast⟩ := List.append_inj' hl rfl
      exact List.singleton_inj.mp hlast ▸ h.1
    · rw [List.concat_eq_append] at hl hnone
      rw [← List.cons_append, ← List.append_assoc] at hl
      obtain ⟨hbefore, hlast⟩ := List.append_inj' hl rfl
      obtain rfl := List.singleton_inj.mp hlast
      have hneg : ¬ P e.2 := hnone e (List.mem_append_right l₃ (List.mem_singleton_self e))
      exact h.2 hneg l₁ e' l₃ hbefore fun e'' he'' => hnone e'' (List.mem_append_left [e] he'')

/-- Two properties have the same last window when they agree down to it. -/
theorem topmost_eq_iff [DecidablePred P] [DecidablePred Q] (hne : ∀ a ∈ Linked.addresses l, a ≠ 0#32)
    (hnodup : (Linked.addresses l).Nodup) : topmost Q l = topmost P l ↔ AgreeToTop P Q l := by
  induction l using List.reverseRecOn with
  | nil => exact iff_of_true rfl fun l₁ e l₂ hl => absurd hl (List.append_ne_nil_of_right_ne_nil l₁ (by simp)).symm
  | append_singleton l e ih =>
    rw [Linked.addresses, List.map_append, List.nodup_append] at hnodup
    obtain ⟨hnodup, -, hdisjoint⟩ := hnodup
    have hnew : ∀ R : Window → Prop, ∀ _ : DecidablePred R, topmost R l ≠ e.1 := by
      intro R _ heq
      obtain hzero | hmem := topmost_mem (P := R) l
      · exact hne e.1 (by simp) (heq.symm.trans hzero)
      · exact hdisjoint _ hmem e.1 (List.mem_singleton_self e.1) heq
    have hlist := ih (fun a ha => hne a (by simp [ha])) hnodup
    rw [topmost_concat, topmost_concat, agreeToTop_concat]
    by_cases hq : Q e.2
    · by_cases hp : P e.2
      · simp [hq, hp]
      · simp [hq, hp, (hnew P inferInstance).symm]
    · by_cases hp : P e.2
      · simp [hq, hp, hnew Q inferInstance]
      · simp [hq, hp, hlist]

/-! ### The two searches -/

instance (near far p : Int) : Decidable (Passes near far p) := inferInstanceAs (Decidable (_ ∧ _))

instance (w : Window) (x y : Int) : Decidable (FramePasses w x y) := inferInstanceAs (Decidable (_ ∧ _))

instance (w : Window) (x y : Int) : Decidable (TitlePasses w x y) := inferInstanceAs (Decidable (_ ∧ _))

theorem collision_eq (h : Linked.Chain s.nodes s.winList l) (hsized : ∀ e ∈ l, Sized e.2) (x y : BitVec 32) :
    winsysGetWindowFromCollision s x y = some (topmost (fun w => FramePasses w x.toInt y.toInt) l) := by
  have hlast : lastOf (fun w => checkCollideCoords w x y) 0#32 l = topmost (fun w => FramePasses w x.toInt y.toInt) l :=
    lastOf_eq_topmost fun e he => checkCollideCoords_iff (hsized e he) x y
  rw [winsysGetWindowFromCollision, ← hlast]
  split
  · next hnull =>
    obtain rfl := h.eq_zero_iff.mp hnull
    rfl
  · exact lastCollision_eq h (fun p l h => h.findFrom_eq _ h.length_lt) h.length_lt

theorem titleCollision_eq (h : Linked.Chain s.nodes s.winList l) (hsized : ∀ e ∈ l, Sized e.2) (x y : BitVec 32) :
    titleCollision s x y = some (topmost (fun w => TitlePasses w x.toInt y.toInt) l) := by
  have hlast : lastOf (fun w => checkTitleCollide w x y) 0#32 l = topmost (fun w => TitlePasses w x.toInt y.toInt) l :=
    lastOf_eq_topmost fun e he => checkTitleCollide_iff (hsized e he) x y
  rw [titleCollision, ← hlast]
  split
  · next hnull =>
    obtain rfl := h.eq_zero_iff.mp hnull
    rfl
  · exact lastCollision_eq h (fun p l h => nextTitleCollision_eq h _ h.length_lt) h.length_lt

/-- The search ends with the last window that has the property, or 0. -/
def Finds (found : Option (BitVec 32)) (P : Window → Prop) [DecidablePred P] (l : List (BitVec 32 × Window)) : Prop :=
  found = some (topmost P l)

/-- Both searches find the last window that contains the point. -/
def HitTests : Prop :=
  ∀ (s : Windows) (l : List (BitVec 32 × Window)) (x y : BitVec 32), Linked.Chain s.nodes s.winList l →
    (∀ e ∈ l, Sized e.2) →
    Finds (winsysGetWindowFromCollision s x y) (fun w => FrameContains w x.toInt y.toInt) l ∧
    Finds (titleCollision s x y) (fun w => TitleContains w x.toInt y.toInt) l

/-- They do when, from the top down to that window, the comparisons in 32 bits are right. -/
theorem finds_topmost_iff (x y : BitVec 32) (h : Linked.Chain s.nodes s.winList l) (hsized : ∀ e ∈ l, Sized e.2) :
    (Finds (winsysGetWindowFromCollision s x y) (fun w => FrameContains w x.toInt y.toInt) l ↔
      AgreeToTop (fun w => FrameContains w x.toInt y.toInt) (fun w => FramePasses w x.toInt y.toInt) l) ∧
    (Finds (titleCollision s x y) (fun w => TitleContains w x.toInt y.toInt) l ↔
      AgreeToTop (fun w => TitleContains w x.toInt y.toInt) (fun w => TitlePasses w x.toInt y.toInt) l) ∧
    (titleCollision s x y).isSome = true := by
  have hne : ∀ a ∈ Linked.addresses l, a ≠ 0#32 := fun a ha => h.ne_zero ha
  rw [Finds, Finds, collision_eq h hsized, titleCollision_eq h hsized, Option.some.injEq, Option.some.injEq]
  exact ⟨topmost_eq_iff hne h.nodup, topmost_eq_iff hne h.nodup, rfl⟩

/-- A window of the desktop that is left of the screen. -/
def leftWindow : Window := { Windows.topBarWindow with x := -100, y := 50, width := 40, height := 40 }

def leftOnly : Windows := { Windows.topBarOnly with nodes := Linked.store (fun _ => none) 0x1000#32 ⟨leftWindow, 0#32⟩ }

theorem chain_leftOnly : Linked.Chain leftOnly.nodes leftOnly.winList [(0x1000#32, leftWindow)] :=
  .cons (by decide) rfl .nil

theorem sized_leftWindow : Sized leftWindow := ⟨by decide, by decide, by decide, by decide, by decide, by decide⟩

/-- Its far edge is at -58, and the point is right of it. -/
theorem not_hitTests : ¬ HitTests := by
  intro h
  have hsized : ∀ e ∈ [((0x1000#32 : BitVec 32), leftWindow)], Sized e.2 := fun e he =>
    List.mem_singleton.mp he ▸ sized_leftWindow
  have hfound := (h leftOnly [(0x1000#32, leftWindow)] 10#32 60#32 chain_leftOnly hsized).1
  have hcode : winsysGetWindowFromCollision leftOnly 10#32 60#32 = some 0x1000#32 := by decide +kernel
  rw [Finds, hcode] at hfound
  exact absurd (Option.some.inj hfound) (by decide)

theorem finds_topmost_leftOnly :
    (Finds (winsysGetWindowFromCollision leftOnly 10#32 60#32) (fun w => FrameContains w 10 60)
        [(0x1000#32, leftWindow)] ↔
      AgreeToTop (fun w => FrameContains w 10 60) (fun w => FramePasses w 10 60) [(0x1000#32, leftWindow)]) ∧
    (Finds (titleCollision leftOnly 10#32 60#32) (fun w => TitleContains w 10 60) [(0x1000#32, leftWindow)] ↔
      AgreeToTop (fun w => TitleContains w 10 60) (fun w => TitlePasses w 10 60) [(0x1000#32, leftWindow)]) ∧
    (titleCollision leftOnly 10#32 60#32).isSome = true :=
  finds_topmost_iff 10#32 60#32 chain_leftOnly fun _ he => List.mem_singleton.mp he ▸ sized_leftWindow

end Akos.Winsys.HitTest
