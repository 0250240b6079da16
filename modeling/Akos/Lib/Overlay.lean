import Mathlib.Data.List.Induction

/-!
# A picture over a screen

A picture lies over some cells of a screen, whose values were saved before it was drawn. What is written to the
screen is written with the picture taken away, or beside it, and then taking the picture away gives the screen on
which there never was one.
-/

namespace Overlay

variable {α β : Type*} [DecidableEq α] {screen screen' : α → β} {ws ws' picture : List (α × β)} {cells : List α} {a : α}

/-- Writes, one after the other. -/
def put (screen : α → β) (ws : List (α × β)) : α → β :=
  fun a => ws.foldl (fun v w => if w.1 = a then w.2 else v) (screen a)

@[simp] theorem put_nil (screen : α → β) : put screen [] = screen := rfl

theorem put_append (screen : α → β) (ws ws' : List (α × β)) : put screen (ws ++ ws') = put (put screen ws) ws' := by
  funext a
  exact List.foldl_append

theorem put_cons (screen : α → β) (w : α × β) (ws : List (α × β)) :
    put screen (w :: ws) = put (put screen [w]) ws := put_append screen [w] ws

/-- A cell that nothing is written to. -/
theorem put_of_not_mem (h : ∀ w ∈ ws, w.1 ≠ a) : put screen ws a = screen a := by
  induction ws generalizing screen with
  | nil => rfl
  | cons w ws ih =>
    have hw : put screen [w] a = screen a := if_neg (h w List.mem_cons_self)
    rw [put_cons, ih fun w' hw' => h w' (List.mem_cons_of_mem w hw'), hw]

/-- What a cell holds afterwards depends on no other cell. -/
theorem put_congr (h : screen a = screen' a) (ws : List (α × β)) : put screen ws a = put screen' ws a := by
  rw [put, put, h]

/-- A cell that is written does not keep what it held. -/
theorem put_of_mem (h : ∃ w ∈ ws, w.1 = a) (screen screen' : α → β) : put screen ws a = put screen' ws a := by
  induction ws generalizing screen screen' with
  | nil => simp at h
  | cons w ws ih =>
    rw [put_cons screen, put_cons screen']
    by_cases heq : w.1 = a
    · refine put_congr ?_ ws
      rw [put, put, List.foldl_cons, List.foldl_cons, if_pos heq, if_pos heq]
    · obtain ⟨w', hw', heq'⟩ := h
      obtain rfl | hw' := List.mem_cons.mp hw'
      · exact absurd heq' heq
      · exact ih ⟨w', hw', heq'⟩ _ _

/-- A cell to which only one value is written. -/
theorem put_of_forall {v : β} (hmem : ∃ w ∈ ws, w.1 = a) (hall : ∀ w ∈ ws, w.1 = a → w.2 = v) (screen : α → β) :
    put screen ws a = v := by
  induction ws using List.reverseRecOn with
  | nil => simp at hmem
  | append_singleton ws w ih =>
    rw [put_append, put, List.foldl_cons, List.foldl_nil]
    split
    · next heq => exact hall w (List.mem_append_right ws List.mem_cons_self) heq
    · next hne =>
      obtain ⟨w', hw', heq⟩ := hmem
      obtain hw' | hw' := List.mem_append.mp hw'
      · exact ih ⟨w', hw', heq⟩ fun w'' hw'' => hall w'' (List.mem_append_left _ hw'')
      · rw [List.mem_singleton.mp hw'] at heq
        exact absurd heq hne

def save (cells : List α) (screen : α → β) : List β := cells.map screen

def restore (cells : List α) (saved : List β) (screen : α → β) : α → β := put screen (cells.zip saved)

theorem restore_of_not_mem (h : a ∉ cells) (saved : List β) (screen : α → β) :
    restore cells saved screen a = screen a := by
  refine put_of_not_mem fun w hw heq => h ?_
  obtain ⟨b, v⟩ := w
  exact heq ▸ (List.of_mem_zip hw).1

/-- What is restored is what was saved. -/
theorem restore_of_mem (h : a ∈ cells) {saved : List β} (hlength : saved.length = cells.length) :
    restore cells saved screen a = restore cells saved screen' a := by
  induction cells generalizing saved screen screen' with
  | nil => cases h
  | cons c cells ih =>
    cases saved with
    | nil => cases hlength
    | cons v saved =>
      rw [restore, restore, List.zip_cons_cons, put_cons screen, put_cons screen']
      by_cases hmem : a ∈ cells
      · exact ih hmem (Nat.succ.inj hlength)
      · obtain rfl : a = c := (List.mem_cons.mp h).resolve_right hmem
        refine put_congr ?_ _
        rw [put, put, List.foldl_cons, List.foldl_cons, if_pos rfl, if_pos rfl]

theorem restore_save (cells : List α) (screen screen' : α → β) (a : α) :
    restore cells (save cells screen) screen' a = if a ∈ cells then screen a else screen' a := by
  induction cells generalizing screen' with
  | nil => rfl
  | cons c cells ih =>
    have hcons : restore (c :: cells) (save (c :: cells) screen) screen' =
        restore cells (save cells screen) (put screen' [(c, screen c)]) := by
      rw [restore, save, List.map_cons, List.zip_cons_cons, put_cons]
      rfl
    rw [hcons, ih]
    by_cases hmem : a ∈ cells
    · rw [if_pos hmem, if_pos (List.mem_cons_of_mem c hmem)]
    · rw [if_neg hmem]
      by_cases heq : c = a
      · rw [if_pos (heq ▸ List.mem_cons_self)]
        subst heq
        exact if_pos rfl
      · rw [if_neg fun h => (List.mem_cons.mp h).elim (fun h => heq h.symm) hmem]
        exact if_neg heq

/-! ### Strokes -/

/-- A screen with a picture on it. -/
structure Covered (α β : Type*) where
  screen : α → β
  saved : List β

/-- Writes, which take the picture away first and put it back after, or leave it there. -/
structure Stroke (α β : Type*) where
  hides : Bool
  writes : List (α × β)

/-- The picture is drawn over a screen. -/
def place (cells : List α) (picture : List (α × β)) (screen : α → β) : Covered α β :=
  ⟨put screen picture, save cells screen⟩

/-- The picture is taken away. -/
def erase (cells : List α) (d : Covered α β) : α → β := restore cells d.saved d.screen

def stroke (cells : List α) (picture : List (α × β)) (d : Covered α β) (s : Stroke α β) : Covered α β :=
  if s.hides then place cells picture (put (erase cells d) s.writes) else ⟨put d.screen s.writes, d.saved⟩

/-- The stroke leaves the cells of the picture alone while it is there. -/
def Stroke.Avoids (s : Stroke α β) (cells : List α) : Prop := s.hides = false → ∀ w ∈ s.writes, w.1 ∉ cells

variable {d : Covered α β} {s : Stroke α β}

theorem length_place (cells : List α) (picture : List (α × β)) (screen : α → β) :
    (place cells picture screen).saved.length = cells.length := List.length_map ..

/-- Taking away a picture that was drawn within its cells. -/
theorem erase_place (hpicture : ∀ w ∈ picture, w.1 ∈ cells) (screen : α → β) :
    erase cells (place cells picture screen) = screen := by
  funext a
  rw [erase, place, restore_save]
  split
  · rfl
  · next hout => exact put_of_not_mem fun w hw heq => hout (heq ▸ hpicture w hw)

theorem length_stroke (hlength : d.saved.length = cells.length) (s : Stroke α β) :
    (stroke cells picture d s).saved.length = cells.length := by
  rw [stroke]
  split
  · exact length_place cells picture _
  · exact hlength

/-- A stroke that avoids the picture does what it would do without one. -/
theorem erase_stroke (hpicture : ∀ w ∈ picture, w.1 ∈ cells) (hlength : d.saved.length = cells.length)
    (havoids : s.Avoids cells) : erase cells (stroke cells picture d s) = put (erase cells d) s.writes := by
  rw [stroke]
  split
  · exact erase_place hpicture _
  · next hshown =>
    funext a
    by_cases hmem : a ∈ cells
    · have hout : ∀ w ∈ s.writes, w.1 ≠ a := fun w hw heq =>
        havoids (Bool.eq_false_iff.mpr hshown) w hw (heq ▸ hmem)
      rw [put_of_not_mem hout]
      exact restore_of_mem hmem hlength
    · rw [erase, restore_of_not_mem hmem]
      exact put_congr (restore_of_not_mem hmem d.saved d.screen).symm _

/-- Strokes on a screen without a picture. -/
def putAll (screen : α → β) (strokes : List (Stroke α β)) : α → β :=
  strokes.foldl (fun screen s => put screen s.writes) screen

theorem putAll_append (screen : α → β) (strokes strokes' : List (Stroke α β)) :
    putAll screen (strokes ++ strokes') = putAll (putAll screen strokes) strokes' := List.foldl_append

@[simp] theorem putAll_singleton (screen : α → β) (s : Stroke α β) : putAll screen [s] = put screen s.writes := rfl

theorem length_strokes (hlength : d.saved.length = cells.length) (strokes : List (Stroke α β)) :
    (strokes.foldl (stroke cells picture) d).saved.length = cells.length := by
  induction strokes generalizing d with
  | nil => exact hlength
  | cons s strokes ih => exact ih (length_stroke hlength s)

theorem erase_strokes (hpicture : ∀ w ∈ picture, w.1 ∈ cells) (hlength : d.saved.length = cells.length)
    {strokes : List (Stroke α β)} (havoids : ∀ s ∈ strokes, s.Avoids cells) :
    erase cells (strokes.foldl (stroke cells picture) d) = putAll (erase cells d) strokes := by
  induction strokes generalizing d with
  | nil => rfl
  | cons s strokes ih =>
    rw [List.foldl_cons, putAll, List.foldl_cons,
      ih (length_stroke hlength s) fun s' hs' => havoids s' (List.mem_cons_of_mem s hs'),
      erase_stroke hpicture hlength (havoids s List.mem_cons_self)]
    rfl

/-! ### Layers -/

/-- Layers are put on a screen one after the other. A cell shows the last one that covers it. -/
theorem putAll_layers {ι : Type*} {strokes : ι → List (Stroke α β)} {covers : ι → Bool} {value : ι → β} {layers : List ι}
    (h : ∀ i ∈ layers, ∀ screen, putAll screen (strokes i) a = if covers i then value i else screen a)
    (screen : α → β) :
    putAll screen (layers.flatMap strokes) a = (layers.reverse.find? covers).elim (screen a) value := by
  induction layers using List.reverseRecOn with
  | nil => rfl
  | append_singleton layers i ih =>
    have hlast := h i (List.mem_append_right layers List.mem_cons_self)
    rw [List.flatMap_append, putAll_append, List.flatMap_singleton, hlast, List.reverse_concat, List.find?_cons,
      ih fun i' hi' => h i' (List.mem_append_left _ hi')]
    cases covers i with
    | false => rfl
    | true => rfl

end Overlay
