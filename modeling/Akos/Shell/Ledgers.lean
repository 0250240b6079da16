import Akos.Shell.Commands
import Akos.Utils.Formats

/-!
# The blocks of a command

A command is followed by the list of the blocks in use: each operation changes one block of the list and leaves the
others, so that what holds of them is still there when the command has released the blocks that it got.
-/

namespace Akos.Shell

open Contract (Ends bind_of_read)

variable {σ α : Type} {sys : System σ} {v s : State σ} {l l' : List (Nat × List Byte)} {p q : Nat}
  {bytes block str ext : List Byte} {ok : Stop → Prop}

theorem lookup_of_mem (hnodup : (l.map Prod.fst).Nodup) (hmem : (p, bytes) ∈ l) : l.lookup p = some bytes := by
  induction l with
  | nil => exact absurd hmem List.not_mem_nil
  | cons head l ih =>
    have hnodup' := List.nodup_cons.mp hnodup
    obtain rfl | hmem' := List.mem_cons.mp hmem
    · exact List.lookup_cons_self
    · have hne : p ≠ head.1 := by
        rintro rfl
        exact hnodup'.1 (List.mem_map.mpr ⟨_, hmem', rfl⟩)
      rw [List.lookup_cons, beq_false_of_ne hne]
      exact ih hnodup'.2 hmem'

/-- The blocks in use are those of the list, and the variables are those of another state. -/
structure Owns (v s : State σ) (l : List (Nat × List Byte)) : Prop where
  perm : s.blocks.live.Perm l
  nodup : (l.map Prod.fst).Nodup
  fresh : ∀ block ∈ l, block.1 < s.blocks.next
  path : s.path = v.path
  cmdHistory : s.cmdHistory = v.cmdHistory

namespace Owns

theorem of_perm (h : Owns v s l) (hperm : l.Perm l') : Owns v s l' where
  perm := h.perm.trans hperm
  nodup := (hperm.map _).nodup_iff.mp h.nodup
  fresh block hblock := h.fresh block (hperm.mem_iff.mpr hblock)
  path := h.path
  cmdHistory := h.cmdHistory

theorem swap (h : Owns v s ((p, bytes) :: (q, block) :: l)) : Owns v s ((q, block) :: (p, bytes) :: l) :=
  h.of_perm (List.Perm.swap _ _ _)

theorem lookup (h : Owns v s l) (hmem : (p, bytes) ∈ l) : s.blocks.live.lookup p = some bytes :=
  lookup_of_mem ((h.perm.map _).nodup_iff.mpr h.nodup) (h.perm.mem_iff.mpr hmem)

theorem push (h : Owns v s l) (bytes : List Byte) : Owns v (s.push bytes) ((s.blocks.next, bytes) :: l) where
  perm := h.perm.cons _
  nodup := by
    refine List.nodup_cons.mpr ⟨fun hmem => ?_, h.nodup⟩
    obtain ⟨block, hblock, heq⟩ := List.mem_map.mp hmem
    have hlt := h.fresh block hblock
    omega
  fresh block hblock := by
    obtain rfl | hblock' := List.mem_cons.mp hblock
    · exact Nat.lt_succ_self _
    · exact (h.fresh block hblock').trans (Nat.lt_succ_self _)
  path := h.path
  cmdHistory := h.cmdHistory

end Owns

/-! ### Contracts of the operations on blocks -/

/-- The only reason for which a command may stop: there was no room when it asked for a block. -/
def NoRoom (sys : System σ) (stop : Stop) : Prop :=
  stop = .noRoom ∧ ∃ blocks world size, sys.room blocks world size = false

theorem ends_kmalloc (h : Owns v s l) (size : Nat) :
    Ends (NoRoom sys) (kmalloc sys size) s fun p s' => ∃ bytes, bytes.length = size ∧ Owns v s' ((p, bytes) :: l) := by
  by_cases hroom : sys.room s.blocks s.world size = true
  · exact .of_eq (if_pos hroom) ⟨_, by rw [List.length_map, List.length_range], h.push _⟩
  · exact .inl ⟨.noRoom, ⟨rfl, s.blocks, s.world, size, Bool.eq_false_of_not_eq_true hroom⟩, if_neg hroom⟩

theorem load_eq (h : Owns v s l) (hmem : (p, bytes) ∈ l) : load p s = .ok (bytes, s) := by
  rw [load, h.lookup hmem]

theorem ends_kfree (h : Owns v s ((p, bytes) :: l)) : Ends ok (kfree (some p)) s fun _ s' => Owns v s' l := by
  have hany : s.blocks.live.any (fun block => block.1 = p) = true :=
    List.any_eq_true.mpr ⟨(p, bytes), h.perm.mem_iff.mpr List.mem_cons_self, decide_eq_true rfl⟩
  refine .of_eq (if_pos hany) ⟨?_, (List.nodup_cons.mp h.nodup).2, fun block hblock => ?_, h.path, h.cmdHistory⟩
  · have hdistinct : s.blocks.live.Pairwise fun b c => decide (b.1 = p) = true → decide (c.1 = p) = true → False := by
      have hnodup := (h.perm.map Prod.fst).nodup_iff.mpr h.nodup
      refine (List.pairwise_map.mp hnodup).imp fun hne hb hc => hne ?_
      exact (of_decide_eq_true hb).trans (of_decide_eq_true hc).symm
    have hhead : decide ((p, bytes).1 = p) = true := decide_eq_true rfl
    rw [← @List.eraseP_cons_of_pos _ (p, bytes) l (fun block => decide (block.1 = p)) hhead]
    exact h.perm.eraseP _ hdistinct
  · exact h.fresh block (List.mem_cons_of_mem _ hblock)

theorem map_update (hnodup : (((p, block) :: l).map Prod.fst).Nodup) (bytes : List Byte) :
    ((p, block) :: l).map (fun b => if b.1 = p then (p, bytes) else b) = (p, bytes) :: l := by
  rw [List.map_cons, if_pos rfl]
  congr 1
  refine (List.map_congr_left fun b hb => if_neg ?_).trans (List.map_id l)
  rintro rfl
  exact (List.nodup_cons.mp hnodup).1 (List.mem_map.mpr ⟨b, hb, rfl⟩)

theorem store_eq {offset : Nat} (hlookup : s.blocks.live.lookup p = some block)
    (hle : offset + bytes.length ≤ block.length) :
    store p offset bytes s = .ok ((), { s with blocks := { s.blocks with live := s.blocks.live.map fun b =>
      if b.1 = p then (p, block.take offset ++ bytes ++ block.drop (offset + bytes.length)) else b } }) := by
  rw [store, hlookup]
  exact if_pos hle

theorem ends_store (h : Owns v s ((p, block) :: l)) {offset : Nat} (hle : offset + bytes.length ≤ block.length) :
    Ends ok (store p offset bytes) s fun _ s' =>
      Owns v s' ((p, block.take offset ++ bytes ++ block.drop (offset + bytes.length)) :: l) := by
  refine .of_eq (store_eq (h.lookup List.mem_cons_self) hle) ⟨?_, h.nodup, fun b hb => ?_, h.path, h.cmdHistory⟩
  · rw [← map_update h.nodup]
    exact h.perm.map _
  · obtain rfl | hb' := List.mem_cons.mp hb
    · exact h.fresh (p, block) List.mem_cons_self
    · exact h.fresh b (List.mem_cons_of_mem _ hb')

/-! ### Strings in blocks -/

/-- A string in one of the blocks, and its end. -/
def HasString (l : List (Nat × List Byte)) (p : Nat) (str : List Byte) : Prop :=
  ∃ rest, (p, str ++ 0#8 :: rest) ∈ l ∧ 0#8 ∉ str

theorem HasString.cons (h : HasString l p str) (b : Nat × List Byte) : HasString (b :: l) p str := by
  obtain ⟨rest, hmem, hend⟩ := h
  exact ⟨rest, List.mem_cons_of_mem _ hmem, hend⟩

theorem HasString.head (hend : 0#8 ∉ str) (rest : List Byte) : HasString ((p, str ++ 0#8 :: rest) :: l) p str :=
  ⟨rest, List.mem_cons_self, hend⟩

theorem stringFrom_eq (h : Owns v s l) {pre : List Byte} (hmem : (p, pre ++ str ++ 0#8 :: bytes) ∈ l)
    (hend : 0#8 ∉ str) : stringFrom p pre.length s = .ok (str, s) := by
  have hdrop : (pre ++ str ++ 0#8 :: bytes).drop pre.length = str ++ 0#8 :: bytes := by
    rw [List.append_assoc, List.drop_left]
  rw [stringFrom, bind_of_read (load_eq h hmem), hdrop, if_pos (List.mem_append_right _ List.mem_cons_self),
    cString_append_zero hend]
  rfl

theorem string_eq (h : Owns v s l) (hstr : HasString l p str) : string p s = .ok (str, s) := by
  obtain ⟨rest, hmem, hend⟩ := hstr
  exact @stringFrom_eq _ _ _ _ _ rest str h [] hmem hend

theorem ends_call (h : Owns v s l) (f : σ → α × σ) : Ends ok (call f) s fun a s' => a = (f s.world).1 ∧ Owns v s' l :=
  .of_eq rfl ⟨rfl, h.perm, h.nodup, h.fresh, h.path, h.cmdHistory⟩

theorem ends_run (h : Owns v s l) (f : σ → σ) : Ends ok (run f) s fun _ s' => Owns v s' l :=
  .of_eq rfl ⟨h.perm, h.nodup, h.fresh, h.path, h.cmdHistory⟩

/-- Bytes in the middle of a block are written over. -/
theorem ends_overwrite {pre old post : List Byte} {offset : Nat} (h : Owns v s ((p, pre ++ old ++ post) :: l))
    (hoffset : offset = pre.length) (hlength : bytes.length = old.length) :
    Ends ok (store p offset bytes) s fun _ s' => Owns v s' ((p, pre ++ bytes ++ post) :: l) := by
  subst hoffset
  refine (ends_store h ?_).mono fun _ s' hs' => ?_
  · rw [List.length_append, List.length_append]
    omega
  · have htake : (pre ++ old ++ post).take pre.length = pre := by rw [List.append_assoc, List.take_left]
    have hdrop : (pre ++ old ++ post).drop (pre.length + bytes.length) = post := by
      rw [hlength, ← List.length_append, List.drop_left]
    rwa [htake, hdrop] at hs'

theorem ends_storeFirst (h : Owns v s ((p, block) :: l)) (hle : bytes.length ≤ block.length) :
    Ends ok (store p 0 bytes) s fun _ s' => Owns v s' ((p, bytes ++ block.drop bytes.length) :: l) := by
  refine (ends_store h ((Nat.zero_add _).trans_le hle)).mono fun _ s' hs' => ?_
  rwa [List.take_zero, List.nil_append, Nat.zero_add] at hs'

theorem ends_storeLast {pre old : List Byte} {offset : Nat} (h : Owns v s ((p, pre ++ old) :: l))
    (hoffset : offset = pre.length) (hlength : bytes.length = old.length) :
    Ends ok (store p offset bytes) s fun _ s' => Owns v s' ((p, pre ++ bytes) :: l) := by
  rw [← List.append_nil (pre ++ old)] at h
  refine (ends_overwrite h hoffset hlength).mono fun _ s' hs' => ?_
  rwa [List.append_nil] at hs'

/-- A block that is filled. -/
theorem ends_fill (h : Owns v s ((p, block) :: l)) (hlength : block.length = bytes.length) :
    Ends ok (store p 0 bytes) s fun _ s' => Owns v s' ((p, bytes) :: l) := by
  refine (ends_storeFirst h hlength.ge).mono fun _ s' hs' => ?_
  rwa [List.drop_eq_nil_of_le hlength.le, List.append_nil] at hs'

theorem ends_seperateAndTake (h : Owns v s l) (seperator : Byte) (index : Nat) :
    Ends (NoRoom sys) (seperateAndTake sys str seperator index) s fun p s' =>
      Owns v s' ((p, Akos.seperateAndTake str seperator index ++ [0#8]) :: l) := by
  refine (ends_kmalloc h _).bind fun p s₁ h₁ => ?_
  obtain ⟨block, hlength, h₁⟩ := h₁
  generalize Akos.seperateAndTake str seperator index = piece at hlength ⊢
  have htake : (block.take piece.length).length = piece.length := List.length_take_of_le (by omega)
  refine (ends_store h₁ hlength.ge).bind fun _ s₂ h₂ => ?_
  rw [List.length_singleton, List.drop_eq_nil_of_le hlength.le, List.append_nil] at h₂
  refine (ends_storeFirst h₂ ?_).bind fun _ s₃ h₃ => ?_
  · rw [List.length_append, htake]
    exact Nat.le_add_right _ _
  · rw [List.drop_left' htake] at h₃
    exact Ends.pure h₃

/-- A string that is changed in its place. -/
theorem ends_changeString (h : Owns v s ((p, str ++ 0#8 :: bytes) :: l)) (hend : 0#8 ∉ str)
    {f : List Byte → List Byte} (hle : (f str).length ≤ str.length) :
    Ends ok (changeString p f) s fun _ s' => ∃ rest, Owns v s' ((p, f str ++ 0#8 :: rest) :: l) := by
  refine Ends.read (string_eq h (HasString.head hend bytes)) ?_
  refine (ends_storeFirst h ?_).mono fun _ s'' hs'' => ?_
  · simp only [List.length_append, List.length_cons, List.length_nil]
    omega
  · rw [List.append_assoc] at hs''
    exact ⟨_, hs''⟩

end Akos.Shell
