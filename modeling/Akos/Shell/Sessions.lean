import Akos.Shell.Handlers
import Mathlib.Data.List.Destutter

/-!
# Sessions

At each prompt the blocks in use are those of the path and of the commands that are remembered, whatever was entered
before and whatever the rest of the system answered. When a session ends, its blocks are released.
-/

namespace Akos.Shell

open Contract (Ends bind_of_read)
open Fat12 (FILE Flags)

variable {σ : Type} {sys : System σ} {v s : State σ} {l l' : List (Nat × List Byte)}
  {path path' cmdBuff line str : List Byte} {ok : Stop → Prop}

/-- `"a:\\"` -/
def root : List Byte := [0x61#8, 0x3A#8, backslash]

/-- The pointers to some blocks, and null pointers behind them. -/
def slots (l : List (Nat × List Byte)) : List (Option Nat) :=
  l.map (some ·.1) ++ List.replicate (cmdHistorySize - l.length) none

/-- The shell at a path, with the commands in some blocks, the newest first. -/
structure Ready (sys : System σ) (s : State σ) (l : List (Nat × List Byte)) (path : List Byte) : Prop where
  owns : ∃ rest, Owns s s ((s.path, path ++ 0#8 :: rest) :: l)
  cmdHistory : s.cmdHistory = slots l
  length : l.length ≤ cmdHistorySize
  ends : 0#8 ∉ path
  ne : path ≠ []
  /-- Every path but the first was found to be a directory. -/
  isPath : path = root ∨ ∃ w, (sys.volOpenFile path w).1.flags = .directory

/-! ### The path -/

theorem Owns.self (h : Owns v s l) : Owns s s l := ⟨h.perm, h.nodup, h.fresh, rfl, rfl⟩

theorem Ready.of_owns {rest : List Byte} (h : Ready sys v l path) {s : State σ}
    (howns : Owns v s ((v.path, path ++ 0#8 :: rest) :: l)) : Ready sys s l path where
  owns := ⟨rest, by rw [howns.path]; exact howns.self⟩
  cmdHistory := howns.cmdHistory.trans h.cmdHistory
  length := h.length
  ends := h.ends
  ne := h.ne
  isPath := h.isPath

/-- A command that leaves the variables as they are. -/
theorem Ready.keeps {α : Type} {m : Command σ α} (h : Ready sys s l path)
    (hm : ∀ l', Owns s s l' → HasString l' s.path path → Ends (NoRoom sys) m s fun _ s' => Owns s s' l') :
    Ends (NoRoom sys) m s fun _ s' => Ready sys s' l path := by
  obtain ⟨rest, howns⟩ := h.owns
  exact (hm _ howns (HasString.head h.ends rest)).mono fun _ s' h' => h.of_owns h'

theorem ends_modify (v' : State σ) {f : State σ → State σ} (h : Owns v s l) (hblocks : (f s).blocks = s.blocks)
    (hpath : (f s).path = v'.path) (hcmdHistory : (f s).cmdHistory = v'.cmdHistory) :
    Ends ok (modify f : Command σ PUnit) s fun _ s' => Owns v' s' l :=
  .of_eq rfl ⟨by rw [hblocks]; exact h.perm, h.nodup, by rw [hblocks]; exact h.fresh, hpath, hcmdHistory⟩

theorem ends_handleCd (h : Ready sys s l path) (hend : 0#8 ∉ cmdBuff) :
    Ends (NoRoom sys) (handleCd sys cmdBuff) s fun _ s' => ∃ path', Ready sys s' l path' := by
  obtain ⟨rest, howns⟩ := h.owns
  rw [handleCd]
  split
  · refine ends_pathOf howns (HasString.head h.ends rest) h.ne hend fun param newPath name s₁ rest₁ hmem hname h₁ => ?_
    refine (ends_call h₁ _).bind fun f s₂ h₂ => ?_
    obtain ⟨hf, h₂⟩ := h₂
    split
    · -- the block of the path before is released, and the new one takes its place
      rename_i hdirectory
      refine Ends.read rfl ?_
      rw [h₂.path]
      refine (ends_kfree (h₂.of_perm (@List.perm_middle _ _ [_, _] l))).bind fun _ s₄ h₄ => ?_
      refine (ends_modify { s with path := newPath } h₄ rfl rfl h₄.cmdHistory).bind fun _ s₅ h₅ => ?_
      refine (ends_run h₅ _).bind fun _ s₆ h₆ => ?_
      refine (ends_kfree h₆.swap).mono fun _ s₇ h₇ => ⟨name, ?_⟩
      exact {
        owns := ⟨[], by rw [h₇.path]; exact h₇.self⟩
        cmdHistory := h₇.cmdHistory.trans h.cmdHistory
        length := h.length
        ends := hname
        ne := List.ne_nil_of_mem hmem
        isPath := Or.inr ⟨s₁.world, hf ▸ hdirectory⟩ }
    · refine (ends_kfree h₂).bind fun _ s₃ h₃ => ?_
      refine (ends_run h₃ _).bind fun _ s₄ h₄ => ?_
      exact (ends_kfree h₄).mono fun _ s₅ h₅ => ⟨path, h.of_owns h₅⟩
  · exact Ends.pure ⟨path, h⟩

/-! ### The commands that are remembered -/

theorem ends_freeAll (h : Owns v s (l ++ l')) (k : Nat) :
    Ends ok ((l.map (fun b : Nat × List Byte => some b.1) ++ List.replicate k none).forM kfree) s
      fun _ s' => Owns v s' l' := by
  induction l generalizing s with
  | nil =>
    induction k with
    | zero => exact Ends.pure h
    | succ k ih =>
      have hnull : Ends ok (kfree none) s fun _ s' => s' = s := Ends.pure rfl
      exact hnull.bind fun _ s' heq => heq ▸ ih
  | cons b l ih => exact (ends_kfree h).bind fun _ s₁ h₁ => ih h₁

theorem ends_freePath {rest : List Byte} (h : Ready sys v l path)
    (howns : Owns v s ((v.path, path ++ 0#8 :: rest) :: (l ++ l'))) : Ends ok freePath s fun _ s' => Owns v s' l' := by
  refine Ends.read rfl ?_
  rw [howns.path, howns.cmdHistory, h.cmdHistory]
  exact (ends_kfree howns).bind fun _ s₁ h₁ => ends_freeAll h₁ _

/-- The blocks hold the commands. -/
structure Keeps (l : List (Nat × List Byte)) (cmds : List (List Byte)) : Prop where
  blocks : l.map Prod.snd = cmds.map (· ++ [0#8])
  ends : ∀ cmd ∈ cmds, 0#8 ∉ cmd

/-- A command that is not the same as the one before it is remembered, with the nine before it. When there is none it is
compared with another string. -/
def remember (cmds : List (List Byte)) (str cmd : List Byte) : List (List Byte) :=
  if cmds.headD str = cmd then cmds else (cmd :: cmds).take cmdHistorySize

/-- The pointer that falls out, and those that stay. -/
theorem slots_getLast (hlength : l.length ≤ cmdHistorySize) :
    (slots l).getLast?.join = l[cmdHistorySize - 1]?.map Prod.fst := by
  have hslots : (slots l).length = cmdHistorySize := by simp [slots, hlength]
  rw [List.getLast?_eq_getElem?, hslots, slots]
  by_cases hfull : cmdHistorySize - 1 < l.length
  · rw [List.getElem?_append_left (by rwa [List.length_map]), List.getElem?_map, List.getElem?_eq_getElem hfull]
    rfl
  · rw [List.getElem?_append_right (by rw [List.length_map]; omega), List.getElem?_replicate,
      List.getElem?_eq_none (by omega)]
    split <;> rfl

theorem slots_dropLast (hlength : l.length ≤ cmdHistorySize) (b : Nat × List Byte) :
    some b.1 :: (slots l).dropLast = slots (b :: l.take (cmdHistorySize - 1)) := by
  have hslots : (slots l).length = cmdHistorySize := by simp [slots, hlength]
  rw [List.dropLast_eq_take, hslots, slots, slots, List.take_append, List.take_replicate]
  simp only [List.length_map, List.map_cons, List.cons_append, List.length_cons, List.length_take, List.map_take]
  congr 3
  omega

theorem Keeps.take {cmds : List (List Byte)} (h : Keeps l cmds) (n : Nat) : Keeps (l.take n) (cmds.take n) where
  blocks := by rw [List.map_take, List.map_take, h.blocks]
  ends cmd hcmd := h.ends cmd (List.mem_of_mem_take hcmd)

/-- The command that was remembered last. -/
theorem newestCmd_eq {cmds : List (List Byte)} (h : Ready sys s l path) (hkeeps : Keeps l cmds) :
    newestCmd sys s = .ok (cmds.headD (sys.atNull s.world), s) := by
  obtain ⟨rest, howns⟩ := h.owns
  have hblocks := hkeeps.blocks
  have hget : (get : Command σ (State σ)) s = .ok (s, s) := rfl
  rw [newestCmd, bind_of_read hget, h.cmdHistory]
  cases l with
  | nil =>
    rw [List.map_nil, eq_comm, List.map_eq_nil_iff] at hblocks
    rw [hblocks]
    rfl
  | cons b l =>
    cases cmds with
    | nil => exact absurd hblocks (by simp)
    | cons cmd cmds =>
      rw [List.map_cons, List.map_cons, List.cons.injEq] at hblocks
      have hhead : HasString (b :: l) b.1 cmd := by
        refine ⟨[], ?_, hkeeps.ends cmd List.mem_cons_self⟩
        rw [← hblocks.1]
        exact List.mem_cons_self
      exact string_eq howns (hhead.cons _)

/-- The block that falls out of the history is released. -/
theorem ends_evict {rest : List Byte} (h : Ready sys s l path) (howns : Owns s s ((s.path, path ++ 0#8 :: rest) :: l)) :
    Ends ok (kfree s.cmdHistory.getLast?.join) s fun _ s' =>
      Owns s s' ((s.path, path ++ 0#8 :: rest) :: l.take (cmdHistorySize - 1)) := by
  rw [h.cmdHistory, slots_getLast h.length]
  have hlength := h.length
  by_cases hfull : cmdHistorySize - 1 < l.length
  · have hdrop : l.drop (cmdHistorySize - 1) = [l[cmdHistorySize - 1]] := by
      rw [List.drop_eq_getElem_cons hfull, List.drop_eq_nil_of_le (by omega)]
    have hperm : l.Perm (l[cmdHistorySize - 1] :: l.take (cmdHistorySize - 1)) := by
      have hcomm := @List.perm_append_comm _ (l.take (cmdHistorySize - 1)) (l.drop (cmdHistorySize - 1))
      rwa [List.take_append_drop, hdrop] at hcomm
    rw [List.getElem?_eq_getElem hfull]
    exact ends_kfree (howns.of_perm ((hperm.cons _).trans (List.Perm.swap _ _ _)))
  · rw [List.getElem?_eq_none (by omega), List.take_of_length_le (by omega)]
    exact Ends.pure howns

theorem ends_pushCmdToHistory {cmds : List (List Byte)} (h : Ready sys s l path) (hkeeps : Keeps l cmds)
    (hend : 0#8 ∉ line) : Ends (NoRoom sys) (pushCmdToHistory sys line) s fun _ s' =>
      ∃ l', Ready sys s' l' path ∧ Keeps l' (remember cmds (sys.atNull s.world) line) := by
  obtain ⟨rest, howns⟩ := h.owns
  refine Ends.read (newestCmd_eq h hkeeps) ?_
  refine Ends.read rfl ?_
  rw [remember]
  by_cases hsame : cmds.headD (sys.atNull s.world) = line
  · have hstrcmp : strcmp (cmds.headD (sys.atNull s.world)) line = true := decide_eq_true hsame
    rw [if_pos hstrcmp, if_pos hsame]
    exact (ends_modify s howns rfl rfl rfl).mono fun _ s₁ h₁ => ⟨l, h.of_owns h₁, hkeeps⟩
  · have hstrcmp : ¬strcmp (cmds.headD (sys.atNull s.world)) line = true := fun heq => hsame (of_decide_eq_true heq)
    rw [if_neg hstrcmp, if_neg hsame]
    refine (ends_evict h howns).bind fun _ s₁ h₁ => ?_
    refine (ends_kmalloc h₁ _).bind fun p s₂ h₂ => ?_
    obtain ⟨block, hlength, h₂⟩ := h₂
    refine (ends_fill h₂ (by rw [hlength, List.length_append, List.length_singleton])).bind fun _ s₃ h₃ => ?_
    have hslots := slots_dropLast h.length (p, line ++ [0#8])
    rw [← h.cmdHistory, ← h₃.cmdHistory] at hslots
    refine (ends_modify { s with cmdHistory := slots ((p, line ++ [0#8]) :: l.take (cmdHistorySize - 1)) }
      h₃ rfl h₃.path hslots).mono fun _ s₄ h₄ => ⟨(p, line ++ [0#8]) :: l.take (cmdHistorySize - 1), ?_, ?_⟩
    · exact {
        owns := ⟨rest, by rw [h₄.path]; exact h₄.swap.self⟩
        cmdHistory := h₄.cmdHistory
        length := Nat.succ_le_of_lt ((List.length_take_le _ l).trans_lt (by decide))
        ends := h.ends
        ne := h.ne
        isPath := h.isPath }
    · have htake := hkeeps.take (cmdHistorySize - 1)
      refine ⟨?_, fun cmd hcmd => ?_⟩
      · rw [List.map_cons, htake.blocks]
        rfl
      · obtain rfl | hcmd := List.mem_cons.mp hcmd
        · exact hend
        · exact htake.ends cmd hcmd

/-! ### A line -/

theorem not_mem_toLower (hend : 0#8 ∉ str) : 0#8 ∉ toLower str := by
  intro hmem
  obtain ⟨c, hc, hzero⟩ := List.mem_map.mp hmem
  have hne : ∀ c : Byte, c ≠ 0#8 → (if BitVec.sle 0x41#8 c && c.sle 0x5A#8 then c + 0x20#8 else c) ≠ 0#8 := by decide
  exact hne c (fun heq => hend (heq ▸ hc)) hzero

/-- What is behind the first space is shorter. -/
theorem length_argsOf {args : List Byte} (h : argsOf cmdBuff = some args) :
    args.length < cmdBuff.length ∧ args.Sublist cmdBuff := by
  have hsub := @List.dropWhile_sublist _ cmdBuff fun c => decide (c ≠ space)
  rw [argsOf] at h
  rcases hdrop : cmdBuff.dropWhile (fun c => decide (c ≠ space)) with - | ⟨c, rest⟩
  · rw [hdrop] at h
    cases h
  · rw [hdrop] at h hsub
    obtain rfl := Option.some.inj h
    exact ⟨hsub.length_le, (List.sublist_cons_self c rest).trans hsub⟩

/-- The end of a command: the shell is back, or it has stopped. One that was killed by its own command leaves the
block of the argument. -/
def Done (sys : System σ) (l : List (Nat × List Byte)) (returns : Bool) (s : State σ) : Prop :=
  (∃ path, Ready sys s l path) ∨ (returns = false ∧ ∃ param, s.blocks.live = [param])

theorem ends_handleKill (h : Ready sys s l path) (hend : 0#8 ∉ cmdBuff) :
    Ends (NoRoom sys) (handleKill sys cmdBuff) s (Done sys l) := by
  obtain ⟨rest, howns⟩ := h.owns
  rw [handleKill]
  split
  · refine (ends_takeParam howns hend).bind fun param s₁ h₁ => ?_
    obtain ⟨rest₁, h₁⟩ := h₁
    refine Ends.read (string_eq h₁ (HasString.head (not_mem_paramOf hend) rest₁)) ?_
    refine Ends.read rfl ?_
    split
    · exact (ends_kfree h₁).bind fun _ s₂ h₂ => Ends.pure (.inl ⟨path, h.of_owns h₂⟩)
    · refine (ends_run h₁ _).bind fun _ s₂ h₂ => ?_
      exact (ends_kfree h₂).bind fun _ s₃ h₃ => Ends.pure (.inl ⟨path, h.of_owns h₃⟩)
    · refine Ends.read rfl ?_
      split
      · -- the shell's own process: what is released is the path and the commands
        have howns' := h₁.of_perm (List.perm_append_singleton _ (_ :: l)).symm
        refine (ends_freePath h howns').bind fun _ s₃ h₃ => ?_
        exact Ends.pure (.inr ⟨rfl, _, h₃.perm.eq_singleton⟩)
      · refine (ends_modify s h₁ rfl h₁.path h₁.cmdHistory).bind fun _ s₃ h₃ => ?_
        exact (ends_kfree h₃).bind fun _ s₄ h₄ => Ends.pure (.inl ⟨path, h.of_owns h₄⟩)
  · exact Ends.pure (.inl ⟨path, h⟩)

/-- A handler that is called when the block of the command is released. -/
theorem ends_dispatch {cmd : Nat} {block rest : List Byte} {m : Command σ Unit} (h : Ready sys v l path)
    (howns : Owns v s ((cmd, block) :: (v.path, path ++ 0#8 :: rest) :: l))
    (hm : ∀ s', Ready sys s' l path → Ends (NoRoom sys) m s' fun _ s'' => ∃ path', Ready sys s'' l path') :
    Ends (NoRoom sys) (do kfree (some cmd); m; return true) s (Done sys l) := by
  refine (ends_kfree howns).bind fun _ s₁ h₁ => ?_
  exact (hm s₁ (h.of_owns h₁)).bind fun _ s₂ h₂ => Ends.pure (.inl h₂)

/-- A handler that leaves everything as it is. -/
theorem ends_dispatch_keeps {cmd : Nat} {block rest : List Byte} {m : Command σ Unit} (h : Ready sys v l path)
    (howns : Owns v s ((cmd, block) :: (v.path, path ++ 0#8 :: rest) :: l))
    (hm : ∀ s' l', Owns s' s' l' → HasString l' s'.path path → Ends (NoRoom sys) m s' fun _ s'' => Owns s' s'' l') :
    Ends (NoRoom sys) (do kfree (some cmd); m; return true) s (Done sys l) :=
  ends_dispatch h howns fun s' h' => (h'.keeps (hm s')).mono fun _ _ h'' => ⟨path, h''⟩

theorem ends_handleCommand (h : Ready sys s l path) {depth : Nat} (hend : 0#8 ∉ line) (hdepth : line.length < depth) :
    Ends (NoRoom sys) (handleCommand sys depth line) s (Done sys l) := by
  induction depth generalizing s path line with
  | zero => exact absurd hdepth (Nat.not_lt_zero _)
  | succ depth ih =>
    obtain ⟨rest, howns⟩ := h.owns
    have hsub : (stripEnd (stripStart line)).Sublist line := (stripEnd_sublist _).trans (stripStart_sublist line)
    have hcmdBuff : 0#8 ∉ stripEnd (stripStart line) := fun hmem => hend (hsub.subset hmem)
    rw [handleCommand]
    dsimp only
    generalize stripEnd (stripStart line) = cmdBuff at hsub hcmdBuff
    have hpiece := not_mem_piece hcmdBuff space 0
    refine (ends_seperateAndTake howns space 0).bind fun cmd s₁ h₁ => ?_
    refine (ends_changeString h₁ hpiece (List.length_map _).le).bind fun _ s₂ h₂ => ?_
    obtain ⟨rest₂, h₂⟩ := h₂
    have hname := not_mem_toLower hpiece
    refine Ends.read (string_eq h₂ (HasString.head hname rest₂)) ?_
    have hback : ∀ returns, Ends (NoRoom sys) (do kfree (some cmd); return returns) s₂ (Done sys l) := fun returns =>
      (ends_kfree h₂).bind fun _ s₃ h₃ => Ends.pure (.inl ⟨path, h.of_owns h₃⟩)
    have hrun : ∀ f, Ends (NoRoom sys) (do kfree (some cmd); run f; return true) s₂ (Done sys l) := fun f =>
      ends_dispatch_keeps h h₂ fun _ _ h' _ => ends_run h' f
    refine Ends.ite (fun _ => ends_dispatch_keeps h h₂ fun _ _ h' _ => ends_handleHelp h' hcmdBuff) fun _ => ?_
    refine Ends.ite (fun _ => hback false) fun _ => ?_
    refine Ends.ite (fun _ => hback false) fun _ => ?_
    refine Ends.ite (fun _ => ends_dispatch_keeps h h₂ fun _ _ h' hpath => ends_handleLs h' hpath) fun _ => ?_
    refine Ends.ite (fun _ => ends_dispatch h h₂ fun _ h' => ends_handleCd h' hcmdBuff) fun _ => ?_
    refine Ends.ite (fun _ => ends_dispatch_keeps h h₂ fun _ _ h' hpath =>
      ends_createIn h' hpath h.ne hcmdBuff .directory) fun _ => ?_
    refine Ends.ite (fun _ => ends_dispatch_keeps h h₂ fun _ _ h' hpath =>
      ends_createIn h' hpath h.ne hcmdBuff .file) fun _ => ?_
    refine Ends.ite (fun _ => hrun sys.clearViewport) fun _ => ?_
    refine Ends.ite (fun _ => hback true) fun _ => ?_
    refine Ends.ite (fun _ => ends_dispatch_keeps h h₂ fun _ _ h' hpath =>
      ends_handleSize h' hpath h.ne hcmdBuff) fun _ => ?_
    refine Ends.ite (fun _ => hrun sys.printStats) fun _ => ?_
    refine Ends.ite (fun _ => ends_dispatch_keeps h h₂ fun _ _ h' hpath =>
      ends_handleExec h' hpath h.ne hcmdBuff) fun _ => ?_
    refine Ends.ite (fun _ => ends_dispatch_keeps h h₂ fun _ _ h' hpath =>
      ends_handleExecbg h' hpath h.ne hcmdBuff) fun _ => ?_
    refine Ends.ite (fun _ => hrun sys.printProcesses) fun _ => ?_
    refine Ends.ite (fun _ => ends_dispatch_keeps h h₂ fun _ _ h' hpath =>
      ends_handleImg h' hpath h.ne hcmdBuff) fun _ => ?_
    refine Ends.ite (fun _ => (ends_kfree h₂).bind fun _ s₃ h₃ => ends_handleKill (h.of_owns h₃) hcmdBuff) fun _ => ?_
    refine Ends.ite (fun _ => ?_) fun _ => ?_
    · refine (ends_kfree h₂).bind fun _ s₃ h₃ => ?_
      refine (ends_call h₃ _).bind fun ticks s₄ h₄ => ?_
      split
      · exact Ends.pure (.inl ⟨path, h.of_owns h₄.2⟩)
      · rename_i realCmd hargs
        have hargs := length_argsOf hargs
        have hlength := hsub.length_le
        have hreal : 0#8 ∉ realCmd := fun hmem => hcmdBuff (hargs.2.subset hmem)
        refine (ih (h.of_owns h₄.2) hreal (by omega)).bind fun returns s₅ h₅ => ?_
        cases returns with
        | false =>
          rw [if_neg Bool.false_ne_true]
          exact Ends.pure h₅
        | true =>
          rw [if_pos rfl]
          obtain ⟨path', h₅⟩ | ⟨hfalse, -⟩ := h₅
          · refine (h₅.keeps fun _ h' _ => (ends_call h' sys.getTicks).mono fun _ _ hc => hc.2).bind fun now s₆ h₆ => ?_
            refine (h₆.keeps fun _ h' _ => ends_run h' _).bind fun _ s₇ h₇ => ?_
            exact Ends.pure (.inl ⟨path', h₇⟩)
          · cases hfalse
    · exact (ends_unknownCommand h₂ hname).bind fun _ s₃ h₃ => Ends.pure (.inl ⟨path, h.of_owns h₃⟩)

/-! ### The prompt -/

/-- A string that is no longer than what it is compared with ends before that. -/
theorem memcmp_eq_some {cs : List Byte} (hcs : 0#8 ∉ cs) (str rest : List Byte) :
    ∃ same, memcmp (str ++ 0#8 :: rest) cs = some same := by
  induction cs generalizing str with
  | nil => cases str <;> exact ⟨true, rfl⟩
  | cons c cs ih =>
    have hne : 0#8 ≠ c := fun heq => hcs (heq ▸ List.mem_cons_self)
    cases str with
    | nil => exact ⟨false, if_pos hne⟩
    | cons b str =>
      obtain ⟨same, hsame⟩ := ih (fun hmem => hcs (List.mem_cons_of_mem c hmem)) str
      by_cases hb : b ≠ c
      · exact ⟨false, if_pos hb⟩
      · exact ⟨same, (if_neg hb).trans hsame⟩

theorem ends_prompt (h : Ready sys s l path) : Ends (NoRoom sys) (prompt sys) s fun _ s' => Ready sys s' l path := by
  refine h.keeps fun l' h' hpath => ?_
  obtain ⟨rest, hmem, hend⟩ := hpath
  refine Ends.read rfl ?_
  refine Ends.read (load_eq h' hmem) ?_
  have hcs : 0#8 ∉ [0x61#8, 0x3A#8, backslash, 0x68#8, 0x6F#8, 0x6D#8, 0x65#8] := by decide
  obtain ⟨home, hhome⟩ := memcmp_eq_some hcs path rest
  rw [hhome]
  cases home with
  | true => exact ends_run h' _
  | false =>
    refine Ends.read (string_eq h' ⟨rest, hmem, hend⟩) ?_
    exact ends_run h' _

theorem ends_round {cmds : List (List Byte)} (h : Ready sys s l path) (hkeeps : Keeps l cmds) (hend : 0#8 ∉ line) :
    Ends (NoRoom sys) (round sys line) s fun returns s' =>
      ∃ w l', Keeps l' (remember cmds (sys.atNull w) line) ∧ Done sys l' returns s' := by
  refine (ends_prompt h).bind fun _ s₁ h₁ => ?_
  refine (ends_pushCmdToHistory h₁ hkeeps hend).bind fun _ s₂ h₂ => ?_
  obtain ⟨l', h₂, hkeeps'⟩ := h₂
  exact (ends_handleCommand h₂ hend (Nat.lt_succ_self _)).mono fun _ _ hdone => ⟨_, l', hkeeps', hdone⟩

/-! ### Whole sessions -/

/-- The shell at a prompt, with the commands that it remembers. -/
def AtPrompt (sys : System σ) (s : State σ) (cmds : List (List Byte)) : Prop :=
  ∃ l path, Ready sys s l path ∧ Keeps l cmds

/-- The commands that are remembered behind some lines, whatever is at address 0 at each of them. -/
inductive Remembers (sys : System σ) : List (List Byte) → List (List Byte) → List (List Byte) → Prop
  | nil (cmds : List (List Byte)) : Remembers sys cmds [] cmds
  | cons {cmds lines cmds' : List (List Byte)} {line : List Byte} (w : σ)
      (h : Remembers sys (remember cmds (sys.atNull w) line) lines cmds') : Remembers sys cmds (line :: lines) cmds'

/-- What holds when a session stands: it is at a prompt behind some of the lines, which are all of them if it was not
stopped, or it was killed by its own command. -/
def Stands (sys : System σ) (cmds lines : List (List Byte)) (returns : Bool) (s : State σ) : Prop :=
  (∃ n ≤ lines.length, (returns = true → n = lines.length) ∧
      ∃ cmds', Remembers sys cmds (lines.take n) cmds' ∧ AtPrompt sys s cmds') ∨
    (returns = false ∧ ∃ param, s.blocks.live = [param])

theorem ends_rounds {cmds lines : List (List Byte)} (h : Ready sys s l path) (hkeeps : Keeps l cmds)
    (hlines : ∀ line ∈ lines, 0#8 ∉ line) : Ends (NoRoom sys) (rounds sys lines) s (Stands sys cmds lines) := by
  induction lines generalizing s l path cmds with
  | nil => exact Ends.pure (.inl ⟨0, le_rfl, fun _ => rfl, cmds, .nil cmds, l, path, h, hkeeps⟩)
  | cons line lines ih =>
    refine (ends_round h hkeeps (hlines line List.mem_cons_self)).bind fun returns s₁ h₁ => ?_
    obtain ⟨w, l', hkeeps', hdone⟩ := h₁
    cases returns with
    | false =>
      rw [if_neg Bool.false_ne_true]
      refine Ends.pure ?_
      obtain ⟨path', h'⟩ | hkilled := hdone
      · have hle : 1 ≤ (line :: lines).length := Nat.succ_le_succ (Nat.zero_le _)
        exact .inl ⟨1, hle, fun heq => absurd heq Bool.false_ne_true, _, .cons w (.nil _), l', path', h', hkeeps'⟩
      · exact .inr hkilled
    | true =>
      rw [if_pos rfl]
      obtain ⟨path', h'⟩ | ⟨hfalse, -⟩ := hdone
      · have hlines' : ∀ line' ∈ lines, 0#8 ∉ line' := fun line' hline' => hlines line' (List.mem_cons_of_mem _ hline')
        refine (ih h' hkeeps' hlines').mono fun returns s₂ h₂ => ?_
        obtain ⟨n, hle, hall, cmds', hremembers, hprompt⟩ | hkilled := h₂
        · have hall' : returns = true → n + 1 = (line :: lines).length := fun heq => congrArg (· + 1) (hall heq)
          exact .inl ⟨n + 1, Nat.succ_le_succ hle, hall', cmds', .cons w hremembers, hprompt⟩
        · exact .inr hkilled
      · cases hfalse

theorem ends_start (h : s.blocks.live = []) :
    Ends (NoRoom sys) (start sys) s fun _ s' => ∃ path, Ready sys s' [] path := by
  have howns : Owns s s [] := ⟨by rw [h], List.nodup_nil, fun _ hmem => absurd hmem List.not_mem_nil, rfl, rfl⟩
  refine (ends_modify { s with cmdHistory := slots [] } howns rfl rfl rfl).bind fun _ s₁ h₁ => ?_
  refine (ends_kmalloc h₁ _).bind fun p s₂ h₂ => ?_
  obtain ⟨block, hlength, h₂⟩ := h₂
  refine (ends_modify { s with cmdHistory := slots [], path := p } h₂ rfl rfl h₂.cmdHistory).bind
    fun _ s₃ h₃ => ?_
  have hroot : block.length = [0x61#8, 0x3A#8, backslash, 0#8].length := hlength
  refine (ends_fill h₃ hroot).bind fun _ s₄ h₄ => ?_
  have hready : Ready sys s₄ [] root := {
    owns := ⟨[], by rw [h₄.path]; exact h₄.self⟩
    cmdHistory := h₄.cmdHistory
    length := Nat.zero_le _
    ends := by decide
    ne := List.cons_ne_nil _ _
    isPath := Or.inl rfl }
  exact ends_handleCd hready (by decide)

/-- The newest ten of the lines, where a line that is the same as the one before it is left out. -/
def remembered (lines : List (List Byte)) : List (List Byte) :=
  (lines.destutter (· ≠ ·)).reverse.take cmdHistorySize

/-- The lines in front that are not remembered: each is the string that was at address 0, and the one behind them is
not. -/
def Skipped (sys : System σ) (lines : List (List Byte)) (k : Nat) : Prop :=
  (∀ line ∈ lines.take k, ∃ w, sys.atNull w = line) ∧ ∀ line ∈ lines[k]?, ∃ w, sys.atNull w ≠ line

theorem destutter'_eq_cons (lines : List (List Byte)) (cmd : List Byte) :
    ∃ rest, lines.destutter' (· ≠ ·) cmd = cmd :: rest := by
  induction lines with
  | nil => exact ⟨[], rfl⟩
  | cons line lines ih =>
    by_cases hne : cmd ≠ line
    · exact ⟨_, List.destutter'_cons_pos _ hne⟩
    · rw [List.destutter'_cons_neg _ hne]
      exact ih

theorem eq_of_remembers {cmd : List Byte} {all lines cmds : List (List Byte)}
    (h : Remembers sys ((cmd :: all).take cmdHistorySize) lines cmds) :
    cmds = ((lines.destutter' (· ≠ ·) cmd).tail.reverse ++ cmd :: all).take cmdHistorySize := by
  induction lines generalizing cmd all with
  | nil =>
    cases h
    rfl
  | cons line lines ih =>
    cases h with
    | cons w h =>
      have hhead : ((cmd :: all).take cmdHistorySize).headD (sys.atNull w) = cmd := rfl
      rw [remember, hhead] at h
      by_cases hsame : cmd = line
      · rw [if_pos hsame] at h
        rw [ih h, List.destutter'_cons_neg _ (not_not_intro hsame)]
      · have htake : (line :: (cmd :: all).take cmdHistorySize).take cmdHistorySize =
            (line :: cmd :: all).take cmdHistorySize := by
          simp [List.take_take]
        obtain ⟨rest, hrest⟩ := destutter'_eq_cons lines line
        rw [if_neg hsame, htake] at h
        rw [ih h, List.destutter'_cons_pos _ hsame, hrest, List.tail_cons, List.tail_cons, List.reverse_cons,
          List.append_assoc, List.singleton_append]

theorem exists_skipped {lines cmds : List (List Byte)} (h : Remembers sys [] lines cmds) :
    ∃ k, Skipped sys lines k ∧ cmds = remembered (lines.drop k) := by
  induction lines with
  | nil =>
    cases h
    exact ⟨0, ⟨fun line hmem => absurd hmem List.not_mem_nil, fun line hmem => absurd hmem (by simp)⟩, rfl⟩
  | cons line lines ih =>
    cases h with
    | cons w h =>
      rw [remember, List.headD_nil] at h
      by_cases hsame : sys.atNull w = line
      · rw [if_pos hsame] at h
        obtain ⟨k, ⟨hskipped, hnext⟩, hcmds⟩ := ih h
        refine ⟨k + 1, ⟨fun line' hmem => ?_, hnext⟩, hcmds⟩
        obtain rfl | hmem' := List.mem_cons.mp hmem
        · exact ⟨w, hsame⟩
        · exact hskipped line' hmem'
      · rw [if_neg hsame] at h
        have hcmds := eq_of_remembers h
        obtain ⟨rest, hrest⟩ := destutter'_eq_cons lines line
        refine ⟨0, ⟨fun line' hmem => absurd hmem List.not_mem_nil, fun line' hmem => ⟨w, ?_⟩⟩, ?_⟩
        · rwa [← Option.some.inj hmem]
        · rw [hcmds, List.drop_zero, remembered, List.destutter_cons', hrest, List.tail_cons, List.reverse_cons]

/-- A system with one directory, in which nothing else happens. -/
def quiet : System Unit where
  room _ _ _ := true
  junk _ _ := 0#8
  atNull _ := [0x53#8, 0xFF#8]
  print _ world := world
  printf _ _ world := world
  volOpenFile _ world := (⟨[], .directory, 0#32, 0#32, false, 0#32, 0#32, 0, 0#32, 0#16, 0#16, 0⟩, world)
  volCloseFile _ world := world
  volCreateFile _ _ _ world := world
  volOpenDir _ world := ([], world)
  createProcess _ _ world := (0#32, world)
  waitForProcessToFinish _ world := world
  getProcessByID _ _ := none
  terminateProcessById _ world := world
  terminateKernelProcessById _ world := some world
  getTicks world := (0#32, world)
  clearViewport world := world
  printStats world := world
  printProcesses world := world
  gfxOpenBmp16 _ world := world

end Akos.Shell
